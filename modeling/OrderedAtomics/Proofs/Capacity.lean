import OrderedAtomics.Proofs.Inventory
import OrderedAtomics.Proofs.Queue.Bounded
import OrderedAtomics.Proofs.Queue.Fifo
import OrderedAtomics.Proofs.Stack.Bounded
import OrderedAtomics.Proofs.Stack.Lifo

/-! Containers of a fixed size keep to it, for any number of threads. What is in a queue or a stack,
what calls have taken from the pool and not yet put in, what they have taken out and not yet given
back, and what is free comes to the same number at every moment. -/

namespace OrderedAtomics

variable {α : Type}

/-! ### Queues -/

namespace Queue

def Point.stage : Point α → Stage
  | .allocate _ => .asking
  | .write .. | .loadOwn _ | .clearOwn .. | .readTail _ | .readNext .. | .recheckTail .. | .link ..
  | .swing .. | .help .. => .adding
  | .takeHead | .takeTail _ | .takeNext .. | .recheckHead .. | .helpTail .. | .copy ..
  | .swapHead .. | .release .. => .removing
  | .lookHead | .lookNext _ => .looking

/-- The value that a call has at a point. -/
def carries (q : Queue α) : Point α → Option α
  | .allocate v | .write _ v => some v
  | .loadOwn node | .clearOwn node _ | .readTail node | .readNext node _ | .recheckTail node _ _
  | .link node _ _ | .help node _ _ => q.data node
  | .release _ data => data
  | _ => none

variable (α) in
def inventory : Inventory α (Node α) (Queue α) (Call α) (Point α) (Reply α) where
  pool q := q.pool
  dummies q := [q.head.pointer]
  spare := 1
  Chain q nodes vs :=
    Path q.link (q.link q.head.pointer) nodes none ∧ nodes.map q.data = vs.map some
  stage := Point.stage
  kept := Point.kept
  carries := carries
  adds
    | .enqueue v => some v
    | _ => none
  removes
    | .dequeue => true
    | _ => false
  accepts
    | .accepted => true
    | _ => false
  refused
    | .rejected v => some v
    | _ => none
  taken
    | .item v => some v
    | _ => none

variable {q q' : Queue α} {point : Point α} {next : Point α ⊕ Reply α} {spurious : Bool}

theorem handled_setNext (removing : Prop) (q : Queue α) (i : Nat) (n : Link) :
    q.pool.Handled removing (q.setNext i n).pool :=
  show q.pool.Handled removing (q.pool.modifyNode i fun node => ⟨n, node.data⟩) from .writes i _

theorem handled_setData (removing : Prop) (q : Queue α) (i : Nat) (v : α) :
    q.pool.Handled removing (q.setData i v).pool :=
  show q.pool.Handled removing (q.pool.modifyNode i fun node => ⟨node.next, some v⟩) from
    .writes i _

theorem moves (e : step spurious q point = (q', next)) : (inventory α).Moves q q' point next := by
  cases point with
  | allocate v =>
    rcases ht : q.pool.take with ⟨_ | node, pool⟩
    · simp only [step, take, ht] at e
      cases e
      obtain rfl := (Pool.take_eq_none ht).1
      exact .refuses rfl ht rfl rfl rfl rfl
    · simp only [step, take, ht] at e
      cases e
      exact .takes rfl ht rfl
  | write node v =>
    cases e
    exact .goes (by rintro ⟨⟩) rfl (handled_setData _ q node v)
  | clearOwn node link =>
    cases e
    exact .goes (by rintro ⟨⟩) rfl (handled_setNext _ q node _)
  | recheckTail node tail next =>
    simp only [step] at e
    split at e
    · split at e <;> cases e <;> exact .goes (by rintro ⟨⟩) rfl .same
    · cases e
      exact .goes (by rintro ⟨⟩) rfl .same
  | link node tail next =>
    rcases swap_cases e with ⟨-, e⟩ | e
    · cases e
      exact .goes (by rintro ⟨⟩) rfl (handled_setNext _ q tail.pointer _)
    · cases e
      exact .goes (by rintro ⟨⟩) rfl .same
  | swing node tail =>
    cases e
    exact .ends (by rintro ⟨⟩) rfl rfl .same
  | recheckHead head tail next =>
    simp only [step] at e
    split at e
    · split at e <;> split at e <;> cases e <;>
        first
        | exact .ends (by rintro ⟨⟩) rfl rfl .same
        | exact .goes (by rintro ⟨⟩) rfl .same
    · cases e
      exact .goes (by rintro ⟨⟩) rfl .same
  | swapHead head next data =>
    rcases swap_cases e with ⟨-, e⟩ | e <;> cases e <;> exact .goes (by rintro ⟨⟩) rfl .same
  | release node data =>
    cases e
    cases data <;> exact .ends (by rintro ⟨⟩) rfl rfl (.gives rfl node)
  | lookNext head =>
    cases e
    exact .ends (by rintro ⟨⟩) rfl rfl .same
  | _ =>
    cases e
    exact .goes (by rintro ⟨⟩) rfl .same

/-- An enqueue has the value that it was called with. -/
theorem Offers.carried {φ : Phase (Call α) (Reply α)} {node : Nat} (h : Offers q φ node) :
    (inventory α).traffic.carried φ = (q.data node).toList := by
  obtain ⟨v, shown, rfl, hv⟩ := h
  rw [hv]
  rfl

theorem Dequeues.carried {φ : Phase (Call α) (Reply α)} (h : Dequeues φ) :
    (inventory α).traffic.carried φ = 0 := by
  obtain ⟨shown, rfl⟩ := h
  rfl

theorem carried {age : Cell → Nat} {φ : Phase (Call α) (Reply α)} (h : Knows q age φ point) :
    (inventory α).traffic.carried φ = (carries q point).toList := by
  cases point with
  | allocate v | write node v =>
    obtain ⟨shown, rfl⟩ := h
    rfl
  | loadOwn node => exact Offers.carried h
  | clearOwn | readTail | readNext | recheckTail | link | help => exact h.1.carried
  | swing node tail =>
    obtain ⟨rfl, -⟩ := h
    rfl
  | takeHead => exact Dequeues.carried h
  | takeTail | takeNext | recheckHead | helpTail | copy | swapHead => exact h.1.carried
  | release node data =>
    obtain ⟨v, rfl, rfl⟩ := h
    rfl
  | lookHead | lookNext head =>
    obtain ⟨shown, rfl⟩ := h
    rfl

theorem fits : (inventory α).Fits (discipline α) where
  keeps _ _ := rfl
  few point stage := by cases point <;> first | rfl | (rcases stage with h | h <;> cases h)
  spares _ := rfl
  shared h := by
    obtain ⟨chain, free, h⟩ := h
    have length := h.length_eq
    obtain ⟨nodes, rfl, path⟩ := h.chain_eq
    exact ⟨nodes, free, ⟨path, h.data⟩, Nat.succ.inj length, h.stocked⟩
  carried h := carried h
  waits {s age φ own point} asking h := by
    cases point <;> cases asking
    obtain ⟨shown, rfl⟩ := h
    exact ⟨_, shown, rfl, rfl⟩
  conserves vs c r vs' h := by
    cases h with
    | @enqueues v =>
      show (vs : Multiset α) + {v} = 0 + ↑(vs ++ [v])
      rw [zero_add, ← Multiset.coe_add]
      rfl
    | refuses => exact add_comm _ _
    | dequeues => exact add_zero _
    | misses => rfl
    | looks => exact add_comm _ _
  enters {own c own' point} e := by
    cases c <;> cases e <;> rfl
  moves e := by
    cases e
    exact moves rfl

end Queue

/-! ### Stacks -/

namespace Stack

def Point.stage : Point α → Stage
  | .allocate _ => .asking
  | .write .. | .loadTop _ | .storeNext .. | .swapForPush .. => .adding
  | .takeTop | .takeNext .. | .swapForPop .. | .read _ | .release .. => .removing
  | .lookTop | .reserve _ => .looking

/-- The value that a call has at a point. -/
def carries (s : Stack α) : Point α → Option α
  | .allocate v | .write _ v => some v
  | .loadTop node | .storeNext node _ | .swapForPush node _ | .read node => s.data node
  | .release _ data => data
  | _ => none

variable (α) in
def inventory : Inventory α (Node α) (Stack α) (Call α) (Point α) (Reply α) where
  pool s := s.pool
  dummies _ := []
  spare := 0
  Chain s nodes vs := Path s.next s.top.pointer nodes none ∧ nodes.map s.data = vs.map some
  stage := Point.stage
  kept := Point.kept
  carries := carries
  adds
    | .push v => some v
    | _ => none
  removes
    | .pop => true
    | _ => false
  accepts
    | .accepted => true
    | _ => false
  refused
    | .rejected v => some v
    | _ => none
  taken
    | .item v => some v
    | _ => none

variable {s s' : Stack α} {point : Point α} {next : Point α ⊕ Reply α} {spurious : Bool}

theorem handled_setNext (removing : Prop) (s : Stack α) (i : Nat) (n : Option Nat) :
    s.pool.Handled removing (s.setNext i n).pool :=
  show s.pool.Handled removing (s.pool.modifyNode i fun node => ⟨n, node.data⟩) from .writes i _

theorem handled_setData (removing : Prop) (s : Stack α) (i : Nat) (v : α) :
    s.pool.Handled removing (s.setData i v).pool :=
  show s.pool.Handled removing (s.pool.modifyNode i fun node => ⟨node.next, some v⟩) from
    .writes i _

/-- A look at the top in order to pop. -/
theorem moves_popAt (removing : point.stage = .removing) (top : Link) :
    (inventory α).Moves s s point (popAt top) := by
  have past : point.stage ≠ .asking := by
    rw [removing]
    decide
  rcases ht : top.pointer with _ | node
  · simp only [popAt, ht]
    refine .ends past rfl ?_ .same
    show false = decide (point.stage = .adding)
    rw [removing]
    rfl
  · simp only [popAt, ht]
    exact .goes past removing.symm .same

theorem moves (e : step spurious s point = (s', next)) : (inventory α).Moves s s' point next := by
  cases point with
  | allocate v =>
    rcases ht : s.pool.take with ⟨_ | node, pool⟩
    · simp only [step, take, ht] at e
      cases e
      obtain rfl := (Pool.take_eq_none ht).1
      exact .refuses rfl ht rfl rfl rfl rfl
    · simp only [step, take, ht] at e
      cases e
      exact .takes rfl ht rfl
  | write node v =>
    cases e
    exact .goes (by rintro ⟨⟩) rfl (handled_setData _ s node v)
  | loadTop node =>
    cases e
    exact .goes (by rintro ⟨⟩) rfl .same
  | storeNext node top =>
    cases e
    exact .goes (by rintro ⟨⟩) rfl (handled_setNext _ s node _)
  | swapForPush node top =>
    rcases swap_cases e with ⟨-, e⟩ | e
    · cases e
      exact .ends (by rintro ⟨⟩) rfl rfl .same
    · cases e
      exact .goes (by rintro ⟨⟩) rfl .same
  | takeTop =>
    cases e
    exact moves_popAt rfl s.top
  | swapForPop top node next =>
    rcases swap_cases e with ⟨-, e⟩ | e
    · cases e
      exact .goes (by rintro ⟨⟩) rfl .same
    · cases e
      exact moves_popAt rfl s.top
  | release node data =>
    cases e
    cases data <;> exact .ends (by rintro ⟨⟩) rfl rfl (.gives rfl node)
  | lookTop =>
    cases e
    exact .ends (by rintro ⟨⟩) rfl rfl .same
  | reserve n =>
    cases e
    exact .ends (by rintro ⟨⟩) rfl rfl (.reserves n)
  | takeNext | read =>
    cases e
    exact .goes (by rintro ⟨⟩) rfl .same

/-- A push has the value that it was called with. -/
theorem Offers.carried {φ : Phase (Call α) (Reply α)} {node : Nat} (h : Offers s φ node) :
    (inventory α).traffic.carried φ = (s.data node).toList := by
  obtain ⟨v, shown, rfl, hv⟩ := h
  rw [hv]
  rfl

theorem carried {age : Unit → Nat} {φ : Phase (Call α) (Reply α)} (h : Knows s age φ point) :
    (inventory α).traffic.carried φ = (carries s point).toList := by
  cases point with
  | allocate v | write node v =>
    obtain ⟨shown, rfl⟩ := h
    rfl
  | loadTop | storeNext => exact Offers.carried h
  | swapForPush node top => exact h.1.carried
  | takeTop =>
    obtain ⟨shown, rfl⟩ := h
    rfl
  | takeNext | swapForPop =>
    obtain ⟨⟨shown, rfl⟩, -⟩ := h
    rfl
  | read node =>
    obtain ⟨v, rfl, hv⟩ := h
    rw [carries, hv]
    rfl
  | release node data =>
    obtain ⟨v, rfl, rfl⟩ := h
    rfl
  | lookTop | reserve n =>
    obtain ⟨shown, rfl⟩ := h
    rfl

theorem fits : (inventory α).Fits (discipline α) where
  keeps _ _ := rfl
  few point stage := by cases point <;> first | rfl | (rcases stage with h | h <;> cases h)
  spares _ := rfl
  shared h := by
    obtain ⟨nodes, free, h⟩ := h
    have length := congrArg List.length h.data
    rw [List.length_map, List.length_map] at length
    exact ⟨nodes, free, ⟨h.path, h.data⟩, length, h.stocked⟩
  carried h := carried h
  waits {s age φ own point} asking h := by
    cases point <;> cases asking
    obtain ⟨shown, rfl⟩ := h
    exact ⟨_, shown, rfl, rfl⟩
  conserves vs c r vs' h := by
    cases h with
    | @pushes v =>
      show (vs : Multiset α) + {v} = 0 + ↑(v :: vs)
      rw [zero_add, ← Multiset.cons_coe, ← Multiset.singleton_add, add_comm]
    | pops => exact add_zero _
    | misses => rfl
    | refuses => exact add_comm _ _
    | looks => exact add_comm _ _
    | reserves => exact add_comm _ _
  enters {own c own' point} e := by
    cases c <;> cases e <;> rfl
  moves e := by
    cases e
    exact moves rfl

end Stack

/-! ### Runs -/

/-- A queue and a stack that were made for `n` elements and cannot grow keep to it, whatever threads
do with them and in whatever order they make their steps. -/
theorem static_containers_keep_capacity (n threads : Nat) :
    (∀ (value : Footprint) (q : Queue α), Queue.create .static n value = .ok q → ∀ as,
      (Queue.inventory α).Keeps Queue.protocol (Queue.watch α) n
        (Observed.start q (List.replicate threads ())) as) ∧
    ∀ (value : Footprint) (s : Stack α), Stack.create .static n value = .ok s → ∀ as,
      (Stack.inventory α).Keeps Stack.protocol (Stack.watch α) n
        (Observed.start s (List.replicate threads ())) as := by
  refine ⟨fun value q made as => ?_, fun value s made as => ?_⟩
  · obtain ⟨chain, free, settled⟩ := Queue.settled_create made
    exact Queue.fits.keeps_capacity threads ⟨chain, free, settled.chained⟩ settled.sized as
  · have settled := Stack.settled_create made
    exact Stack.fits.keeps_capacity threads ⟨[], _, settled.chained⟩ settled.sized as

/-- One thread adds an element, and another one takes it and has not given the node back yet when
the first one wants to add another. -/
def inTransit : List (Action (Queue.Call Nat)) :=
  .call 0 (.enqueue 10) :: List.replicate 9 (.step 0 false) ++
    .call 1 .dequeue :: List.replicate 6 (.step 1 false) ++ [.call 0 (.enqueue 20)]

/-- Three threads add an element each. -/
def atOnce : List (Action (Stack.Call Nat)) :=
  [.call 0 (.push 10), .call 1 (.push 20), .call 2 (.push 30), .step 0 false, .step 2 false,
    .step 1 false] ++ List.replicate 4 (.step 2 false) ++ List.replicate 5 (.step 0 false)

/-- A queue for one element refuses another one while it has none, and a stack for two elements
takes two of three. -/
theorem static_containers_keep_capacity_in_transit :
    (∃ q : Queue Nat, Queue.create .static 1 = .ok q ∧
      let w := World.run Queue.protocol inTransit (World.start q [(), ()])
      (World.act Queue.protocol (.step 0 false) w).history =
          .answered 0 (.rejected 20) :: w.history ∧
        ∃ nodes vs, (Queue.inventory Nat).Accounted 1 w nodes vs ∧
          (Queue.inventory Nat).Refused Queue.protocol 1 w vs (.step 0 false) 0 20) ∧
    ∃ s : Stack Nat, Stack.create .static 2 = .ok s ∧
      let w := World.run Stack.protocol atOnce (World.start s [(), (), ()])
      (Stack.inventory Nat).asked w.history = 3 ∧ (Stack.inventory Nat).accepted w.history = 2 := by
  refine ⟨⟨_, rfl, by decide +kernel, ?_⟩, ⟨_, rfl, by decide +kernel, ?_⟩⟩
  · obtain ⟨nodes, vs, accounted, refused⟩ :=
      ((static_containers_keep_capacity 1 2).1 .text _ rfl inTransit).accounted (by decide +kernel)
    exact ⟨nodes, vs, accounted, refused _ 0 (.rejected 20) 20 (by decide +kernel) rfl⟩
  · have keeps : ∀ i c, .call i c ∈ atOnce → (Stack.inventory Nat).removes c = false := by
      intro i c added
      simp only [atOnce, List.mem_append, List.mem_cons, List.mem_replicate, List.not_mem_nil,
        Action.call.injEq, reduceCtorEq, and_false, or_false] at added
      rcases added with ⟨-, rfl⟩ | ⟨-, rfl⟩ | ⟨-, rfl⟩ <;> rfl
    have fills := ((static_containers_keep_capacity 2 3).2 .text _ rfl atOnce).fills keeps
      (by decide +kernel)
    exact fills.trans (by decide +kernel)

end OrderedAtomics
