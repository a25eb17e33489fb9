import OrderedAtomics.Proofs.Capacity
import OrderedAtomics.Proofs.Queue.Lag

/-! The end of a container. Every element that is still in it is dropped once, in the order in which
it would have been taken out, and every node is back in the pool, where each of them is found
once. -/

namespace OrderedAtomics

variable {α ν S C P R K : Type}

/-! ### What is left -/

/-- All slots of the pool are free. Detaching them yields each of them once. -/
structure Pool.Whole (p : Pool ν) : Prop where
  walk : Path p.next p.head.pointer p.takeAll.1 none
  once : p.takeAll.1.Perm (List.range p.size)
  distinct : p.takeAll.1.Nodup
  count : p.takeAll.1.length = p.size
  detached : p.takeAll.2.free = []

theorem Pool.Stocked.whole {p : Pool ν} {free : List Nat} (h : p.Stocked free []) : p.Whole := by
  have found : p.takeAll.1 = free := h.free_eq
  have length := h.length_add
  have once := h.once
  rw [List.append_nil] at once
  refine ⟨?_, ?_, ?_, ?_, ?_⟩
  · rw [found]
    exact h.path
  · rw [found]
    exact once
  · rw [found]
    exact h.path.nodup
  · rw [found, ← length, List.length_nil, Nat.add_zero]
  · show Pool.chainFrom _ p.size none = []
    cases p.size <;> rfl

/-- A container that goes away drops these elements, in this order, and then finds no other. -/
structure Drops (take : S → Option α × S) (drain : S → List α × S) (drop : S → List α × Pool ν)
    (s : S) (vs : List α) : Prop where
  elements : (drop s).1 = vs
  ended : take (drain s).2 = (none, (drain s).2)
  whole : (drop s).2.Whole

/-- A container drops what is left of the values that it was given. -/
structure Inventory.Releases [DecidableEq K] (x : Inventory α ν S C P R) (p : Protocol S Unit C P R)
    (o : Watch S P R K) (spec : List α → C → R → List α → Prop) (call : S → C → S × Option R)
    (onLedger : Ledger α → C → Ledger α × R) (drops : S → List α → Prop) (s : S) : Prop where
  /-- One thread has made some calls. -/
  alone : ∀ calls,
    let reached := inTurn call s calls
    let expected := inTurn onLedger .blank calls
    reached.2 = expected.2.map some ∧ drops reached.1 expected.1.elements ∧
      (calls.map x.traffic.brings).sum =
        (expected.2.map x.traffic.returns).sum + expected.1.elements
  /-- Any number of threads have made some calls, and all of them have been answered. -/
  together : ∀ threads as,
    let w := Observed.run p o as (Observed.start s (List.replicate threads ()))
    Observed.unwrapped p o as (Observed.start s (List.replicate threads ())) →
      (∀ t ∈ w.world.threads, t.point = none) →
      ∃ ops vs, Linearized spec [] w.log ops vs ∧ drops w.world.shared vs ∧
        x.traffic.brought w.world.history = x.traffic.returned w.world.history + vs

/-- A loop that takes elements until there are none takes all of them. -/
theorem takes_all {take : S → Option α × S} {takeUpTo : Nat → S → List α × S}
    {Has : S → List α → Prop} (stop : ∀ s, takeUpTo 0 s = ([], s))
    (last : ∀ n s s', take s = (none, s') → takeUpTo (n + 1) s = ([], s'))
    (turn : ∀ n s v s', take s = (some v, s') →
      takeUpTo (n + 1) s = (v :: (takeUpTo n s').1, (takeUpTo n s').2))
    (empty : ∀ s, Has s [] → take s = (none, s))
    (next : ∀ s v vs, Has s (v :: vs) → ∃ s', take s = (some v, s') ∧ Has s' vs)
    {n : Nat} {s : S} {vs : List α} (h : Has s vs) (enough : vs.length ≤ n) :
    ∃ s', takeUpTo n s = (vs, s') ∧ Has s' [] := by
  induction n generalizing s vs with
  | zero =>
    obtain rfl := List.eq_nil_of_length_eq_zero (Nat.le_zero.mp enough)
    exact ⟨s, stop s, h⟩
  | succ n ih =>
    cases vs with
    | nil => exact ⟨s, last n s s (empty s h), h⟩
    | cons v vs =>
      obtain ⟨s₁, taken, h₁⟩ := next s v vs h
      obtain ⟨s', rest, h'⟩ := ih h₁ (Nat.le_of_succ_le_succ enough)
      exact ⟨s', by rw [turn n s v s₁ taken, rest], h'⟩

/-- Calls in turn neither make values nor lose them if none of them does. -/
theorem inTurn_conserves (t : Traffic C R α) {onLedger : Ledger α → C → Ledger α × R}
    (law : ∀ l c, (l.elements : Multiset α) + t.brings c =
      t.returns (onLedger l c).2 + (onLedger l c).1.elements) (calls : List C) (l : Ledger α) :
    (l.elements : Multiset α) + (calls.map t.brings).sum =
      ((inTurn onLedger l calls).2.map t.returns).sum + (inTurn onLedger l calls).1.elements := by
  induction calls generalizing l with
  | nil => exact add_comm _ _
  | cons c calls ih =>
    rw [inTurn_cons, List.map_cons, List.map_cons, List.sum_cons, List.sum_cons, ← add_assoc, law,
      add_assoc, ih, add_assoc]

namespace Inventory.Fits

variable {x : Inventory α ν S C P R} [Inhabited ν] [DecidableEq K] {p : Protocol S Unit C P R}
  {o : Watch S P R K} {d : Discipline p o (List α)}

/-- What one thread has brought it has been given, or it is left. -/
theorem left_alone (fits : x.Fits d) {onLedger : Ledger α → C → Ledger α × R}
    (legal : ∀ l c, d.spec l.elements c (onLedger l c).2 (onLedger l c).1.elements)
    (calls : List C) :
    let expected := inTurn onLedger .blank calls
    (calls.map x.traffic.brings).sum =
      (expected.2.map x.traffic.returns).sum + expected.1.elements := by
  have conserved := inTurn_conserves x.traffic
    (fun l c => fits.conserves _ _ _ _ (legal l c)) calls .blank
  rwa [Ledger.blank, Multiset.coe_nil, zero_add] at conserved

/-- What the threads of a run leave behind when no thread is in a call. -/
theorem left (fits : x.Fits d) {s : S} (threads : Nat) (shared : d.Shared s [] [])
    {as : List (Action C)}
    (unwrapped : Observed.unwrapped p o as (Observed.start s (List.replicate threads ()))) :
    let w := Observed.run p o as (Observed.start s (List.replicate threads ()))
    (∀ t ∈ w.world.threads, t.point = none) →
      ∃ ops vs, d.Shared w.world.shared vs [] ∧ Linearized d.spec [] w.log ops vs ∧
        x.traffic.brought w.world.history = x.traffic.returned w.world.history + vs := by
  intro w idle
  obtain ⟨seen, log, vs, h⟩ := fits.holds_run threads shared unwrapped
  obtain ⟨alone, none⟩ := fits.holds_of_idle h idle
  have values := fits.values h seen log
  rw [Finset.sum_eq_zero fun i _ => none i, add_zero] at values
  obtain ⟨φ, admits, -⟩ := h
  obtain ⟨ops, order⟩ := admits.linearized
  exact ⟨ops, vs, alone, order, values⟩

end Inventory.Fits

/-! ### Queues -/

namespace Queue

def Drops (q : Queue α) (vs : List α) : Prop := OrderedAtomics.Drops dequeue drain drop q vs

variable {q : Queue α} {policy : Policy} {capacity : Nat} {chain free : List Nat} {l : Ledger α}

/-- No thread has a node of the queue, and its tail is at the last node. -/
def Resting (q : Queue α) (vs : List α) : Prop :=
  ∃ chain free, Chained q chain free vs [] ∧ q.link q.tail.pointer = none

theorem Settled.resting (h : Settled policy capacity q chain free l) : Resting q l.elements :=
  ⟨chain, free, h.chained, h.last⟩

namespace Resting

variable {v : α} {vs : List α}

/-- The queue could be one that a single thread has used. -/
theorem settled (h : Resting q vs) :
    ∃ policy capacity chain free l, l.elements = vs ∧ Settled policy capacity q chain free l := by
  obtain ⟨chain, free, h, last⟩ := h
  have length := h.stocked.length_add
  rw [List.append_nil, h.length_eq] at length
  refine ⟨q.pool.policy, q.pool.size - 1, chain, free, ⟨vs, q.tail.tag.toNat, q.head.tag.toNat⟩,
    rfl, h, last, ?_, ?_, rfl, fun _ => by omega⟩
  · rw [BitVec.ofNat_toNat, BitVec.setWidth_eq]
  · rw [BitVec.ofNat_toNat, BitVec.setWidth_eq]

theorem dequeue_nil (h : Resting q []) : q.dequeue = (none, q) := by
  obtain ⟨_, _, _, _, _, elements, settled⟩ := h.settled
  simp only [Queue.dequeue, settled.dequeue_of_nil elements]

theorem dequeue_cons (h : Resting q (v :: vs)) :
    ∃ q', q.dequeue = (some v, q') ∧ Resting q' vs := by
  obtain ⟨_, _, _, _, _, elements, settled⟩ := h.settled
  obtain ⟨q', _, _, called, settled'⟩ := settled.dequeue_of_cons elements
  exact ⟨q', by simp only [Queue.dequeue, called], settled'.resting⟩

/-- All elements are taken out before the dummy goes back to the pool. -/
theorem drops (h : Resting q vs) : Drops q vs := by
  obtain ⟨chain, free, chained, -⟩ := id h
  have size := chained.stocked.length_add
  rw [List.append_nil, chained.length_eq] at size
  obtain ⟨q', drained, h'⟩ : ∃ q', q.drain = (vs, q') ∧ Resting q' [] :=
    @takes_all α (Queue α) dequeue takeElements Resting (fun _ => rfl)
      (fun _ _ _ none => by simp only [takeElements, none])
      (fun _ _ _ _ some => by simp only [takeElements, some]) (fun _ => dequeue_nil)
      (fun _ _ _ => dequeue_cons) q.pool.size q vs h (by omega)
  have dropped : q.drop = (vs, (q'.give q'.head.pointer).pool) := by
    simp only [Queue.drop, drained]
    rfl
  have ended := h'.dequeue_nil
  obtain ⟨chain', free', chained', -⟩ := h'
  have length := chained'.length_eq
  obtain ⟨rest, rfl, -⟩ := chained'.chain_eq
  obtain rfl : rest = [] := List.eq_nil_of_length_eq_zero (by simpa using length)
  refine ⟨by rw [dropped], by rw [drained, ended], ?_⟩
  rw [dropped]
  exact Pool.Stocked.whole chained'.stocked.give

end Resting

/-- Every call of one thread is an operation of the list. -/
theorem Call.onLedger_fifo (room : Option Nat) (l : Ledger α) (c : Call α) :
    Fifo l.elements c (c.onLedger room l).2 (c.onLedger room l).1.elements := by
  cases c with
  | enqueue v =>
    by_cases full : room = some l.elements.length
    · rw [Call.onLedger, if_pos full]
      exact .refuses
    · rw [Call.onLedger, if_neg full]
      exact .enqueues
  | dequeue =>
    rcases elements : l.elements with _ | ⟨v, vs⟩
    · simp only [Call.onLedger, elements]
      exact .misses
    · simp only [Call.onLedger, elements]
      exact .dequeues
  | isEmpty => exact .looks

theorem releases {value : Footprint} (made : create policy capacity value = .ok q) :
    (inventory α).Releases protocol (watch α) Fifo call (Call.onLedger (Pool.room policy capacity))
      Drops q where
  alone calls := by
    obtain ⟨answers, chain, free, settled⟩ := settled_inTurn made calls
    exact ⟨answers, settled.resting.drops, fits.left_alone (fun l c => c.onLedger_fifo _ l) calls⟩
  together threads as unwrapped idle := by
    obtain ⟨chain, free, new⟩ := settled_create made
    have shared : (discipline α).Shared q [] [] := ⟨chain, free, new.chained⟩
    obtain ⟨ops, vs, ⟨chain, free, chained⟩, order, values⟩ :=
      fits.left threads shared unwrapped idle
    have start : (discipline α).Holds [] (Observed.start q (List.replicate threads ())) [] :=
      Discipline.holds_start (fun _ _ => rfl) shared
    have attended : Attended (Observed.start q (List.replicate threads ())) :=
      fun lag => absurd new.last lag
    have last := (attended_run start attended unwrapped).link_tail idle
    exact ⟨ops, vs, order, Resting.drops ⟨chain, free, chained, last⟩, values⟩

end Queue

/-! ### Stacks -/

namespace Stack

def Drops (s : Stack α) (vs : List α) : Prop := OrderedAtomics.Drops pop drain drop s vs

variable {s : Stack α} {policy : Policy} {capacity : Nat} {chain free : List Nat} {l : Ledger α}

/-- No thread has a node of the stack. -/
def Resting (s : Stack α) (vs : List α) : Prop := ∃ chain free, Chained s chain free vs []

theorem Settled.resting (h : Settled policy capacity s chain free l) : Resting s l.elements :=
  ⟨chain, free, h.chained⟩

namespace Resting

variable {v : α} {vs : List α}

/-- The stack could be one that a single thread has used. -/
theorem settled (h : Resting s vs) :
    ∃ policy capacity chain free l, l.elements = vs ∧ Settled policy capacity s chain free l := by
  obtain ⟨chain, free, h⟩ := h
  refine ⟨s.pool.policy, s.pool.size, chain, free, ⟨vs, s.top.tag.toNat, 0⟩, rfl, h, ?_, rfl,
    fun _ => rfl⟩
  rw [Nat.add_zero, BitVec.ofNat_toNat, BitVec.setWidth_eq]

theorem pop_nil (h : Resting s []) : s.pop = (none, s) := by
  obtain ⟨_, _, _, _, _, elements, settled⟩ := h.settled
  simp only [Stack.pop, settled.pop_of_nil elements]

theorem pop_cons (h : Resting s (v :: vs)) : ∃ s', s.pop = (some v, s') ∧ Resting s' vs := by
  obtain ⟨_, _, _, _, _, elements, settled⟩ := h.settled
  obtain ⟨s', _, _, called, settled'⟩ := settled.pop_of_cons elements
  exact ⟨s', by simp only [Stack.pop, called], settled'.resting⟩

theorem drops (h : Resting s vs) : Drops s vs := by
  obtain ⟨chain, free, chained⟩ := id h
  have size := chained.stocked.length_add
  have length := congrArg List.length chained.data
  rw [List.length_map, List.length_map] at length
  rw [List.append_nil, length] at size
  obtain ⟨s', drained, h'⟩ : ∃ s', s.drain = (vs, s') ∧ Resting s' [] :=
    @takes_all α (Stack α) pop takeElements Resting (fun _ => rfl)
      (fun _ _ _ none => by simp only [takeElements, none])
      (fun _ _ _ _ some => by simp only [takeElements, some]) (fun _ => pop_nil)
      (fun _ _ _ => pop_cons) s.pool.size s vs h (by omega)
  have dropped : s.drop = (vs, s'.pool) := by simp only [Stack.drop, drained]
  have ended := h'.pop_nil
  obtain ⟨chain', free', chained'⟩ := h'
  obtain rfl : chain' = [] := List.map_eq_nil_iff.mp chained'.data
  refine ⟨by rw [dropped], by rw [drained, ended], ?_⟩
  rw [dropped]
  exact Pool.Stocked.whole chained'.stocked

end Resting

/-- Every call of one thread is an operation of the list. -/
theorem Call.onLedger_lifo (room : Option Nat) (l : Ledger α) (c : Call α) :
    Lifo l.elements c (c.onLedger room l).2 (c.onLedger room l).1.elements := by
  cases c with
  | push v =>
    by_cases full : room = some l.elements.length
    · rw [Call.onLedger, if_pos full]
      exact .refuses
    · rw [Call.onLedger, if_neg full]
      exact .pushes
  | pop =>
    rcases elements : l.elements with _ | ⟨v, vs⟩
    · simp only [Call.onLedger, elements]
      exact .misses
    · simp only [Call.onLedger, elements]
      exact .pops
  | isEmpty => exact .looks
  | reserve n => exact .reserves

theorem releases {value : Footprint} (made : create policy capacity value = .ok s) :
    (inventory α).Releases protocol (watch α) Lifo call (Call.onLedger (Pool.room policy capacity))
      Drops s where
  alone calls := by
    obtain ⟨answers, chain, free, settled⟩ := settled_inTurn made calls
    exact ⟨answers, settled.resting.drops, fits.left_alone (fun l c => c.onLedger_lifo _ l) calls⟩
  together threads as unwrapped idle := by
    have shared : (discipline α).Shared s [] [] := ⟨[], _, chained_create made⟩
    obtain ⟨ops, vs, ⟨chain, free, chained⟩, order, values⟩ :=
      fits.left threads shared unwrapped idle
    exact ⟨ops, vs, order, Resting.drops ⟨chain, free, chained⟩, values⟩

end Stack

/-- A queue or a stack of either policy that goes away when no call is in progress drops every value
that it has accepted and not handed out, and gets all its nodes back. -/
theorem drop_releases_everything (policy : Policy) (capacity : Nat) (value : Footprint) :
    (∀ q : Queue α, Queue.create policy capacity value = .ok q →
      (Queue.inventory α).Releases Queue.protocol (Queue.watch α) Queue.Fifo Queue.call
        (Queue.Call.onLedger (Pool.room policy capacity)) Queue.Drops q) ∧
    ∀ s : Stack α, Stack.create policy capacity value = .ok s →
      (Stack.inventory α).Releases Stack.protocol (Stack.watch α) Stack.Lifo Stack.call
        (Stack.Call.onLedger (Pool.room policy capacity)) Stack.Drops s :=
  ⟨fun _ made => Queue.releases made, fun _ made => Stack.releases made⟩

/-- Two threads want to add an element, the first one gets the only node, and the second one is
turned away before the first one is done. -/
def oneNode : List (Action (Stack.Call Nat)) :=
  [.call 0 (.push 10), .call 1 (.push 20), .step 0 false, .step 1 false] ++
    List.replicate 4 (.step 0 false)

/-- A queue that has grown from no room to room for two elements has three nodes in the end, and the
node of a stack is back in its pool. -/
theorem drop_releases_everything_after_growth :
    (∃ q : Queue Nat, Queue.create .caching 0 = .ok q ∧
      let calls := [.enqueue 10, .enqueue 20, .dequeue, .enqueue 30]
      let reached := (inTurn Queue.call q calls).1
      Queue.Drops reached [20, 30] ∧ reached.drop.2.takeAll.1.length = 3) ∧
    ∃ s : Stack Nat, Stack.create .static 1 = .ok s ∧
      let w := Observed.run Stack.protocol (Stack.watch Nat) oneNode (Observed.start s [(), ()])
      ∃ ops vs, Linearized Stack.Lifo [] w.log ops vs ∧ Stack.Drops w.world.shared vs ∧
        (Stack.inventory Nat).traffic.brought w.world.history =
          (Stack.inventory Nat).traffic.returned w.world.history + vs := by
  refine ⟨⟨_, rfl, ?_⟩, ⟨_, rfl, ?_⟩⟩
  · obtain ⟨-, drops, -⟩ := ((drop_releases_everything .caching 0 .text).1 _ rfl).alone
      [.enqueue 10, .enqueue 20, .dequeue, .enqueue 30]
    exact ⟨drops, drops.whole.count.trans (by decide +kernel)⟩
  · exact ((drop_releases_everything .static 1 .text).2 _ rfl).together 2 oneNode (by decide +kernel)
      (by decide +kernel)

end OrderedAtomics
