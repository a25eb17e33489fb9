import OrderedAtomics.Proofs.Pool.Lifo
import OrderedAtomics.Proofs.Queue.Bounded
import OrderedAtomics.Proofs.Stack.Bounded

/-! A pool that may grow, in the hands of one thread that calls the pool itself, a queue on it or a stack
on it. Proved: a call makes one slot if it wants one and none is free, as many as it asks room for, and no
others; and every slot is free or outstanding, and was reported as new. A call of a container has its node
after its first step, and what it does from there on is nowhere in the books of the pool. -/

namespace OrderedAtomics

/-- What a call wants of the pool. -/
inductive Demand where
  | slot
  | room (additional : Nat)
  | nothing
  deriving DecidableEq

/-- How many new slots a notice is about. -/
def Notice.slots : Notice → Nat
  | reserved n => n
  | growing _ => 1
  | poolCreated .. | queueCreated _ | stackCreated _ | ringCreated _ => 0

/-- How many new slots some notices are about. -/
def Notice.slotsIn : List Notice → Nat
  | [] => 0
  | n :: notices => n.slots + slotsIn notices

theorem Notice.slotsIn_append (ms ns : List Notice) : slotsIn (ms ++ ns) = slotsIn ms + slotsIn ns := by
  induction ms with
  | nil => simp [slotsIn]
  | cons m ms ih => simp [slotsIn, ih, Nat.add_assoc]

/-- Whether a notice is about new slots. -/
def Notice.ofGrowth : Notice → Bool
  | reserved _ | growing _ => true
  | poolCreated .. | queueCreated _ | stackCreated _ | ringCreated _ => false

variable {ν : Type}

namespace Demand

/-- The slots that a pool makes for a call. -/
def fresh (p : Pool ν) : Demand → Nat
  | slot => if p.free = [] then 1 else 0
  | room n => n
  | nothing => 0

/-- What a pool reports on a call, with the number of slots that there are afterwards. -/
def reports (p : Pool ν) : Demand → List Notice
  | slot => if p.free = [] then [.growing (p.size + 1)] else []
  | room n => if n = 0 then [] else [.reserved n]
  | nothing => []

theorem slotsIn_reports (p : Pool ν) (d : Demand) : Notice.slotsIn (d.reports p) = d.fresh p := by
  cases d with
  | slot => by_cases empty : p.free = [] <;> simp [reports, fresh, empty, Notice.slotsIn, Notice.slots]
  | room n => by_cases none : n = 0 <;> simp [reports, fresh, none, Notice.slotsIn, Notice.slots]
  | nothing => rfl

end Demand

namespace Pool

/-- What becomes of the number of slots and of the notices, newest first, on a call. -/
structure Grows (d : Demand) (p p' : Pool ν) : Prop where
  size : p'.size = p.size + d.fresh p
  notices : p'.notices = d.reports p ++ p.notices

/-- Every slot is free or outstanding, and has been reported as new. -/
structure Balanced (p : Pool ν) (outstanding : Nat) : Prop where
  slots : p.size = p.free.length + outstanding
  reports : p.size = Notice.slotsIn p.notices

/-- A new pool has so many slots, and reports them as reserved if there are any. -/
structure Founded (p : Pool ν) (capacity : Nat) : Prop where
  size : p.size = capacity
  reports : p.notices.filter Notice.ofGrowth = (Demand.room capacity).reports p

/-- The pool may grow, and so many of its slots are not free. -/
def Caches (p : Pool ν) (outstanding : Nat) : Prop :=
  p.policy = .caching ∧ ∃ free others, p.Stocked free others ∧ others.length = outstanding

/-- What tells of a pool how it has grown. -/
def books (p : Pool ν) : Nat × List Notice := (p.size, p.notices)

variable {p p' p'' : Pool ν} {d : Demand} {outstanding : Nat}

theorem Caches.size_eq (h : p.Caches outstanding) : p.size = p.free.length + outstanding := by
  obtain ⟨-, free, others, stocked, length⟩ := h
  rw [stocked.free_eq, ← length, stocked.length_add]

theorem Grows.congr (h : Grows d p p') (same : p''.books = p'.books) : Grows d p p'' := by
  obtain ⟨size, notices⟩ := Prod.mk.inj same
  exact ⟨size.trans h.size, notices.trans h.notices⟩

theorem grows_nothing (same : p'.books = p.books) : Grows .nothing p p' :=
  Grows.congr ⟨rfl, rfl⟩ same

@[simp] theorem books_modifyNode (i : Nat) (f : ν → ν) : (p.modifyNode i f).books = p.books := by
  simp [books, Pool.modifyNode, size]

variable [Inhabited ν]

omit [Inhabited ν] in
@[simp] theorem books_give (i : Nat) : (p.give i).books = p.books := by
  rw [books, size_give]
  rfl

theorem take_of_first {i : Nat} (first : p.head.pointer = some i) :
    p.take.2 = p.setHead (p.head.advance (p.next i)) := by
  simp only [Pool.take, first]

theorem take_of_empty (empty : p.head.pointer = none) (caching : p.policy = .caching) :
    p.take.2 = (p.note (.growing (p.size + 1))).extend 1 := by
  simp only [Pool.take, empty, caching]

/-- A slot is made only when none is free. -/
theorem Caches.take (h : p.Caches outstanding) : Grows .slot p p.take.2 := by
  obtain ⟨caching, free, others, stocked, -⟩ := h
  rcases first : p.head.pointer with _ | i
  · have empty : p.free = [] := stocked.free_eq.trans (stocked.free_eq_nil first)
    rw [take_of_empty first caching]
    exact ⟨by simp [Demand.fresh, empty], by simp [Demand.reports, empty, Pool.extend, Pool.note]⟩
  · obtain ⟨rest, rfl, -⟩ := stocked.pop first 0
    have some : p.free ≠ [] := by simp [stocked.free_eq]
    rw [take_of_first first]
    exact ⟨by simp [Demand.fresh, some], by simp [Demand.reports, some, Pool.setHead]⟩

theorem reserve_zero (caching : p.policy = .caching) : p.reserve 0 = p := by
  simp only [Pool.reserve, caching, if_true]

theorem reserve_succ (caching : p.policy = .caching) (n : Nat) :
    p.reserve (n + 1) = (p.stock (n + 1)).note (.reserved (n + 1)) := by
  simp only [Pool.reserve, caching, Nat.succ_ne_zero, if_false]

theorem grows_reserve (caching : p.policy = .caching) (n : Nat) :
    Grows (.room n) p (p.reserve n) := by
  cases n with
  | zero =>
    rw [reserve_zero caching]
    exact ⟨rfl, rfl⟩
  | succ n =>
    rw [reserve_succ caching]
    exact ⟨size_stock (n + 1), rfl⟩

omit [Inhabited ν] in
/-- Slots that are all reported stay so. -/
theorem Grows.slotsIn (h : Grows d p p') (reported : p.size = Notice.slotsIn p.notices) :
    p'.size = Notice.slotsIn p'.notices := by
  rw [h.size, h.notices, Notice.slotsIn_append, Demand.slotsIn_reports, reported, Nat.add_comm]

/-! ### Calls of the pool -/

/-- What a call of the pool itself wants. -/
def Call.demand : Call → Demand
  | .allocate => .slot
  | .deallocate _ => .nothing
  | .reserve n => .room n

theorem Caches.serve {held : List Nat} (h : p.Caches outstanding) (c : Call) :
    Grows c.demand p (serve (p, held) c).1.1 := by
  have caching : p.policy = .caching := h.1
  cases c with
  | allocate =>
    have taken : (Pool.serve (p, held) .allocate).1.1 = p.take.2 := by
      rcases first : p.head.pointer with _ | i
      · rw [serve_allocate_of_caching first caching, take_of_empty first caching]
      · rw [serve_allocate first, take_of_first first]
    rw [taken]
    exact h.take
  | deallocate i =>
    refine grows_nothing ?_
    by_cases holds : i ∈ held
    · rw [serve_deallocate holds]
      exact books_give i
    · rw [serve_deallocate_of_not_mem holds]
  | reserve n =>
    have reserved : (Pool.serve (p, held) (.reserve n)).1.1 = p.reserve n := by
      cases n with
      | zero => rw [serve_reserve_of_nothing (.inr rfl), reserve_zero caching]
      | succ n => rw [serve_reserve caching, reserve_succ caching]
    rw [reserved]
    exact grows_reserve caching n

end Pool

/-! ### Calls of a container -/

namespace Protocol

variable {S L C P R V : Type} {p : Protocol S L C P R} {f : S → V} {inner : P → Prop}
  {s : S} {own : L} {point : P}

/-- No step from an inner point changes what `f` says of the state, and none leads out of them. -/
def Spares (p : Protocol S L C P R) (f : S → V) (inner : P → Prop) : Prop :=
  ∀ s own point, inner point → f (p.step false s own point).1 = f s ∧
    ∀ next, (p.step false s own point).2.2 = .inl next → inner next

theorem Spares.finish (h : p.Spares f inner) (n : Nat) (from_inner : inner point) :
    f (p.finish n s own point).1 = f s := by
  induction n generalizing s own point with
  | zero => rfl
  | succ n ih =>
    rw [Protocol.finish]
    split
    next =>
      obtain ⟨same, onward⟩ := h s own point from_inner
      rcases stepped : p.step false s own point with ⟨s', own', next | r⟩
      · rw [stepped] at same onward
        exact (ih (onward next rfl)).trans same
      · rw [stepped] at same
        exact same
    next => rfl

/-- After its first step a call changes nothing more, if that step leads to an inner point. -/
theorem Spares.alone (h : p.Spares f inner) {own₀ : L} {c : C}
    (entered : p.enter own₀ c = some (own, point)) (ready : p.ready s own point)
    (onward : ∀ next, (p.step false s own point).2.2 = .inl next → inner next) (n : Nat) :
    f (p.alone (n + 1) s own₀ c).1 = f (p.step false s own point).1 := by
  simp only [Protocol.alone, entered, Protocol.finish, ready, if_true]
  rcases stepped : p.step false s own point with ⟨s', own', next | r⟩
  · rw [stepped] at onward
    exact h.finish n (onward next rfl)
  · rfl

end Protocol

namespace Queue

variable {α : Type}

/-- What a call wants of the pool of its queue. -/
def Call.demand : Call α → Demand
  | .enqueue _ => .slot
  | .dequeue | .isEmpty => .nothing

/-- The points of a call that has its node, or needs none. -/
def Inner (point : Point α) : Prop := ∀ v, point ≠ .allocate v

theorem inner_step {spurious : Bool} {q : Queue α} {point next : Point α}
    (stepped : (step spurious q point).2 = .inl next) : Inner next := by
  rintro v rfl
  revert stepped
  fun_cases step <;> simp_all

/-- A node is taken in the first step of a call, if at all. -/
theorem books_step {spurious : Bool} {q : Queue α} {point : Point α} (h : Inner point) :
    (step spurious q point).1.pool.books = q.pool.books := by
  cases point with
  | allocate v => exact absurd rfl (h v)
  | write node v => exact Pool.books_modifyNode node _
  | clearOwn node link => exact Pool.books_modifyNode node _
  | link node tail next =>
    simp only [step]
    split
    · exact Pool.books_modifyNode tail.pointer _
    · rfl
  | release node data => exact Pool.books_give node
  | recheckTail | recheckHead | swapHead =>
    simp only [step]
    repeat' split
    all_goals rfl
  | _ => rfl

theorem spares : (protocol : Protocol (Queue α) Unit _ _ _).Spares (fun q => q.pool.books) Inner :=
  fun _ _ _ h => ⟨books_step h, fun _ stepped => inner_step stepped⟩

theorem grows {q : Queue α} {outstanding : Nat} (h : q.pool.Caches outstanding) (c : Call α) :
    Pool.Grows c.demand q.pool (q.call c).1.pool := by
  have entered : (protocol : Protocol (Queue α) Unit _ _ _).enter () c = some ((), enter c) := rfl
  have first : (q.call c).1.pool.books = (step false q (enter c)).1.pool.books :=
    spares.alone entered rfl (fun _ stepped => inner_step stepped) 8
  cases c with
  | enqueue v =>
    have taken : (step false q (.allocate v)).1.pool = q.pool.take.2 := by
      rcases took : q.pool.take with ⟨_ | i, p⟩ <;> simp only [step, Queue.take, took]
    exact h.take.congr (first.trans (congrArg Pool.books taken))
  | dequeue | isEmpty => exact Pool.grows_nothing first

end Queue

namespace Stack

variable {α : Type}

/-- What a call wants of the pool of its stack. -/
def Call.demand : Call α → Demand
  | .push _ => .slot
  | .reserve n => .room n
  | .pop | .isEmpty => .nothing

/-- The points of a call that has its node, or needs none. -/
def Inner (point : Point α) : Prop := (∀ v, point ≠ .allocate v) ∧ ∀ n, point ≠ .reserve n

theorem inner_popAt {top : Link} {next : Point α} (stepped : popAt top = .inl next) :
    Inner next := by
  unfold popAt at stepped
  split at stepped
  · cases stepped
  · cases stepped
    exact ⟨nofun, nofun⟩

theorem inner_step {spurious : Bool} {s : Stack α} {point next : Point α}
    (stepped : (step spurious s point).2 = .inl next) : Inner next := by
  revert stepped
  fun_cases step
  all_goals
    intro stepped
    first
    | exact inner_popAt stepped
    | cases stepped <;> exact ⟨nofun, nofun⟩

/-- A node is taken in the first step of a call, if at all. -/
theorem books_step {spurious : Bool} {s : Stack α} {point : Point α} (h : Inner point) :
    (step spurious s point).1.pool.books = s.pool.books := by
  cases point with
  | allocate v => exact absurd rfl (h.1 v)
  | reserve n => exact absurd rfl (h.2 n)
  | write node v => exact Pool.books_modifyNode node _
  | storeNext node top => exact Pool.books_modifyNode node _
  | release node data => exact Pool.books_give node
  | swapForPush | swapForPop =>
    simp only [step]
    split <;> rfl
  | _ => rfl

theorem spares : (protocol : Protocol (Stack α) Unit _ _ _).Spares (fun s => s.pool.books) Inner :=
  fun _ _ _ h => ⟨books_step h, fun _ stepped => inner_step stepped⟩

theorem grows {s : Stack α} {outstanding : Nat} (h : s.pool.Caches outstanding) (c : Call α) :
    Pool.Grows c.demand s.pool (s.call c).1.pool := by
  have entered : (protocol : Protocol (Stack α) Unit _ _ _).enter () c = some ((), enter c) := rfl
  have first : (s.call c).1.pool.books = (step false s (enter c)).1.pool.books :=
    spares.alone entered rfl (fun _ stepped => inner_step stepped) 4
  cases c with
  | push v =>
    have taken : (step false s (.allocate v)).1.pool = s.pool.take.2 := by
      rcases took : s.pool.take with ⟨_ | i, p⟩ <;> simp only [step, Stack.take, took]
    exact h.take.congr (first.trans (congrArg Pool.books taken))
  | reserve n => exact (Pool.grows_reserve h.1 n).congr first
  | pop | isEmpty => exact Pool.grows_nothing first

end Stack

/-! ### Runs -/

/-- After any calls the books of the pool are right, and with any further call it grows as it should. -/
def Accounted {σ C R : Type} (pool : σ → Pool ν) (call : σ → C → σ × R) (demand : C → Demand)
    (outstanding : List C → Nat) (s : σ) : Prop :=
  ∀ calls, let reached := (inTurn call s calls).1
    (pool reached).Balanced (outstanding calls) ∧
      ∀ c, Pool.Grows (demand c) (pool reached) (pool (call reached c).1)

/-- If a pool may grow after any calls, and grows in each further one as it should, it is accounted for. -/
theorem Accounted.of_caches {σ C R : Type} {pool : σ → Pool ν} {call : σ → C → σ × R}
    {demand : C → Demand} {outstanding : List C → Nat} {s : σ}
    (caches : ∀ calls, (pool (inTurn call s calls).1).Caches (outstanding calls))
    (grows : ∀ {s n} c, (pool s).Caches n → Pool.Grows (demand c) (pool s) (pool (call s c).1))
    (start : (pool s).size = Notice.slotsIn (pool s).notices) :
    Accounted pool call demand outstanding s := by
  intro calls
  refine ⟨⟨(caches calls).size_eq, ?_⟩, fun c => grows c (caches calls)⟩
  induction calls generalizing s outstanding with
  | nil => exact start
  | cons c calls ih =>
    exact ih (fun calls => caches (c :: calls)) ((grows c (caches [])).slotsIn start)

theorem Notice.slotsIn_filter (notices : List Notice) :
    slotsIn (notices.filter ofGrowth) = slotsIn notices := by
  induction notices with
  | nil => rfl
  | cons n notices ih => cases n <;> simp [List.filter_cons, slotsIn, ofGrowth, slots, ih]

namespace Pool

theorem Founded.slotsIn {p : Pool ν} {capacity : Nat} (h : Founded p capacity) :
    p.size = Notice.slotsIn p.notices := by
  rw [← Notice.slotsIn_filter, h.reports, Demand.slotsIn_reports, h.size]
  rfl

variable [Inhabited ν]

theorem founded_create {p : Pool ν} {slotBytes capacity : Nat}
    (made : create .caching slotBytes capacity = .ok p) : Founded p capacity := by
  have grown := @grows_reserve ν (empty .caching) _ rfl capacity
  simp only [create, Except.ok.injEq] at made
  subst made
  refine ⟨?_, ?_⟩
  · rw [size_note, grown.size]
    exact Nat.zero_add capacity
  · have notices : (((empty .caching : Pool ν).reserve capacity).note
        (.poolCreated .caching capacity)).notices =
          .poolCreated .caching capacity :: (Demand.room capacity).reports (empty .caching : Pool ν) :=
      congrArg _ (grown.notices.trans (List.append_nil _))
    rw [notices]
    by_cases none : capacity = 0 <;> simp [Demand.reports, none, Notice.ofGrowth]

theorem Shelved.accounted {capacity : Nat} {p : Pool ν} {shelf : Shelf}
    (h : Shelved .caching capacity (p, []) shelf) (start : p.size = Notice.slotsIn p.notices) :
    Accounted Prod.fst Pool.serve Call.demand
      (fun calls => (OrderedAtomics.inTurn Pool.serve (p, []) calls).1.2.length) (p, []) := by
  refine .of_caches (fun calls => ?_) (fun c caches => caches.serve c) start
  have shelved := (h.inTurn calls).2
  exact ⟨shelved.sized.policy_eq, _, _, shelved.stocked, congrArg List.length shelved.held_eq.symm⟩

omit [Inhabited ν] in
theorem shelved_empty : Shelved .caching 0 ((empty .caching : Pool ν), []) (.full 0) :=
  ⟨stocked_empty .caching, rfl, rfl, rfl, rfl, nofun⟩

end Pool

namespace Queue

variable {α : Type} {q : Queue α} {capacity : Nat} {value : Footprint}

theorem create_caching (capacity : Nat) (value : Footprint) :
    ∃ q : Queue α, create .caching capacity value = .ok q := by
  obtain ⟨p, created⟩ : ∃ p : Pool (Node α),
    Pool.create .caching (value.slotBytes linkBytes) (nodesFor capacity) = .ok p := ⟨_, rfl⟩
  rcases taken : p.take with ⟨_ | i, p'⟩
  · obtain ⟨-, static, -⟩ := Pool.take_eq_none taken
    obtain ⟨-, caching, -⟩ := Pool.stocked_create created
    rw [caching] at static
    cases static
  · simp only [create, created, taken, bind, Except.bind, pure, Except.pure, Except.ok.injEq,
      exists_eq']

/-- A new queue has taken its dummy from the nodes that it has reserved. -/
theorem founded_create (made : create .caching capacity value = .ok q) :
    q.pool.Founded (nodesFor capacity) := by
  obtain ⟨p, p', dummy, created, taken, n, -, rfl⟩ := create_ok made
  obtain ⟨stocked, caching, -⟩ := Pool.stocked_create created
  have founded := Pool.founded_create created
  -- there is always a node for the dummy among those that were reserved, so taking it makes none
  have some : p.free ≠ [] := by
    rw [stocked.free_eq, ne_eq, List.range_eq_nil]
    exact Nat.ne_of_gt (Nat.lt_min.mpr ⟨Nat.succ_pos capacity, by decide⟩)
  have grown := Pool.Caches.take ⟨caching, _, _, stocked, rfl⟩
  rw [taken] at grown
  have size : p'.size = p.size := by simpa [Demand.fresh, some] using grown.size
  have notices : p'.notices = p.notices := by simpa [Demand.reports, some] using grown.notices
  refine ⟨?_, ?_⟩
  · rw [setNext, Pool.size_modifyNode, Pool.size_note, size, founded.size]
  · have told : (setNext ⟨⟨dummy, 0⟩, ⟨dummy, 0⟩, p'.note (.queueCreated capacity)⟩ dummy n
        ).pool.notices = .queueCreated capacity :: p.notices :=
      congrArg _ notices
    rw [told, List.filter_cons_of_neg (by simp [Notice.ofGrowth]), founded.reports]
    rfl

theorem accounted (made : create .caching capacity value = .ok q) :
    Accounted Queue.pool call Call.demand
      (fun calls => (inTurn (Call.onLedger none) .blank calls).1.elements.length + 1) q := by
  refine .of_caches (fun calls => ?_) (fun c caches => grows caches c) (founded_create made).slotsIn
  obtain ⟨chain, free, settled⟩ := (settled_inTurn made calls).2
  refine ⟨settled.sized.policy_eq, _, _, settled.chained.stocked, ?_⟩
  rw [List.append_nil]
  exact settled.chained.length_eq

end Queue

namespace Stack

variable {α : Type} {s : Stack α} {capacity : Nat} {value : Footprint}

theorem create_caching (capacity : Nat) (value : Footprint) :
    ∃ s : Stack α, create .caching capacity value = .ok s := ⟨_, rfl⟩

theorem founded_create (made : create .caching capacity value = .ok s) : s.pool.Founded capacity := by
  obtain ⟨p, created, rfl⟩ := create_ok made
  have founded := Pool.founded_create created
  refine ⟨founded.size, ?_⟩
  rw [List.filter_append, founded.reports]
  exact List.append_nil _

theorem accounted (made : create .caching capacity value = .ok s) :
    Accounted Stack.pool call Call.demand
      (fun calls => (inTurn (Call.onLedger none) .blank calls).1.elements.length) s := by
  refine .of_caches (fun calls => ?_) (fun c caches => grows caches c) (founded_create made).slotsIn
  obtain ⟨chain, free, settled⟩ := (settled_inTurn made calls).2
  refine ⟨settled.sized.policy_eq, _, _, settled.chained.stocked, ?_⟩
  have elements := congrArg List.length settled.chained.data
  rw [List.length_map, List.length_map] at elements
  rw [List.append_nil]
  exact elements

end Stack

/-- A pool that may grow does so only when no slot is free, or when it is asked for room, and its notices
tell of every new slot, whatever calls a thread makes of the pool itself, of a queue or of a stack. -/
theorem caching_pools_grow_when_empty {ν α : Type} [Inhabited ν] :
    (∀ slotBytes capacity, ∃ p : Pool ν, Pool.create .caching slotBytes capacity = .ok p ∧
      p.Founded capacity ∧ Accounted Prod.fst Pool.serve Pool.Call.demand
        (fun calls => (inTurn Pool.serve (p, []) calls).1.2.length) (p, [])) ∧
    ((Pool.empty .caching : Pool ν).Founded 0 ∧ Accounted Prod.fst Pool.serve Pool.Call.demand
      (fun calls => (inTurn Pool.serve ((.empty .caching : Pool ν), []) calls).1.2.length)
      ((.empty .caching : Pool ν), [])) ∧
    (∀ capacity value, ∃ q : Queue α, Queue.create .caching capacity value = .ok q ∧
      q.pool.Founded (Queue.nodesFor capacity) ∧ Accounted Queue.pool Queue.call Queue.Call.demand
        (fun calls => (inTurn (Queue.Call.onLedger none) .blank calls).1.elements.length + 1) q) ∧
    ∀ capacity value, ∃ s : Stack α, Stack.create .caching capacity value = .ok s ∧
      s.pool.Founded capacity ∧ Accounted Stack.pool Stack.call Stack.Call.demand
        (fun calls => (inTurn (Stack.Call.onLedger none) .blank calls).1.elements.length) s := by
  refine ⟨fun slotBytes capacity => ?_, ?_, fun capacity value => ?_, fun capacity value => ?_⟩
  · obtain ⟨p, made⟩ : ∃ p : Pool ν, Pool.create .caching slotBytes capacity = .ok p := ⟨_, rfl⟩
    have founded := Pool.founded_create made
    exact ⟨p, made, founded, (Pool.shelved_create made).accounted founded.slotsIn⟩
  · exact ⟨⟨rfl, rfl⟩, Pool.shelved_empty.accounted rfl⟩
  · obtain ⟨q, made⟩ := Queue.create_caching (α := α) capacity value
    exact ⟨q, made, Queue.founded_create made, Queue.accounted made⟩
  · obtain ⟨s, made⟩ := Stack.create_caching (α := α) capacity value
    exact ⟨s, made, Stack.founded_create made, Stack.accounted made⟩

/-- A slot that has come back is handed out again before the pool grows. -/
example : (inTurn Pool.serve ((.empty .caching : Pool Nat), [])
    [.allocate, .deallocate 0, .allocate, .allocate, .reserve 2]).1.1.notices =
      [.reserved 2, .growing 2, .growing 1] := by cbv

end OrderedAtomics
