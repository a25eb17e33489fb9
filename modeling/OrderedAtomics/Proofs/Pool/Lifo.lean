import OrderedAtomics.Proofs.Alone
import OrderedAtomics.Proofs.Pool.Ownership

/-! A pool in the hands of one thread. Its free slots are a list that gives and takes at the front,
new slots go in front of the others in the order in which they are made, and the tag of the head
counts how often the head was exchanged. -/

namespace OrderedAtomics.Pool

variable {ν : Type} [Inhabited ν]

/-! ### The reference -/

/-- The free slots, first one first, the slots that are held, how many slots there are, and how often
the head was exchanged. -/
structure Shelf where
  free : List Nat
  held : List Nat
  created : Nat
  exchanges : Nat

/-- All slots are free, in the order in which they were made. No slots need no exchange. -/
def Shelf.full (capacity : Nat) : Shelf :=
  ⟨List.range capacity, [], capacity, if capacity = 0 then 0 else 1⟩

/-- What a call does to the lists of slots, its reply if it may be made, and how often it exchanges
the head. -/
def Call.onShelf (policy : Policy) (s : Shelf) : Call → Shelf × Option Reply × Nat
  | .allocate =>
    match s.free, policy with
    | i :: free, _ => (⟨free, i :: s.held, s.created, s.exchanges + 1⟩, some (.slot i), 1)
    | [], .static => (s, some .exhausted, 0)
    | [], .caching =>
      (⟨[], s.created :: s.held, s.created + 1, s.exchanges⟩, some (.slot s.created), 0)
  | .deallocate i =>
    if i ∈ s.held then
      (⟨i :: s.free, s.held.erase i, s.created, s.exchanges + 1⟩, some .done, 1)
    else (s, none, 0)
  | .reserve n =>
    match policy, n with
    | .static, _ | .caching, 0 => (s, some .done, 0)
    | .caching, n + 1 =>
      (⟨List.range' s.created (n + 1) ++ s.free, s.held, s.created + (n + 1), s.exchanges + 1⟩,
        some .done, 1)

/-! ### Calls without interference -/

variable {p p' : Pool ν} {held held' : List Nat} {i : Nat}

/-- How often a call tries to exchange the head. -/
def exchanges (p : Pool ν) (held : List Nat) (c : Call) : Nat :=
  match enter held c with
  | none => 0
  | some (held, point) =>
    (protocol.visits soloSteps p held point).countP fun x => ((watch ν).compares x.2).isSome

/-- A call of the only thread: what becomes of the pool and of the slots that are held, the reply if
the thread may make the call, and how often the head is exchanged. -/
def serve (s : Pool ν × List Nat) (c : Call) : (Pool ν × List Nat) × Option Reply × Nat :=
  let (p, answer) := s.1.alone s.2 c
  ((p, answer.elim s.2 Prod.fst), answer.map Prod.snd, s.1.exchanges s.2 c)

section Calls

theorem serve_eq {c : Call} {own : List Nat} {point : Point} {visited : List (Pool ν × Point)}
    {r : Reply} (entered : enter held c = some (own, point))
    (course : protocol.Course p own point visited p' held' r)
    (enough : visited.length ≤ soloSteps) :
    serve (p, held) c = ((p', held'), some r,
      visited.countP fun x => ((watch ν).compares x.2).isSome) := by
  simp only [serve, alone, exchanges, course.alone_eq entered enough, entered,
    course.visits_eq enough, Option.elim_some, Option.map_some]

theorem serve_allocate (first : p.head.pointer = some i) :
    serve (p, held) .allocate =
      ((p.setHead (p.head.advance (p.next i)), i :: held), some (.slot i), 1) := by
  have seen : protocol.step false p held .loadForPop = (p, held, .inl (.loadNext p.head i)) := by
    simp only [protocol, step, popAt, first]
  have swapped : protocol.step false p held (.swapForPop p.head i (p.next i)) =
      (p.setHead (p.head.advance (p.next i)), i :: held, .inr (.slot i)) := by
    simp [protocol, step]
  exact serve_eq rfl (.step rfl seen <| .step rfl rfl <| .reply rfl swapped) (by simp [soloSteps])

theorem serve_allocate_of_static (empty : p.head.pointer = none) (static : p.policy = .static) :
    serve (p, held) .allocate = ((p, held), some .exhausted, 0) := by
  have seen : protocol.step false p held .loadForPop = (p, held, .inr .exhausted) := by
    simp only [protocol, step, popAt, empty, static]
  exact serve_eq rfl (.reply rfl seen) (by simp [soloSteps])

theorem serve_allocate_of_caching (empty : p.head.pointer = none) (caching : p.policy = .caching) :
    serve (p, held) .allocate =
      (((p.note (.growing (p.size + 1))).extend 1, p.size :: held), some (.slot p.size), 0) := by
  have seen : protocol.step false p held .loadForPop = (p, held, .inl .grow) := by
    simp only [protocol, step, popAt, empty, caching]
  exact serve_eq rfl (.step rfl seen <| .reply rfl rfl) (by simp [soloSteps])

theorem serve_deallocate (holds : i ∈ held) :
    serve (p, held) (.deallocate i) = ((p.give i, held.erase i), some .done, 1) := by
  have entered : enter held (.deallocate i) =
      some (held.erase i, .loadForPush ⟨i, i, none⟩) := if_pos holds
  have swapped : protocol.step false (p.setNext i p.head.pointer) (held.erase i)
      (.swapForPush ⟨i, i, none⟩ p.head) = (p.give i, held.erase i, .inr .done) := by
    simp [protocol, step, noteAll, Pool.give, Pool.pushChain]
  exact serve_eq entered (.step rfl rfl <| .step rfl rfl <| .reply rfl swapped)
    (by simp [soloSteps])

theorem serve_deallocate_of_not_mem (others : i ∉ held) :
    serve (p, held) (.deallocate i) = ((p, held), none, 0) := by
  have entered : enter held (.deallocate i) = none := if_neg others
  simp only [serve, alone, Protocol.alone, exchanges, protocol, entered, Option.elim_none,
    Option.map_none]

/-- New slots are linked before anybody sees them, and arrive in one exchange of the head. -/
theorem serve_reserve (caching : p.policy = .caching) (n : Nat) :
    serve (p, held) (.reserve (n + 1)) =
      (((p.stock (n + 1)).note (.reserved (n + 1)), held), some .done, 1) := by
  let chain : Chain := ⟨p.size, p.size + n, some (.reserved (n + 1))⟩
  have made : protocol.step false p held (.makeChain (n + 1)) =
      (p.extend (n + 1), held, .inl (.loadForPush chain)) := by
    simp only [protocol, step, caching, chain]
  have swapped : protocol.step false ((p.extend (n + 1)).setNext (p.size + n) p.head.pointer) held
      (.swapForPush chain p.head) =
      ((p.stock (n + 1)).note (.reserved (n + 1)), held, .inr .done) := by
    simp [protocol, step, noteAll, Pool.stock, Pool.pushChain, chain]
  exact serve_eq rfl (.step rfl made <| .step rfl rfl <| .step rfl rfl <| .reply rfl swapped)
    (by simp [soloSteps])

theorem serve_reserve_of_nothing {n : Nat} (nothing : p.policy = .static ∨ n = 0) :
    serve (p, held) (.reserve n) = ((p, held), some .done, 0) := by
  have made : protocol.step false p held (.makeChain n) = (p, held, .inr .done) := by
    rcases nothing with static | rfl
    · simp only [protocol, step, static]
    · cases policy : p.policy <;> simp only [protocol, step, policy]
  exact serve_eq rfl (.reply rfl made) (by simp [soloSteps])

end Calls

/-! ### Between two calls -/

/-- The pool keeps the slots as the lists have them, and the tag of its head counts the exchanges. -/
structure Shelved (policy : Policy) (capacity : Nat) (s : Pool ν × List Nat) (shelf : Shelf) : Prop
    where
  stocked : s.1.Stocked shelf.free shelf.held
  held_eq : s.2 = shelf.held
  size_eq : s.1.size = shelf.created
  tag_eq : s.1.head.tag = BitVec.ofNat addressWidth shelf.exchanges
  sized : s.1.Sized policy capacity

namespace Shelved

variable {policy : Policy} {capacity : Nat} {s : Pool ν × List Nat} {shelf : Shelf}

theorem allocate (h : Shelved policy capacity s shelf) :
    (serve s .allocate).2 = (Call.allocate.onShelf policy shelf).2 ∧
      Shelved policy capacity (serve s .allocate).1 (Call.allocate.onShelf policy shelf).1 := by
  obtain ⟨p, held⟩ := s
  obtain ⟨free, kept, created, exchanges⟩ := shelf
  obtain ⟨stocked, rfl, rfl, tag, sized⟩ := h
  rcases first : p.head.pointer with _ | i
  · obtain rfl := stocked.free_eq_nil first
    cases policy with
    | static =>
      rw [serve_allocate_of_static first sized.policy_eq]
      exact ⟨rfl, stocked, rfl, rfl, tag, sized⟩
    | caching =>
      rw [serve_allocate_of_caching first sized.policy_eq]
      exact ⟨rfl, (stocked.note _).extend 1, rfl, size_extend 1, tag, sized.policy_eq, nofun⟩
  · obtain ⟨rest, rfl, popped⟩ := stocked.pop first (p.head.tag + 1)
    rw [serve_allocate first]
    exact ⟨rfl, popped, rfl, rfl, Tagged.counts_advance tag _, sized.policy_eq, sized.size_eq⟩

theorem deallocate (h : Shelved policy capacity s shelf) (i : Nat) :
    (serve s (.deallocate i)).2 = ((Call.deallocate i).onShelf policy shelf).2 ∧
      Shelved policy capacity (serve s (.deallocate i)).1
        ((Call.deallocate i).onShelf policy shelf).1 := by
  obtain ⟨p, held⟩ := s
  obtain ⟨stocked, rfl, size, tag, sized⟩ := h
  by_cases holds : i ∈ shelf.held
  · rw [serve_deallocate holds, Call.onShelf, if_pos holds]
    have given := (stocked.perm (List.perm_cons_erase holds)).give
    exact ⟨rfl, given, rfl, (size_give i).trans size, Tagged.counts_advance tag _, sized.give i⟩
  · rw [serve_deallocate_of_not_mem holds, Call.onShelf, if_neg holds]
    exact ⟨rfl, stocked, rfl, size, tag, sized⟩

theorem reserve (h : Shelved policy capacity s shelf) (n : Nat) :
    (serve s (.reserve n)).2 = ((Call.reserve n).onShelf policy shelf).2 ∧
      Shelved policy capacity (serve s (.reserve n)).1 ((Call.reserve n).onShelf policy shelf).1 := by
  obtain ⟨p, held⟩ := s
  obtain ⟨free, kept, created, exchanges⟩ := shelf
  obtain ⟨stocked, rfl, rfl, tag, sized⟩ := h
  cases policy with
  | static =>
    rw [serve_reserve_of_nothing (.inl sized.policy_eq)]
    exact ⟨rfl, stocked, rfl, rfl, tag, sized⟩
  | caching =>
    cases n with
    | zero =>
      rw [serve_reserve_of_nothing (.inr rfl)]
      exact ⟨rfl, stocked, rfl, rfl, tag, sized⟩
    | succ n =>
      rw [serve_reserve sized.policy_eq]
      exact ⟨rfl, (stocked.stock (n + 1)).note _, rfl, size_stock (n + 1),
        Tagged.counts_advance tag _, sized.policy_eq, nofun⟩

theorem call (h : Shelved policy capacity s shelf) (c : Call) :
    (serve s c).2 = (c.onShelf policy shelf).2 ∧
      Shelved policy capacity (serve s c).1 (c.onShelf policy shelf).1 := by
  cases c with
  | allocate => exact h.allocate
  | deallocate i => exact h.deallocate i
  | reserve n => exact h.reserve n

/-- Calls in turn on a pool and on its lists. -/
theorem inTurn (h : Shelved policy capacity s shelf) (calls : List Call) :
    let reached := inTurn serve s calls
    let expected := inTurn (Call.onShelf policy) shelf calls
    reached.2 = expected.2 ∧ Shelved policy capacity reached.1 expected.1 := by
  have step (c : Call) (_ : c ∈ calls) (s : Pool ν × List Nat) (shelf : Shelf)
      (h : Shelved policy capacity s shelf) :
      (serve s c).2 = id (c.onShelf policy shelf).2 ∧
        Shelved policy capacity (serve s c).1 (c.onShelf policy shelf).1 := h.call c
  obtain ⟨answers, shelved⟩ := inTurn_alike step h
  exact ⟨answers.trans (List.map_id _), shelved⟩

end Shelved

/-! ### Runs -/

theorem tag_stock {k : Nat} (h : p.head.tag = BitVec.ofNat addressWidth k) (n : Nat) :
    (p.stock n).head.tag = BitVec.ofNat addressWidth (if n = 0 then k else k + 1) := by
  cases n with
  | zero => exact h
  | succ n => exact Tagged.counts_advance h _

theorem head_create {policy : Policy} {slotBytes capacity : Nat}
    (made : create policy slotBytes capacity = .ok p) :
    p.head = ((empty policy : Pool ν).stock capacity).head := by
  cases policy with
  | static =>
    by_cases large : blockLimit ≤ slotBytes * capacity
    · simp [create, large] at made
    · simp only [create, if_neg large, Except.ok.injEq] at made
      rw [← made, head_note]
  | caching =>
    simp only [create, Except.ok.injEq] at made
    rw [← made, head_note, Pool.reserve]
    split
    next static => cases static
    next => cases capacity <;> rfl

theorem shelved_create {policy : Policy} {slotBytes capacity : Nat}
    (made : create policy slotBytes capacity = .ok p) :
    Shelved policy capacity (p, []) (.full capacity) := by
  obtain ⟨stocked, -, -⟩ := stocked_create made
  have size := stocked.length_add
  rw [List.length_range, List.length_nil, Nat.add_zero] at size
  refine ⟨stocked, rfl, size.symm, ?_, sized_create made⟩
  rw [head_create made]
  exact tag_stock rfl capacity

/-- Where the slots are between two calls, and what the tag of the head counts. -/
structure Arranged (s : Pool ν × List Nat) (shelf : Shelf) : Prop where
  free : s.1.free = shelf.free
  held : s.2 = shelf.held
  size : s.1.size = shelf.created
  /-- Every slot is free or held, and only once. -/
  once : (shelf.free ++ shelf.held).Perm (List.range shelf.created)
  tag : s.1.head.tag = BitVec.ofNat addressWidth shelf.exchanges

/-- The calls that leave a pool exactly as it is. -/
structure Settles (policy : Policy) (capacity : Nat) (s : Pool ν × List Nat) : Prop where
  exhausted_iff :
    (serve s .allocate).2.1 = some .exhausted ↔ policy = .static ∧ s.2.length = capacity
  exhausted : (serve s .allocate).2.1 = some .exhausted → (serve s .allocate).1 = s
  reserve : ∀ n, policy = .static ∨ n = 0 → (serve s (.reserve n)).1 = s

namespace Shelved

variable {policy : Policy} {capacity : Nat} {s : Pool ν × List Nat} {shelf : Shelf}

omit [Inhabited ν] in
theorem arranged (h : Shelved policy capacity s shelf) : Arranged s shelf where
  free := h.stocked.free_eq
  held := h.held_eq
  size := h.size_eq
  once := h.size_eq ▸ h.stocked.once
  tag := h.tag_eq

/-- A pool is exhausted when it cannot grow and all of its slots are held. -/
theorem exhausted_iff (h : Shelved policy capacity s shelf) :
    (serve s .allocate).2.1 = some .exhausted ↔ policy = .static ∧ s.2.length = capacity := by
  have length := h.stocked.length_add
  rw [h.allocate.1, h.held_eq]
  rcases free : shelf.free with _ | ⟨i, free⟩
  · rw [free, List.length_nil, Nat.zero_add] at length
    cases policy with
    | static => simp [Call.onShelf, free, length, h.sized.size_eq rfl]
    | caching => simp [Call.onShelf, free]
  · refine iff_of_false (by simp [Call.onShelf, free]) ?_
    rintro ⟨static, all⟩
    have size := h.sized.size_eq static
    rw [free, List.length_cons] at length
    omega

theorem settles (h : Shelved policy capacity s shelf) : Settles policy capacity s where
  exhausted_iff := h.exhausted_iff
  exhausted none := by
    obtain ⟨static, all⟩ := h.exhausted_iff.mp none
    have length := h.stocked.length_add
    have size := h.sized.size_eq static
    rw [h.held_eq] at all
    obtain free : shelf.free = [] := List.eq_nil_of_length_eq_zero (by omega)
    have empty : s.1.head.pointer = .none := by
      have path := h.stocked.path
      rwa [free] at path
    exact congrArg Prod.fst (serve_allocate_of_static empty (h.sized.policy_eq.trans static))
  reserve _ nothing :=
    congrArg Prod.fst (serve_reserve_of_nothing (nothing.imp_left h.sized.policy_eq.trans))

end Shelved

/-- A pool in the hands of one thread is a list of free slots, whatever calls the thread makes. It
gives what came last, refuses when all slots are held, and puts new slots in front in one exchange of
the head. The only pool that is not made is one whose block would not fit into memory. -/
theorem serves_last_returned_first (policy : Policy) (slotBytes capacity : Nat) :
    match (create policy slotBytes capacity : Except Fault (Pool ν)) with
    | .error _ => policy = .static ∧ blockLimit ≤ slotBytes * capacity
    | .ok p => ∀ calls,
      let reached := inTurn serve (p, []) calls
      let shelf := inTurn (Call.onShelf policy) (.full capacity) calls
      reached.2 = shelf.2 ∧ Arranged reached.1 shelf.1 ∧ Settles policy capacity reached.1 := by
  rcases made : (create policy slotBytes capacity : Except Fault (Pool ν)) with fault | p
  · cases policy with
    | static => exact ⟨rfl, Nat.not_lt.mp fun fits => by simp [create, Nat.not_le.mpr fits] at made⟩
    | caching => cases made
  · intro calls
    obtain ⟨answers, shelved⟩ := (shelved_create made).inTurn calls
    exact ⟨answers, shelved.arranged, shelved.settles⟩

example :
    let made : Except Fault (Pool Nat) := create .caching 16 2
    let calls : List Call := [.allocate, .reserve 2, .allocate, .deallocate 0, .allocate]
    made.map (fun p => (inTurn serve (p, []) calls).2) =
      .ok [(some (.slot 0), 1), (some .done, 1), (some (.slot 2), 1), (some .done, 1),
        (some (.slot 0), 1)] := by cbv

end OrderedAtomics.Pool
