import OrderedAtomics.Proofs.Alone
import OrderedAtomics.Proofs.Stack.Chain

/-! A stack in the hands of one thread. Between two calls every node is either on the chain from the
top or free. The nodes go from one chain to the other and back, and each has a link for either of
them. -/

namespace OrderedAtomics.Stack

variable {α : Type} {s s₁ : Stack α} {v : α} {i : Nat}

/-! ### The reference -/

/-- What a call does to a list, newest element first, that has room for so many elements. -/
def Call.onLedger (room : Option Nat) (l : Ledger α) : Call α → Ledger α × Reply α
  | .push v =>
    if room = some l.elements.length then (l, .rejected v)
    else (⟨v :: l.elements, l.added + 1, l.removed⟩, .accepted)
  | .pop =>
    match l.elements with
    | [] => (l, .nothing)
    | v :: vs => (⟨vs, l.added, l.removed + 1⟩, .item v)
  | .isEmpty => (l, .truth l.elements.isEmpty)
  | .reserve _ => (l, .done)

/-! ### Calls without interference -/

section Calls

theorem call_eq {c : Call α} {r : Reply α} {visited : List (Stack α × Point α)}
    (course : protocol.Course s () (enter c) visited s₁ () r)
    (enough : visited.length ≤ soloSteps) : s.call c = (s₁, some r) := by
  simp only [call, course.alone_eq rfl enough, Option.map_some]

/-- A new node that has its element and a link to the top. -/
def prepare (s : Stack α) (i : Nat) (v : α) : Stack α := (s.setData i v).setNext i s.top.pointer

theorem call_push_of_full (full : s.take = (none, s)) :
    s.call (.push v) = (s, some (.rejected v)) := by
  have refused : protocol.step false s () (.allocate v) = (s, (), .inr (.rejected v)) := by
    simp only [protocol, step, full]
  exact call_eq (.reply rfl refused) (by simp [soloSteps])

theorem call_push (taken : s.take = (some i, s₁)) :
    s.call (.push v) = ((s₁.prepare i v).setTop (s₁.top.advance (some i)), some .accepted) := by
  have allocated : protocol.step false s () (.allocate v) = (s₁, (), .inl (.write i v)) := by
    simp only [protocol, step, taken]
  have swapped : protocol.step false (s₁.prepare i v) () (.swapForPush i s₁.top) =
      ((s₁.prepare i v).setTop (s₁.top.advance (some i)), (), .inr .accepted) := by
    have same : (s₁.prepare i v).top = s₁.top := rfl
    simp [protocol, step, same]
  -- the element is written, the top is read, and the link is written
  exact call_eq (.step rfl allocated <| .step rfl rfl <| .step rfl rfl <| .step rfl rfl <|
    .reply rfl swapped) (by simp [soloSteps])

theorem call_pop_of_empty (empty : s.top.pointer = none) : s.call .pop = (s, some .nothing) := by
  have seen : protocol.step false s () .takeTop = (s, (), .inr .nothing) := by
    simp only [protocol, step, popAt, empty]
  exact call_eq (.reply rfl seen) (by simp [soloSteps])

/-- The first node of the chain leaves it with its element and goes back to the pool. -/
theorem call_pop (top : s.top.pointer = some i) (data : s.data i = some v) :
    s.call .pop = ((s.setTop (s.top.advance (s.next i))).give i, some (.item v)) := by
  let s₁ := s.setTop (s.top.advance (s.next i))
  have seen : protocol.step false s () .takeTop = (s, (), .inl (.takeNext s.top i)) := by
    simp only [protocol, step, popAt, top]
  have swapped : protocol.step false s () (.swapForPop s.top i (s.next i)) =
      (s₁, (), .inl (.read i)) := by
    simp [protocol, step, s₁]
  have taken : protocol.step false s₁ () (.read i) = (s₁, (), .inl (.release i (some v))) := by
    have same : s₁.data i = some v := data
    simp only [protocol, step, same]
  exact call_eq (.step rfl seen <| .step rfl rfl <| .step rfl swapped <| .step rfl taken <|
    .reply rfl rfl) (by simp [soloSteps])

theorem call_isEmpty (s : Stack α) : s.call .isEmpty = (s, some (.truth s.isEmpty)) := rfl

theorem call_reserve (s : Stack α) (n : Nat) : s.call (.reserve n) = (s.reserve n, some .done) :=
  rfl

end Calls

/-! ### Between two calls -/

/-- A node that is kept can get its element and a link to the top. -/
theorem Chained.prepare {chain free kept : List Nat} {vs : List α}
    (h : Chained s chain free vs (i :: kept)) (v : α) :
    Chained (s.prepare i v) chain free vs (i :: kept) ∧
      (s.prepare i v).next i = (s.prepare i v).top.pointer ∧
      (s.prepare i v).data i = some v := by
  have written := h.setData (List.mem_cons_self ..) v
  have lt := h.lt_size (List.mem_cons_self ..)
  have lt' := written.lt_size (List.mem_cons_self ..)
  refine ⟨written.setNext (List.mem_cons_self ..) _, ?_, ?_⟩
  · rw [Stack.prepare, next_setNext lt', Function.update_self]
    rfl
  · rw [Stack.prepare, data_setNext, data_setData lt, Function.update_self]

/-- Every node that is not on the chain is free. The tag of the top counts the elements that have
come and gone. -/
structure Settled (policy : Policy) (capacity : Nat) (s : Stack α) (chain free : List Nat)
    (l : Ledger α) : Prop where
  chained : Chained s chain free l.elements []
  tag : s.top.tag = BitVec.ofNat addressWidth (l.added + l.removed)
  sized : s.pool.Sized policy capacity

namespace Settled

variable {policy : Policy} {capacity : Nat} {chain free : List Nat} {l : Ledger α}

/-- All nodes are on the chain when the list has reached its limit, and only then. -/
theorem full_iff (h : Settled policy capacity s chain free l) :
    Pool.room policy capacity = some (chain ++ []).length ↔
      Pool.room policy capacity = some l.elements.length := by
  have length := congrArg List.length h.chained.data
  rw [List.length_map, List.length_map] at length
  rw [List.append_nil, length]

theorem take_of_full (h : Settled policy capacity s chain free l)
    (full : Pool.room policy capacity = some l.elements.length) : s.take = (none, s) := by
  have none := h.sized.take_of_full h.chained.stocked (h.full_iff.mpr full)
  simp only [Stack.take, none]

theorem take_of_room (h : Settled policy capacity s chain free l)
    (room : Pool.room policy capacity ≠ some l.elements.length) :
    ∃ i s', s.take = (some i, s') ∧ s'.pool.Sized policy capacity := by
  obtain ⟨i, p', taken, sized⟩ := h.sized.take_of_room h.chained.stocked (mt h.full_iff.mp room)
  exact ⟨i, ⟨s.top, p'⟩, by simp only [Stack.take, taken], sized⟩

theorem push (h : Settled policy capacity s chain free l)
    (room : Pool.room policy capacity ≠ some l.elements.length) (v : α) :
    ∃ s' chain' free', s.call (.push v) = (s', some .accepted) ∧
      Settled policy capacity s' chain' free' ⟨v :: l.elements, l.added + 1, l.removed⟩ := by
  obtain ⟨i, s₁, taken, sized⟩ := h.take_of_room room
  obtain ⟨free', holding⟩ := h.chained.take taken
  obtain ⟨prepared, linked, written⟩ := holding.prepare v
  have tag := Tagged.counts_advance ((congrArg Tagged.tag (top_take taken)).trans h.tag) (some i)
  rw [Nat.add_right_comm] at tag
  exact ⟨_, _, _, call_push taken, prepared.push linked written _, tag,
    (sized.modifyNode i fun node => ⟨node.next, some v⟩).modifyNode i
      fun node => ⟨s₁.top.pointer, node.data⟩⟩

theorem pop_of_nil (h : Settled policy capacity s chain free l) (none : l.elements = []) :
    s.call .pop = (s, some .nothing) := by
  have empty := h.chained.isEmpty_eq
  rw [none] at empty
  exact call_pop_of_empty (Option.isNone_iff_eq_none.mp empty)

theorem pop_of_cons {vs : List α} (h : Settled policy capacity s chain free l)
    (elements : l.elements = v :: vs) :
    ∃ s' chain' free', s.call .pop = (s', some (.item v)) ∧
      Settled policy capacity s' chain' free' ⟨vs, l.added, l.removed + 1⟩ := by
  have chained := h.chained
  rw [elements] at chained
  have nonempty : s.top.pointer.isNone = false := chained.isEmpty_eq
  obtain ⟨i, top⟩ := Option.isSome_iff_exists.mp (Option.isNone_eq_false_iff.mp nonempty)
  obtain ⟨rest, v', vs', -, e, data, popped⟩ := chained.pop top (s.top.tag + 1)
  obtain ⟨rfl, rfl⟩ := List.cons.inj e
  exact ⟨_, _, _, call_pop top data, popped.give, Tagged.counts_advance h.tag (s.next i),
    h.sized.give i⟩

theorem isEmpty (h : Settled policy capacity s chain free l) : s.isEmpty = l.elements.isEmpty :=
  h.chained.isEmpty_eq

theorem reserve (h : Settled policy capacity s chain free l) (n : Nat) :
    ∃ free', Settled policy capacity (s.reserve n) chain free' l := by
  obtain ⟨free', reserved⟩ := h.chained.reserve n
  exact ⟨free', reserved, h.tag, h.sized.reserve n⟩

/-- Every call answers what it answers on the list. -/
theorem call (h : Settled policy capacity s chain free l) (c : Call α) :
    (s.call c).2 = some (c.onLedger (Pool.room policy capacity) l).2 ∧
      ∃ chain' free', Settled policy capacity (s.call c).1 chain' free'
        (c.onLedger (Pool.room policy capacity) l).1 := by
  cases c with
  | push v =>
    by_cases full : Pool.room policy capacity = some l.elements.length
    · rw [call_push_of_full (h.take_of_full full), Call.onLedger, if_pos full]
      exact ⟨rfl, chain, free, h⟩
    · obtain ⟨s', chain', free', called, settled⟩ := h.push full v
      rw [called, Call.onLedger, if_neg full]
      exact ⟨rfl, chain', free', settled⟩
  | pop =>
    rcases elements : l.elements with _ | ⟨v, vs⟩
    · have answered : Call.pop.onLedger (Pool.room policy capacity) l = (l, .nothing) := by
        simp only [Call.onLedger, elements]
      rw [h.pop_of_nil elements, answered]
      exact ⟨rfl, chain, free, h⟩
    · have answered : Call.pop.onLedger (Pool.room policy capacity) l =
          (⟨vs, l.added, l.removed + 1⟩, .item v) := by
        simp only [Call.onLedger, elements]
      obtain ⟨s', chain', free', called, settled⟩ := h.pop_of_cons elements
      rw [called, answered]
      exact ⟨rfl, chain', free', settled⟩
  | isEmpty =>
    rw [call_isEmpty, h.isEmpty]
    exact ⟨rfl, chain, free, h⟩
  | reserve n =>
    obtain ⟨free', settled⟩ := h.reserve n
    rw [call_reserve]
    exact ⟨rfl, chain, free', settled⟩

end Settled

/-! ### Runs -/

theorem settled_create {policy : Policy} {capacity : Nat} {value : Footprint}
    (made : create policy capacity value = .ok s) :
    Settled policy capacity s [] (List.range capacity) .blank := by
  have chained := chained_create made
  obtain ⟨p, created, rfl⟩ := create_ok made
  have sized := Pool.sized_create created
  exact ⟨chained, rfl, sized.policy_eq, sized.size_eq⟩

/-- Calls in turn on a new stack and on an empty list. -/
theorem settled_inTurn {policy : Policy} {capacity : Nat} {value : Footprint}
    (made : create policy capacity value = .ok s)
    (calls : List (Call α)) :
    let reached := inTurn call s calls
    let expected := inTurn (Call.onLedger (Pool.room policy capacity)) .blank calls
    reached.2 = expected.2.map some ∧
      ∃ chain free, Settled policy capacity reached.1 chain free expected.1 := by
  let alike (s : Stack α) (l : Ledger α) := ∃ chain free, Settled policy capacity s chain free l
  have step (c : Call α) (_ : c ∈ calls) (s : Stack α) (l : Ledger α) (h : alike s l) :
      (call s c).2 = some (c.onLedger (Pool.room policy capacity) l).2 ∧
        alike (call s c).1 (c.onLedger (Pool.room policy capacity) l).1 := by
    obtain ⟨_, _, settled⟩ := h
    exact settled.call c
  exact inTurn_alike step ⟨[], List.range capacity, settled_create made⟩

/-- Where the nodes of a stack are between two calls of its only thread, and what the tag of its top
counts. -/
structure Arranged (s : Stack α) (l : Ledger α) (nodes free : List Nat) : Prop where
  /-- The chain has the nodes of the elements, newest first. -/
  chain_path : Path s.next s.top.pointer nodes none
  elements : nodes.map s.data = l.elements.map some
  free_path : Path s.pool.next s.pool.head.pointer free none
  once : (free ++ nodes).Perm (List.range s.pool.size)
  tag : s.top.tag = BitVec.ofNat addressWidth (l.added + l.removed)

theorem Settled.arranged {policy : Policy} {capacity : Nat} {chain free : List Nat} {l : Ledger α}
    (h : Settled policy capacity s chain free l) : Arranged s l chain free := by
  have once := h.chained.stocked.once
  rw [List.append_nil] at once
  exact ⟨h.chained.path, h.chained.data, h.chained.stocked.path, once, h.tag⟩

/-- What the functions on a stack answer whose elements are those of a list. -/
structure Answering (room : Option Nat) (s : Stack α) (l : Ledger α) : Prop where
  accept : room ≠ some l.elements.length → ∀ v, (s.push v).1 = none
  /-- A stack that refuses an element stays as it was. -/
  refuse : room = some l.elements.length → ∀ v, s.push v = (some v, s)
  pop : s.pop.1 = l.elements.head?
  isEmpty : s.isEmpty = l.elements.isEmpty

theorem Settled.answering {policy : Policy} {capacity : Nat} {chain free : List Nat} {l : Ledger α}
    (h : Settled policy capacity s chain free l) :
    Answering (Pool.room policy capacity) s l where
  accept room v := by
    obtain ⟨s', chain', free', called, -⟩ := h.push room v
    simp only [Stack.push, called]
  refuse full v := by
    simp only [Stack.push, call_push_of_full (h.take_of_full full)]
  pop := by
    rcases elements : l.elements with _ | ⟨v, vs⟩
    · simp only [Stack.pop, h.pop_of_nil elements, List.head?_nil]
    · obtain ⟨s', chain', free', called, -⟩ := h.pop_of_cons elements
      simp only [Stack.pop, called, List.head?_cons]
  isEmpty := h.isEmpty

/-- One thread that calls a new stack gets the answers of a list, last in and first out, that takes
as many elements as the stack was made for, whatever has been reserved. Whatever calls it has made,
every node is in its place after the last of them. -/
theorem acts_as_lifo_list {policy : Policy} {capacity : Nat} {value : Footprint}
    (made : create policy capacity value = .ok s) (calls : List (Call α)) :
    let room := Pool.room policy capacity
    let reached := inTurn call s calls
    let expected := inTurn (Call.onLedger room) .blank calls
    reached.2 = expected.2.map some ∧ Answering room reached.1 expected.1 ∧
      ∃ nodes free, Arranged reached.1 expected.1 nodes free := by
  intro room reached expected
  obtain ⟨answers, chain, free, settled⟩ := settled_inTurn made calls
  exact ⟨answers, settled.answering, chain, free, settled.arranged⟩

/-- A stack for two elements refuses a third one, also after more room has been asked for. -/
theorem acts_as_lifo_list_at_two : ∃ s : Stack Nat, create .static 2 = .ok s ∧
    let calls : List (Call Nat) := [.push 10, .push 20, .reserve 5, .push 30, .pop, .push 40, .pop,
      .pop, .pop, .isEmpty]
    (inTurn call s calls).2 = [.accepted, .accepted, .done, .rejected 30, .item 20, .accepted,
      .item 40, .item 10, .nothing, .truth true].map some :=
  ⟨_, rfl, (@acts_as_lifo_list Nat _ .static 2 .text rfl _).1⟩

end OrderedAtomics.Stack
