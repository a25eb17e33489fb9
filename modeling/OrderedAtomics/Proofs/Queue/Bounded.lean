import OrderedAtomics.Proofs.Alone
import OrderedAtomics.Proofs.Queue.Chain

/-! A queue in the hands of one thread. Between two calls its tail is at the last node, and every
node that is not on the chain is free. The queue is then the list of its elements, and the pool
gives the limit of the list. -/

namespace OrderedAtomics.Queue

variable {α : Type} {q q₁ q₂ : Queue α} {v : α} {i : Nat}

/-! ### The reference -/

/-- What a call does to a list, oldest element first, that has room for so many elements. -/
def Call.onLedger (room : Option Nat) (l : Ledger α) : Call α → Ledger α × Reply α
  | .enqueue v =>
    if room = some l.elements.length then (l, .rejected v)
    else (⟨l.elements ++ [v], l.added + 1, l.removed⟩, .accepted)
  | .dequeue =>
    match l.elements with
    | [] => (l, .nothing)
    | v :: vs => (⟨vs, l.added, l.removed + 1⟩, .item v)
  | .isEmpty => (l, .truth l.elements.isEmpty)

/-! ### Calls without interference -/

section Calls

theorem call_eq {c : Call α} {r : Reply α} {visited : List (Queue α × Point α)}
    (course : protocol.Course q () (enter c) visited q₁ () r)
    (enough : visited.length ≤ soloSteps) : q.call c = (q₁, some r) := by
  simp only [call, course.alone_eq rfl enough, Option.map_some]

/-- A new node that has its element and no link. -/
def prepare (q : Queue α) (i : Nat) (v : α) : Queue α :=
  let q := q.setData i v
  q.setNext i ((q.next i).advance none)

/-- The node is linked to the last one, and the tail moves on to it. -/
def linkLast (q : Queue α) (i : Nat) : Queue α :=
  (q.setNext q.tail.pointer ((q.next q.tail.pointer).advance (some i))).swingTail q.tail i

theorem head_linkLast (q : Queue α) (i : Nat) : (q.linkLast i).head = q.head := rfl

theorem tail_linkLast (q : Queue α) (i : Nat) : (q.linkLast i).tail = q.tail.advance i :=
  if_pos rfl

theorem sized_setNext {policy : Policy} {n : Nat} (h : q.pool.Sized policy n) (i : Nat)
    (next : Link) : (q.setNext i next).pool.Sized policy n :=
  h.modifyNode i fun node => ⟨next, node.data⟩

theorem sized_setData {policy : Policy} {n : Nat} (h : q.pool.Sized policy n) (i : Nat) (v : α) :
    (q.setData i v).pool.Sized policy n :=
  h.modifyNode i fun node => ⟨node.next, some v⟩

theorem call_enqueue_of_full (full : q.take = (none, q)) :
    q.call (.enqueue v) = (q, some (.rejected v)) := by
  have refused : protocol.step false q () (.allocate v) = (q, (), .inr (.rejected v)) := by
    simp only [protocol, step, full]
  exact call_eq (.reply rfl refused) (by simp [soloSteps])

theorem call_enqueue (taken : q.take = (some i, q₁))
    (last : (q₁.prepare i v).link (q₁.prepare i v).tail.pointer = none) :
    q.call (.enqueue v) = ((q₁.prepare i v).linkLast i, some .accepted) := by
  let q₂ := q₁.prepare i v
  let next := q₂.next q₂.tail.pointer
  have allocated : protocol.step false q () (.allocate v) = (q₁, (), .inl (.write i v)) := by
    simp only [protocol, step, taken]
  have rechecked : protocol.step false q₂ () (.recheckTail i q₂.tail next) =
      (q₂, (), .inl (.link i q₂.tail next)) := by
    simp only [protocol, step, if_true, show next.pointer = none from last]
  have linked : protocol.step false q₂ () (.link i q₂.tail next) =
      (q₂.setNext q₂.tail.pointer (next.advance (some i)), (), .inl (.swing i q₂.tail)) := by
    simp [protocol, step, next]
  -- the node is written, its link is cleared, and the tail and the link of the last node are read
  exact call_eq (.step rfl allocated <| .step rfl rfl <| .step rfl rfl <| .step rfl rfl <|
    .step rfl rfl <| .step rfl rfl <| .step rfl rechecked <| .step rfl linked <| .reply rfl rfl)
    (by simp [soloSteps])

theorem call_dequeue_of_empty (last : q.link q.head.pointer = none)
    (alone : q.tail.pointer = q.head.pointer) : q.call .dequeue = (q, some .nothing) := by
  let next := q.next q.head.pointer
  have rechecked : protocol.step false q () (.recheckHead q.head q.tail next) =
      (q, (), .inr .nothing) := by
    simp only [protocol, step, if_true, alone, show next.pointer = none from last]
  exact call_eq (.step rfl rfl <| .step rfl rfl <| .step rfl rfl <| .reply rfl rechecked)
    (by simp [soloSteps])

/-- The node behind the dummy becomes the dummy, and the old one goes back to the pool. -/
theorem call_dequeue (link : q.link q.head.pointer = some i)
    (apart : q.tail.pointer ≠ q.head.pointer) (data : q.data i = some v) :
    q.call .dequeue =
      ((q.setHead (q.head.advance i)).give q.head.pointer, some (.item v)) := by
  let next := q.next q.head.pointer
  have rechecked : protocol.step false q () (.recheckHead q.head q.tail next) =
      (q, (), .inl (.copy q.head i)) := by
    simp only [protocol, step, if_true, if_neg apart.symm, show next.pointer = some i from link]
  have copied : protocol.step false q () (.copy q.head i) =
      (q, (), .inl (.swapHead q.head i (some v))) := by
    simp only [protocol, step, data]
  have swapped : protocol.step false q () (.swapHead q.head i (some v)) =
      (q.setHead (q.head.advance i), (), .inl (.release q.head.pointer (some v))) := by
    simp [protocol, step]
  exact call_eq (.step rfl rfl <| .step rfl rfl <| .step rfl rfl <| .step rfl rechecked <|
    .step rfl copied <| .step rfl swapped <| .reply rfl rfl) (by simp [soloSteps])

theorem call_isEmpty (q : Queue α) : q.call .isEmpty = (q, some (.truth q.isEmpty)) := rfl

end Calls

/-! ### Between two calls -/

theorem link_give (q : Queue α) (i : Nat) : (q.give i).link = q.link := by
  funext j
  have same : (q.give i).next = q.next := next_congr (Pool.content_give i)
  rw [link, link, same]

namespace Chained

variable {chain free kept : List Nat} {vs : List α}

/-- The dummy is the one node without an element. -/
theorem length_eq (h : Chained q chain free vs kept) : chain.length = vs.length + 1 := by
  obtain ⟨rest, rfl, -⟩ := h.chain_eq
  have length := congrArg List.length h.data
  simpa using length

theorem link_tail (h : Chained q chain free vs kept) {before : List Nat}
    (last : chain = before ++ [q.tail.pointer]) : q.link q.tail.pointer = none := by
  have path := h.path
  rw [last] at path
  obtain ⟨mid, -, -, stop⟩ := Path.append.mp path
  exact stop

/-- A node that is kept can get its element and lose its link. -/
theorem prepare (h : Chained q chain free vs (i :: kept)) (v : α) :
    Chained (q.prepare i v) chain free vs (i :: kept) ∧ (q.prepare i v).link i = none ∧
      (q.prepare i v).data i = some v := by
  have written := h.setData (List.mem_cons_self ..) v
  have lt := h.lt_size (List.mem_append_right chain (List.mem_cons_self ..))
  have lt' := written.lt_size (List.mem_append_right chain (List.mem_cons_self ..))
  refine ⟨written.setNext (List.mem_cons_self ..) _, ?_, ?_⟩
  · rw [Queue.prepare, link_setNext, if_pos ⟨rfl, lt'⟩]
    rfl
  · rw [Queue.prepare, data_setNext, data_setData lt, Function.update_self]

theorem linkLast {before : List Nat} (h : Chained q chain free vs (i :: kept))
    (last : chain = before ++ [q.tail.pointer]) (unlinked : q.link i = none)
    (data : q.data i = some v) : Chained (q.linkLast i) (chain ++ [i]) free (vs ++ [v]) kept := by
  have lt := h.lt_size (List.mem_append_left _ h.tail_mem)
  have appended := h.append (h.link_tail last) unlinked data ((q.next q.tail.pointer).tag + 1)
  refine appended.swingTail fun _ => ?_
  rw [link_setNext, if_pos ⟨rfl, lt⟩]

end Chained

/-- Every node that is not on the chain is free, and the tail is at the last node of the chain. The
tags count the elements that have come and gone. -/
structure Settled (policy : Policy) (capacity : Nat) (q : Queue α) (chain free : List Nat)
    (l : Ledger α) : Prop where
  chained : Chained q chain free l.elements []
  last : q.link q.tail.pointer = none
  head_tag : q.head.tag = BitVec.ofNat addressWidth l.removed
  tail_tag : q.tail.tag = BitVec.ofNat addressWidth l.added
  sized : q.pool.Sized policy (capacity + 1)

namespace Settled

variable {policy : Policy} {capacity : Nat} {chain free : List Nat} {l : Ledger α}

/-- All nodes are on the chain when the list has reached its limit, and only then. -/
theorem full_iff (h : Settled policy capacity q chain free l) :
    Pool.room policy (capacity + 1) = some (chain ++ []).length ↔
      Pool.room policy capacity = some l.elements.length := by
  rw [List.append_nil, h.chained.length_eq, Pool.room_succ]

theorem take_of_full (h : Settled policy capacity q chain free l)
    (full : Pool.room policy capacity = some l.elements.length) : q.take = (none, q) := by
  have none := h.sized.take_of_full h.chained.stocked (h.full_iff.mpr full)
  simp only [Queue.take, none]

theorem take_of_room (h : Settled policy capacity q chain free l)
    (room : Pool.room policy capacity ≠ some l.elements.length) :
    ∃ i q', q.take = (some i, q') ∧ q'.pool.Sized policy (capacity + 1) := by
  obtain ⟨i, p', taken, sized⟩ := h.sized.take_of_room h.chained.stocked (mt h.full_iff.mp room)
  exact ⟨i, ⟨q.head, q.tail, p'⟩, by simp only [Queue.take, taken], sized⟩

theorem enqueue (h : Settled policy capacity q chain free l)
    (room : Pool.room policy capacity ≠ some l.elements.length) (v : α) :
    ∃ q' chain' free', q.call (.enqueue v) = (q', some .accepted) ∧
      Settled policy capacity q' chain' free' ⟨l.elements ++ [v], l.added + 1, l.removed⟩ := by
  obtain ⟨i, q₁, taken, sized⟩ := h.take_of_room room
  obtain ⟨free', holding⟩ := h.chained.take taken
  obtain ⟨head, tail⟩ := ends_take taken
  obtain ⟨before, last⟩ := h.chained.eq_concat h.last
  obtain ⟨prepared, unlinked, written⟩ := holding.prepare v
  have head₂ : (q₁.prepare i v).head = q.head := head
  have tail₂ : (q₁.prepare i v).tail = q.tail := tail
  rw [← tail₂] at last
  have linked := prepared.linkLast last unlinked written
  have last' : chain ++ [i] = chain ++ [((q₁.prepare i v).linkLast i).tail.pointer] := by
    rw [tail_linkLast]
    rfl
  refine ⟨_, _, _, call_enqueue taken (prepared.link_tail last), linked, linked.link_tail last',
    ?_, ?_, sized_setNext (sized_setNext (sized_setData sized i v) i _) _ _⟩
  · rw [head_linkLast, head₂, h.head_tag]
  · rw [tail_linkLast, tail₂]
    exact Tagged.counts_advance h.tail_tag i

theorem dequeue_of_nil (h : Settled policy capacity q chain free l) (none : l.elements = []) :
    q.call .dequeue = (q, some .nothing) := by
  have empty := h.chained.isNone_link_head
  rw [none] at empty
  have length := h.chained.length_eq
  obtain ⟨rest, rfl, -⟩ := h.chained.chain_eq
  obtain rfl : rest = [] := List.eq_nil_of_length_eq_zero (by simpa [none] using length)
  exact call_dequeue_of_empty (Option.isNone_iff_eq_none.mp empty)
    (List.mem_singleton.mp h.chained.tail_mem)

theorem dequeue_of_cons {vs : List α} (h : Settled policy capacity q chain free l)
    (elements : l.elements = v :: vs) :
    ∃ q' chain' free', q.call .dequeue = (q', some (.item v)) ∧
      Settled policy capacity q' chain' free' ⟨vs, l.added, l.removed + 1⟩ := by
  have chained := h.chained
  rw [elements] at chained
  have nonempty : (q.link q.head.pointer).isNone = false := chained.isNone_link_head
  obtain ⟨i, link⟩ := Option.isSome_iff_exists.mp (Option.isNone_eq_false_iff.mp nonempty)
  have apart : q.tail.pointer ≠ q.head.pointer := by
    intro same
    have last := h.last
    rw [same, link] at last
    cases last
  obtain ⟨rest, v', vs', e, data, advanced⟩ := chained.advance link apart (q.head.tag + 1)
  obtain ⟨rfl, rfl⟩ := List.cons.inj e
  refine ⟨_, _, _, call_dequeue link apart data, advanced.give, ?_,
    Tagged.counts_advance h.head_tag i, h.tail_tag, h.sized.give _⟩
  rw [link_give]
  exact h.last

theorem isEmpty (h : Settled policy capacity q chain free l) :
    q.isEmpty = l.elements.isEmpty := h.chained.isNone_link_head

/-- Every call answers what it answers on the list. -/
theorem call (h : Settled policy capacity q chain free l) (c : Call α) :
    (q.call c).2 = some (c.onLedger (Pool.room policy capacity) l).2 ∧
      ∃ chain' free', Settled policy capacity (q.call c).1 chain' free'
        (c.onLedger (Pool.room policy capacity) l).1 := by
  cases c with
  | enqueue v =>
    by_cases full : Pool.room policy capacity = some l.elements.length
    · rw [call_enqueue_of_full (h.take_of_full full), Call.onLedger, if_pos full]
      exact ⟨rfl, chain, free, h⟩
    · obtain ⟨q', chain', free', called, settled⟩ := h.enqueue full v
      rw [called, Call.onLedger, if_neg full]
      exact ⟨rfl, chain', free', settled⟩
  | dequeue =>
    rcases elements : l.elements with _ | ⟨v, vs⟩
    · have answered : Call.dequeue.onLedger (Pool.room policy capacity) l = (l, .nothing) := by
        simp only [Call.onLedger, elements]
      rw [h.dequeue_of_nil elements, answered]
      exact ⟨rfl, chain, free, h⟩
    · have answered : Call.dequeue.onLedger (Pool.room policy capacity) l =
          (⟨vs, l.added, l.removed + 1⟩, .item v) := by
        simp only [Call.onLedger, elements]
      obtain ⟨q', chain', free', called, settled⟩ := h.dequeue_of_cons elements
      rw [called, answered]
      exact ⟨rfl, chain', free', settled⟩
  | isEmpty =>
    rw [call_isEmpty, h.isEmpty]
    exact ⟨rfl, chain, free, h⟩

end Settled

/-! ### Runs -/

/-- No pool is so large that the room for a dummy is not there. -/
theorem nodesFor_eq {p : Pool (Node α)} {capacity slotBytes : Nat} (positive : 0 < slotBytes)
    (h : Pool.create .static slotBytes (nodesFor capacity) = .ok p) :
    nodesFor capacity = capacity + 1 := by
  have fits : slotBytes * nodesFor capacity < Pool.blockLimit := by
    by_contra large
    simp [Pool.create, Nat.not_lt.mp large] at h
  have few : nodesFor capacity < Pool.blockLimit :=
    Nat.lt_of_le_of_lt (Nat.le_mul_of_pos_left _ positive) fits
  unfold nodesFor at few ⊢
  simp only [Pool.blockLimit, addressWidth, Nat.pow_eq] at few ⊢
  omega

theorem settled_create {policy : Policy} {capacity : Nat} {value : Footprint}
    (made : create policy capacity value = .ok q) :
    ∃ chain free, Settled policy capacity q chain free .blank := by
  obtain ⟨dummy, free, chained⟩ := chained_create made
  obtain ⟨p, p', first, created, taken, n, -, rfl⟩ := create_ok made
  have sized := (Pool.sized_create created).take
  rw [taken] at sized
  have nodes : policy = .static → p'.size = capacity + 1 := by
    rintro rfl
    rw [sized.size_eq rfl, nodesFor_eq (value.slotBytes_pos (by decide)) created]
  obtain rfl : first = dummy := List.mem_singleton.mp chained.tail_mem
  have last := @Chained.link_tail α _ [first] free [] [] chained [] rfl
  exact ⟨[first], free, chained, last, rfl, rfl,
    sized_setNext ⟨sized.policy_eq, nodes⟩ first n⟩

/-- Calls in turn on a new queue and on an empty list. -/
theorem settled_inTurn {policy : Policy} {capacity : Nat} {value : Footprint}
    (made : create policy capacity value = .ok q)
    (calls : List (Call α)) :
    let reached := inTurn call q calls
    let expected := inTurn (Call.onLedger (Pool.room policy capacity)) .blank calls
    reached.2 = expected.2.map some ∧
      ∃ chain free, Settled policy capacity reached.1 chain free expected.1 := by
  let alike (q : Queue α) (l : Ledger α) := ∃ chain free, Settled policy capacity q chain free l
  have step (c : Call α) (_ : c ∈ calls) (q : Queue α) (l : Ledger α) (h : alike q l) :
      (call q c).2 = some (c.onLedger (Pool.room policy capacity) l).2 ∧
        alike (call q c).1 (c.onLedger (Pool.room policy capacity) l).1 := by
    obtain ⟨_, _, settled⟩ := h
    exact settled.call c
  exact inTurn_alike step (settled_create made)

/-- Where the nodes of a queue are between two calls of its only thread, and what its tags count. -/
structure Arranged (q : Queue α) (l : Ledger α) (dummy : Nat) (nodes free : List Nat) : Prop where
  /-- The chain has a dummy and then the nodes of the elements, oldest first. -/
  chain_path : Path q.link (some q.head.pointer) (dummy :: nodes) none
  elements : nodes.map q.data = l.elements.map some
  tail : (dummy :: nodes).getLast? = some q.tail.pointer
  free_path : Path q.pool.next q.pool.head.pointer free none
  once : (free ++ dummy :: nodes).Perm (List.range q.pool.size)
  head_tag : q.head.tag = BitVec.ofNat addressWidth l.removed
  tail_tag : q.tail.tag = BitVec.ofNat addressWidth l.added

theorem Settled.arranged {policy : Policy} {capacity : Nat} {chain free : List Nat} {l : Ledger α}
    (h : Settled policy capacity q chain free l) :
    ∃ dummy nodes, Arranged q l dummy nodes free := by
  obtain ⟨before, last⟩ := h.chained.eq_concat h.last
  have tail : chain.getLast? = some q.tail.pointer := by rw [last, List.getLast?_concat]
  have once := h.chained.stocked.once
  rw [List.append_nil] at once
  obtain ⟨nodes, rfl, -⟩ := h.chained.chain_eq
  exact ⟨_, nodes, h.chained.path, h.chained.data, tail, h.chained.stocked.path, once, h.head_tag,
    h.tail_tag⟩

/-- What the functions on a queue answer whose elements are those of a list. -/
structure Answering (room : Option Nat) (q : Queue α) (l : Ledger α) : Prop where
  accept : room ≠ some l.elements.length → ∀ v, (q.enqueue v).1 = none
  /-- A queue that refuses an element stays as it was. -/
  refuse : room = some l.elements.length → ∀ v, q.enqueue v = (some v, q)
  dequeue : q.dequeue.1 = l.elements.head?
  isEmpty : q.isEmpty = l.elements.isEmpty

theorem Settled.answering {policy : Policy} {capacity : Nat} {chain free : List Nat} {l : Ledger α}
    (h : Settled policy capacity q chain free l) : Answering (Pool.room policy capacity) q l where
  accept room v := by
    obtain ⟨q', chain', free', called, -⟩ := h.enqueue room v
    simp only [Queue.enqueue, called]
  refuse full v := by
    simp only [Queue.enqueue, call_enqueue_of_full (h.take_of_full full)]
  dequeue := by
    rcases elements : l.elements with _ | ⟨v, vs⟩
    · simp only [Queue.dequeue, h.dequeue_of_nil elements, List.head?_nil]
    · obtain ⟨q', chain', free', called, -⟩ := h.dequeue_of_cons elements
      simp only [Queue.dequeue, called, List.head?_cons]
  isEmpty := h.isEmpty

/-- One thread that calls a new queue gets the answers of a list, first in and first out, that takes
as many elements as the queue was made for. Whatever calls it has made, every node is in its place
after the last of them. -/
theorem acts_as_fifo_list {policy : Policy} {capacity : Nat} {value : Footprint}
    (made : create policy capacity value = .ok q)
    (calls : List (Call α)) :
    let room := Pool.room policy capacity
    let reached := inTurn call q calls
    let expected := inTurn (Call.onLedger room) .blank calls
    reached.2 = expected.2.map some ∧ Answering room reached.1 expected.1 ∧
      ∃ dummy nodes free, Arranged reached.1 expected.1 dummy nodes free := by
  intro room reached expected
  obtain ⟨answers, chain, free, settled⟩ := settled_inTurn made calls
  obtain ⟨dummy, nodes, arranged⟩ := settled.arranged
  exact ⟨answers, settled.answering, dummy, nodes, free, arranged⟩

/-- A queue for one element refuses a second one, and its two nodes take turns as the dummy. -/
theorem acts_as_fifo_list_at_one : ∃ q : Queue Nat, create .static 1 = .ok q ∧
    let calls : List (Call Nat) := [.enqueue 10, .enqueue 20, .dequeue, .enqueue 30, .isEmpty,
      .dequeue, .dequeue, .isEmpty]
    (inTurn call q calls).2 = [.accepted, .rejected 20, .item 10, .accepted, .truth false,
      .item 30, .nothing, .truth true].map some :=
  ⟨_, rfl, (@acts_as_fifo_list Nat _ .static 1 .text rfl _).1⟩

end OrderedAtomics.Queue
