import OrderedAtomics.Proofs.Pool.Stock
import OrderedAtomics.Queue

/-! The chain of a queue. The path from the head starts with a dummy and goes on with the nodes of
the elements, oldest first. The tail is on it, with at most one node behind. Every node that is not
on the chain is free or kept by somebody, and one that is kept may be written without harm. -/

namespace OrderedAtomics.Queue

variable {α : Type} {q q' : Queue α} {i : Nat}

/-! ### Cells -/

theorem next_eq (q : Queue α) : q.next = fun i => (q.pool.content i).next := by
  funext i
  unfold next Pool.content
  cases q.pool.node? i <;> rfl

theorem data_eq (q : Queue α) : q.data = fun i => (q.pool.content i).data := by
  funext i
  unfold data Pool.content
  cases q.pool.node? i <;> rfl

theorem next_congr (h : q'.pool.content = q.pool.content) : q'.next = q.next := by
  rw [next_eq, next_eq, h]

theorem data_congr (h : q'.pool.content = q.pool.content) : q'.data = q.data := by
  rw [data_eq, data_eq, h]

theorem next_setNext (hi : i < q.pool.size) (n : Link) :
    (q.setNext i n).next = Function.update q.next i n := by
  rw [next_eq, next_eq]
  exact Pool.field_modifyNode Node.next (fun node => ⟨n, node.data⟩) hi

theorem data_setNext (i : Nat) (n : Link) : (q.setNext i n).data = q.data := by
  rw [data_eq, data_eq]
  exact Pool.field_modifyNode_of_same Node.data (fun node => ⟨n, node.data⟩) (fun _ => rfl) i

theorem next_setData (i : Nat) (v : α) : (q.setData i v).next = q.next := by
  rw [next_eq, next_eq]
  exact Pool.field_modifyNode_of_same Node.next (fun node => ⟨node.next, some v⟩) (fun _ => rfl) i

theorem data_setData (hi : i < q.pool.size) (v : α) :
    (q.setData i v).data = Function.update q.data i (some v) := by
  rw [data_eq, data_eq]
  exact Pool.field_modifyNode Node.data (fun node => ⟨node.next, some v⟩) hi

theorem stocked_setNext {free others : List Nat} (h : q.pool.Stocked free others) (i : Nat)
    (n : Link) : (q.setNext i n).pool.Stocked free others :=
  h.modifyNode i fun node => ⟨n, node.data⟩

theorem content_take {o : Option Nat} (h : q.take = (o, q')) :
    q'.pool.content = q.pool.content := by
  have content : (q.take).2.pool.content = q.pool.content := Pool.content_take
  rwa [h] at content

theorem ends_take {o : Option Nat} (h : q.take = (o, q')) :
    q'.head = q.head ∧ q'.tail = q.tail := by
  have ends : (q.take).2.head = q.head ∧ (q.take).2.tail = q.tail := ⟨rfl, rfl⟩
  rwa [h] at ends

theorem take_eq_none (h : q.take = (none, q')) : q' = q := by
  rcases hp : q.pool.take with ⟨i, pool⟩
  simp only [take, hp, Prod.mk.injEq] at h
  obtain ⟨rfl, rfl⟩ := h
  rw [(Pool.take_eq_none hp).1]

/-! ### The chain -/

/-- Where a node links to. -/
def link (q : Queue α) (i : Nat) : Option Nat := (q.next i).pointer

theorem link_setNext (q : Queue α) (i : Nat) (n : Link) (j : Nat) :
    (q.setNext i n).link j = if j = i ∧ i < q.pool.size then n.pointer else q.link j := by
  by_cases hi : i < q.pool.size
  · rw [link, next_setNext hi, Function.update_apply]
    by_cases hj : j = i
    · simp [hi, hj]
    · simp [hj, link]
  · have same : q.setNext i n = q :=
      congrArg (Queue.mk q.head q.tail) (Pool.modifyNode_of_size_le (Nat.not_lt.mp hi) _)
    simp [same, hi]

/-- The nodes of the chain, the free ones and those that are kept are all the nodes there are. -/
structure Chained (q : Queue α) (chain free : List Nat) (vs : List α) (kept : List Nat) :
    Prop where
  path : Path q.link (some q.head.pointer) chain none
  tail : ∃ before, chain = before ++ [q.tail.pointer] ∨
    ∃ last, chain = before ++ [q.tail.pointer, last]
  data : chain.tail.map q.data = vs.map some
  stocked : q.pool.Stocked free (chain ++ kept)

namespace Chained

variable {chain free kept : List Nat} {vs : List α}

theorem perm (h : Chained q chain free vs kept) {kept' : List Nat} (hp : kept.Perm kept') :
    Chained q chain free vs kept' :=
  ⟨h.path, h.tail, h.data, h.stocked.perm (hp.append_left chain)⟩

theorem lt_size (h : Chained q chain free vs kept) (hi : i ∈ chain ++ kept) : i < q.pool.size :=
  h.stocked.lt_of_mem hi

theorem not_mem (h : Chained q chain free vs kept) (hi : i ∈ kept) : i ∉ chain :=
  h.stocked.apart hi

theorem chain_eq (h : Chained q chain free vs kept) :
    ∃ rest, chain = q.head.pointer :: rest ∧ Path q.link (q.link q.head.pointer) rest none :=
  h.path.eq_cons

theorem head_mem (h : Chained q chain free vs kept) : q.head.pointer ∈ chain := by
  obtain ⟨rest, rfl, -⟩ := h.chain_eq
  simp

theorem tail_mem (h : Chained q chain free vs kept) : q.tail.pointer ∈ chain := by
  obtain ⟨before, rfl | ⟨last, rfl⟩⟩ := h.tail <;> simp

/-- What comes after the dummy is not the dummy. -/
theorem link_ne_head (h : Chained q chain free vs kept) {j : Nat} (hi : i ∈ chain)
    (hj : q.link i = some j) : j ∈ chain ∧ j ≠ q.head.pointer := by
  have nodup := h.path.nodup
  obtain ⟨rest, rfl, tail⟩ := h.chain_eq
  have hr : j ∈ rest := by
    rcases List.mem_cons.mp hi with rfl | hi
    · rw [hj] at tail
      obtain ⟨rest, rfl, -⟩ := tail.eq_cons
      simp
    · exact tail.next_mem hi hj
  refine ⟨List.mem_cons_of_mem _ hr, ?_⟩
  rintro rfl
  exact (List.nodup_cons.mp nodup).1 hr

/-- Nothing but the free nodes changes. -/
theorem restock {free' kept' : List Nat} (h : Chained q chain free vs kept)
    (ends : q'.head = q.head ∧ q'.tail = q.tail) (content : q'.pool.content = q.pool.content)
    (stocked : q'.pool.Stocked free' (chain ++ kept')) : Chained q' chain free' vs kept' := by
  have hl : q'.link = q.link := by
    funext j; rw [link, next_congr content]; rfl
  refine ⟨?_, ?_, ?_, stocked⟩
  · rw [hl, ends.1]; exact h.path
  · rw [ends.2]; exact h.tail
  · rw [data_congr content]; exact h.data

theorem take (h : Chained q chain free vs kept) (ht : q.take = (some i, q')) :
    ∃ free', Chained q' chain free' vs (i :: kept) := by
  rcases hp : q.pool.take with ⟨i', pool⟩
  have ends := ends_take ht
  have content := content_take ht
  simp only [Queue.take, hp, Prod.mk.injEq] at ht
  obtain ⟨rfl, rfl⟩ := ht
  obtain ⟨free', hs⟩ := h.stocked.take hp
  exact ⟨free', h.restock ends content (hs.perm List.perm_middle.symm)⟩

theorem give (h : Chained q chain free vs (i :: kept)) :
    Chained (q.give i) chain (i :: free) vs kept :=
  h.restock ⟨rfl, rfl⟩ (Pool.content_give i) (h.stocked.perm List.perm_middle).give

theorem setNext (h : Chained q chain free vs kept) (hi : i ∈ kept) (n : Link) :
    Chained (q.setNext i n) chain free vs kept := by
  have hl := h.lt_size (List.mem_append_right chain hi)
  refine ⟨h.path.congr fun j hj => ?_, h.tail, by rw [data_setNext]; exact h.data,
    stocked_setNext h.stocked i n⟩
  rw [link_setNext, if_neg]
  rintro ⟨rfl, -⟩
  exact h.not_mem hi hj

theorem setData (h : Chained q chain free vs kept) (hi : i ∈ kept) (v : α) :
    Chained (q.setData i v) chain free vs kept := by
  have hl := h.lt_size (List.mem_append_right chain hi)
  refine ⟨h.path.congr fun j _ => ?_, h.tail, ?_,
    h.stocked.modifyNode i fun node => ⟨node.next, some v⟩⟩
  · rw [link, next_setData, link]
  · rw [← h.data, data_setData hl]
    refine List.map_congr_left fun j hj => Function.update_of_ne ?_ _ _
    rintro rfl
    exact h.not_mem hi (List.mem_of_mem_tail hj)

/-- A node without a link is the last one. -/
theorem eq_concat (h : Chained q chain free vs kept) (hn : q.link q.tail.pointer = none) :
    ∃ before, chain = before ++ [q.tail.pointer] :=
  h.path.eq_concat h.tail_mem hn

/-- The last node is linked to a new one. -/
theorem append {v : α} (h : Chained q chain free vs (i :: kept))
    (ht : q.link q.tail.pointer = none) (hi : q.link i = none) (hv : q.data i = some v) (tag) :
    Chained (q.setNext q.tail.pointer ⟨some i, tag⟩) (chain ++ [i]) free (vs ++ [v]) kept := by
  obtain ⟨before, rfl⟩ := h.eq_concat ht
  have hl := h.lt_size (List.mem_append_left _ h.tail_mem)
  have apart : q.tail.pointer ∉ before := fun hb =>
    (List.nodup_append.mp h.path.nodup).2.2 _ hb _ (by simp) rfl
  have ne : i ≠ q.tail.pointer := by
    rintro rfl
    exact h.not_mem (by simp) h.tail_mem
  have hlink : ∀ j, (q.setNext q.tail.pointer ⟨some i, tag⟩).link j =
      if j = q.tail.pointer then some i else q.link j := by
    intro j
    simp [link_setNext, hl]
  refine ⟨?_, ⟨before, .inr ⟨i, List.append_assoc ..⟩⟩, ?_, ?_⟩
  · rw [List.append_assoc]
    refine h.path.concat (fun j hj => ?_) ?_ ?_
    · rw [hlink, if_neg]
      rintro rfl
      exact apart hj
    · rw [hlink, if_pos rfl]
    · rw [hlink, if_neg ne, hi]
  · rw [data_setNext, List.tail_append_of_ne_nil (by simp), List.map_append, h.data,
      List.map_append, List.map_singleton, hv]
    rfl
  · rw [List.append_assoc]
    exact stocked_setNext h.stocked q.tail.pointer ⟨some i, tag⟩

/-- The tail moves on to the node behind it. -/
theorem swing {n : Nat} (h : Chained q chain free vs kept) (hn : q.link q.tail.pointer = some n)
    (tag) : Chained ⟨q.head, ⟨n, tag⟩, q.pool⟩ chain free vs kept := by
  refine ⟨h.path, ?_, h.data, h.stocked⟩
  have path := h.path
  obtain ⟨before, hc | ⟨last, hc⟩⟩ := h.tail
  · rw [hc] at path
    obtain ⟨mid, -, -, stop⟩ := Path.append.mp path
    rw [hn] at stop
    cases stop
  · rw [hc] at path
    obtain ⟨mid, -, -, hl, -⟩ := Path.append.mp path
    obtain rfl := Option.some.inj (hn.symm.trans hl)
    exact ⟨before ++ [q.tail.pointer], .inl (by rw [hc, List.append_assoc]; rfl)⟩

theorem swingTail {n : Nat} {expected : Tagged Nat} (h : Chained q chain free vs kept)
    (hn : q.tail = expected → q.link expected.pointer = some n) :
    Chained (q.swingTail expected n) chain free vs kept := by
  by_cases he : q.tail = expected
  · have moved : q.swingTail expected n = ⟨q.head, q.tail.advance n, q.pool⟩ := by
      simp [Queue.swingTail, he]
    rw [moved]
    exact h.swing (by rw [he]; exact hn he) (q.tail.tag + 1)
  · have stays : q.swingTail expected n = q := by simp [Queue.swingTail, he]
    rwa [stays]

theorem eq_nil (h : Chained q chain free vs kept) (hn : q.link q.head.pointer = none) :
    vs = [] := by
  obtain ⟨rest, rfl, path⟩ := h.chain_eq
  rw [hn] at path
  rw [path.eq_nil] at h
  exact List.map_eq_nil_iff.mp h.data.symm

/-- The node behind the dummy has the oldest element. It becomes the dummy; the tail is not at the
old one, which nobody on the chain needs any more. -/
theorem advance {n : Nat} (h : Chained q chain free vs kept) (hn : q.link q.head.pointer = some n)
    (apart : q.tail.pointer ≠ q.head.pointer) (tag) :
    ∃ rest v vs', vs = v :: vs' ∧ q.data n = some v ∧
      Chained (q.setHead ⟨n, tag⟩) (n :: rest) free vs' (q.head.pointer :: kept) := by
  obtain ⟨left, rfl, path⟩ := h.chain_eq
  rw [hn] at path
  obtain ⟨rest, rfl, -⟩ := path.eq_cons
  have data := h.data
  cases vs with
  | nil => cases data
  | cons v vs' =>
    obtain ⟨hv, hvs⟩ := List.cons.inj data
    refine ⟨rest, v, vs', rfl, hv, path, ?_, hvs, h.stocked.perm List.perm_middle.symm⟩
    obtain ⟨_ | ⟨first, before⟩, hc⟩ := h.tail
    · rcases hc with hc | ⟨last, hc⟩ <;> exact absurd (List.cons.inj hc).1.symm apart
    · refine ⟨before, hc.imp (fun hc => (List.cons.inj hc).2) fun ⟨last, hc⟩ => ⟨last, ?_⟩⟩
      exact (List.cons.inj hc).2

/-- A dummy with a node behind it means that there is an element. -/
theorem isNone_link_head (h : Chained q chain free vs kept) :
    (q.link q.head.pointer).isNone = vs.isEmpty := by
  rcases hn : q.link q.head.pointer with _ | n
  · rw [h.eq_nil hn]; rfl
  · obtain ⟨rest, rfl, path⟩ := h.chain_eq
    rw [hn] at path
    obtain ⟨rest, rfl, -⟩ := path.eq_cons
    have data := h.data
    cases vs with
    | nil => cases data
    | cons v vs' => rfl

end Chained

/-- A queue is made of a pool and the first slot that the pool gives. -/
theorem create_ok {policy : Policy} {capacity : Nat} {value : Footprint}
    (h : create policy capacity value = .ok q) :
    ∃ (p p' : Pool (Node α)) (dummy : Nat),
      Pool.create policy (value.slotBytes linkBytes) (nodesFor capacity) = .ok p ∧ p.take = (some dummy, p') ∧
      ∃ n : Link, n.pointer = none ∧
        q = setNext ⟨⟨dummy, 0⟩, ⟨dummy, 0⟩, p'.note (.queueCreated capacity)⟩ dummy n := by
  unfold create at h
  rcases hp : (Pool.create policy (value.slotBytes linkBytes) (nodesFor capacity) :
    Except Fault (Pool (Node α))) with e | p
  · rw [hp] at h; cases h
  · rcases ht : p.take with ⟨_ | dummy, p'⟩
    · simp [hp, ht, bind, Except.bind] at h
    · simp only [hp, ht, bind, Except.bind, pure, Except.pure, Except.ok.injEq] at h
      exact ⟨p, p', dummy, rfl, ht, _, rfl, h.symm⟩

/-- A new queue has a dummy and no elements. -/
theorem chained_create {policy : Policy} {capacity : Nat} {value : Footprint}
    (h : create policy capacity value = .ok q) :
    ∃ dummy free, Chained q [dummy] free [] [] := by
  obtain ⟨p, p', dummy, hp, ht, n, hn, rfl⟩ := create_ok h
  obtain ⟨free, stocked⟩ := (Pool.stocked_create hp).1.take ht
  have hd : dummy < p'.size := stocked.lt_of_mem (by simp)
  refine ⟨dummy, free, ⟨rfl, ?_⟩, ⟨[], .inl rfl⟩, rfl, stocked_setNext (stocked.note _) dummy _⟩
  rw [link, next_setNext (by exact hd), Function.update_self]
  exact hn

end OrderedAtomics.Queue
