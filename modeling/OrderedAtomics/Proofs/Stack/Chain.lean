import OrderedAtomics.Proofs.Pool.Stock
import OrderedAtomics.Stack

/-! The chain of a stack. The nodes on the path from the top have its elements, newest first; every
other node is free or kept by somebody. A node that is kept may be written without harm. -/

namespace OrderedAtomics.Stack

variable {α : Type} {s s' : Stack α} {i : Nat}

/-! ### Cells -/

theorem next_eq (s : Stack α) : s.next = fun i => (s.pool.content i).next := by
  funext i
  unfold next Pool.content
  cases s.pool.node? i <;> rfl

theorem data_eq (s : Stack α) : s.data = fun i => (s.pool.content i).data := by
  funext i
  unfold data Pool.content
  cases s.pool.node? i <;> rfl

theorem next_congr (h : s'.pool.content = s.pool.content) : s'.next = s.next := by
  rw [next_eq, next_eq, h]

theorem data_congr (h : s'.pool.content = s.pool.content) : s'.data = s.data := by
  rw [data_eq, data_eq, h]

theorem next_setNext (hi : i < s.pool.size) (n : Option Nat) :
    (s.setNext i n).next = Function.update s.next i n := by
  rw [next_eq, next_eq]
  exact Pool.field_modifyNode Node.next (fun node => ⟨n, node.data⟩) hi

theorem data_setNext (i : Nat) (n : Option Nat) : (s.setNext i n).data = s.data := by
  rw [data_eq, data_eq]
  exact Pool.field_modifyNode_of_same Node.data (fun node => ⟨n, node.data⟩) (fun _ => rfl) i

theorem next_setData (i : Nat) (v : α) : (s.setData i v).next = s.next := by
  rw [next_eq, next_eq]
  exact Pool.field_modifyNode_of_same Node.next (fun node => ⟨node.next, some v⟩) (fun _ => rfl) i

theorem data_setData (hi : i < s.pool.size) (v : α) :
    (s.setData i v).data = Function.update s.data i (some v) := by
  rw [data_eq, data_eq]
  exact Pool.field_modifyNode Node.data (fun node => ⟨node.next, some v⟩) hi

theorem top_take {o : Option Nat} (h : s.take = (o, s')) : s'.top = s.top := by
  have top : (s.take).2.top = s.top := rfl
  rwa [h] at top

theorem content_take {o : Option Nat} (h : s.take = (o, s')) :
    s'.pool.content = s.pool.content := by
  have content : (s.take).2.pool.content = s.pool.content := Pool.content_take
  rwa [h] at content

theorem take_eq_none (h : s.take = (none, s')) : s' = s := by
  rcases hp : s.pool.take with ⟨i, pool⟩
  simp only [take, hp, Prod.mk.injEq] at h
  obtain ⟨rfl, rfl⟩ := h
  rw [(Pool.take_eq_none hp).1]

/-! ### The chain -/

/-- The nodes of the chain, the free ones and those that are kept are all the nodes there are. -/
structure Chained (s : Stack α) (chain free : List Nat) (vs : List α) (kept : List Nat) :
    Prop where
  path : Path s.next s.top.pointer chain none
  data : chain.map s.data = vs.map some
  stocked : s.pool.Stocked free (chain ++ kept)

namespace Chained

variable {chain free kept : List Nat} {vs : List α}

theorem perm (h : Chained s chain free vs kept) {kept' : List Nat} (hp : kept.Perm kept') :
    Chained s chain free vs kept' :=
  ⟨h.path, h.data, h.stocked.perm (hp.append_left chain)⟩

theorem lt_size (h : Chained s chain free vs kept) (hi : i ∈ kept) : i < s.pool.size :=
  h.stocked.lt_of_mem (List.mem_append_right chain hi)

theorem not_mem (h : Chained s chain free vs kept) (hi : i ∈ kept) : i ∉ chain :=
  h.stocked.apart hi

/-- Nothing but the free nodes changes. -/
theorem restock {free' kept' : List Nat} (h : Chained s chain free vs kept)
    (top : s'.top = s.top) (content : s'.pool.content = s.pool.content)
    (stocked : s'.pool.Stocked free' (chain ++ kept')) : Chained s' chain free' vs kept' :=
  ⟨by rw [next_congr content, top]; exact h.path, by rw [data_congr content]; exact h.data, stocked⟩

theorem take (h : Chained s chain free vs kept) (ht : s.take = (some i, s')) :
    ∃ free', Chained s' chain free' vs (i :: kept) := by
  rcases hp : s.pool.take with ⟨i', pool⟩
  have top := top_take ht
  have content := content_take ht
  simp only [Stack.take, hp, Prod.mk.injEq] at ht
  obtain ⟨rfl, rfl⟩ := ht
  obtain ⟨free', hs⟩ := h.stocked.take hp
  exact ⟨free', h.restock top content (hs.perm List.perm_middle.symm)⟩

theorem give (h : Chained s chain free vs (i :: kept)) :
    Chained (s.give i) chain (i :: free) vs kept :=
  h.restock rfl (Pool.content_give i) (h.stocked.perm List.perm_middle).give

theorem reserve (h : Chained s chain free vs kept) (n : Nat) :
    ∃ free', Chained (s.reserve n) chain free' vs kept := by
  obtain ⟨free', hs⟩ := h.stocked.reserve n
  exact ⟨free', h.restock rfl (Pool.content_reserve n) hs⟩

theorem setNext (h : Chained s chain free vs kept) (hi : i ∈ kept) (n : Option Nat) :
    Chained (s.setNext i n) chain free vs kept := by
  have hl := h.lt_size hi
  refine ⟨h.path.congr fun j hj => ?_, by rw [data_setNext]; exact h.data,
    h.stocked.modifyNode i fun node => ⟨n, node.data⟩⟩
  rw [next_setNext hl, Function.update_of_ne]
  rintro rfl
  exact h.not_mem hi hj

theorem setData (h : Chained s chain free vs kept) (hi : i ∈ kept) (v : α) :
    Chained (s.setData i v) chain free vs kept := by
  have hl := h.lt_size hi
  refine ⟨by rw [next_setData]; exact h.path, ?_,
    h.stocked.modifyNode i fun node => ⟨node.next, some v⟩⟩
  rw [← h.data, data_setData hl]
  refine List.map_congr_left fun j hj => Function.update_of_ne ?_ _ _
  rintro rfl
  exact h.not_mem hi hj

/-- The first node of the chain has the newest element. -/
theorem pop (h : Chained s chain free vs kept) (hi : s.top.pointer = some i) (tag) :
    ∃ rest v vs', chain = i :: rest ∧ vs = v :: vs' ∧ s.data i = some v ∧
      Chained (s.setTop ⟨s.next i, tag⟩) rest free vs' (i :: kept) := by
  obtain ⟨path, data, stocked⟩ := h
  rw [hi] at path
  obtain ⟨rest, rfl, tail⟩ := path.eq_cons
  cases vs with
  | nil => cases data
  | cons v vs' =>
    obtain ⟨hv, hvs⟩ := List.cons.inj data
    exact ⟨rest, v, vs', rfl, rfl, hv, tail, hvs, stocked.perm List.perm_middle.symm⟩

/-- A node that is linked to the first one of the chain comes before it. -/
theorem push {v : α} (h : Chained s chain free vs (i :: kept)) (hn : s.next i = s.top.pointer)
    (hv : s.data i = some v) (tag) :
    Chained (s.setTop ⟨some i, tag⟩) (i :: chain) free (v :: vs) kept := by
  refine ⟨⟨rfl, ?_⟩, ?_, h.stocked.perm List.perm_middle⟩
  · exact (congrArg (Path s.next · chain none) hn).mpr h.path
  · exact congrArg₂ List.cons hv h.data

theorem eq_nil (h : Chained s chain free vs kept) (ht : s.top.pointer = none) : vs = [] := by
  obtain ⟨path, data, -⟩ := h
  rw [ht] at path
  rw [path.eq_nil] at data
  exact List.map_eq_nil_iff.mp data.symm

/-- A stack with a node at its top has an element. -/
theorem isEmpty_eq (h : Chained s chain free vs kept) : s.isEmpty = vs.isEmpty := by
  unfold isEmpty
  rcases ht : s.top.pointer with _ | i
  · rw [h.eq_nil ht]; rfl
  · obtain ⟨-, v, vs', -, rfl, -⟩ := h.pop ht 0
    rfl

end Chained

/-- A stack is made of a pool; what the pool has reported does not matter. -/
theorem create_ok {policy : Policy} {capacity : Nat} {value : Footprint}
    (h : create policy capacity value = .ok s) :
    ∃ p : Pool (Node α), Pool.create policy (value.slotBytes linkBytes) capacity = .ok p ∧
      s = ⟨.null, ⟨p.policy, p.head, p.slots, p.notices ++ [.stackCreated capacity]⟩⟩ := by
  unfold create at h
  rcases hp : (Pool.create policy (value.slotBytes linkBytes) capacity :
    Except Fault (Pool (Node α))) with e | p
  · rw [hp] at h; cases h
  · rw [hp] at h
    cases h
    exact ⟨p, rfl, rfl⟩

/-- A new stack has no elements. -/
theorem chained_create {policy : Policy} {capacity : Nat} {value : Footprint}
    (h : create policy capacity value = .ok s) :
    Chained s [] (List.range capacity) [] [] := by
  obtain ⟨p, hp, rfl⟩ := create_ok h
  obtain ⟨⟨path, once⟩, -⟩ := Pool.stocked_create hp
  exact ⟨rfl, rfl, path, once⟩

end OrderedAtomics.Stack
