import Mathlib.Logic.Function.Basic
import OrderedAtomics.Pool
import OrderedAtomics.Proofs.Path

/-! Whole operations of a pool. The free slots are those on the path from the head, and together
with the slots that are elsewhere they are all slots there are, each once. Taking and giving moves
slots between the two, and neither touches what is in a slot. -/

namespace OrderedAtomics.Pool

variable {ν : Type} {p p' : Pool ν}

/-! ### Fields -/

@[simp] theorem head_setNext (i : Nat) (n : Option Nat) : (p.setNext i n).head = p.head := rfl

@[simp] theorem policy_setNext (i : Nat) (n : Option Nat) : (p.setNext i n).policy = p.policy := rfl

@[simp] theorem size_setNext (i : Nat) (n : Option Nat) : (p.setNext i n).size = p.size := by
  simp [setNext, size]

theorem next_setNext {i : Nat} (hi : i < p.size) (n : Option Nat) :
    (p.setNext i n).next = Function.update p.next i n := by
  funext j
  by_cases hj : j = i
  · subst hj
    simp [setNext, next, Array.getElem?_modify, Array.getElem?_eq_getElem hi]
  · simp [setNext, next, Array.getElem?_modify, hj, Ne.symm hj]

@[simp] theorem node?_setNext (i : Nat) (n : Option Nat) : (p.setNext i n).node? = p.node? := by
  funext j
  by_cases hj : i = j
  · subst hj
    rcases h : p.slots[i]? with _ | slot <;> simp [setNext, node?, Array.getElem?_modify, h]
  · simp [setNext, node?, Array.getElem?_modify, hj]

@[simp] theorem head_setHead (h : Link) : (p.setHead h).head = h := rfl

@[simp] theorem policy_setHead (h : Link) : (p.setHead h).policy = p.policy := rfl

@[simp] theorem size_setHead (h : Link) : (p.setHead h).size = p.size := rfl

@[simp] theorem next_setHead (h : Link) : (p.setHead h).next = p.next := rfl

@[simp] theorem node?_setHead (h : Link) : (p.setHead h).node? = p.node? := rfl

@[simp] theorem head_note (n : Notice) : (p.note n).head = p.head := rfl

@[simp] theorem policy_note (n : Notice) : (p.note n).policy = p.policy := rfl

@[simp] theorem size_note (n : Notice) : (p.note n).size = p.size := rfl

@[simp] theorem next_note (n : Notice) : (p.note n).next = p.next := rfl

@[simp] theorem node?_note (n : Notice) : (p.note n).node? = p.node? := rfl

@[simp] theorem head_modifyNode (i : Nat) (f : ν → ν) : (p.modifyNode i f).head = p.head := rfl

@[simp] theorem policy_modifyNode (i : Nat) (f : ν → ν) :
    (p.modifyNode i f).policy = p.policy := rfl

@[simp] theorem size_modifyNode (i : Nat) (f : ν → ν) : (p.modifyNode i f).size = p.size := by
  simp [modifyNode, size]

@[simp] theorem next_modifyNode (i : Nat) (f : ν → ν) : (p.modifyNode i f).next = p.next := by
  funext j
  by_cases hj : i = j
  · subst hj
    rcases h : p.slots[i]? with _ | slot <;> simp [modifyNode, next, Array.getElem?_modify, h]
  · simp [modifyNode, next, Array.getElem?_modify, hj]

/-- There is nothing to modify in a slot that does not exist. -/
theorem modifyNode_of_size_le {i : Nat} (h : p.size ≤ i) (f : ν → ν) : p.modifyNode i f = p := by
  have same : p.slots.modify i (fun s => ⟨s.next, f s.node⟩) = p.slots := by
    apply Array.ext_getElem?
    intro j
    rw [Array.getElem?_modify]
    split
    next hj => subst hj; rw [Array.getElem?_eq_none (by exact h)]; rfl
    next => rfl
  exact congrArg (Pool.mk p.policy p.head · p.notices) same

variable [Inhabited ν]

@[simp] theorem head_extend (n : Nat) : (p.extend n).head = p.head := rfl

@[simp] theorem policy_extend (n : Nat) : (p.extend n).policy = p.policy := rfl

@[simp] theorem size_extend (n : Nat) : (p.extend n).size = p.size + n := by
  simp [extend, size]

theorem next_extend_of_lt {n j : Nat} (hj : j < p.size) : (p.extend n).next j = p.next j := by
  have hj : j < p.slots.size := hj
  simp [extend, next, Array.getElem?_append, hj]

/-- A new slot is linked to the next one, the last one to nothing. -/
theorem next_extend_add {n j : Nat} (hj : j < n) :
    (p.extend n).next (p.size + j) = if j + 1 < n then some (p.size + j + 1) else none := by
  simp [extend, next, size, hj]

omit [Inhabited ν] in
@[simp] theorem size_give (i : Nat) : (p.give i).size = p.size := by
  simp [give, pushChain]

@[simp] theorem size_stock (n : Nat) : (p.stock n).size = p.size + n := by
  cases n <;> simp [stock, pushChain]

/-! ### What is in a slot -/

/-- The content of a slot; one that does not exist yet is blank, as it will be at first. -/
def content (p : Pool ν) (i : Nat) : ν := (p.node? i).getD default

@[simp] theorem content_setNext (i : Nat) (n : Option Nat) :
    (p.setNext i n).content = p.content := by
  funext j; simp [content]

@[simp] theorem content_setHead (h : Link) : (p.setHead h).content = p.content := rfl

@[simp] theorem content_note (n : Notice) : (p.note n).content = p.content := rfl

@[simp] theorem content_extend (n : Nat) : (p.extend n).content = p.content := by
  funext j
  by_cases hj : j < p.slots.size
  · simp [content, node?, extend, Array.getElem?_append, hj]
  · by_cases hn : j - p.slots.size < n
    · simp [content, node?, extend, Array.getElem?_append, hj, hn]
    · simp [content, node?, extend, Array.getElem?_append, hj, hn]

theorem content_modifyNode {i : Nat} (hi : i < p.size) (f : ν → ν) :
    (p.modifyNode i f).content = Function.update p.content i (f (p.content i)) := by
  funext j
  by_cases hj : j = i
  · subst hj
    simp [content, node?, modifyNode, Array.getElem?_modify, Array.getElem?_eq_getElem hi]
  · simp [content, node?, modifyNode, Array.getElem?_modify, hj, Ne.symm hj]

/-- A field of what is in the slots, after one of them has been modified. -/
theorem field_modifyNode {β : Type} (field : ν → β) (f : ν → ν) {i : Nat} (hi : i < p.size) :
    (fun j => field ((p.modifyNode i f).content j)) =
      Function.update (fun j => field (p.content j)) i (field (f (p.content i))) := by
  rw [content_modifyNode hi]
  exact Function.comp_update field p.content i _

/-- A field that the modification leaves alone. -/
theorem field_modifyNode_of_same {β : Type} (field : ν → β) (f : ν → ν)
    (same : ∀ node, field (f node) = field node) (i : Nat) :
    (fun j => field ((p.modifyNode i f).content j)) = fun j => field (p.content j) := by
  by_cases hi : i < p.size
  · rw [field_modifyNode field f hi, same]
    exact Function.update_eq_self i _
  · rw [modifyNode_of_size_le (Nat.not_lt.mp hi)]

/-! ### The free slots -/

variable {free others : List Nat}

/-- The free slots are those on the path from the head. Every slot is free or one of the others, and
only once. -/
structure Stocked (p : Pool ν) (free others : List Nat) : Prop where
  path : Path p.next p.head.pointer free none
  once : (free ++ others).Perm (List.range p.size)

omit [Inhabited ν] in
theorem chainFrom_eq {n : Nat} {start : Option Nat} {nodes : List Nat}
    (h : Path p.next start nodes none) (hn : nodes.length ≤ n) : p.chainFrom n start = nodes := by
  induction nodes generalizing n start with
  | nil =>
    obtain rfl : start = none := h
    cases n <;> rfl
  | cons i nodes ih =>
    obtain ⟨rfl, h⟩ := h
    cases n with
    | zero => simp at hn
    | succ n => rw [chainFrom, ih h (by simpa using hn)]

namespace Stocked

omit [Inhabited ν]

theorem perm (h : Stocked p free others) {others' : List Nat} (hp : others.Perm others') :
    Stocked p free others' :=
  ⟨h.path, (hp.symm.append_left free).trans h.once⟩

theorem nodup (h : Stocked p free others) : (free ++ others).Nodup :=
  h.once.nodup_iff.mpr List.nodup_range

theorem lt_size (h : Stocked p free others) {i : Nat} (hi : i ∈ free ++ others) : i < p.size :=
  List.mem_range.mp (h.once.mem_iff.mp hi)

theorem lt_of_mem (h : Stocked p free others) {i : Nat} (hi : i ∈ others) : i < p.size :=
  h.lt_size (List.mem_append_right free hi)

/-- No slot is in two places. -/
theorem apart {xs ys : List Nat} (h : Stocked p free (xs ++ ys)) {i : Nat} (hi : i ∈ ys) : i ∉ xs :=
  fun hx => (List.nodup_append.mp (List.nodup_append.mp h.nodup).2.1).2.2 i hx i hi rfl

theorem alone {xs ys : List Nat} {i : Nat} (h : Stocked p free (xs ++ i :: ys)) : i ∉ ys := by
  intro hy
  rw [List.append_cons] at h
  exact h.apart hy (by simp)

theorem not_mem_free (h : Stocked p free others) {i : Nat} (hi : i ∈ others) : i ∉ free :=
  fun hf => (List.nodup_append.mp h.nodup).2.2 i hf i hi rfl

theorem length_add (h : Stocked p free others) : free.length + others.length = p.size := by
  have := h.once.length_eq
  rwa [List.length_append, List.length_range] at this

/-- The free slots are the ones that a walk of the pool finds. -/
theorem free_eq (h : Stocked p free others) : p.free = free := by
  refine chainFrom_eq h.path ?_
  have := h.length_add
  omega

theorem note (h : Stocked p free others) (n : Notice) : Stocked (p.note n) free others :=
  ⟨h.path, h.once⟩

theorem modifyNode (h : Stocked p free others) (i : Nat) (f : ν → ν) :
    Stocked (p.modifyNode i f) free others :=
  ⟨by simpa using h.path, by simpa using h.once⟩

theorem setNext (h : Stocked p free others) {i : Nat} (hi : i ∈ others) (n : Option Nat) :
    Stocked (p.setNext i n) free others := by
  refine ⟨?_, by simpa using h.once⟩
  rw [next_setNext (h.lt_of_mem hi)]
  refine h.path.congr fun j hj => Function.update_of_ne ?_ _ _
  rintro rfl
  exact h.not_mem_free hi hj

/-- The first free slot leaves the chain. -/
theorem pop (h : Stocked p free others) {i : Nat} (hi : p.head.pointer = some i) (tag) :
    ∃ rest, free = i :: rest ∧ Stocked (p.setHead ⟨p.next i, tag⟩) rest (i :: others) := by
  have path := h.path
  rw [hi] at path
  obtain ⟨rest, rfl, tail⟩ := path.eq_cons
  exact ⟨rest, rfl, tail, List.perm_middle.trans h.once⟩

/-- Slots that are linked up to the free ones become free. -/
theorem push {slots : List Nat} {first : Nat} (h : Stocked p free (slots ++ others))
    (path : Path p.next (some first) slots p.head.pointer) (tag) :
    Stocked (p.setHead ⟨some first, tag⟩) (slots ++ free) others := by
  refine ⟨Path.append.mpr ⟨_, path, h.path⟩, List.Perm.trans ?_ h.once⟩
  rw [List.append_assoc]
  exact List.perm_append_comm_assoc slots free others

theorem free_eq_nil (h : Stocked p free others) (hp : p.head.pointer = none) : free = [] := by
  have path := h.path
  rw [hp] at path
  exact path.eq_nil

end Stocked

theorem Stocked.extend (h : Stocked p free others) (n : Nat) :
    Stocked (p.extend n) free (List.range' p.size n ++ others) := by
  refine ⟨h.path.congr fun j hj => ?_, ?_⟩
  · exact next_extend_of_lt (h.lt_size (List.mem_append_left _ hj))
  · rw [size_extend, List.range_eq_range', ← List.range'_append_1, ← List.range_eq_range',
      Nat.zero_add]
    exact (List.perm_append_comm_assoc _ _ _).trans
      ((h.once.append_left _).trans List.perm_append_comm)

/-- The new slots are linked, each to the next. -/
theorem path_extend (p : Pool ν) (n : Nat) :
    Path (p.extend (n + 1)).next (some p.size) (List.range' p.size n) (some (p.size + n)) := by
  suffices ∀ m k, k + m = n →
      Path (p.extend (n + 1)).next (some (p.size + k)) (List.range' (p.size + k) m)
        (some (p.size + n)) by simpa using this n 0 (by omega)
  intro m
  induction m with
  | zero => rintro k rfl; rfl
  | succ m ih =>
    intro k hk
    refine ⟨rfl, ?_⟩
    rw [next_extend_add (by omega), if_pos (by omega)]
    exact ih (k + 1) (by omega)

/-! ### Whole operations -/

omit [Inhabited ν] in
/-- Slots that are linked to the last of them become free with it. -/
theorem Stocked.pushChain {first last : Nat} {before : List Nat}
    (h : Stocked p free (before ++ last :: others))
    (path : Path p.next (some first) before (some last)) :
    Stocked (p.pushChain first last) (before ++ last :: free) others := by
  have hl : last ∈ before ++ last :: others := by simp
  have hb : last ∉ before := h.apart (by simp)
  have linked : Path (p.setNext last p.head.pointer).next (some first) (before ++ [last])
      (p.setNext last p.head.pointer).head.pointer := by
    rw [next_setNext (h.lt_of_mem hl)]
    refine Path.append.mpr ⟨some last, path.congr fun j hj => ?_, rfl, ?_⟩
    · exact Function.update_of_ne (by rintro rfl; exact hb hj) _ _
    · exact Function.update_self ..
  have moved : Stocked (p.setNext last p.head.pointer) free (before ++ [last] ++ others) := by
    simpa using h.setNext hl p.head.pointer
  have := moved.push linked (p.head.tag + 1)
  rwa [List.append_assoc] at this

omit [Inhabited ν] in
theorem Stocked.give {i : Nat} (h : Stocked p free (i :: others)) :
    Stocked (p.give i) (i :: free) others :=
  @Stocked.pushChain ν p free others i i [] h rfl

theorem Stocked.stock (h : Stocked p free others) (n : Nat) :
    Stocked (p.stock n) (List.range' p.size n ++ free) others := by
  cases n with
  | zero => exact h
  | succ n =>
    rw [List.range'_concat, Nat.one_mul, List.append_assoc]
    refine Stocked.pushChain ?_ (path_extend p n)
    simpa [List.range'_concat] using h.extend (n + 1)

theorem Stocked.reserve (h : Stocked p free others) (n : Nat) :
    ∃ free', Stocked (p.reserve n) free' others := by
  unfold Pool.reserve
  split
  · exact ⟨free, h⟩
  · split
    · exact ⟨free, h⟩
    · exact ⟨_, (h.stock n).note _⟩

/-- A slot is taken from the free ones, or it is new. -/
theorem Stocked.take {i : Nat} (h : Stocked p free others) (ht : p.take = (some i, p')) :
    ∃ free', Stocked p' free' (i :: others) := by
  unfold Pool.take at ht
  split at ht
  next j hj =>
    cases ht
    obtain ⟨rest, -, hs⟩ := h.pop hj (p.head.tag + 1)
    exact ⟨rest, hs⟩
  next =>
    split at ht
    · cases ht
    · cases ht
      exact ⟨free, (h.note _).extend 1⟩

/-- Only a pool that cannot grow has no slot to give, and only if none is free. -/
theorem take_eq_none (ht : p.take = (none, p')) :
    p' = p ∧ p.policy = .static ∧ p.head.pointer = none := by
  unfold take at ht
  split at ht
  · cases ht
  next hp =>
    split at ht
    next hs => cases ht; exact ⟨rfl, hs, hp⟩
    · cases ht

@[simp] theorem policy_take : p.take.2.policy = p.policy := by
  unfold take
  split
  · rfl
  · split <;> rfl

@[simp] theorem content_take : p.take.2.content = p.content := by
  unfold take
  split
  · rfl
  · split
    · rfl
    · rw [content_extend, content_note]

omit [Inhabited ν] in
@[simp] theorem policy_give (i : Nat) : (p.give i).policy = p.policy := rfl

@[simp] theorem content_give (i : Nat) : (p.give i).content = p.content := by
  rw [give, pushChain, content_setHead, content_setNext]

@[simp] theorem policy_stock (n : Nat) : (p.stock n).policy = p.policy := by
  cases n <;> rfl

@[simp] theorem content_stock (n : Nat) : (p.stock n).content = p.content := by
  cases n with
  | zero => rfl
  | succ n => rw [stock, pushChain, content_setHead, content_setNext, content_extend]

@[simp] theorem content_reserve (n : Nat) : (p.reserve n).content = p.content := by
  unfold reserve
  split
  · rfl
  · split
    · rfl
    · rw [content_note, content_stock]

omit [Inhabited ν] in
theorem stocked_empty (policy : Policy) : Stocked (empty policy : Pool ν) [] [] :=
  ⟨rfl, by simp [empty, size]⟩

/-- All slots of a new pool are free and blank. -/
theorem stocked_create {policy : Policy} {slotBytes capacity : Nat}
    (h : create policy slotBytes capacity = .ok p) :
    Stocked p (List.range capacity) [] ∧ p.policy = policy ∧ p.content = fun _ => default := by
  have stocked := (stocked_empty policy : Stocked (empty policy : Pool ν) [] []).stock capacity
  have blank : (empty policy : Pool ν).content = fun _ => default := by
    funext i; simp [content, node?, empty]
  rw [List.append_nil, show (empty policy : Pool ν).size = 0 from rfl, ← List.range_eq_range']
    at stocked
  cases policy with
  | caching =>
    cases h
    by_cases hn : capacity = 0
    · subst hn
      exact ⟨stocked.note _, rfl, blank⟩
    · have grown : (empty .caching : Pool ν).reserve capacity =
          ((empty .caching).stock capacity).note (.reserved capacity) := if_neg hn
      rw [grown]
      refine ⟨(stocked.note _).note _, policy_stock capacity, ?_⟩
      rw [content_note, content_note, content_stock, blank]
  | static =>
    by_cases hb : blockLimit ≤ slotBytes * capacity
    · simp [create, hb] at h
    · simp only [create, if_neg hb, Except.ok.injEq] at h
      subst h
      refine ⟨stocked.note _, policy_stock capacity, ?_⟩
      rw [content_note, content_stock, blank]

/-! ### How many slots there are -/

/-- The most slots that can be in use when there are `n` of them at first, if there is a limit. -/
def room : Policy → Nat → Option Nat
  | .static, n => some n
  | .caching, _ => none

theorem room_eq_some {policy : Policy} {n k : Nat} :
    room policy n = some k ↔ policy = .static ∧ n = k := by
  cases policy <;> simp [room]

/-- One more slot that is always in use. -/
theorem room_succ {policy : Policy} {n k : Nat} :
    room policy (n + 1) = some (k + 1) ↔ room policy n = some k := by
  simp [room_eq_some]

/-- The pool has a policy, and `n` slots for good if it cannot grow. -/
structure Sized (p : Pool ν) (policy : Policy) (n : Nat) : Prop where
  policy_eq : p.policy = policy
  size_eq : policy = .static → p.size = n

section Sized

variable {policy : Policy} {n : Nat}

omit [Inhabited ν] in
theorem Sized.modifyNode (h : Sized p policy n) (i : Nat) (f : ν → ν) :
    Sized (p.modifyNode i f) policy n :=
  ⟨h.policy_eq, fun static => by rw [size_modifyNode, h.size_eq static]⟩

omit [Inhabited ν] in
theorem Sized.note (h : Sized p policy n) (notice : Notice) : Sized (p.note notice) policy n :=
  ⟨h.policy_eq, h.size_eq⟩

omit [Inhabited ν] in
theorem Sized.give (h : Sized p policy n) (i : Nat) : Sized (p.give i) policy n := by
  refine ⟨h.policy_eq, fun static => ?_⟩
  rw [Pool.give, Pool.pushChain, size_setHead, size_setNext, h.size_eq static]

theorem Sized.take (h : Sized p policy n) : Sized p.take.2 policy n := by
  refine ⟨by rw [policy_take, h.policy_eq], fun static => ?_⟩
  unfold Pool.take
  split
  next => exact h.size_eq static
  next => rw [h.policy_eq, static]; exact h.size_eq static

theorem Sized.reserve (h : Sized p policy n) (k : Nat) : Sized (p.reserve k) policy n := by
  unfold Pool.reserve
  split
  next => exact h
  next caching =>
    have grows : policy ≠ .static := by
      rw [← h.policy_eq, caching]
      decide
    refine ⟨?_, fun static => absurd static grows⟩
    split
    · exact h.policy_eq
    · rw [policy_note, policy_stock, h.policy_eq]

/-- A pool that cannot grow gives no slot when all of them are elsewhere, and stays as it is. -/
theorem Sized.take_of_full (h : Sized p policy n) (stocked : Stocked p free others)
    (full : room policy n = some others.length) : p.take = (none, p) := by
  obtain ⟨rfl, size⟩ := room_eq_some.mp full
  have length := stocked.length_add
  have same := h.size_eq rfl
  obtain rfl : free = [] := List.eq_nil_of_length_eq_zero (by omega)
  have none : p.head.pointer = none := stocked.path
  simp only [Pool.take, none, h.policy_eq]

/-- A pool gives a slot if it can grow or if not all of its slots are elsewhere. -/
theorem Sized.take_of_room (h : Sized p policy n) (stocked : Stocked p free others)
    (room : room policy n ≠ some others.length) :
    ∃ i p', p.take = (some i, p') ∧ Sized p' policy n := by
  have sized := h.take
  rcases ht : p.take with ⟨_ | i, p'⟩
  · obtain ⟨-, static, none⟩ := take_eq_none ht
    rw [h.policy_eq] at static
    have length := stocked.length_add
    rw [stocked.free_eq_nil none, List.length_nil, Nat.zero_add, h.size_eq static] at length
    exact absurd (room_eq_some.mpr ⟨static, length.symm⟩) room
  · rw [ht] at sized
    exact ⟨i, p', rfl, sized⟩

theorem sized_create {slotBytes : Nat} (h : create policy slotBytes n = .ok p) :
    Sized p policy n := by
  obtain ⟨stocked, policy_eq, -⟩ := stocked_create h
  refine ⟨policy_eq, fun _ => ?_⟩
  rw [← stocked.length_add, List.length_range, List.length_nil, Nat.add_zero]

end Sized

end OrderedAtomics.Pool
