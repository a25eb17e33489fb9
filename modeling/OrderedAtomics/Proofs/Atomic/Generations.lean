import Mathlib.Algebra.Group.Nat.Defs
import OrderedAtomics.Atomic.Pointer
import OrderedAtomics.Proofs.Atomic.Operations
import OrderedAtomics.Proofs.Atomic.Representation
import OrderedAtomics.Proofs.Cell.Contention
import OrderedAtomics.Proofs.Refusal

/-! Generations of a tagged pointer. Every update counts, so that a pair which has been seen before does
not come back until the tag has gone around, whatever pointers are put in its place. -/

namespace OrderedAtomics

/-! ### Pairs -/

namespace Tagged

variable {α : Type} [DecidableEq α]

omit [DecidableEq α] in
theorem eq_iff {x y : Tagged α} : x = y ↔ x.pointer = y.pointer ∧ x.tag = y.tag := by
  cases x
  cases y
  exact iff_of_eq (mk.injEq ..)

/-- Replaces the pointer of a pair under the next tag, if the pair is the old one. -/
def replace (x : Tagged α) (swap : Tagged α × α) : Tagged α × Bool :=
  if x = swap.1 then (swap.1.advance swap.2, true) else (x, false)

/-- How many replacements of a sequence go through. -/
def replaced (x : Tagged α) (swaps : List (Tagged α × α)) : Nat := (inTurn replace x swaps).2.count true

variable {x : Tagged α} {swaps : List (Tagged α × α)}

theorem replaced_cons (x : Tagged α) (swap : Tagged α × α) (swaps : List (Tagged α × α)) :
    x.replaced (swap :: swaps) = if x = swap.1 then (swap.1.advance swap.2).replaced swaps + 1
      else x.replaced swaps := by
  unfold replaced
  rw [inTurn_cons, replace]
  split
  · exact List.count_cons_self
  · exact List.count_cons_of_ne Bool.false_ne_true

/-- The tag counts the replacements that go through. -/
theorem tag_inTurn (x : Tagged α) (swaps : List (Tagged α × α)) :
    (inTurn replace x swaps).1.tag = x.tag + BitVec.ofNat addressWidth (x.replaced swaps) := by
  induction swaps generalizing x with
  | nil => exact (BitVec.add_zero x.tag).symm
  | cons swap swaps ih =>
    rw [inTurn_cons, replaced_cons, replace]
    split
    next same =>
      subst same
      rw [ih, tag_advance, Nat.add_comm, BitVec.ofNat_add, ← BitVec.add_assoc]
      rfl
    next => exact ih x

/-- If none goes through, the pair stays what it is. -/
theorem inTurn_of_replaced_zero (none : x.replaced swaps = 0) : (inTurn replace x swaps).1 = x := by
  induction swaps with
  | nil => rfl
  | cons swap swaps ih =>
    rw [replaced_cons] at none
    rw [inTurn_cons, replace]
    by_cases same : x = swap.1
    · rw [if_pos same] at none
      exact absurd none (Nat.succ_ne_zero _)
    · rw [if_neg same] at none
      rw [if_neg same]
      exact ih none

/-- Once some have gone through, and not as many as there are tags, the pair is another one. -/
theorem inTurn_ne (some : 0 < x.replaced swaps) (few : x.replaced swaps < 2 ^ addressWidth) :
    (inTurn replace x swaps).1 ≠ x := by
  intro back
  have tag := tag_inTurn x swaps
  rw [back] at tag
  have value := congrArg BitVec.toNat (BitVec.self_eq_add_right.mp tag)
  rw [BitVec.toNat_ofNat, Nat.mod_eq_of_lt few] at value
  exact absurd value (Nat.ne_of_gt some)

end Tagged

/-! ### The atomic -/

/-- Nobody else is going to write the cell. Weak attempts may still fail without cause. -/
def Cell.Ours {α : Type} (c : Cell α) : Prop := ∀ v, Disturbance.overwrite v ∉ c.script

theorem Cell.Ours.found {α : Type} {c : Cell α} (h : c.Ours) : c.found = c.value := by
  obtain ⟨value, _ | ⟨_ | v | _, script⟩, trace⟩ := c
  · rfl
  · rfl
  · exact absurd List.mem_cons_self (h v)
  · rfl

namespace AtomicTaggedPointer

variable {c : State} {e : TaggedPointer} {orders : CasOrders}

theorem toWord_value (c : State) : (value c).toWord = c.value := Carrier.full_taggedPointer c.value

/-- An attempt stores on the pair that is there, unless it fails without cause. -/
theorem stores_of_value (ours : c.Ours) (there : value c = e) {k : Strength}
    (caused : k = .weak → c.spurious = false) : c.stores k e.toWord = true := by
  have found : c.found = e.toWord := by rw [ours.found, ← there, toWord_value]
  unfold Cell.stores
  rw [found]
  cases k with
  | weak => simp [caused rfl]
  | strong => simp

theorem not_stores_of_value (ours : c.Ours) (other : value c ≠ e) (k : Strength) :
    c.stores k e.toWord = false := by
  have found : c.found ≠ e.toWord := by
    rw [ours.found, ← toWord_value]
    exact mt Carrier.faithful_taggedPointer.toWord_inj.mp other
  unfold Cell.stores
  rw [decide_eq_false found]
  rfl

/-- A compare-exchange compares both halves of the pair, and stores both. -/
theorem cas_eq (legal : orders.Legal) (k : Strength) (e d : TaggedPointer) (ours : c.Ours) :
    ∃ c', atomic.cas k e d orders c =
        .ok (if c.stores k e.toWord then ⟨true, e⟩ else ⟨false, value c⟩) c' ∧
      value c' = (if c.stores k e.toWord then d else value c) ∧ c'.Ours := by
  let c' : State := ⟨if c.stores k e.toWord then d.toWord else c.found, c.script.tail,
    c.trace ++ [.cas k e.toWord d.toWord orders.success.toHardware.toMemory
      orders.failure.toHardware.toMemory (c.stores k e.toWord)]⟩
  have ended : (Native.strict : Native State _).compareExchange k e.toWord d.toWord
      orders.success.toHardware orders.failure.toHardware c =
        .ok (if c.stores k e.toWord then ⟨true, e.toWord⟩ else ⟨false, c.found⟩) c' :=
    Native.strict_allows.compareExchange_eq (Atomic.legalForLoad_of_legal legal) k _ _ _ c
  refine ⟨c', ?_, ?_, fun v member => ours v (List.mem_of_mem_tail member)⟩
  · rw [Atomic.cas_of_legal _ legal]
    cases k <;> refine (Access.bind_ok ended).trans ?_ <;> rw [ours.found] <;>
      cases c.stores _ e.toWord <;> rfl
  · show TaggedPointer.ofWord (if c.stores k e.toWord then d.toWord else c.found) = _
    rw [ours.found]
    cases c.stores k e.toWord with
    | true => exact Carrier.faithful_taggedPointer d
    | false => rfl

/-- Whatever is to be put in its place, the old pair is refused: the cell keeps its pair, and the
exchanges report it. -/
structure Refuses (c : State) (old : TaggedPointer) : Prop where
  exchange : ∀ {orders : CasOrders}, orders.Legal → ∀ k new, ∃ c',
    atomic.cas k old new orders c = .ok ⟨false, value c⟩ c' ∧ value c' = value c
  swap : ∀ new, ∃ c', compareAndSwap old new c = .ok false c' ∧ value c' = value c
  swapPointer : ∀ p, ∃ c', compareAndSwapPointer old p c = .ok false c' ∧ value c' = value c

/-- Whatever is to be put in its place, the old pair is replaced by it. -/
structure Accepts (c : State) (old : TaggedPointer) : Prop where
  exchange : ∀ {orders : CasOrders}, orders.Legal → ∀ k new, (k = .weak → c.spurious = false) →
    ∃ c', atomic.cas k old new orders c = .ok ⟨true, old⟩ c' ∧ value c' = new
  swap : ∀ new, ∃ c', compareAndSwap old new c = .ok true c' ∧ value c' = new
  swapPointer : ∀ p, ∃ c', compareAndSwapPointer old p c = .ok true c' ∧ value c' = old.advance p

theorem refuses_of_other (ours : c.Ours) (other : value c ≠ e) : Refuses c e := by
  have exchange {orders : CasOrders} (legal : orders.Legal) (k : Strength) (new : TaggedPointer) :
      ∃ c', atomic.cas k e new orders c = .ok ⟨false, value c⟩ c' ∧ value c' = value c := by
    obtain ⟨c', ended, left, -⟩ := cas_eq legal k e new ours
    rw [not_stores_of_value ours other k] at ended left
    exact ⟨c', ended, left⟩
  have swap (new : TaggedPointer) :
      ∃ c', compareAndSwap e new c = .ok false c' ∧ value c' = value c := by
    obtain ⟨c', ended, left⟩ := exchange (CasOrders.legal_ofSuccess .seqCst) .strong new
    exact ⟨c', Access.bind_ok ended, left⟩
  exact ⟨exchange, swap, fun p => swap (e.advance p)⟩

theorem accepts_of_value (ours : c.Ours) (there : value c = e) : Accepts c e := by
  have exchange {orders : CasOrders} (legal : orders.Legal) (k : Strength) (new : TaggedPointer)
      (caused : k = .weak → c.spurious = false) :
      ∃ c', atomic.cas k e new orders c = .ok ⟨true, e⟩ c' ∧ value c' = new := by
    obtain ⟨c', ended, left, -⟩ := cas_eq legal k e new ours
    rw [stores_of_value ours there caused] at ended left
    exact ⟨c', ended, left⟩
  have swap (new : TaggedPointer) : ∃ c', compareAndSwap e new c = .ok true c' ∧ value c' = new := by
    obtain ⟨c', ended, left⟩ := exchange (CasOrders.legal_ofSuccess .seqCst) .strong new nofun
    exact ⟨c', Access.bind_ok ended, left⟩
  exact ⟨exchange, swap, fun p => swap (e.advance p)⟩

/-! ### Runs -/

/-- Replaces a pair by a pointer, by its outcome. -/
def swapPointer (c : State) (swap : TaggedPointer × Address) : State × Except Fault Bool :=
  (compareAndSwapPointer swap.1 swap.2).outcome c

theorem swapPointer_replaces (ours : c.Ours) (swap : TaggedPointer × Address) :
    (swapPointer c swap).2 = .ok ((value c).replace swap).2 ∧
      value (swapPointer c swap).1 = ((value c).replace swap).1 ∧ (swapPointer c swap).1.Ours := by
  obtain ⟨c', ended, left, ours'⟩ := cas_eq (CasOrders.legal_ofSuccess .seqCst) .strong swap.1
    (swap.1.advance swap.2) ours
  have swapped : swapPointer c swap = (c', .ok (c.stores .strong swap.1.toWord)) := by
    refine Access.outcome_ok ((Access.bind_ok ended).trans ?_)
    cases c.stores .strong swap.1.toWord <;> rfl
  rw [swapped, Tagged.replace]
  by_cases there : value c = swap.1
  · rw [stores_of_value (k := .strong) ours there nofun] at left ⊢
    rw [if_pos there]
    exact ⟨rfl, left, ours'⟩
  · rw [not_stores_of_value ours there] at left ⊢
    rw [if_neg there]
    exact ⟨rfl, left, ours'⟩

theorem load_eq {o : MemoryOrder} (legal : o.legalForLoad) (c : State) : atomic.load o c =
    .ok (value c) { c with trace := c.trace ++ [.load o.toHardware.toMemory] } := by
  rw [Atomic.load_of_legal _ legal]
  exact Access.bind_ok (Native.strict_allows.load_eq legal c)

/-- A snapshot is the pair in the cell. -/
theorem value_of_load {c₀ : State} {s : TaggedPointer} {o : MemoryOrder}
    (snapshot : atomic.load o c₀ = .ok s c) : value c = s ∧ c.script = c₀.script := by
  by_cases legal : o.legalForLoad
  · cases (load_eq legal c₀).symm.trans snapshot
    exact ⟨rfl, rfl⟩
  · rw [Atomic.load_of_illegal _ (Bool.eq_false_iff.mpr legal)] at snapshot
    cases snapshot

/-- Whatever pointers are swapped in after a snapshot, the snapshot is accepted if no swap has gone
through, and refused if some have, up to as many as there are tags. What is accepted at any time is the
pair with the pointer and the tag that are there. -/
theorem tag_defeats_reuse {c₀ : State} {s : TaggedPointer} {o : MemoryOrder} (ours : c₀.Ours)
    (snapshot : atomic.load o c₀ = .ok s c) (swaps : List (TaggedPointer × Address)) :
    let run := inTurn swapPointer c swaps
    let reference := inTurn Tagged.replace s swaps
    let k := reference.2.count true
    run.2 = reference.2.map .ok ∧ value run.1 = reference.1 ∧
      (value run.1).tag = s.tag + BitVec.ofNat addressWidth k ∧
      (k = 0 → Accepts run.1 s) ∧ (0 < k → k < 2 ^ addressWidth → Refuses run.1 s) ∧
      ∀ e : TaggedPointer, if e.pointer = (value run.1).pointer ∧ e.tag = (value run.1).tag
        then Accepts run.1 e else Refuses run.1 e := by
  obtain ⟨there, script⟩ := value_of_load snapshot
  have start : c.Ours := by
    unfold Cell.Ours
    rwa [script]
  intro run reference k
  have step : ∀ swap ∈ swaps, ∀ (c : State) (x : TaggedPointer), value c = x ∧ c.Ours →
      (swapPointer c swap).2 = .ok (x.replace swap).2 ∧
        value (swapPointer c swap).1 = (x.replace swap).1 ∧ (swapPointer c swap).1.Ours := by
    rintro swap - c - ⟨rfl, ours⟩
    exact swapPointer_replaces ours swap
  obtain ⟨answers, left, kept⟩ := inTurn_alike step ⟨there, start⟩
  refine ⟨answers, left, ?tag, fun none => ?accepts, fun some few => ?refuses, fun e => ?both⟩
  case tag =>
    rw [left]
    exact Tagged.tag_inTurn s swaps
  case accepts => exact accepts_of_value kept (left.trans (Tagged.inTurn_of_replaced_zero none))
  case refuses => exact refuses_of_other kept (left ▸ Tagged.inTurn_ne some few)
  case both =>
    split
    next same => exact accepts_of_value kept (Tagged.eq_iff.mpr same).symm
    next other => exact refuses_of_other kept fun same => other (Tagged.eq_iff.mp same.symm)

/-- A pointer comes back after two swaps and a refused one. The snapshot is refused all the same. -/
theorem tag_defeats_reuse_returned :
    let c₀ : State := ⟨TaggedPointer.toWord ⟨0x10, 3⟩, [.quiet, .spurious], []⟩
    let c : State := { c₀ with trace := [.load .acquire] }
    let swaps : List (TaggedPointer × Address) :=
      [(⟨0x10, 3⟩, 0x20), (⟨0x10, 3⟩, 0x30), (⟨0x20, 4⟩, 0x10)]
    let run := inTurn swapPointer c swaps
    c₀.Ours ∧ atomic.load .acquire c₀ = .ok ⟨0x10, 3⟩ c ∧
      value run.1 = ⟨0x10, 5⟩ ∧ run.2 = [.ok true, .ok false, .ok true] ∧
      Refuses run.1 ⟨0x10, 3⟩ := by
  intro c₀ c swaps run
  have ours : c₀.Ours := fun v => by simp [c₀]
  have snapshot : atomic.load .acquire c₀ = .ok ⟨0x10, 3⟩ c := by
    rw [load_eq rfl, ← Carrier.faithful_taggedPointer ⟨0x10, 3⟩]
    rfl
  obtain ⟨answers, left, -, -, refuses, -⟩ := tag_defeats_reuse ours snapshot swaps
  have some : 0 < (inTurn Tagged.replace (⟨0x10, 3⟩ : TaggedPointer) swaps).2.count true := by decide
  have few : (inTurn Tagged.replace (⟨0x10, 3⟩ : TaggedPointer) swaps).2.count true <
      2 ^ addressWidth := by decide
  exact ⟨ours, snapshot, left, answers, refuses some few⟩

end AtomicTaggedPointer

end OrderedAtomics
