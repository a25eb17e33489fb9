import Mathlib.Data.FinEnum
import Mathlib.Data.Fintype.EquivFin
import Mathlib.Data.List.FinRange
import Mathlib.Data.List.Perm.Basic
import Mathlib.Logic.Function.Basic
import OrderedAtomics.Cell.LockTable
import OrderedAtomics.Proofs.Cell.Layout

/-! Which lock an address has. Its index is the exclusive or of the hexadecimal digits of the low half
of the address, so each of those digits alone runs through all locks while the others stay. -/

namespace OrderedAtomics

/-! ### Digits -/

/-- The places of the digits of the low half of an address. -/
abbrev DigitPlace := Fin 8

namespace Address

def digit (i : DigitPlace) (a : Address) : BitVec 4 := SubWord.extract 4 (4 * i) a

/-- The address with one of its digits replaced. -/
def withDigit (i : DigitPlace) (a : Address) (d : BitVec 4) : Address := SubWord.insert (4 * i) a d

/-- The exclusive or of the digits in some places. -/
def foldAt (places : List DigitPlace) (a : Address) : BitVec 4 :=
  places.foldr (fun i rest => digit i a ^^^ rest) 0

/-- The exclusive or of all digits of the low half. -/
def fold (a : Address) : BitVec 4 := foldAt (List.finRange 8) a

theorem getLsbD_digit (i : DigitPlace) (a : Address) {k : Nat} (hk : k < 4) :
    (digit i a).getLsbD k = a.getLsbD (4 * i + k) := by
  rw [digit, SubWord.getLsbD_extract, decide_eq_true hk, Bool.true_and]

theorem digit_xor (i : DigitPlace) (a b : Address) : digit i (a ^^^ b) = digit i a ^^^ digit i b := by
  apply BitVec.eq_of_getLsbD_eq
  intro k hk
  simp only [BitVec.getLsbD_xor, getLsbD_digit _ _ hk]

theorem digit_withDigit (i : DigitPlace) (a : Address) (d : BitVec 4) : digit i (withDigit i a d) = d :=
  SubWord.extract_insert (by simp only [addressWidth]; omega) a d

theorem digit_withDigit_of_ne {i j : DigitPlace} (other : j ≠ i) (a : Address) (d : BitVec 4) :
    digit j (withDigit i a d) = digit j a := by
  apply BitVec.eq_of_getLsbD_eq
  intro k hk
  have other := Fin.val_ne_of_ne other
  have apart : ¬(4 * i.val ≤ 4 * j.val + k ∧ 4 * j.val + k < 4 * i.val + 4) := by omega
  have inside : 4 * j.val + k < addressWidth := by simp only [addressWidth]; omega
  rw [getLsbD_digit _ _ hk, getLsbD_digit _ _ hk, withDigit, SubWord.getLsbD_insert a d inside,
    if_neg apart]

/-! ### Folding -/

theorem foldAt_xor (places : List DigitPlace) (a b : Address) :
    foldAt places (a ^^^ b) = foldAt places a ^^^ foldAt places b := by
  induction places with
  | nil => exact (BitVec.xor_zero).symm
  | cons i places ih =>
    simp only [foldAt, List.foldr_cons] at ih ⊢
    rw [ih, digit_xor]
    ac_rfl

theorem foldAt_congr {places : List DigitPlace} {a b : Address}
    (same : ∀ j ∈ places, digit j a = digit j b) : foldAt places a = foldAt places b :=
  List.foldr_ext _ _ _ fun j hj rest => by rw [same j hj]

/-- One digit, and all the others. -/
theorem fold_eq (i : DigitPlace) (a : Address) :
    fold a = digit i a ^^^ foldAt ((List.finRange 8).erase i) a := by
  have swap : LeftCommutative fun (j : DigitPlace) (rest : BitVec 4) => digit j a ^^^ rest :=
    ⟨fun j k rest => by ac_rfl⟩
  exact (List.perm_cons_erase (List.mem_finRange i)).foldr_eq 0

/-- Where all other digits are the same, the fold goes with the digit. -/
theorem fold_eq_iff {i : DigitPlace} {a b : Address} (same : ∀ j, j ≠ i → digit j a = digit j b) :
    fold a = fold b ↔ digit i a = digit i b := by
  have others : foldAt ((List.finRange 8).erase i) a = foldAt ((List.finRange 8).erase i) b :=
    foldAt_congr fun j hj => same j ((List.nodup_finRange 8).mem_erase_iff.mp hj).1
  rw [fold_eq i a, fold_eq i b, others, BitVec.xor_left_inj]

end Address

open Address (digit withDigit fold)

/-! ### Locks -/

theorem getLsbD_fold (a : Address) {k : Nat} (hk : k < 4) :
    (fold a).getLsbD k = (a.getLsbD k ^^ a.getLsbD (4 + k) ^^ a.getLsbD (8 + k) ^^ a.getLsbD (12 + k) ^^
      a.getLsbD (16 + k) ^^ a.getLsbD (20 + k) ^^ a.getLsbD (24 + k) ^^ a.getLsbD (28 + k)) := by
  simp only [fold, Address.foldAt, List.finRange_succ, List.finRange_zero, List.map_cons,
    List.map_nil, List.foldr_cons, List.foldr_nil, BitVec.getLsbD_xor, Address.getLsbD_digit _ _ hk,
    Fin.val_succ, Fin.val_zero, BitVec.ofNat_eq_ofNat, BitVec.getLsbD_zero, Nat.mul_zero, Nat.zero_add,
    Nat.reduceAdd, Nat.reduceMul, Bool.xor_assoc, Bool.xor_false]

/-- Each shift folds the upper half of what is left onto the lower one. -/
theorem lockIndex_eq (a : Address) : (lockIndex a).val = (fold a).toNat := by
  let v₁ := a ^^^ (a >>> 16)
  let v₂ := v₁ ^^^ (v₁ >>> 8)
  let v₃ := v₂ ^^^ (v₂ >>> 4)
  have lowest : v₃.setWidth 4 = fold a := by
    apply BitVec.eq_of_getLsbD_eq
    intro k hk
    simp only [v₃, v₂, v₁, getLsbD_fold a hk, BitVec.getLsbD_setWidth, BitVec.getLsbD_xor,
      BitVec.getLsbD_ushiftRight, hk, decide_true, Bool.true_and, ← Nat.add_assoc, Nat.reduceAdd]
    simp only [Bool.xor_assoc, Bool.xor_left_comm]
  rw [← lowest, BitVec.toNat_setWidth]
  rfl

theorem lockIndex_inj {a b : Address} : lockIndex a = lockIndex b ↔ fold a = fold b := by
  rw [← Fin.val_inj, lockIndex_eq, lockIndex_eq, BitVec.toNat_inj]

theorem lockIndex_xor (a b : Address) :
    (lockIndex (a ^^^ b)).val = (lockIndex a).val ^^^ (lockIndex b).val := by
  rw [lockIndex_eq, lockIndex_eq, lockIndex_eq, ← BitVec.toNat_xor]
  exact congrArg BitVec.toNat (Address.foldAt_xor _ a b)

/-- Whatever the other digits are, a digit can be chosen for each lock, and only one. -/
theorem bijective_lockIndex_withDigit (i : DigitPlace) (a : Address) :
    Function.Bijective fun d => lockIndex (withDigit i a d) := by
  have others (d : BitVec 4) : ∀ j, j ≠ i → digit j (withDigit i a d) = digit j a :=
    fun j other => Address.digit_withDigit_of_ne other a d
  have injective : Function.Injective fun d => lockIndex (withDigit i a d) := by
    intro d e same
    have same := (Address.fold_eq_iff fun j other => (others d j other).trans (others e j other).symm).mp
      (lockIndex_inj.mp same)
    rwa [Address.digit_withDigit, Address.digit_withDigit] at same
  -- There are as many digits as there are locks.
  refine (Fintype.bijective_iff_injective_and_card _).mpr ⟨injective, ?_⟩
  rw [← FinEnum.card_eq_fintypeCard, FinEnum.card_bitVec, Fintype.card_fin]
  rfl

/-- The index of a lock is the exclusive or of the digits of the low half, and so it goes with the
exclusive or of addresses. Two addresses of which one such digit differs do not share a lock, and that
digit alone takes every lock once. -/
theorem locks_spread_evenly :
    (∀ a b, (lockIndex (a ^^^ b)).val = (lockIndex a).val ^^^ (lockIndex b).val) ∧
      (∀ a, (lockIndex a).val < lockCount ∧ (lockIndex a).val = (fold a).toNat) ∧
      (∀ i a b, (∀ j, j ≠ i → digit j a = digit j b) → digit i a ≠ digit i b →
        lockIndex a ≠ lockIndex b) ∧
      ∀ i a, Function.Bijective fun d => lockIndex (withDigit i a d) := by
  refine ⟨lockIndex_xor, fun a => ⟨(lockIndex a).isLt, lockIndex_eq a⟩, ?_,
    bijective_lockIndex_withDigit⟩
  intro i a b same other shared
  exact other ((Address.fold_eq_iff same).mp (lockIndex_inj.mp shared))

/-- Two cells next to each other, in the middle of a page. -/
theorem locks_spread_evenly_next :
    (∀ j : DigitPlace, j ≠ 1 → digit j 0x7ffd12345670 = digit j 0x7ffd12345680) ∧
      digit 1 0x7ffd12345670 ≠ digit 1 0x7ffd12345680 ∧
      lockIndex 0x7ffd12345670 ≠ lockIndex 0x7ffd12345680 :=
  ⟨by decide, by decide, locks_spread_evenly.2.2.1 1 _ _ (by decide) (by decide)⟩

end OrderedAtomics
