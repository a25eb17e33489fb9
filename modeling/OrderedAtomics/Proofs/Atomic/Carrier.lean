import Mathlib.Data.List.GetD
import Mathlib.Logic.Function.Basic
import OrderedAtomics.Proofs.Cell.Layout
import OrderedAtomics.Record

/-! How values are kept in words. A carrier is faithful if every value comes back from its word, and
then two values are equal if and only if their words are. Integers, truth values, tagged pointers
and records without gaps have faithful carriers. -/

namespace OrderedAtomics

/-! ### Words -/

namespace Word

/-- A bit of a word lies in one of its bytes; above the given bytes there are zeros. -/
theorem getLsbD_ofBytes (w : Nat) (bs : List (BitVec 8)) (i : Nat) :
    (ofBytes w bs).getLsbD i = (decide (i < w) && (bs.getD (i / 8) 0).getLsbD (i % 8)) := by
  induction bs generalizing i with
  | nil => simp [ofBytes]
  | cons b rest ih =>
    simp only [ofBytes, BitVec.getLsbD_or, BitVec.getLsbD_shiftLeft, BitVec.getLsbD_setWidth, ih]
    by_cases low : i < 8
    · have first : i / 8 = 0 := by omega
      have place : i % 8 = i := by omega
      simp [low, first, place]
    · have later : i / 8 = (i - 8) / 8 + 1 := by omega
      have place : (i - 8) % 8 = i % 8 := by omega
      have above : b.getLsbD i = false := BitVec.getLsbD_of_ge b i (by omega)
      have inside : i < w → i - 8 < w := by omega
      by_cases hi : i < w
      · simp [low, later, place, above, hi, inside hi]
      · simp [hi]

/-- Bytes that fill a word come back from it. -/
theorem toBytes_ofBytes {b : Nat} {bs : List (BitVec 8)} (h : bs.length = b) :
    toBytes (ofBytes (8 * b) bs) = bs := by
  apply List.ext_getElem
  · rw [SubWord.length_toBytes_eight, h]
  intro i hi hi'
  rw [SubWord.getElem_toBytes]
  apply BitVec.eq_of_getLsbD_eq
  intro j hj
  have inside : 8 * i + j < 8 * b := by omega
  have byte : (8 * i + j) / 8 = i := by omega
  have place : (8 * i + j) % 8 = j := by omega
  rw [SubWord.getLsbD_extract, getLsbD_ofBytes, byte, place, List.getD_eq_getElem _ _ hi']
  simp [hj, inside]

/-- A word of whole bytes comes back from them. -/
theorem ofBytes_toBytes {w : Nat} (whole : 8 ∣ w) (v : BitVec w) : ofBytes w (toBytes v) = v := by
  apply BitVec.eq_of_getLsbD_eq
  intro i hi
  have byte : i / 8 < (toBytes v).length := by
    rw [length_toBytes, bytes]
    omega
  have place : 8 * (i / 8) + i % 8 = i := Nat.div_add_mod i 8
  rw [getLsbD_ofBytes, List.getD_eq_getElem _ _ byte, SubWord.getElem_toBytes,
    SubWord.getLsbD_extract, place]
  simp [hi, Nat.mod_lt]

/-- Integers have the same word if they differ by a multiple of its size. -/
theorem ofInt_eq_iff {w : Nat} {i j : Int} :
    BitVec.ofInt w i = BitVec.ofInt w j ↔ i % Int.pow 2 w = j % Int.pow 2 w := by
  have size : Int.pow 2 w = ((2 ^ w : Nat) : Int) := (Int.natCast_pow 2 w).symm
  have positive : ((2 ^ w : Nat) : Int) ≠ 0 := by
    rw [Int.natCast_pow]
    exact Int.pow_ne_zero (by decide)
  rw [← BitVec.toNat_inj, BitVec.toNat_ofInt, BitVec.toNat_ofInt, size]
  constructor
  · intro equal
    rw [← Int.toNat_of_nonneg (Int.emod_nonneg i positive), equal,
      Int.toNat_of_nonneg (Int.emod_nonneg j positive)]
  · intro equal
    rw [equal]

theorem ofInt_sub (w : Nat) (i j : Int) :
    BitVec.ofInt w (i - j) = BitVec.ofInt w i - BitVec.ofInt w j := by
  rw [Int.sub_eq_add_neg, BitVec.ofInt_add, BitVec.ofInt_neg, BitVec.sub_eq_add_neg]

end Word

namespace DoubleWord

theorem low_pack (l h : BitVec addressWidth) : (pack l h).low = l := by
  apply BitVec.eq_of_getLsbD_eq
  intro i hi
  simp only [low, pack, BitVec.getLsbD_setWidth, BitVec.getLsbD_append, hi, decide_true,
    Bool.true_and, if_true]

theorem high_pack (l h : BitVec addressWidth) : (pack l h).high = h := by
  apply BitVec.eq_of_getLsbD_eq
  intro i hi
  have above : ¬ addressWidth + i < addressWidth := by omega
  have place : addressWidth + i - addressWidth = i := by omega
  simp only [high, pack, BitVec.getLsbD_setWidth, BitVec.getLsbD_ushiftRight,
    BitVec.getLsbD_append, hi, decide_true, Bool.true_and, if_neg above, place]

end DoubleWord

/-! ### Integers -/

namespace Scalar

variable {k : Kind}

theorem val_ofBits (v : BitVec k.width) :
    (ofBits v : Scalar k).val = if k.signed = true then v.toInt else v.toNat := rfl

/-- Every word stands for a value, and that value for the word. -/
theorem bits_ofBits (v : BitVec k.width) : (ofBits v : Scalar k).bits = v := by
  rw [bits, val_ofBits]
  split
  · exact BitVec.ofInt_toInt
  · rw [BitVec.ofInt_natCast, BitVec.ofNat_toNat, BitVec.setWidth_eq]

/-- A value in the range of its type comes back from its word. -/
theorem ofBits_bits (positive : 0 < k.width) (s : Scalar k) : ofBits s.bits = s := by
  have least := s.least_le
  have limit := s.lt_limit
  unfold Kind.least at least
  unfold Kind.limit at limit
  apply Scalar.ext
  rw [val_ofBits, bits]
  by_cases signed : k.signed = true
  · rw [if_pos signed] at least limit ⊢
    exact BitVec.toInt_ofInt_eq_self positive least limit
  · rw [if_neg signed] at least limit ⊢
    have inside : s.val % ((2 ^ k.width : Nat) : Int) = s.val :=
      Int.emod_eq_of_lt least (by rw [Int.natCast_pow]; exact limit)
    rw [BitVec.toNat_ofInt, inside, Int.toNat_of_nonneg least]

/-- The value of a word in the range of its type is the only one there. -/
theorem eq_ofBits_iff (positive : 0 < k.width) (s : Scalar k) (v : BitVec k.width) :
    s = ofBits v ↔ s.bits = v := by
  constructor
  · rintro rfl
    exact bits_ofBits v
  · rintro rfl
    exact (ofBits_bits positive s).symm

/-- Wrapping goes round the range of the type: of all values in the range, an integer wraps to the
one that differs from it by a multiple of the size. -/
theorem eq_wrap_iff (positive : 0 < k.width) (s : Scalar k) (i : Int) :
    s = wrap k i ↔ s.val % Int.pow 2 k.width = i % Int.pow 2 k.width :=
  (eq_ofBits_iff positive s _).trans Word.ofInt_eq_iff

end Scalar

/-! ### Records -/

namespace Field

/-- A field takes whole bytes. -/
def Whole : Field → Prop
  | integer k => 0 < k.width ∧ 8 ∣ k.width
  | truth => True

theorem length_toBytes (f : Field) (v : f.Value) : (f.toBytes v).length = f.bytes := by
  cases f with
  | integer k => exact Word.length_toBytes v.bits
  | truth => rfl

theorem ofBytes_toBytes {f : Field} (whole : f.Whole) (v : f.Value) :
    f.ofBytes (f.toBytes v) = v := by
  cases f with
  | integer k =>
    obtain ⟨positive, bytes⟩ := whole
    show Scalar.ofBits (Word.ofBytes k.width (Word.toBytes v.bits)) = v
    rw [Word.ofBytes_toBytes bytes, Scalar.ofBits_bits positive]
  | truth => cases v <;> rfl

end Field

namespace Layout

/-- All fields take whole bytes, so that there are no gaps between them. -/
def Whole (l : Layout) : Prop := ∀ f ∈ l, f.2.Whole

theorem length_toBytes (l : Layout) (v : l.Values) : (l.toBytes v).length = l.bytes := by
  induction l with
  | nil => rfl
  | cons f rest ih =>
    obtain ⟨v, vs⟩ := v
    show (f.2.toBytes v ++ toBytes rest vs).length = f.2.bytes + bytes rest
    rw [List.length_append, f.2.length_toBytes, ih]

theorem ofBytes_toBytes {l : Layout} (whole : l.Whole) (v : l.Values) :
    l.ofBytes (l.toBytes v) = v := by
  induction l with
  | nil => rfl
  | cons f rest ih =>
    obtain ⟨v, vs⟩ := v
    have first := f.2.length_toBytes v
    have tail := ih (fun f hf => whole f (List.mem_cons_of_mem _ hf)) vs
    show (f.2.ofBytes ((f.2.toBytes v ++ toBytes rest vs).take f.2.bytes),
      ofBytes rest ((f.2.toBytes v ++ toBytes rest vs).drop f.2.bytes)) = (v, vs)
    rw [List.take_left' first, List.drop_left' first, tail,
      Field.ofBytes_toBytes (whole f List.mem_cons_self)]

end Layout

/-! ### Carriers -/

namespace Carrier

variable {T W : Type}

/-- Every value comes back from its word. -/
def Faithful (c : Carrier T W) : Prop := Function.LeftInverse c.ofWord c.toWord

theorem faithful_itself (W : Type) : (itself W).Faithful := fun _ => rfl

theorem faithful_scalar {k : Kind} (positive : 0 < k.width) : (scalar k).Faithful :=
  Scalar.ofBits_bits positive

theorem faithful_bool : bool.Faithful := by
  intro b
  cases b <;> rfl

theorem faithful_taggedPointer : taggedPointer.Faithful := fun t => by
  show (⟨(DoubleWord.pack t.pointer t.tag).low, (DoubleWord.pack t.pointer t.tag).high⟩ :
    TaggedPointer) = t
  rw [DoubleWord.low_pack, DoubleWord.high_pack]

theorem faithful_record {l : Layout} (whole : l.Whole) :
    (l.carrier (8 * l.bytes)).Faithful := fun v => by
  show l.ofBytes (Word.toBytes (Word.ofBytes (8 * l.bytes) (l.toBytes v))) = v
  rw [Word.toBytes_ofBytes (l.length_toBytes v), l.ofBytes_toBytes whole]

end Carrier

end OrderedAtomics
