import OrderedAtomics.Word

/-! Integers of a fixed range, signed or not, and the words that stand for them. -/

namespace OrderedAtomics

/-- An integer type: whether it has negative values, and its width in bits. -/
structure Kind where
  signed : Bool
  width : Nat
  deriving DecidableEq, Repr

namespace Kind

def unsigned (width : Nat) : Kind := ⟨false, width⟩

def twosComplement (width : Nat) : Kind := ⟨true, width⟩

/-- The type of a name such as `u16` or `i64`. The address-sized ones have no number. -/
def named? (name : String) : Option Kind :=
  let width? (digits : List Char) : Option Nat :=
    if digits = ['s', 'i', 'z', 'e'] then some addressWidth else (String.ofList digits).toNat?
  match name.toList with
  | 'u' :: digits => (width? digits).map unsigned
  | 'i' :: digits => (width? digits).map twosComplement
  | _ => none

/-- The least value. -/
def least (k : Kind) : Int := if k.signed then -Int.pow 2 (k.width - 1) else 0

/-- One more than the greatest value. -/
def limit (k : Kind) : Int := if k.signed then Int.pow 2 (k.width - 1) else Int.pow 2 k.width

end Kind

/-- A value of an integer type. -/
structure Scalar (k : Kind) where
  val : Int
  least_le : k.least ≤ val
  lt_limit : val < k.limit
  deriving DecidableEq

namespace Scalar

variable {k : Kind}

@[ext] theorem ext {a b : Scalar k} (h : a.val = b.val) : a = b := by
  cases a; cases b; simp_all

/-- The value of a word in this type. -/
def ofBits (v : BitVec k.width) : Scalar k where
  val := if k.signed then v.toInt else v.toNat
  least_le := by
    unfold Kind.least
    split
    · exact BitVec.le_toInt v
    · exact Int.natCast_nonneg _
  lt_limit := by
    unfold Kind.limit
    split
    · exact BitVec.toInt_lt
    · have lt : ((v.toNat : Nat) : Int) < ((2 ^ k.width : Nat) : Int) := Int.ofNat_lt.mpr v.isLt
      rwa [Int.natCast_pow] at lt

/-- The word that stands for a value: two's complement for negative ones. -/
def bits (s : Scalar k) : BitVec k.width := BitVec.ofInt k.width s.val

/-- The value that an integer wraps around to. -/
def wrap (k : Kind) (i : Int) : Scalar k := ofBits (BitVec.ofInt k.width i)

instance : Inhabited (Scalar k) := ⟨wrap k 0⟩

def text (s : Scalar k) : String := toString s.val

end Scalar

namespace Update

/-- An update of a plain variable of an integer type: arithmetic wraps into the range of the type,
and bitwise updates act on the bits of the values. -/
def onScalar {k : Kind} : Update → Scalar k → Scalar k → Scalar k
  | .add, x, y => .wrap k (x.val + y.val)
  | .sub, x, y => .wrap k (x.val - y.val)
  | bitwise, x, y => .ofBits (bitwise.apply x.bits y.bits)

end Update

end OrderedAtomics
