import OrderedAtomics.Atomic
import OrderedAtomics.Text.Quoted

/-! Records of integers and truth values, laid out without gaps from the lowest byte of a word on,
and the byte copies between a record and a word. -/

namespace OrderedAtomics

/-- The type of a field. -/
inductive Field where
  | integer (kind : Kind)
  | truth
  deriving DecidableEq, Repr

namespace Field

/-- The type of a name. -/
def named? (name : String) : Option Field :=
  if name = "bool" then some truth else (Kind.named? name).map integer

/-- The values of a field. -/
abbrev Value : Field → Type
  | integer k => Scalar k
  | truth => Bool

/-- The size of a field in bytes. -/
def bytes : Field → Nat
  | integer k => Word.bytes k.width
  | truth => 1

def toBytes : (f : Field) → f.Value → List (BitVec 8)
  | integer _, v => Word.toBytes v.bits
  | truth, b => [if b then 1 else 0]

def ofBytes : (f : Field) → List (BitVec 8) → f.Value
  | integer k, bs => .ofBits (Word.ofBytes k.width bs)
  | truth, bs => bs.any (· != 0)

def text : (f : Field) → f.Value → String
  | integer _, v => v.text
  | truth, b => Text.truth b

def same : (f : Field) → f.Value → f.Value → Bool
  | integer _, x, y => decide (x = y)
  | truth, x, y => x == y

def zero : (f : Field) → f.Value
  | integer k => .wrap k 0
  | truth => false

end Field

/-- Named fields in order. -/
abbrev Layout := List (String × Field)

namespace Layout

/-- One value for each field. -/
abbrev Values : Layout → Type
  | [] => Unit
  | (_, f) :: rest => f.Value × Values rest

/-- The size of a record in bytes. -/
def bytes (l : Layout) : Nat := l.foldr (fun f n => f.2.bytes + n) 0

/-- The bytes of a record, field after field. -/
def toBytes : (l : Layout) → l.Values → List (BitVec 8)
  | [], _ => []
  | (_, f) :: rest, (v, vs) => f.toBytes v ++ toBytes rest vs

/-- The record with the given bytes. -/
def ofBytes : (l : Layout) → List (BitVec 8) → l.Values
  | [], _ => ()
  | (_, f) :: rest, bs => (f.ofBytes (bs.take f.bytes), ofBytes rest (bs.drop f.bytes))

def zero : (l : Layout) → l.Values
  | [] => ()
  | (_, f) :: rest => (f.zero, zero rest)

/-- The texts of the fields with their names. -/
def texts : (l : Layout) → l.Values → List (String × String)
  | [], _ => []
  | (name, f) :: rest, (v, vs) => (name, f.text v) :: texts rest vs

/-- Equality of all fields. -/
def same : (l : Layout) → l.Values → l.Values → Bool
  | [], _, _ => true
  | (_, f) :: rest, (x, xs), (y, ys) => f.same x y && same rest xs ys

/-- Comparison of all fields. -/
def fieldwise (l : Layout) (x y : l.Values) : Except Fault Bool := .ok (l.same x y)

/-- Comparison of the first field alone. -/
def byFirst : (l : Layout) → l.Values → l.Values → Except Fault Bool
  | [], _, _ => .ok true
  | (_, f) :: _, (x, _), (y, _) => .ok (f.same x y)

/-- Whether the first field is an integer with the given value. -/
def startsWith (n : Int) : (l : Layout) → l.Values → Bool
  | (_, .integer _) :: _, (x, _) => x.val == n
  | _, _ => false

/-- Comparison of all fields that is refused if either record starts with `n`. -/
def refusing (n : Int) (l : Layout) (x y : l.Values) : Except Fault Bool :=
  if l.startsWith n x || l.startsWith n y then .error .incomparable else l.fieldwise x y

/-- The text of a record: its name, and its fields with their names. -/
def text (l : Layout) (name : String) (v : l.Values) : String :=
  Text.structured name (l.texts v)

/-- The record with the bytes of another one. It has to be of the same size. -/
def recast? (l m : Layout) (v : l.Values) : Except Fault m.Values :=
  if l.bytes = m.bytes then .ok (m.ofBytes (l.toBytes v)) else .error .sizeMismatch

/-- A record of the size of a word, kept in it. -/
def carrier (l : Layout) (w : Nat) : Carrier l.Values (BitVec w) where
  toWord v := Word.ofBytes w (l.toBytes v)
  ofWord v := l.ofBytes (Word.toBytes v)

end Layout

/-- The word with the given bytes; it has to be of their size. -/
def Word.ofBytes? (w : Nat) (bs : List (BitVec 8)) : Except Fault (BitVec w) :=
  if bs.length = Word.bytes w then .ok (Word.ofBytes w bs) else .error .sizeMismatch

/-- The bytes of a word for a value of the given size. -/
def Word.toBytes? {w : Nat} (size : Nat) (v : BitVec w) : Except Fault (List (BitVec 8)) :=
  if size = Word.bytes w then .ok (Word.toBytes v) else .error .sizeMismatch

end OrderedAtomics
