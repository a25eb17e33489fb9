/-! Words are bit vectors. This module has their little-endian bytes, the pairing of two
address-sized words into a double word, the five updates a word can undergo, and the room that values
take in memory. -/

namespace OrderedAtomics

/-- Bits of an address, a tag and an index. -/
abbrev addressWidth : Nat := 64

abbrev Address := BitVec addressWidth

/-- Two address-sized words swapped as one. -/
abbrev DoubleWord := BitVec (addressWidth + addressWidth)

namespace DoubleWord

/-- The low word is in the low bits. -/
def pack (low high : BitVec addressWidth) : DoubleWord := high ++ low

def low (d : DoubleWord) : BitVec addressWidth := d.setWidth addressWidth

def high (d : DoubleWord) : BitVec addressWidth := (d >>> addressWidth).setWidth addressWidth

end DoubleWord

/-- The bytes that a value takes, and the alignment of its address. -/
structure Footprint where
  bytes : Nat
  align : Nat
  deriving DecidableEq, Repr

namespace Footprint

/-- A growable text: an address and two sizes. -/
def text : Footprint := ⟨24, 8⟩

/-- The size of a slot for a node, which has a link of some bytes and a value in it. The link of the
slot itself comes after the node, so it takes as much room as the alignment. -/
def slotBytes (value : Footprint) (linkBytes : Nat) : Nat :=
  let align := max linkBytes value.align
  (linkBytes + value.bytes + (align - 1)) / align * align + align

theorem slotBytes_pos {linkBytes : Nat} (h : 0 < linkBytes) (value : Footprint) :
    0 < value.slotBytes linkBytes :=
  Nat.add_pos_right _ (Nat.lt_of_lt_of_le h (Nat.le_max_left _ _))

end Footprint

namespace Word

/-- The size of a word in bytes. -/
def bytes (width : Nat) : Nat := width / 8

/-- The bytes of a word, lowest first. -/
def toBytes {w : Nat} (v : BitVec w) : List (BitVec 8) :=
  (List.range (bytes w)).map fun i => (v >>> (8 * i)).setWidth 8

/-- The word whose lowest bytes are given, zero above. -/
def ofBytes (w : Nat) : List (BitVec 8) → BitVec w
  | [] => 0
  | b :: rest => (ofBytes w rest <<< 8) ||| b.setWidth w

@[simp] theorem length_toBytes {w : Nat} (v : BitVec w) : (toBytes v).length = bytes w := by
  simp [toBytes]

end Word

/-- What a read-modify-write does to a word with its operand. -/
inductive Update where
  | add | sub | and | or | xor
  deriving DecidableEq, Repr

namespace Update

def all : List Update := [add, sub, and, or, xor]

def name : Update → String
  | add => "add"
  | sub => "sub"
  | and => "and"
  | or => "or"
  | xor => "xor"

/-- Arithmetic wraps at the width of the word. -/
def apply {w : Nat} : Update → BitVec w → BitVec w → BitVec w
  | add, x, y => x + y
  | sub, x, y => x - y
  | and, x, y => x &&& y
  | or, x, y => x ||| y
  | xor, x, y => x ^^^ y

/-- Addition and subtraction, as against the bitwise updates. -/
def isArithmetic : Update → Bool
  | add | sub => true
  | and | or | xor => false

end Update

/-- Which value a read-modify-write answers: the one it found or the one it left. -/
inductive Yield where
  | previous | updated
  deriving DecidableEq, Repr

def Yield.pick {α : Type} : Yield → α → α → α
  | previous, p, _ => p
  | updated, _, u => u

end OrderedAtomics
