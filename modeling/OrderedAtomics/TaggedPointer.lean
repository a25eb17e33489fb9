import OrderedAtomics.Text.Quoted
import OrderedAtomics.Word

/-! Pointers with a generation tag. Every update advances the tag, so a compare-exchange against an
old pair fails even when the pointer has come back. -/

namespace OrderedAtomics

/-- A pointer of any sort and its wrapping tag. -/
structure Tagged (α : Type) where
  pointer : α
  tag : BitVec addressWidth
  deriving DecidableEq, Repr

namespace Tagged

variable {α : Type}

/-- Another pointer under the next tag. -/
def advance (t : Tagged α) (pointer : α) : Tagged α := ⟨pointer, t.tag + 1⟩

@[simp] theorem pointer_advance (t : Tagged α) (p : α) : (t.advance p).pointer = p := rfl

@[simp] theorem tag_advance (t : Tagged α) (p : α) : (t.advance p).tag = t.tag + 1 := rfl

end Tagged

/-- A tagged machine address. -/
abbrev TaggedPointer := Tagged Address

namespace TaggedPointer

def null : TaggedPointer := ⟨0, 0⟩

instance : Inhabited TaggedPointer := ⟨null⟩

def isNull (t : TaggedPointer) : Bool := t.pointer == 0

/-- The pointer is the low word of the pair. -/
def toWord (t : TaggedPointer) : DoubleWord := DoubleWord.pack t.pointer t.tag

def ofWord (d : DoubleWord) : TaggedPointer := ⟨d.low, d.high⟩

def text (t : TaggedPointer) : String :=
  Text.structured "TaggedPtr"
    [("ptr", Text.address t.pointer.toNat), ("tag", toString t.tag.toNat)]

end TaggedPointer

/-- A link between the nodes of a container: a node number or nothing. -/
abbrev Link := Tagged (Option Nat)

namespace Link

def null : Link := ⟨none, 0⟩

instance : Inhabited Link := ⟨null⟩

end Link

end OrderedAtomics
