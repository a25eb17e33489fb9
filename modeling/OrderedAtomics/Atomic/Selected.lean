import OrderedAtomics.Atomic.Integer
import OrderedAtomics.Cell.Backend

/-! Typed atomics on the selected backend. -/

namespace OrderedAtomics

variable {T : Type} {w : Nat}

/-- An atomic of any type that is kept in a word. -/
def Atomic.selected (carrier : Carrier T (BitVec w)) : Atomic (Cell (BitVec w)) T (BitVec w) :=
  ⟨(Cell.totalStore Native.strict).toExchange, carrier⟩

/-- An atomic of an integer type. -/
def AtomicInteger.selected (k : Kind) : AtomicInteger (Cell (BitVec k.width)) (Scalar k) k.width :=
  ⟨Cell.totalStore Native.strict, .scalar k⟩

end OrderedAtomics
