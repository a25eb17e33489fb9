import OrderedAtomics.Text.Quoted

/-! Values on a pair of cache lines of their own. -/

namespace OrderedAtomics

structure Padded (α : Type) where
  value : α

namespace Padded

/-- A pair of cache lines, in bytes. -/
abbrev alignment : Nat := 128

variable {α : Type}

def text (inner : α → String) (p : Padded α) : String := Text.wrapped "CachePadded" (inner p.value)

end Padded

end OrderedAtomics
