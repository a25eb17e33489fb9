import OrderedAtomics.Cell.Call
import OrderedAtomics.Cell.Locked
import OrderedAtomics.Cell.SubWord

/-! Kinds of cells: what a cell of some width is made of and what it offers, whether it is a word of
its own, a part of a larger one or a value behind a lock. -/

namespace OrderedAtomics

/-- A kind of cell for `w` bits: its state, in which a recorded cell holds a whole word, how a value
lies in that word, and what the cell offers. -/
structure CellKind (w : Nat) where
  whole : Nat
  State : Type
  holder : Holder State (BitVec whole)
  start : BitVec whole → State
  embed : BitVec w → BitVec whole
  extract : BitVec whole → BitVec w
  interface : Interface State w

namespace CellKind

variable {w : Nat}

def fresh (k : CellKind w) (v : BitVec w) : k.State := k.start (k.embed v)

def value (k : CellKind w) (s : k.State) : BitVec w := k.extract (k.holder.cell s).value

/-- A cell that is all of its word. -/
def plain (interface : Interface (Cell (BitVec w)) w) : CellKind w :=
  ⟨w, _, .itself, fun v => ⟨v, [], []⟩, id, id, interface⟩

/-- A cell behind the lock of an address. -/
def locked (interface : Interface (Guarded (BitVec w)) w) : CellKind w :=
  ⟨w, _, Guarded.holder, Guarded.fresh, id, id, interface⟩

/-- A small cell in the word of another one, from some bit on. -/
def part (base : CellKind w) (m shift : Nat) : CellKind m where
  whole := base.whole
  State := base.State
  holder := base.holder
  start := base.start
  embed v := base.embed (SubWord.surround w shift v)
  extract word := SubWord.extract m shift (base.extract word)
  interface := .minimal (SubWord.machine base.interface.minimalOps m shift) none

/-- A kind of cell with every operation derived from its minimal ones. -/
def derived (k : CellKind w) : CellKind w :=
  { k with interface := .integral k.interface.minimalOps.integral }

/-- A full small cell in the lowest bytes of the word of another one. -/
def embedded (base : CellKind w) (m : Nat) : CellKind m := (base.part m 0).derived

end CellKind

end OrderedAtomics
