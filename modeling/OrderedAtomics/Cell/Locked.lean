import OrderedAtomics.Cell.LockTable
import OrderedAtomics.Cell.Operations
import OrderedAtomics.Floating

/-! Values of any type made atomic by the lock table. A compare-exchange uses the comparison of the
type, whatever that is, and a comparison that faults leaves the cell as it was. -/

namespace OrderedAtomics

/-- A cell together with the locks that guard it. -/
structure Guarded (α : Type) where
  cell : Cell α
  locks : LockTable

namespace Guarded

variable {α β : Type}

def fresh (v : α) : Guarded α := ⟨⟨v, [], []⟩, .free⟩

def holder : Holder (Guarded α) α := ⟨Guarded.cell, fun c g => ⟨c, g.locks⟩⟩

/-- The thread that calls a locked cell outside any interleaving. -/
abbrev caller : Nat := 0

/-- Runs `body` on the cell while its locks are held. They are given back however it ends. -/
def critical (address : Address) (order : MemoryOrder) (body : Access (Cell α) β) :
    Access (Guarded α) β := fun g =>
  match g.locks.enter caller address order with
  | none => .error .blocked g
  | some locks =>
    match body g.cell with
    | .ok b cell => .ok b ⟨cell, locks.leave address order⟩
    | .error fault cell => .error fault ⟨cell, (locks.poison address order).leave address order⟩

end Guarded

namespace Locked

variable {α : Type} {w : Nat}

/-- The cell at an address, compared by `same`. No compare-exchange fails spuriously, and the
failure order has no use. -/
def machine (address : Address) (same : α → α → Except Fault Bool) : Exchange (Guarded α) α where
  load o := Guarded.critical address o (Cell.read o)
  store v o := Guarded.critical address o (Cell.write v o)
  casWeak e d s f := Guarded.critical address s (Cell.compareExchange same .strong e d s f)
  isLockFree := pure false
  patience g := g.cell.patience
  casStrong e d s f := Guarded.critical address s (Cell.compareExchange same .strong e d s f)
  exchange v o := Guarded.critical address o (Cell.swap v o)

/-- A locked word also adds in place. -/
def wordMachine (address : Address) : FetchAdd (Guarded (BitVec w)) (BitVec w) where
  toExchange := machine address identical
  fetchAdd v o := Guarded.critical address o (Cell.modifyBy (.fetchAdd v o) (· + v))

/-- A sample: its number, and a measured value in single precision. -/
abbrev Sample := BitVec 32 × BitVec 32

/-- Comparison field by field. -/
def Sample.same (x y : Sample) : Except Fault Bool :=
  .ok (x.1 == y.1 && FloatFormat.single.equal x.2.toNat y.2.toNat)

end Locked

end OrderedAtomics
