import OrderedAtomics.Cell.Kind
import OrderedAtomics.Cell.Native

/-! The five backends and the cells that each of them builds. -/

namespace OrderedAtomics

inductive Backend where
  | x86 | powerPc | alpha | genericCas | fallback
  deriving DecidableEq, Repr

namespace Backend

def all : List Backend := [x86, powerPc, alpha, genericCas, fallback]

/-- The backend behind typed values. -/
def selected : Backend := x86

def name : Backend → String
  | x86 => "x86"
  | powerPc => "ppc"
  | alpha => "alpha"
  | genericCas => "generic-cas"
  | fallback => "fallback"

/-- The name as a constant. -/
def variant : Backend → String
  | x86 => "X86"
  | powerPc => "PowerPc"
  | alpha => "Alpha"
  | genericCas => "GenericCas"
  | fallback => "Fallback"

end Backend

namespace Cell

variable {w : Nat}

/-- A full cell on a machine that has every primitive. -/
def totalStore (n : Native (Cell (BitVec w)) (BitVec w)) : FetchAdd (Cell (BitVec w)) (BitVec w) :=
  TotalStore.machine n

/-- A full cell on a load-linked/store-conditional machine. -/
def loadLinked (n : Native (Cell (BitVec w)) (BitVec w)) (b : Barriers (Cell (BitVec w))) :
    FetchAdd (Cell (BitVec w)) (BitVec w) :=
  (LoadLinked.machine n b).withExchange.withCounting (LoadLinked.counting n b)

/-- A full cell on a machine with a fully fenced compare-exchange only. -/
def fencedSwap (n : Native (Cell (BitVec w)) (BitVec w)) : FetchAdd (Cell (BitVec w)) (BitVec w) :=
  (FencedSwap.machine n).withFetchAdd

end Cell

namespace LoadLinked

variable {w : Nat}

/-- The bare machine with some barriers. -/
def bare (n : Native (Cell (BitVec w)) (BitVec w)) (b : Barriers (Cell (BitVec w))) : CellKind w :=
  .plain (.minimal (machine n b) (some (counting n b)))

/-- The full cell on it. -/
def full (n : Native (Cell (BitVec w)) (BitVec w)) (b : Barriers (Cell (BitVec w))) : CellKind w :=
  .plain (.integral (Cell.loadLinked n b))

end LoadLinked

namespace Backend

variable {w : Nat}

/-- Where the lock-based cells of this library lie. Which lock they share changes no answer. -/
def lockedAddress : Address := 0x1000

/-- The machine of a backend over a hardware word, which the fallback does not use. -/
def bare (n : Native (Cell (BitVec w)) (BitVec w)) : Backend → CellKind w
  | x86 => .plain (.fetchAdd (TotalStore.machine n))
  | powerPc => LoadLinked.bare n FenceTable.powerPc.barriers
  | alpha => LoadLinked.bare n FenceTable.alpha.barriers
  | genericCas => .plain (.exchange (FencedSwap.machine n) none)
  | fallback => .locked (.fetchAdd (Locked.wordMachine lockedAddress))

/-- The full cell of a backend. -/
def full (n : Native (Cell (BitVec w)) (BitVec w)) : Backend → CellKind w
  | x86 => .plain (.integral (Cell.totalStore n))
  | powerPc => LoadLinked.full n FenceTable.powerPc.barriers
  | alpha => LoadLinked.full n FenceTable.alpha.barriers
  | genericCas => .plain (.integral (Cell.fencedSwap n))
  | fallback => .locked (.integral (Locked.wordMachine lockedAddress))

/-- The word around a small cell of a backend. -/
abbrev embeddingWidth : Nat := 32

/-- The full small cell of a backend that has no small words. -/
def embedded (b : Backend) (m : Nat) : CellKind m :=
  CellKind.embedded (b.bare (Native.strict : Native (Cell (BitVec embeddingWidth)) _)) m

end Backend

end OrderedAtomics
