import OrderedAtomics.Cell.Operations

/-! A cell that has every operation as a primitive and records each of them with the order the
caller gave. It shows which primitives a derived operation uses. -/

namespace OrderedAtomics.Recorder

variable {w : Nat}

def machine : FetchAdd (Cell (BitVec w)) (BitVec w) where
  load := Cell.read
  store := Cell.write
  casWeak := Cell.compareExchange identical .weak
  isLockFree := do Cell.record .lockFreeQuery; return true
  patience := Cell.patience
  casStrong := Cell.compareExchange identical .strong
  exchange := Cell.swap
  fetchAdd v o := Cell.modifyBy (.fetchAdd v o) (· + v)

def counting : Counting (Cell (BitVec w)) (BitVec w) where
  fetchAddVar v o := Cell.modifyBy (.fetchAddVar v o) (· + v)
  fetchInc o := Cell.modifyBy (.fetchInc o) (· + 1)
  fetchDec o := Cell.modifyBy (.fetchDec o) (· - 1)

end OrderedAtomics.Recorder
