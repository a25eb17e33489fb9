import OrderedAtomics.Atomic.Selected
import OrderedAtomics.Text.Quoted

/-! Flags and atomic truth values, for entering something one at a time. -/

namespace OrderedAtomics

namespace AtomicBool

variable {σ W : Type}

inductive Call where
  /-- From false to true, or nothing. -/
  | trySet (order : MemoryOrder)
  | fetchSet (order : MemoryOrder)
  | fetchClear (order : MemoryOrder)
  deriving DecidableEq, Repr

def perform (a : Atomic σ Bool W) : Call → Access σ Bool
  | .trySet o => do return (← a.cas .strong false true (.ofSuccess o)).stored
  | .fetchSet o => a.exchange true o
  | .fetchClear o => a.exchange false o

/-- The calls that every atomic takes, and those of truth values. -/
inductive Operation where
  | basic (call : Atomic.Call Bool)
  | special (call : Call)
  deriving DecidableEq, Repr

namespace Operation

def perform : Operation → Access (Cell (BitVec 8)) (Atomic.Reply Bool)
  | basic c => (Atomic.selected .bool).perform c
  | special c => do return .truth (← AtomicBool.perform (.selected .bool) c)

/-- What the operation does to a plain variable. -/
def onVariable (x : Bool) : Operation → Atomic.Reply Bool × Bool
  | basic c => c.onVariable true (· == ·) x
  | special (.trySet _) => (.truth !x, true)
  | special (.fetchSet _) => (.truth x, true)
  | special (.fetchClear _) => (.truth x, false)

end Operation

end AtomicBool

namespace AtomicFlag

/-- A flag is a word that is set when it is not zero. -/
abbrev wordKind : Kind := .unsigned 32

abbrev State := Cell (BitVec 32)

def atomic : Atomic State (Scalar wordKind) (BitVec 32) :=
  ⟨(TotalStore.machine Native.strict).toExchange, .scalar wordKind⟩

def fresh (isSet : Bool) : State := ⟨if isSet then 1 else 0, [], []⟩

/-- Sets the flag and says whether it was set already. -/
def testAndSet (order : MemoryOrder) : Access State Bool := do
  return (← atomic.exchange (.wrap _ 1) order).val ≠ 0

def clear (order : MemoryOrder) : Access State Unit := atomic.store (.wrap _ 0) order

inductive Call where
  | testAndSet (order : MemoryOrder)
  | clear (order : MemoryOrder)
  | isLockFree
  deriving DecidableEq, Repr

def perform : Call → Access State (Atomic.Reply Bool)
  | .testAndSet o => do return .value (← testAndSet o)
  | .clear o => do clear o; return .done
  | .isLockFree => do return .truth (← atomic.isLockFree)

def isSet (f : State) : Bool := f.value != 0

def text (f : State) : String := Text.structured "AtomicFlag" [("set", Text.truth (isSet f))]

end AtomicFlag

end OrderedAtomics
