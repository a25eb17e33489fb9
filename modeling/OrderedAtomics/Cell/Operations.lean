import OrderedAtomics.Cell

/-! What a cell offers, at three levels, and how the upper levels are had from the lower ones.
Every derived read-modify-write is one retry loop around a weak compare-exchange. -/

namespace OrderedAtomics

/-- The operations every cell has. The state is `σ` and the values are `W`. -/
structure Minimal (σ W : Type) where
  load : MemoryOrder → Access σ W
  store : W → MemoryOrder → Access σ Unit
  /-- Expected value, desired value, success order, failure order. -/
  casWeak : W → W → MemoryOrder → MemoryOrder → Access σ (CasOutcome W)
  isLockFree : Access σ Bool
  /-- As many attempts as a retry loop on the state can need. -/
  patience : σ → Nat

/-- A cell that also has the strong compare-exchange and the exchange. -/
structure Exchange (σ W : Type) extends Minimal σ W where
  casStrong : W → W → MemoryOrder → MemoryOrder → Access σ (CasOutcome W)
  exchange : W → MemoryOrder → Access σ W

/-- A cell that also has fetch-and-add. -/
structure FetchAdd (σ W : Type) extends Exchange σ W where
  fetchAdd : W → MemoryOrder → Access σ W

/-- Additions of a variable, of one and of minus one, where a machine has them apart. -/
structure Counting (σ W : Type) where
  fetchAddVar : W → MemoryOrder → Access σ W
  fetchInc : MemoryOrder → Access σ W
  fetchDec : MemoryOrder → Access σ W

/-- Runs `attempt` until it answers, at most `n` times, each time on what the last one left. -/
def retry {σ α β : Type} (attempt : α → Access σ (α ⊕ β)) : Nat → α → Access σ β
  | 0, _ => throw .unfinished
  | n + 1, a => do
    match ← attempt a with
    | .inl next => retry attempt n next
    | .inr answer => return answer

namespace Minimal

variable {σ W : Type}

/-- Replaces the value by `f` of it and answers the value before and after. -/
def update (ops : Minimal σ W) (f : W → W) (order : MemoryOrder) : Access σ (W × W) := do
  let first ← ops.load .relaxed
  let attempt (current : W) : Access σ (W ⊕ W × W) := do
    let outcome ← ops.casWeak current (f current) order .relaxed
    return if outcome.stored then .inr (current, f current) else .inl outcome.expected
  retry attempt (ops.patience (← get)) first

/-- Tries the weak compare-exchange again for as long as it fails on the expected value. -/
def casUntilDecided [DecidableEq W] (ops : Minimal σ W) (expected desired : W)
    (success failure : MemoryOrder) : Access σ (CasOutcome W) := do
  let attempt (_ : Unit) : Access σ (Unit ⊕ CasOutcome W) := do
    let outcome ← ops.casWeak expected desired success failure
    return if outcome.stored || outcome.expected ≠ expected then .inr outcome else .inl ()
  retry attempt (ops.patience (← get)) ()

/-- Strong compare-exchange and exchange, from the weak compare-exchange. -/
def withExchange [DecidableEq W] (ops : Minimal σ W) : Exchange σ W where
  toMinimal := ops
  casStrong := ops.casUntilDecided
  exchange v order := do return (← ops.update (fun _ => v) order).1

end Minimal

variable {σ : Type} {w : Nat}

namespace Exchange

/-- Fetch-and-add, from the weak compare-exchange. -/
def withFetchAdd (ops : Exchange σ (BitVec w)) : FetchAdd σ (BitVec w) where
  toExchange := ops
  fetchAdd v order := do return (← ops.update (· + v) order).1

/-- Fetch-and-add, from the three counting operations. -/
def withCounting (ops : Exchange σ (BitVec w)) (counting : Counting σ (BitVec w)) :
    FetchAdd σ (BitVec w) where
  toExchange := ops
  fetchAdd v order :=
    if v = 1 then counting.fetchInc order
    else if v = -1 then counting.fetchDec order
    else counting.fetchAddVar v order

end Exchange

namespace FetchAdd

/-- Every update: the arithmetic ones by fetch-and-add, the bitwise ones by a retry loop. -/
def modify (ops : FetchAdd σ (BitVec w)) (u : Update) (v : BitVec w) (yield : Yield)
    (order : MemoryOrder) : Access σ (BitVec w) :=
  match u with
  | .add => do
    let previous ← ops.fetchAdd v order
    return yield.pick previous (previous + v)
  | .sub => do
    let previous ← ops.fetchAdd (-v) order
    return yield.pick previous (previous - v)
  | bitwise => do
    let (previous, updated) ← ops.update (bitwise.apply · v) order
    return yield.pick previous updated

def increment (ops : FetchAdd σ (BitVec w)) (yield : Yield) (order : MemoryOrder) :
    Access σ (BitVec w) :=
  ops.modify .add 1 yield order

def decrement (ops : FetchAdd σ (BitVec w)) (yield : Yield) (order : MemoryOrder) :
    Access σ (BitVec w) :=
  ops.modify .sub 1 yield order

end FetchAdd

/-- Everything from the minimal operations. -/
def Minimal.integral (ops : Minimal σ (BitVec w)) : FetchAdd σ (BitVec w) :=
  ops.withExchange.withFetchAdd

end OrderedAtomics
