import OrderedAtomics.Cell.Operations

/-! Calls on a cell as data, and what they do to a plain variable. An interface says which calls a
cell answers and with what. -/

namespace OrderedAtomics

inductive Call (W : Type) where
  | load (order : MemoryOrder)
  | store (value : W) (order : MemoryOrder)
  | cas (strength : Strength) (expected desired : W) (success failure : MemoryOrder)
  | exchange (value : W) (order : MemoryOrder)
  | isLockFree
  | modify (update : Update) (value : W) (yield : Yield) (order : MemoryOrder)
  | increment (yield : Yield) (order : MemoryOrder)
  | decrement (yield : Yield) (order : MemoryOrder)
  | fetchAddVar (value : W) (order : MemoryOrder)
  | fetchInc (order : MemoryOrder)
  | fetchDec (order : MemoryOrder)
  deriving DecidableEq, Repr

inductive Reply (W : Type) where
  | done
  | value (v : W)
  | outcome (o : CasOutcome W)
  | truth (b : Bool)
  deriving DecidableEq, Repr

/-- The operations a cell has, by level, and the counting ones where it has them apart. -/
inductive Interface (σ : Type) (w : Nat) where
  | minimal (ops : Minimal σ (BitVec w)) (counting : Option (Counting σ (BitVec w)))
  | exchange (ops : Exchange σ (BitVec w)) (counting : Option (Counting σ (BitVec w)))
  | fetchAdd (ops : FetchAdd σ (BitVec w))
  | arithmetic (ops : FetchAdd σ (BitVec w))
  | integral (ops : FetchAdd σ (BitVec w))

namespace Interface

variable {σ : Type} {w : Nat}

/-- The part that every interface has. -/
def minimalOps : Interface σ w → Minimal σ (BitVec w)
  | .minimal ops _ => ops
  | .exchange ops _ => ops.toMinimal
  | .fetchAdd ops | .arithmetic ops | .integral ops => ops.toMinimal

def exchangeOps : Interface σ w → Option (Exchange σ (BitVec w))
  | .minimal .. => none
  | .exchange ops _ => some ops
  | .fetchAdd ops | .arithmetic ops | .integral ops => some ops.toExchange

def countingOps : Interface σ w → Option (Counting σ (BitVec w))
  | .minimal _ counting | .exchange _ counting => counting
  | _ => none

def arithmeticOps : Interface σ w → Option (FetchAdd σ (BitVec w))
  | .arithmetic ops | .integral ops => some ops
  | _ => none

/-- The operations that an update needs: fetch-and-add has a level of its own. -/
def updateOps (i : Interface σ w) (update : Update) (yield : Yield) :
    Option (FetchAdd σ (BitVec w)) :=
  match i with
  | .fetchAdd ops => if update = .add ∧ yield = .previous then some ops else none
  | .arithmetic ops => if update.isArithmetic then some ops else none
  | .integral ops => some ops
  | _ => none

def answer (a : Access σ (BitVec w)) : Access σ (Reply (BitVec w)) := do return .value (← a)

/-- Makes a call, if the interface has it. -/
def perform? (i : Interface σ w) : Call (BitVec w) → Option (Access σ (Reply (BitVec w)))
  | .load o => some (answer (i.minimalOps.load o))
  | .store v o => some do i.minimalOps.store v o; return .done
  | .cas .weak e d s f => some do return .outcome (← i.minimalOps.casWeak e d s f)
  | .cas .strong e d s f =>
    i.exchangeOps.map fun ops => do return .outcome (← ops.casStrong e d s f)
  | .exchange v o => i.exchangeOps.map fun ops => answer (ops.exchange v o)
  | .isLockFree => some do return .truth (← i.minimalOps.isLockFree)
  | .modify u v y o => (i.updateOps u y).map fun ops => answer (ops.modify u v y o)
  | .increment y o => i.arithmeticOps.map fun ops => answer (ops.increment y o)
  | .decrement y o => i.arithmeticOps.map fun ops => answer (ops.decrement y o)
  | .fetchAddVar v o => i.countingOps.map fun ops => answer (ops.fetchAddVar v o)
  | .fetchInc o => i.countingOps.map fun ops => answer (ops.fetchInc o)
  | .fetchDec o => i.countingOps.map fun ops => answer (ops.fetchDec o)

end Interface

namespace Call

variable {w : Nat}

/-- What a call does to a plain variable: its answer and the value it leaves. `lockFree` is the
answer to the one question that is not about the value. -/
def onVariable (lockFree : Bool) (x : BitVec w) : Call (BitVec w) → Reply (BitVec w) × BitVec w
  | .load _ => (.value x, x)
  | .store v _ => (.done, v)
  | .cas _ e d _ _ => if x = e then (.outcome ⟨true, e⟩, d) else (.outcome ⟨false, x⟩, x)
  | .exchange v _ => (.value x, v)
  | .isLockFree => (.truth lockFree, x)
  | .modify u v y _ => (.value (y.pick x (u.apply x v)), u.apply x v)
  | .increment y _ => (.value (y.pick x (x + 1)), x + 1)
  | .decrement y _ => (.value (y.pick x (x - 1)), x - 1)
  | .fetchAddVar v _ => (.value x, x + v)
  | .fetchInc _ => (.value x, x + 1)
  | .fetchDec _ => (.value x, x - 1)

end Call

end OrderedAtomics
