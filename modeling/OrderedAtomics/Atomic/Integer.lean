import OrderedAtomics.Atomic

/-! Atomics of integer types: read-modify-writes besides the operations of every atomic. -/

namespace OrderedAtomics

/-- A cell of words that holds integers of type `T`. -/
structure AtomicInteger (σ T : Type) (w : Nat) where
  ops : FetchAdd σ (BitVec w)
  carrier : Carrier T (BitVec w)

namespace AtomicInteger

variable {σ T : Type} {w : Nat}

def toAtomic (a : AtomicInteger σ T w) : Atomic σ T (BitVec w) := ⟨a.ops.toExchange, a.carrier⟩

def modify (a : AtomicInteger σ T w) (u : Update) (v : T) (yield : Yield) (order : MemoryOrder) :
    Access σ T := do
  return a.carrier.ofWord (← a.ops.modify u (a.carrier.toWord v) yield order)

def increment (a : AtomicInteger σ T w) (yield : Yield) : Access σ T := do
  return a.carrier.ofWord (← a.ops.increment yield .seqCst)

def decrement (a : AtomicInteger σ T w) (yield : Yield) : Access σ T := do
  return a.carrier.ofWord (← a.ops.decrement yield .seqCst)

inductive Call (T : Type) where
  | fetch (update : Update) (value : T) (order : MemoryOrder)
  /-- The form that answers the new value is sequentially consistent. -/
  | apply (update : Update) (value : T)
  | increment (yield : Yield)
  | decrement (yield : Yield)
  deriving DecidableEq, Repr

def perform (a : AtomicInteger σ T w) : Call T → Access σ T
  | .fetch u v o => a.modify u v .previous o
  | .apply u v => a.modify u v .updated .seqCst
  | .increment y => a.increment y
  | .decrement y => a.decrement y

/-- What a call does to a plain variable of an integer type. -/
def Call.onVariable {k : Kind} (x : Scalar k) : Call (Scalar k) → Scalar k × Scalar k
  | .fetch u v _ => (x, u.onScalar x v)
  | .apply u v => (u.onScalar x v, u.onScalar x v)
  | .increment y => (y.pick x (.wrap k (x.val + 1)), .wrap k (x.val + 1))
  | .decrement y => (y.pick x (.wrap k (x.val - 1)), .wrap k (x.val - 1))

end AtomicInteger

end OrderedAtomics
