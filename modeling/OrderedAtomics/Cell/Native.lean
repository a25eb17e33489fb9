import OrderedAtomics.Cell.Operations

/-! Words that hardware accesses, and the machines built straight on them: one with every
primitive, one with a fully fenced compare-exchange only, and load-linked/store-conditional
machines whose orders come from fences alone. -/

namespace OrderedAtomics

/-- The primitives of a hardware word. -/
structure Native (σ W : Type) where
  load : HardwareOrder → Access σ W
  store : W → HardwareOrder → Access σ Unit
  swap : W → HardwareOrder → Access σ W
  compareExchange : Strength → W → W → HardwareOrder → HardwareOrder → Access σ (CasOutcome W)
  fetchAdd : W → HardwareOrder → Access σ W
  patience : σ → Nat

namespace Native

variable {w : Nat}

/-- No hardware load releases. -/
def checkLoad {σ : Type} : HardwareOrder → Access σ Unit
  | .release => throw (.noSuchAccess .release .load)
  | .acqRel => throw (.noSuchAccess .acqRel .load)
  | _ => pure ()

/-- No hardware store acquires. -/
def checkStore {σ : Type} : HardwareOrder → Access σ Unit
  | .acquire => throw (.noSuchAccess .acquire .store)
  | .acqRel => throw (.noSuchAccess .acqRel .store)
  | _ => pure ()

/-- A failed compare-exchange does not release. -/
def checkFailure {σ : Type} : HardwareOrder → Access σ Unit
  | .release => throw (.noSuchAccess .release .failure)
  | .acqRel => throw (.noSuchAccess .acqRel .failure)
  | _ => pure ()

/-- A recorded word that takes every order. -/
def lenient : Native (Cell (BitVec w)) (BitVec w) where
  load o := Cell.read o.toMemory
  store v o := Cell.write v o.toMemory
  swap v o := Cell.swap v o.toMemory
  compareExchange k e d s f := Cell.compareExchange identical k e d s.toMemory f.toMemory
  fetchAdd v o := Cell.modifyBy (.fetchAdd v o.toMemory) (· + v)
  patience := Cell.patience

/-- A word that refuses the orders hardware has no primitive for, before it does anything. -/
def strict : Native (Cell (BitVec w)) (BitVec w) where
  load o := do checkLoad o; lenient.load o
  store v o := do checkStore o; lenient.store v o
  swap := lenient.swap
  compareExchange k e d s f := do checkFailure f; lenient.compareExchange k e d s f
  fetchAdd := lenient.fetchAdd
  patience := lenient.patience

end Native

variable {σ W : Type}

/-! ### The machine with every primitive -/

namespace TotalStore

/-- Stores are ordered already, so only a sequentially consistent one needs a locked swap. -/
def store (n : Native σ W) (v : W) : MemoryOrder → Access σ Unit
  | .seqCst => do let _ ← n.swap v .seqCst
  | order => n.store v order.toHardware

def machine (n : Native σ W) : FetchAdd σ W where
  load o := n.load o.toHardware
  store := store n
  casWeak e d s f := n.compareExchange .strong e d s.toHardware f.toHardware
  isLockFree := pure true
  patience := n.patience
  casStrong e d s f := n.compareExchange .strong e d s.toHardware f.toHardware
  exchange v o := n.swap v o.toHardware
  fetchAdd v o := n.fetchAdd v o.toHardware

end TotalStore

/-! ### Pairs of words swapped as one -/

namespace DoubleSwap

/-- Whether the pair is swapped without a lock depends on the processor. -/
def machine (n : Native σ W) (lockFree : Bool := true) : Exchange σ W where
  load o := n.load o.toHardware
  store v o := n.store v o.toHardware
  casWeak e d s f := n.compareExchange .weak e d s.toHardware f.toHardware
  isLockFree := pure lockFree
  patience := n.patience
  casStrong e d s f := n.compareExchange .strong e d s.toHardware f.toHardware
  exchange v o := n.swap v o.toHardware

end DoubleSwap

/-! ### A fully fenced compare-exchange and nothing else -/

namespace FencedSwap

variable [DecidableEq W]

/-- The one primitive: the value found in the cell. -/
def fencedCas (n : Native σ W) (expected desired : W) : Access σ W := do
  return (← n.compareExchange .strong expected desired .seqCst .seqCst).expected

/-- Writes `f` of the value once it holds still, and answers the value found. -/
def settle (n : Native σ W) (f : W → W) : Access σ W := do
  let guess ← n.load .relaxed
  let attempt (guess : W) : Access σ (W ⊕ W) := do
    let found ← fencedCas n guess (f guess)
    return if found = guess then .inr found else .inl found
  retry attempt (n.patience (← get)) guess

/-- Makes one attempt and reports the value found in every case. -/
def cas (n : Native σ W) (expected desired : W) : Access σ (CasOutcome W) := do
  let found ← fencedCas n expected desired
  return ⟨decide (found = expected), found⟩

/-- A load writes back what it found; orders are ignored, as every attempt is fully fenced. -/
def machine (n : Native σ W) : Exchange σ W where
  load _ := settle n id
  store v _ := do let _ ← settle n fun _ => v
  casWeak e d _ _ := cas n e d
  isLockFree := pure true
  patience := n.patience
  casStrong e d _ _ := cas n e d
  exchange v _ := settle n fun _ => v

end FencedSwap

/-! ### Load-linked and store-conditional -/

/-- What a machine does before and after a relaxed access to give it its order. -/
structure Barriers (σ : Type) where
  before : MemoryOrder → Access σ Unit
  after : MemoryOrder → Access σ Unit

/-- The fence before and after an access of each order, where there is one. -/
structure FenceTable where
  before : MemoryOrder → Option MemoryOrder
  after : MemoryOrder → Option MemoryOrder

namespace FenceTable

/-- Release orders fence before, acquire orders after, full fences for sequential consistency. -/
def powerPc : FenceTable where
  before
    | .release | .acqRel => some .release
    | .seqCst => some .seqCst
    | _ => none
  after
    | .consume | .acquire | .acqRel => some .acquire
    | .seqCst => some .seqCst
    | _ => none

/-- Every fence is a full one, and dependent loads need it too. -/
def alpha : FenceTable where
  before
    | .consume | .release | .acqRel | .seqCst => some .seqCst
    | _ => none
  after
    | .consume | .acquire | .acqRel | .seqCst => some .seqCst
    | _ => none

def empty : FenceTable := ⟨fun _ => none, fun _ => none⟩

/-- Issues one fence, if there is one to issue. -/
def issue {α : Type} : Option MemoryOrder → Access (Cell α) Unit
  | none => pure ()
  | some order => Cell.record (.fence order)

/-- The fences of the table. -/
def barriers {α : Type} (t : FenceTable) : Barriers (Cell α) where
  before o := issue (t.before o)
  after o := issue (t.after o)

/-- The fences of the table, each visit to it recorded. -/
def recorded {α : Type} (t : FenceTable) : Barriers (Cell α) where
  before o := do Cell.record (.before o); issue (t.before o)
  after o := do Cell.record (.after o); issue (t.after o)

end FenceTable

namespace LoadLinked

variable {α : Type} {w : Nat}

/-- A sequentially consistent load is fenced on both sides, so that no earlier store passes it. -/
def load (n : Native (Cell α) W) (b : Barriers (Cell α)) (order : MemoryOrder) :
    Access (Cell α) W := do
  if order = .seqCst then Cell.record (.fence .seqCst)
  let v ← n.load .relaxed
  b.after order
  return v

def store (n : Native (Cell α) W) (b : Barriers (Cell α)) (v : W) (order : MemoryOrder) :
    Access (Cell α) Unit := do
  b.before order
  n.store v .relaxed
  if order = .seqCst then Cell.record (.fence .seqCst)

def casWeak (n : Native (Cell α) W) (b : Barriers (Cell α)) (expected desired : W)
    (success failure : MemoryOrder) : Access (Cell α) (CasOutcome W) := do
  b.before success
  let outcome ← n.compareExchange .weak expected desired .relaxed .relaxed
  b.after (if outcome.stored then success else failure)
  return outcome

def fetchAdd (n : Native (Cell α) W) (b : Barriers (Cell α)) (v : W) (order : MemoryOrder) :
    Access (Cell α) W := do
  b.before order
  let previous ← n.fetchAdd v .relaxed
  b.after order
  return previous

/-- Every hardware access is relaxed; the barriers give it its order. -/
def machine (n : Native (Cell α) W) (b : Barriers (Cell α)) : Minimal (Cell α) W where
  load := load n b
  store := store n b
  casWeak := casWeak n b
  isLockFree := pure true
  patience := n.patience

def counting (n : Native (Cell α) (BitVec w)) (b : Barriers (Cell α)) :
    Counting (Cell α) (BitVec w) where
  fetchAddVar := fetchAdd n b
  fetchInc := fetchAdd n b 1
  fetchDec := fetchAdd n b (-1)

end LoadLinked

end OrderedAtomics
