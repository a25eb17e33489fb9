import OrderedAtomics.Cell.Operations
import OrderedAtomics.Scalar
import OrderedAtomics.TaggedPointer

/-! Typed atomics: a cell of words seen as a cell of values. An order that is not legal for the
operation is a fault before anything else happens. -/

namespace OrderedAtomics

/-- How values of a type are kept in words. -/
structure Carrier (T W : Type) where
  toWord : T → W
  ofWord : W → T

namespace Carrier

/-- Words that stand for themselves. -/
def itself (W : Type) : Carrier W W := ⟨id, id⟩

def scalar (k : Kind) : Carrier (Scalar k) (BitVec k.width) := ⟨Scalar.bits, Scalar.ofBits⟩

/-- One byte; every byte but zero reads as true. -/
def bool : Carrier Bool (BitVec 8) := ⟨fun b => if b then 1 else 0, fun v => v != 0⟩

def taggedPointer : Carrier TaggedPointer DoubleWord :=
  ⟨TaggedPointer.toWord, TaggedPointer.ofWord⟩

end Carrier

/-- A cell of `W` that holds values of `T`. -/
structure Atomic (σ T W : Type) where
  ops : Exchange σ W
  carrier : Carrier T W

/-- One visit of the closure of a fetch-and-update: what it stores into the atomic on the way, and
the value it asks for. -/
structure Attempt (T : Type) where
  store : Option T := none
  next : Option T := none
  deriving DecidableEq, Repr

namespace Atomic

variable {σ T W κ : Type}

def checkLoad (order : MemoryOrder) : Access σ Unit :=
  if order.legalForLoad then pure () else throw (.loadOrder order)

def checkStore (order : MemoryOrder) : Access σ Unit :=
  if order.legalForStore then pure () else throw (.storeOrder order)

def checkCas (orders : CasOrders) : Access σ Unit :=
  if orders.Legal then pure () else throw (.failureOrder orders.failure orders.success)

def load (a : Atomic σ T W) (order : MemoryOrder) : Access σ T := do
  checkLoad order
  return a.carrier.ofWord (← a.ops.load order)

def store (a : Atomic σ T W) (v : T) (order : MemoryOrder) : Access σ Unit := do
  checkStore order
  a.ops.store (a.carrier.toWord v) order

def exchange (a : Atomic σ T W) (v : T) (order : MemoryOrder) : Access σ T := do
  return a.carrier.ofWord (← a.ops.exchange (a.carrier.toWord v) order)

/-- On failure the caller expects the value found from then on. -/
def cas (a : Atomic σ T W) (strength : Strength) (expected desired : T) (orders : CasOrders) :
    Access σ (CasOutcome T) := do
  checkCas orders
  let word := a.carrier.toWord
  let outcome ← match strength with
    | .weak => a.ops.casWeak (word expected) (word desired) orders.success orders.failure
    | .strong => a.ops.casStrong (word expected) (word desired) orders.success orders.failure
  return if outcome.stored then ⟨true, expected⟩ else ⟨false, a.carrier.ofWord outcome.expected⟩

/-- The compare-exchange that answers the value found, as an error if nothing was stored. -/
def compareExchange (a : Atomic σ T W) (strength : Strength) (current new : T)
    (orders : CasOrders) : Access σ (Except T T) := do
  let outcome ← a.cas strength current new orders
  return if outcome.stored then .ok current else .error outcome.expected

/-- The orders of the compare-exchange that names none. -/
def usualOrders : CasOrders := ⟨.acqRel, .acquire⟩

def get (a : Atomic σ T W) : Access σ T := a.load .seqCst

def set (a : Atomic σ T W) (v : T) : Access σ Unit := a.store v .seqCst

def isLockFree (a : Atomic σ T W) : Access σ Bool := a.ops.isLockFree

/-- The value when the atomic goes away. -/
def final (a : Atomic σ T W) : Access σ T := a.load .relaxed

/-- The failure order of a fetch-and-update: the fetch order where that is legal. -/
def updateOrders (setOrder fetchOrder : MemoryOrder) : CasOrders :=
  ⟨setOrder, if fetchOrder.legalFailureFor setOrder then fetchOrder else setOrder.strongestFailure⟩

/-- Asks the closure for the next value until it gives none or that value is stored, as many times
as there are rounds. The closure has a state `κ` and may use the atomic itself. -/
def updateRounds (a : Atomic σ T W) (orders : CasOrders)
    (closure : κ → T → Access σ (κ × Option T)) : Nat → κ → T → Access σ (κ × Except T T)
  | 0, _, _ => throw .unfinished
  | n + 1, k, previous => do
    let (k, next) ← closure k previous
    match next with
    | none => return (k, .error previous)
    | some next =>
      let outcome ← a.cas .weak previous next orders
      if outcome.stored then return (k, .ok previous)
      else a.updateRounds orders closure n k outcome.expected

def fetchUpdate (a : Atomic σ T W) (setOrder fetchOrder : MemoryOrder)
    (closure : κ → T → Access σ (κ × Option T)) (rounds : Nat) (k : κ) :
    Access σ (κ × Except T T) := do
  let previous ← a.load fetchOrder
  a.updateRounds (updateOrders setOrder fetchOrder) closure rounds k previous

/-- The closure that follows a list of attempts and remembers the values it is shown. -/
def follow (a : Atomic σ T W) (k : List (Attempt T) × List T) (shown : T) :
    Access σ ((List (Attempt T) × List T) × Option T) := do
  let (attempts, seen) := k
  match attempts with
  | [] => return (([], seen ++ [shown]), none)
  | attempt :: rest =>
    if let some v := attempt.store then a.store v .relaxed
    return ((rest, seen ++ [shown]), attempt.next)

/-- Fetch-and-update with a list of attempts. Each round takes one of them, so the rounds suffice.
It answers the values shown too. -/
def fetchUpdateWith (a : Atomic σ T W) (setOrder fetchOrder : MemoryOrder)
    (attempts : List (Attempt T)) : Access σ (Except T T × List T) := do
  let ((_, seen), result) ←
    a.fetchUpdate setOrder fetchOrder a.follow (attempts.length + 1) (attempts, [])
  return (result, seen)

/-- The text of an atomic: the name of the type around the text of its value. -/
def text (a : Atomic σ T W) (value : T → String) : Access σ String := do
  return "Atomic(" ++ value (← a.load .relaxed) ++ ")"

/-! ### Calls as data -/

inductive Call (T : Type) where
  | load (order : MemoryOrder)
  | store (value : T) (order : MemoryOrder)
  | exchange (value : T) (order : MemoryOrder)
  | cas (strength : Strength) (expected desired : T) (orders : CasOrders)
  | compareExchange (strength : Strength) (current new : T) (orders : CasOrders)
  | get
  | set (value : T)
  | isLockFree
  | fetchUpdate (setOrder fetchOrder : MemoryOrder) (attempts : List (Attempt T))
  deriving DecidableEq, Repr

inductive Reply (T : Type) where
  | done
  | value (v : T)
  | outcome (o : CasOutcome T)
  | truth (b : Bool)
  | result (r : Except T T)
  | updated (r : Except T T) (seen : List T)

/-- Makes a call. -/
def perform (a : Atomic σ T W) : Call T → Access σ (Reply T)
  | .load o => do return .value (← a.load o)
  | .store v o => do a.store v o; return .done
  | .exchange v o => do return .value (← a.exchange v o)
  | .cas k e d os => do return .outcome (← a.cas k e d os)
  | .compareExchange k c n os => do return .result (← a.compareExchange k c n os)
  | .get => do return .value (← a.get)
  | .set v => do a.set v; return .done
  | .isLockFree => do return .truth (← a.isLockFree)
  | .fetchUpdate s f as => do
    let (r, seen) ← a.fetchUpdateWith s f as
    return .updated r seen

/-- Fetch-and-update of a plain variable `x`, whose closure was last shown `shown`. -/
def followVariable (same : T → T → Bool) :
    List (Attempt T) → List T → T → T → (Except T T × List T) × T
  | [], seen, shown, x => ((.error shown, seen ++ [shown]), x)
  | attempt :: rest, seen, shown, x =>
    let x := attempt.store.getD x
    match attempt.next with
    | none => ((.error shown, seen ++ [shown]), x)
    | some next =>
      if same x shown then ((.ok shown, seen ++ [shown]), next)
      else followVariable same rest (seen ++ [shown]) x x

/-- What a call does to a plain variable of type `T`, compared by `same`. -/
def Call.onVariable (lockFree : Bool) (same : T → T → Bool) (x : T) : Call T → Reply T × T
  | .load _ | .get => (.value x, x)
  | .store v _ | .set v => (.done, v)
  | .exchange v _ => (.value x, v)
  | .cas _ e d _ => if same x e then (.outcome ⟨true, e⟩, d) else (.outcome ⟨false, x⟩, x)
  | .compareExchange _ c n _ => if same x c then (.result (.ok c), n) else (.result (.error x), x)
  | .isLockFree => (.truth lockFree, x)
  | .fetchUpdate _ _ attempts =>
    let ((r, seen), x) := followVariable same attempts [] x x
    (.updated r seen, x)

end Atomic

end OrderedAtomics
