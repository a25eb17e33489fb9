import OrderedAtomics.Fault
import OrderedAtomics.Word

/-! A cell of shared memory: its value, what other threads are going to do to it before the
coming compare-exchange attempts, and the primitive accesses made so far. -/

namespace OrderedAtomics

/-- A call on a shared state: it ends with an answer or a fault, and the state as it then is. -/
abbrev Access (σ α : Type) := EStateM Fault σ α

/-- Whether a compare-exchange may fail although the value was the expected one. -/
inductive Strength where
  | weak | strong
  deriving DecidableEq, Repr

/-- What happens between a thread's last look at a cell and its compare-exchange. -/
inductive Disturbance (α : Type) where
  | quiet
  /-- Another thread writes the cell. -/
  | overwrite (value : α)
  /-- A weak compare-exchange fails without cause. -/
  | spurious
  deriving Repr

/-- A primitive access or a fence. -/
inductive Event (α : Type) where
  | load (order : MemoryOrder)
  | store (value : α) (order : MemoryOrder)
  | exchange (value : α) (order : MemoryOrder)
  | cas (strength : Strength) (expected desired : α) (success failure : MemoryOrder) (stored : Bool)
  | fetchAdd (value : α) (order : MemoryOrder)
  | fetchAddVar (value : α) (order : MemoryOrder)
  | fetchInc (order : MemoryOrder)
  | fetchDec (order : MemoryOrder)
  | lockFreeQuery
  | before (order : MemoryOrder)
  | after (order : MemoryOrder)
  | fence (order : MemoryOrder)
  deriving DecidableEq, Repr

/-- What a compare-exchange reports: whether it stored, and what its caller now expects. -/
structure CasOutcome (α : Type) where
  stored : Bool
  expected : α
  deriving DecidableEq, Repr

structure Cell (α : Type) where
  value : α
  script : List (Disturbance α) := []
  trace : List (Event α) := []

namespace Cell

variable {α : Type}

/-- Adds an event at the end of the trace. -/
def record (e : Event α) : Access (Cell α) Unit :=
  modify fun c => { c with trace := c.trace ++ [e] }

/-- Lets the next disturbance happen and says whether it is a spurious failure. -/
def disturb (c : Cell α) : Bool × Cell α :=
  match c.script with
  | [] => (false, c)
  | .quiet :: rest => (false, { c with script := rest })
  | .overwrite v :: rest => (false, { c with value := v, script := rest })
  | .spurious :: rest => (true, { c with script := rest })

/-- The attempts after which a retry loop has outlived every disturbance. -/
def patience (c : Cell α) : Nat := c.script.length + 1

def read (order : MemoryOrder) : Access (Cell α) α := do
  record (.load order)
  return (← get).value

def write (v : α) (order : MemoryOrder) : Access (Cell α) Unit := do
  record (.store v order)
  modify fun c => { c with value := v }

def swap (v : α) (order : MemoryOrder) : Access (Cell α) α := do
  record (.exchange v order)
  let c ← get
  set { c with value := v }
  return c.value

/-- One attempt: a disturbance, then the comparison and the store in one step. -/
def compareExchange (same : α → α → Except Fault Bool) (strength : Strength) (expected desired : α)
    (success failure : MemoryOrder) : Access (Cell α) (CasOutcome α) := do
  let (spurious, c) := (← get).disturb
  set c
  match same c.value expected with
  | .error fault => throw fault
  | .ok equal =>
    let stored := equal && !(spurious && strength == .weak)
    record (.cas strength expected desired success failure stored)
    if stored then
      modify fun c => { c with value := desired }
      return ⟨true, expected⟩
    else
      return ⟨false, c.value⟩

/-- Replaces the value by a function of it in one step and answers the previous one. -/
def modifyBy (e : Event α) (f : α → α) : Access (Cell α) α := do
  record e
  let c ← get
  set { c with value := f c.value }
  return c.value

end Cell

/-- A state that has a cell in it. -/
structure Holder (σ α : Type) where
  cell : σ → Cell α
  setCell : Cell α → σ → σ

namespace Holder

variable {σ α : Type}

def itself : Holder (Cell α) α := ⟨id, fun c _ => c⟩

/-- The state with a script for the next call. -/
def prepare (h : Holder σ α) (script : List (Disturbance α)) (s : σ) : σ :=
  h.setCell { h.cell s with script := script } s

/-- The state with nothing in script and trace. -/
def rest (h : Holder σ α) (s : σ) : σ := h.setCell ⟨(h.cell s).value, [], []⟩ s

end Holder

/-- Equality of words, which never refuses. -/
def identical {α : Type} [DecidableEq α] (x y : α) : Except Fault Bool := .ok (decide (x = y))

end OrderedAtomics
