import OrderedAtomics.Pool
import OrderedAtomics.Protocol
import OrderedAtomics.Text.Quoted

/-! Last in, first out, for any number of threads: a chain of nodes from a tagged top. -/

namespace OrderedAtomics

namespace Stack

structure Node (α : Type) where
  next : Option Nat
  data : Option α

instance {α : Type} : Inhabited (Node α) := ⟨⟨none, none⟩⟩

end Stack

structure Stack (α : Type) where
  top : Link
  pool : Pool (Stack.Node α)

namespace Stack

variable {α : Type}

/-- The size of the link of a node: a pointer alone. -/
abbrev linkBytes : Nat := 8

/-! ### The cells of a stack -/

def next (s : Stack α) (i : Nat) : Option Nat := (s.pool.node? i).bind (·.next)

def data (s : Stack α) (i : Nat) : Option α := (s.pool.node? i).bind (·.data)

def setNext (s : Stack α) (i : Nat) (next : Option Nat) : Stack α :=
  match s with
  | ⟨top, pool⟩ => ⟨top, pool.modifyNode i fun n => ⟨next, n.data⟩⟩

def setData (s : Stack α) (i : Nat) (v : α) : Stack α :=
  match s with
  | ⟨top, pool⟩ => ⟨top, pool.modifyNode i fun n => ⟨n.next, some v⟩⟩

def setTop (s : Stack α) (top : Link) : Stack α :=
  match s with
  | ⟨_, pool⟩ => ⟨top, pool⟩

def take (s : Stack α) : Option Nat × Stack α :=
  match s with
  | ⟨top, pool⟩ =>
    let (i, pool) := pool.take
    (i, ⟨top, pool⟩)

def give (s : Stack α) (i : Nat) : Stack α :=
  match s with
  | ⟨top, pool⟩ => ⟨top, pool.give i⟩

/-- Makes room for more elements, if the pool may grow. -/
def reserve (s : Stack α) (additional : Nat) : Stack α :=
  match s with
  | ⟨top, pool⟩ => ⟨top, pool.reserve additional⟩

def takeNotices (s : Stack α) : List Notice × Stack α :=
  match s with
  | ⟨top, pool⟩ =>
    let (notices, pool) := pool.takeNotices
    (notices, ⟨top, pool⟩)

/-! ### Step by step -/

inductive Call (α : Type) where
  | push (value : α)
  | pop
  | isEmpty
  | reserve (additional : Nat)
  deriving DecidableEq, Repr

inductive Reply (α : Type) where
  | accepted
  /-- The pool has no node for the value. -/
  | rejected (value : α)
  | item (value : α)
  /-- A node was taken whose element had never been written. -/
  | unwritten
  | nothing
  | truth (b : Bool)
  | done
  deriving DecidableEq, Repr

inductive Point (α : Type) where
  | allocate (value : α)
  | write (node : Nat) (value : α)
  | loadTop (node : Nat)
  | storeNext (node : Nat) (top : Link)
  | swapForPush (node : Nat) (top : Link)
  | takeTop
  | takeNext (top : Link) (node : Nat)
  | swapForPop (top : Link) (node : Nat) (next : Option Nat)
  | read (node : Nat)
  | release (node : Nat) (data : Option α)
  | lookTop
  | reserve (additional : Nat)
  deriving DecidableEq, Repr

def enter : Call α → Point α
  | .push v => .allocate v
  | .pop => .takeTop
  | .isEmpty => .lookTop
  | .reserve n => .reserve n

/-- Where a thread goes on that has seen the top in order to pop. -/
def popAt (top : Link) : Point α ⊕ Reply α :=
  match top.pointer with
  | none => .inr .nothing
  | some node => .inl (.takeNext top node)

def answer : Option α → Reply α
  | some v => .item v
  | none => .unwritten

def step (spurious : Bool) (s : Stack α) : Point α → Stack α × (Point α ⊕ Reply α)
  | .allocate v =>
    match s.take with
    | (some node, s) => (s, .inl (.write node v))
    | (none, s) => (s, .inr (.rejected v))
  | .write node v => (s.setData node v, .inl (.loadTop node))
  | .loadTop node =>
    let top := s.top
    (s, .inl (.storeNext node top))
  | .storeNext node top => (s.setNext node top.pointer, .inl (.swapForPush node top))
  | .swapForPush node top =>
    if s.top = top && !spurious then (s.setTop (top.advance (some node)), .inr .accepted)
    else
      let top := s.top
      (s, .inl (.storeNext node top))
  | .takeTop =>
    let top := s.top
    (s, popAt top)
  | .takeNext top node =>
    let next := s.next node
    (s, .inl (.swapForPop top node next))
  | .swapForPop top node next =>
    if s.top = top && !spurious then (s.setTop (top.advance next), .inl (.read node))
    else
      let top := s.top
      (s, popAt top)
  | .read node =>
    let data := s.data node
    (s, .inl (.release node data))
  | .release node data => (s.give node, .inr (answer data))
  | .lookTop =>
    let top := s.top
    (s, .inr (.truth top.pointer.isNone))
  | .reserve n => (s.reserve n, .inr .done)

/-- Every thread may make every call, and keeps nothing between its calls. -/
def protocol : Protocol (Stack α) Unit (Call α) (Point α) (Reply α) where
  enter _ c := some ((), enter c)
  step spurious s _ point :=
    let (s, next) := step spurious s point
    (s, (), next)

/-! ### A stack that one thread uses -/

/-- The steps of the longest call without interference. -/
abbrev soloSteps : Nat := 5

/-- A call of the only thread. -/
def call (s : Stack α) (c : Call α) : Stack α × Option (Reply α) :=
  let (s, answer) := protocol.alone soloSteps s () c
  (s, answer.map (·.2))

/-- Adds an element; the answer is the element if there is no room for it. -/
def push (s : Stack α) (v : α) : Option α × Stack α :=
  match s.call (.push v) with
  | (s, some .accepted) => (none, s)
  | (s, _) => (some v, s)

/-- Takes the newest element. -/
def pop (s : Stack α) : Option α × Stack α :=
  match s.call .pop with
  | (s, some (.item v)) => (some v, s)
  | (s, _) => (none, s)

/-- A stack for values of some footprint. The stack reports first, then its pool. -/
def create (policy : Policy) (capacity : Nat) (value : Footprint := .text) :
    Except Fault (Stack α) := do
  match ← Pool.create policy (value.slotBytes linkBytes) capacity with
  | ⟨policy, head, slots, notices⟩ =>
    return ⟨.null, ⟨policy, head, slots, notices ++ [.stackCreated capacity]⟩⟩

/-- Takes out elements, at most `n` of them: those taken, newest first, and the stack left. -/
def takeElements : Nat → Stack α → List α × Stack α
  | 0, s => ([], s)
  | n + 1, s =>
    match s.pop with
    | (some v, s) =>
      let (vs, s) := takeElements n s
      (v :: vs, s)
    | (none, s) => ([], s)

/-- Takes out all elements. There are no more of them than nodes. -/
def drain (s : Stack α) : List α × Stack α :=
  let nodes := s.pool.size
  takeElements nodes s

/-- What is left of a stack that goes away: the elements dropped with it, newest first, and its pool
with every node in it. -/
def drop (s : Stack α) : List α × Pool (Node α) :=
  let (vs, ⟨_, pool⟩) := s.drain
  (vs, pool)

def isEmpty (s : Stack α) : Bool := s.top.pointer.isNone

def isLockFree (lockFree : Bool) : Access AtomicTaggedPointer.State Bool :=
  Pool.ownerIsLockFree lockFree

def text (s : Stack α) : String := Text.abridged "LockFreeStack" [("empty", Text.truth s.isEmpty)]

end Stack

end OrderedAtomics
