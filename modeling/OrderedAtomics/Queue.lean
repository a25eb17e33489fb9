import OrderedAtomics.Pool
import OrderedAtomics.Protocol
import OrderedAtomics.Text.Quoted

/-! First in, first out, for any number of threads. The chain of nodes from `head` starts with a
dummy; the elements are in the nodes after it. Whoever finds `tail` behind the last node moves it
on. Every update of `head`, `tail` and a link advances its tag. -/

namespace OrderedAtomics

namespace Queue

/-- A blank node links to nothing and has no element in it. -/
structure Node (α : Type) where
  next : Link
  data : Option α

instance {α : Type} : Inhabited (Node α) := ⟨⟨.null, none⟩⟩

end Queue

/-- Both ends always point to a node. -/
structure Queue (α : Type) where
  head : Tagged Nat
  tail : Tagged Nat
  pool : Pool (Queue.Node α)

namespace Queue

variable {α : Type}

/-- The size of the link of a node: a pointer with its tag. -/
abbrev linkBytes : Nat := 16

/-! ### The cells of a queue -/

/-- The link of a node. -/
def next (q : Queue α) (i : Nat) : Link := (q.pool.node? i).elim .null (·.next)

def data (q : Queue α) (i : Nat) : Option α := (q.pool.node? i).bind (·.data)

def setNext (q : Queue α) (i : Nat) (next : Link) : Queue α :=
  match q with
  | ⟨head, tail, pool⟩ => ⟨head, tail, pool.modifyNode i fun n => ⟨next, n.data⟩⟩

def setData (q : Queue α) (i : Nat) (v : α) : Queue α :=
  match q with
  | ⟨head, tail, pool⟩ => ⟨head, tail, pool.modifyNode i fun n => ⟨n.next, some v⟩⟩

def setHead (q : Queue α) (head : Tagged Nat) : Queue α :=
  match q with
  | ⟨_, tail, pool⟩ => ⟨head, tail, pool⟩

/-- Moves the tail on if it is still the one expected. -/
def swingTail (q : Queue α) (expected : Tagged Nat) (node : Nat) : Queue α :=
  match q with
  | ⟨head, tail, pool⟩ => ⟨head, if tail = expected then tail.advance node else tail, pool⟩

def take (q : Queue α) : Option Nat × Queue α :=
  match q with
  | ⟨head, tail, pool⟩ =>
    let (i, pool) := pool.take
    (i, ⟨head, tail, pool⟩)

def give (q : Queue α) (i : Nat) : Queue α :=
  match q with
  | ⟨head, tail, pool⟩ => ⟨head, tail, pool.give i⟩

def takeNotices (q : Queue α) : List Notice × Queue α :=
  match q with
  | ⟨head, tail, pool⟩ =>
    let (notices, pool) := pool.takeNotices
    (notices, ⟨head, tail, pool⟩)

/-! ### Step by step -/

inductive Call (α : Type) where
  | enqueue (value : α)
  | dequeue
  | isEmpty
  deriving DecidableEq, Repr

inductive Reply (α : Type) where
  | accepted
  /-- The pool has no node for the value. -/
  | rejected (value : α)
  | item (value : α)
  /-- A node was taken whose element had never been written. -/
  | unwritten
  | nothing
  | truth (b : Bool)
  deriving DecidableEq, Repr

inductive Point (α : Type) where
  | allocate (value : α)
  | write (node : Nat) (value : α)
  | loadOwn (node : Nat)
  | clearOwn (node : Nat) (link : Link)
  | readTail (node : Nat)
  | readNext (node : Nat) (tail : Tagged Nat)
  | recheckTail (node : Nat) (tail : Tagged Nat) (next : Link)
  | link (node : Nat) (tail : Tagged Nat) (next : Link)
  | swing (node : Nat) (tail : Tagged Nat)
  | help (node : Nat) (tail : Tagged Nat) (next : Nat)
  | takeHead
  | takeTail (head : Tagged Nat)
  | takeNext (head tail : Tagged Nat)
  | recheckHead (head tail : Tagged Nat) (next : Link)
  | helpTail (tail : Tagged Nat) (next : Nat)
  | copy (head : Tagged Nat) (next : Nat)
  | swapHead (head : Tagged Nat) (next : Nat) (data : Option α)
  | release (node : Nat) (data : Option α)
  | lookHead
  | lookNext (head : Tagged Nat)
  deriving DecidableEq, Repr

def enter : Call α → Point α
  | .enqueue v => .allocate v
  | .dequeue => .takeHead
  | .isEmpty => .lookHead

def answer : Option α → Reply α
  | some v => .item v
  | none => .unwritten

def step (spurious : Bool) (q : Queue α) : Point α → Queue α × (Point α ⊕ Reply α)
  | .allocate v =>
    match q.take with
    | (some node, q) => (q, .inl (.write node v))
    | (none, q) => (q, .inr (.rejected v))
  | .write node v => (q.setData node v, .inl (.loadOwn node))
  | .loadOwn node =>
    let link := q.next node
    (q, .inl (.clearOwn node link))
  | .clearOwn node link => (q.setNext node (link.advance none), .inl (.readTail node))
  | .readTail node =>
    let tail := q.tail
    (q, .inl (.readNext node tail))
  | .readNext node tail =>
    let next := q.next tail.pointer
    (q, .inl (.recheckTail node tail next))
  | .recheckTail node tail next =>
    if q.tail = tail then
      match next.pointer with
      | none => (q, .inl (.link node tail next))
      | some n => (q, .inl (.help node tail n))
    else (q, .inl (.readTail node))
  | .link node tail next =>
    if q.next tail.pointer = next && !spurious then
      (q.setNext tail.pointer (next.advance (some node)), .inl (.swing node tail))
    else (q, .inl (.readTail node))
  | .swing node tail => (q.swingTail tail node, .inr .accepted)
  | .help node tail next => (q.swingTail tail next, .inl (.readTail node))
  | .takeHead =>
    let head := q.head
    (q, .inl (.takeTail head))
  | .takeTail head =>
    let tail := q.tail
    (q, .inl (.takeNext head tail))
  | .takeNext head tail =>
    let next := q.next head.pointer
    (q, .inl (.recheckHead head tail next))
  | .recheckHead head tail next =>
    if q.head = head then
      if head.pointer = tail.pointer then
        match next.pointer with
        | none => (q, .inr .nothing)
        | some n => (q, .inl (.helpTail tail n))
      else
        match next.pointer with
        | none => (q, .inl .takeHead)
        | some n => (q, .inl (.copy head n))
    else (q, .inl .takeHead)
  | .helpTail tail next => (q.swingTail tail next, .inl .takeHead)
  | .copy head next =>
    let data := q.data next
    (q, .inl (.swapHead head next data))
  | .swapHead head next data =>
    if q.head = head && !spurious then
      (q.setHead (head.advance next), .inl (.release head.pointer data))
    else (q, .inl .takeHead)
  | .release node data => (q.give node, .inr (answer data))
  | .lookHead =>
    let head := q.head
    (q, .inl (.lookNext head))
  | .lookNext head =>
    let next := q.next head.pointer
    (q, .inr (.truth next.pointer.isNone))

/-- Every thread may make every call, and keeps nothing between its calls. -/
def protocol : Protocol (Queue α) Unit (Call α) (Point α) (Reply α) where
  enter _ c := some ((), enter c)
  step spurious q _ point :=
    let (q, next) := step spurious q point
    (q, (), next)

/-! ### A queue that one thread uses -/

/-- The steps of the longest call without interference. -/
abbrev soloSteps : Nat := 9

/-- A call of the only thread. -/
def call (q : Queue α) (c : Call α) : Queue α × Option (Reply α) :=
  let (q, answer) := protocol.alone soloSteps q () c
  (q, answer.map (·.2))

/-- Adds an element; the answer is the element if there is no room for it. -/
def enqueue (q : Queue α) (v : α) : Option α × Queue α :=
  match q.call (.enqueue v) with
  | (q, some .accepted) => (none, q)
  | (q, _) => (some v, q)

/-- Takes the oldest element. -/
def dequeue (q : Queue α) : Option α × Queue α :=
  match q.call .dequeue with
  | (q, some (.item v)) => (some v, q)
  | (q, _) => (none, q)

/-- The nodes for some elements and the dummy. -/
def nodesFor (capacity : Nat) : Nat := min (capacity + 1) (Nat.pow 2 addressWidth - 1)

/-- A queue for values of some footprint. -/
def create (policy : Policy) (capacity : Nat) (value : Footprint := .text) :
    Except Fault (Queue α) := do
  let pool : Pool (Node α) ← Pool.create policy (value.slotBytes linkBytes) (nodesFor capacity)
  match pool.take with
  | (none, _) => .error .capacityOverflow
  | (some dummy, pool) =>
    let q : Queue α := ⟨⟨dummy, 0⟩, ⟨dummy, 0⟩, pool.note (.queueCreated capacity)⟩
    return q.setNext dummy ((q.next dummy).advance none)

/-- Takes out elements, at most `n` of them: those taken, oldest first, and the queue left. -/
def takeElements : Nat → Queue α → List α × Queue α
  | 0, q => ([], q)
  | n + 1, q =>
    match q.dequeue with
    | (some v, q) =>
      let (vs, q) := takeElements n q
      (v :: vs, q)
    | (none, q) => ([], q)

/-- Takes out all elements. There are fewer of them than nodes. -/
def drain (q : Queue α) : List α × Queue α :=
  let nodes := q.pool.size
  takeElements nodes q

/-- What is left of a queue that goes away: the elements dropped with it, oldest first, and its pool
with every node in it. -/
def drop (q : Queue α) : List α × Pool (Node α) :=
  let (vs, ⟨head, _, pool⟩) := q.drain
  (vs, pool.give head.pointer)

/-- The answer of the only thread to the question whether the queue has no elements. -/
def isEmpty (q : Queue α) : Bool := (q.next q.head.pointer).pointer.isNone

def isLockFree (lockFree : Bool) : Access AtomicTaggedPointer.State Bool :=
  Pool.ownerIsLockFree lockFree

def text (q : Queue α) : String := Text.abridged "LockFreeQueue" [("empty", Text.truth q.isEmpty)]

end Queue

end OrderedAtomics
