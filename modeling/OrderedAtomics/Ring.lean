import OrderedAtomics.Fault
import OrderedAtomics.Notice
import OrderedAtomics.Protocol
import OrderedAtomics.Text.Quoted
import OrderedAtomics.Word

/-! Ring buffers for one producer and one consumer. One slot always stays empty, so equal indices
mean an empty buffer. Only the producer moves `write`, only the consumer moves `read`, and each
looks at the index of the other. -/

namespace OrderedAtomics

structure Ring (α : Type) where
  write : Nat
  read : Nat
  slots : Array (Option α)

namespace Ring

variable {α : Type}

def ofSlots (n : Nat) : Ring α := ⟨0, 0, Array.replicate n none⟩

/-- The slots of a buffer that says nothing about its size. -/
abbrev usualSlots : Nat := 4

/-- One more than the greatest index. -/
abbrev indexLimit : Nat := Nat.pow 2 addressWidth

/-- One more than the bytes of the largest block of memory. -/
abbrev blockLimit : Nat := Nat.pow 2 63

/-- A buffer for some elements of some footprint, and the notice of it. The slots of values that take no
room have to be counted all the same. -/
def withCapacity (capacity : Nat) (value : Footprint := .text) : Except Fault (Ring α × Notice) :=
  if capacity = 0 then .error .emptyRing
  else if blockLimit ≤ value.bytes * (capacity + 1) || indexLimit ≤ capacity + 1 then
    .error .capacityOverflow
  else .ok (ofSlots (capacity + 1), .ringCreated capacity)

/-- The most elements there can be. -/
def capacity (r : Ring α) : Nat := r.slots.size - 1

/-- The index after an index. -/
def nextIndex (index slots : Nat) : Nat :=
  let next := index + 1
  if next = slots then 0 else next

/-- The elements between two indices. -/
def distance (write read slots : Nat) : Nat :=
  if read ≤ write then write - read else slots - read + write

/-- The element in a slot. -/
def slot (r : Ring α) (i : Nat) : Option α := r.slots[i]?.join

def setSlot (r : Ring α) (i : Nat) (v : Option α) : Ring α :=
  match r with
  | ⟨write, read, slots⟩ => ⟨write, read, slots.setIfInBounds i v⟩

def setWrite (r : Ring α) (i : Nat) : Ring α :=
  match r with
  | ⟨_, read, slots⟩ => ⟨i, read, slots⟩

def setRead (r : Ring α) (i : Nat) : Ring α :=
  match r with
  | ⟨write, _, slots⟩ => ⟨write, i, slots⟩

/-! ### Step by step -/

/-- The ends of a buffer, and the owner of both of them. -/
inductive Role where
  | producer | consumer | owner
  deriving DecidableEq, Repr

inductive Call (α : Type) where
  | enqueue (value : α)
  | isFull
  | dequeue
  | len
  | isEmpty
  deriving DecidableEq, Repr

/-- Who may make a call. -/
def Role.may : Role → Call α → Bool
  | .owner, _ => true
  | .producer, .enqueue _ | .producer, .isFull => true
  | .consumer, .dequeue | .consumer, .len | .consumer, .isEmpty => true
  | _, _ => false

inductive Reply (α : Type) where
  | accepted
  /-- The buffer was full. -/
  | rejected (value : α)
  | item (value : α)
  /-- A slot was read that had no element in it. -/
  | unwritten
  | nothing
  | count (n : Nat)
  | truth (b : Bool)
  deriving DecidableEq, Repr

inductive Point (α : Type) where
  | loadWrite (value : α)
  | checkRead (value : α) (write : Nat)
  | fill (value : α) (write next : Nat)
  | storeWrite (next : Nat)
  | fullWrite
  | fullRead (write : Nat)
  | loadRead
  | checkWrite (read : Nat)
  | empty (read : Nat)
  | storeRead (next : Nat) (data : Option α)
  | lenWrite
  | lenRead (write : Nat)
  | emptyRead
  | emptyWrite (read : Nat)
  deriving DecidableEq, Repr

def enter : Call α → Point α
  | .enqueue v => .loadWrite v
  | .isFull => .fullWrite
  | .dequeue => .loadRead
  | .len => .lenWrite
  | .isEmpty => .emptyRead

def answer : Option α → Reply α
  | some v => .item v
  | none => .unwritten

def step (r : Ring α) : Point α → Ring α × (Point α ⊕ Reply α)
  | .loadWrite v =>
    let write := r.write
    (r, .inl (.checkRead v write))
  | .checkRead v write =>
    let next := nextIndex write r.slots.size
    if next = r.read then (r, .inr (.rejected v)) else (r, .inl (.fill v write next))
  | .fill v write next => (r.setSlot write (some v), .inl (.storeWrite next))
  | .storeWrite next => (r.setWrite next, .inr .accepted)
  | .fullWrite =>
    let write := r.write
    (r, .inl (.fullRead write))
  | .fullRead write =>
    let full := nextIndex write r.slots.size == r.read
    (r, .inr (.truth full))
  | .loadRead =>
    let read := r.read
    (r, .inl (.checkWrite read))
  | .checkWrite read =>
    if read = r.write then (r, .inr .nothing) else (r, .inl (.empty read))
  | .empty read =>
    let data := r.slot read
    let next := nextIndex read r.slots.size
    (r.setSlot read none, .inl (.storeRead next data))
  | .storeRead next data => (r.setRead next, .inr (answer data))
  | .lenWrite =>
    let write := r.write
    (r, .inl (.lenRead write))
  | .lenRead write =>
    let n := distance write r.read r.slots.size
    (r, .inr (.count n))
  | .emptyRead =>
    let read := r.read
    (r, .inl (.emptyWrite read))
  | .emptyWrite read =>
    let equal := read == r.write
    (r, .inr (.truth equal))

/-- What a thread keeps to itself is its role. -/
def protocol : Protocol (Ring α) Role (Call α) (Point α) (Reply α) where
  enter role c := if role.may c then some (role, enter c) else none
  step _ r role point :=
    let (r, next) := step r point
    (r, role, next)

/-! ### A buffer that one thread uses -/

/-- The steps of the longest call. -/
abbrev soloSteps : Nat := 4

/-- A call in a role while nobody else is running. -/
def call (r : Ring α) (role : Role) (c : Call α) : Ring α × Option (Reply α) :=
  let (r, answer) := protocol.alone soloSteps r role c
  (r, answer.map (·.2))

/-- Adds an element; the answer is the element if there is no room for it. -/
def enqueue (r : Ring α) (v : α) : Option α × Ring α :=
  match r.call .owner (.enqueue v) with
  | (r, some .accepted) => (none, r)
  | (r, _) => (some v, r)

/-- Takes the oldest element. -/
def dequeue (r : Ring α) : Option α × Ring α :=
  match r.call .owner .dequeue with
  | (r, some (.item v)) => (some v, r)
  | (r, _) => (none, r)

def len (r : Ring α) : Nat := distance r.write r.read r.slots.size

def isEmpty (r : Ring α) : Bool := r.read == r.write

def isFull (r : Ring α) : Bool := nextIndex r.write r.slots.size == r.read

/-- Takes out elements, at most `n` of them: those taken, oldest first, and the buffer left. -/
def takeElements : Nat → Ring α → List α × Ring α
  | 0, r => ([], r)
  | n + 1, r =>
    match r.dequeue with
    | (some v, r) =>
      let (vs, r) := takeElements n r
      (v :: vs, r)
    | (none, r) => ([], r)

/-- Takes out all elements. There are fewer of them than slots. -/
def drain (r : Ring α) : List α × Ring α :=
  let slots := r.slots.size
  takeElements slots r

/-- Drops all elements, oldest first, and starts again with the first slot. -/
def reset (r : Ring α) : List α × Ring α :=
  let (vs, r) := r.drain
  (vs, (r.setWrite 0).setRead 0)

/-- The text of a whole buffer under the name of its kind. -/
def text (r : Ring α) (name : String) : String :=
  Text.structured name [("len", toString r.len), ("capacity", toString r.capacity)]

def producerText (r : Ring α) : String :=
  Text.structured "Producer" [("full", Text.truth r.isFull)]

def consumerText (r : Ring α) : String :=
  Text.structured "Consumer" [("len", toString r.len)]

end Ring

end OrderedAtomics
