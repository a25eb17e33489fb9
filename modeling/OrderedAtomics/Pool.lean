import OrderedAtomics.Atomic.Pointer
import OrderedAtomics.Notice

/-! Pools of node storage. Free slots form a chain from a tagged head through the links of the
slots; a slot keeps the content its last owner left in it. Slots are never given back to the
system, so a thread with an old head still reads a slot, and only its tag tells that it is old. -/

namespace OrderedAtomics

structure Slot (ν : Type) where
  next : Option Nat
  node : ν

/-- Notices have the newest first. -/
structure Pool (ν : Type) where
  policy : Policy
  head : Link
  slots : Array (Slot ν)
  notices : List Notice

namespace Pool

variable {ν : Type}

def empty (policy : Policy) : Pool ν := ⟨policy, .null, #[], []⟩

/-- The slots there are, free or not. -/
def size (p : Pool ν) : Nat := p.slots.size

def note (p : Pool ν) (n : Notice) : Pool ν :=
  match p with
  | ⟨policy, head, slots, notices⟩ => ⟨policy, head, slots, n :: notices⟩

/-- The notices so far, oldest first, and the pool without them. -/
def takeNotices (p : Pool ν) : List Notice × Pool ν :=
  match p with
  | ⟨policy, head, slots, notices⟩ => (notices.reverse, ⟨policy, head, slots, []⟩)

/-- The slot that a slot is linked to. -/
def next (p : Pool ν) (i : Nat) : Option Nat := p.slots[i]?.bind (·.next)

def setNext (p : Pool ν) (i : Nat) (next : Option Nat) : Pool ν :=
  match p with
  | ⟨policy, head, slots, notices⟩ =>
    ⟨policy, head, slots.modify i fun s => ⟨next, s.node⟩, notices⟩

def setHead (p : Pool ν) (head : Link) : Pool ν :=
  match p with
  | ⟨policy, _, slots, notices⟩ => ⟨policy, head, slots, notices⟩

/-- The content of a slot. -/
def node? (p : Pool ν) (i : Nat) : Option ν := p.slots[i]?.map (·.node)

def modifyNode (p : Pool ν) (i : Nat) (f : ν → ν) : Pool ν :=
  match p with
  | ⟨policy, head, slots, notices⟩ =>
    ⟨policy, head, slots.modify i fun s => ⟨s.next, f s.node⟩, notices⟩

/-- The chain of slots from a link on, at most `n` of them. -/
def chainFrom (p : Pool ν) : Nat → Option Nat → List Nat
  | 0, _ => []
  | _ + 1, none => []
  | n + 1, some i => i :: p.chainFrom n (p.next i)

/-- The free slots, first one first. -/
def free (p : Pool ν) : List Nat := p.chainFrom p.size p.head.pointer

/-- Detaches the whole chain. -/
def takeAll (p : Pool ν) : List Nat × Pool ν := (p.free, p.setHead .null)

variable [Inhabited ν]

/-- Adds slots with blank content, each linked to the next and the last one to nothing. -/
def extend (p : Pool ν) (n : Nat) : Pool ν :=
  match p with
  | ⟨policy, head, slots, notices⟩ =>
    let base := slots.size
    let fresh := (Array.range n).map fun i =>
      ⟨if i + 1 < n then some (base + i + 1) else none, default⟩
    ⟨policy, head, slots ++ fresh, notices⟩

/-- Puts a chain in front of the free slots. -/
def pushChain (p : Pool ν) (first last : Nat) : Pool ν :=
  let head := p.head
  (p.setNext last head.pointer).setHead (head.advance (some first))

/-- Adds free slots in one go. -/
def stock (p : Pool ν) (n : Nat) : Pool ν :=
  match n with
  | 0 => p
  | n + 1 =>
    let base := p.size
    (p.extend (n + 1)).pushChain base (base + n)

/-! ### Whole operations

Each is what its steps do together when nobody else is running. -/

/-- A slot from the chain, or a new one if the pool may grow. -/
def take (p : Pool ν) : Option Nat × Pool ν :=
  match p.head.pointer with
  | some i =>
    let head := p.head.advance (p.next i)
    (some i, p.setHead head)
  | none =>
    match p.policy with
    | .static => (none, p)
    | .caching =>
      let fresh := p.size
      (some fresh, (p.note (.growing (fresh + 1))).extend 1)

def give (p : Pool ν) (i : Nat) : Pool ν := p.pushChain i i

/-- Makes room for more nodes. A static pool has no more, and nothing happens for no nodes. -/
def reserve (p : Pool ν) (additional : Nat) : Pool ν :=
  match p.policy with
  | .static => p
  | .caching => if additional = 0 then p else (p.stock additional).note (.reserved additional)

/-! ### Waiting -/

/-- Whether no call of a pool waits for another thread. The cell of the head says so. -/
def isLockFree (lockFree : Bool) : Access AtomicTaggedPointer.State Bool :=
  (AtomicTaggedPointer.atomic lockFree).isLockFree

/-- The same of a container that takes its nodes from a pool. It is about the cell of its own first node,
and about the pool. -/
def ownerIsLockFree (lockFree : Bool) : Access AtomicTaggedPointer.State Bool := do
  if ← (AtomicTaggedPointer.atomic lockFree).isLockFree then isLockFree lockFree else return false

/-- Containers wait where pairs of words take a lock, and nowhere else. -/
theorem ownerIsLockFree_eq (lockFree : Bool) : ownerIsLockFree lockFree = isLockFree lockFree := by
  cases lockFree <;> rfl

/-! ### Creation -/

/-- One more than the bytes of the largest block of memory. -/
abbrev blockLimit : Nat := Nat.pow 2 63

/-- A pool with room for some nodes, each slot of the given size in bytes. -/
def create (policy : Policy) (slotBytes capacity : Nat) : Except Fault (Pool ν) :=
  match policy with
  | .caching =>
    .ok (((empty .caching).reserve capacity).note (.poolCreated .caching capacity))
  | .static =>
    if blockLimit ≤ slotBytes * capacity then .error .capacityOverflow
    else .ok (((empty .static).stock capacity).note (.poolCreated .static capacity))

end Pool

end OrderedAtomics
