import OrderedAtomics.Cell
import OrderedAtomics.Protocol

/-! A table of locks shared by every cell without hardware support. An operation holds the lock of
its address, and before it the global lock if it is sequentially consistent. -/

namespace OrderedAtomics

/-- A lock is poisoned when its holder stopped with a fault; that does not keep anyone out. -/
structure Lock where
  holder : Option Nat := none
  poisoned : Bool := false
  deriving DecidableEq, Repr, Inhabited

namespace Lock

def acquire (l : Lock) (thread : Nat) : Option Lock :=
  match l.holder with
  | none => some { l with holder := some thread }
  | some _ => none

def release (l : Lock) : Lock := { l with holder := none }

def poison (l : Lock) : Lock := { l with poisoned := true }

end Lock

/-- The number of locks that addresses share. -/
abbrev lockCount : Nat := 16

/-- The lock of an address: its digits folded onto the lowest one. -/
def lockIndex (address : Address) : Fin lockCount :=
  let v := address ^^^ (address >>> 16)
  let v := v ^^^ (v >>> 8)
  let v := v ^^^ (v >>> 4)
  ⟨v.toNat % lockCount, Nat.mod_lt _ (by decide)⟩

structure LockTable where
  /-- Taken first by every sequentially consistent operation. -/
  everywhere : Lock
  slots : Vector Lock lockCount

namespace LockTable

def free : LockTable := ⟨{}, Vector.replicate lockCount {}⟩

def acquireGlobal (t : LockTable) (thread : Nat) : Option LockTable :=
  (t.everywhere.acquire thread).map fun l => { t with everywhere := l }

def releaseGlobal (t : LockTable) : LockTable :=
  { t with everywhere := t.everywhere.release }

def acquireSlot (t : LockTable) (thread : Nat) (i : Fin lockCount) : Option LockTable :=
  (t.slots[i].acquire thread).map fun l => { t with slots := t.slots.set i l }

def releaseSlot (t : LockTable) (i : Fin lockCount) : LockTable :=
  { t with slots := t.slots.set i t.slots[i].release }

/-- Both locks of an operation, the global one first. -/
def enter (t : LockTable) (thread : Nat) (address : Address) (order : MemoryOrder) :
    Option LockTable := do
  let t ← if order = .seqCst then t.acquireGlobal thread else some t
  t.acquireSlot thread (lockIndex address)

/-- Both locks given back, the global one last. -/
def leave (t : LockTable) (address : Address) (order : MemoryOrder) : LockTable :=
  let t := t.releaseSlot (lockIndex address)
  if order = .seqCst then t.releaseGlobal else t

/-- Marks the locks of an operation that stopped inside. -/
def poison (t : LockTable) (address : Address) (order : MemoryOrder) : LockTable :=
  let i := lockIndex address
  let t := { t with slots := t.slots.set i t.slots[i].poison }
  if order = .seqCst then { t with everywhere := t.everywhere.poison } else t

/-- An operation on a locked cell, as the table sees it. -/
structure Operation where
  address : Address
  order : MemoryOrder
  deriving DecidableEq

/-- Where an operation is. -/
inductive Stage where
  | wantGlobal | wantSlot | inside | leaveSlot | leaveGlobal
  deriving DecidableEq, Repr

structure Point where
  operation : Operation
  stage : Stage
  deriving DecidableEq

/-- One lock taken, held through the critical section or given back at a time. A thread keeps its
own number to itself. -/
def protocol : Protocol LockTable Nat Operation Point Unit where
  enter thread op := some (thread, ⟨op, if op.order = .seqCst then .wantGlobal else .wantSlot⟩)
  ready t thread
    | ⟨_, .wantGlobal⟩ => (t.acquireGlobal thread).isSome
    | ⟨op, .wantSlot⟩ => (t.acquireSlot thread (lockIndex op.address)).isSome
    | _ => true
  step _ t thread
    | ⟨op, .wantGlobal⟩ => ((t.acquireGlobal thread).getD t, thread, .inl ⟨op, .wantSlot⟩)
    | ⟨op, .wantSlot⟩ =>
      ((t.acquireSlot thread (lockIndex op.address)).getD t, thread, .inl ⟨op, .inside⟩)
    | ⟨op, .inside⟩ => (t, thread, .inl ⟨op, .leaveSlot⟩)
    | ⟨op, .leaveSlot⟩ =>
      let t := t.releaseSlot (lockIndex op.address)
      (t, thread, if op.order = .seqCst then .inl ⟨op, .leaveGlobal⟩ else .inr ())
    | ⟨_, .leaveGlobal⟩ => (t.releaseGlobal, thread, .inr ())

end LockTable

end OrderedAtomics
