import OrderedAtomics.Cell.Backend
import OrderedAtomics.Pool.Protocol
import OrderedAtomics.Queue
import OrderedAtomics.Ring
import OrderedAtomics.Stack

/-! Workloads: several threads that use one thing at the same time, each making one step in its
turn. What is looked at in the end does not depend on the turns. -/

namespace OrderedAtomics.Workload

/-- What the threads do. All of them share the notes `κ`. -/
structure Program (κ C R : Type) where
  /-- The next call of a thread, if it wants to make one. -/
  next : Nat → κ → Option C
  /-- The notes after a thread has made a call. -/
  called : Nat → κ → κ
  /-- The notes after a thread has got a reply. -/
  heard : Nat → R → κ → κ

variable {S L C P R κ : Type}

/-- One turn of one thread: a step of the call it is in, or a new call. -/
def turn (p : Protocol S L C P R) (program : Program κ C R) (state : World S L C P R × κ)
    (i : Nat) : World S L C P R × κ :=
  match state with
  | (⟨shared, threads, _⟩, notes) =>
    match threads[i]? with
    | some ⟨_, some _⟩ =>
      let world := World.act p (.step i false) ⟨shared, threads, []⟩
      match world.history with
      | .answered _ reply :: _ => (world, program.heard i reply notes)
      | _ => (world, notes)
    | some ⟨_, none⟩ =>
      match program.next i notes with
      | some call =>
        (World.act p (.call i call) ⟨shared, threads, []⟩, program.called i notes)
      | none => (⟨shared, threads, []⟩, notes)
    | none => (⟨shared, threads, []⟩, notes)

/-- Whether no thread is in a call or wants to make one. -/
def isOver (program : Program κ C R) (state : World S L C P R × κ) : Bool :=
  state.1.threads.zipIdx.all fun (thread, i) =>
    thread.point.isNone && (program.next i state.2).isNone

/-- Rounds of turns, at most `n` of them, until everything is over. -/
def rounds (p : Protocol S L C P R) (program : Program κ C R) :
    Nat → World S L C P R × κ → World S L C P R × κ
  | 0, state => state
  | n + 1, state =>
    if isOver program state then state
    else
      let threads := state.1.threads.length
      rounds p program n ((List.range threads).foldl (turn p program) state)

/-- Rounds that suffice for some number of calls: in every few of them some call is over. -/
def enough (calls : Nat) : Nat := 64 * (calls + 4)

/-! ### Elements from several producers -/

/-- The element that a thread adds as its `i`-th one. -/
def element (iterations thread i : Nat) : Nat := thread * iterations + i

/-- Notes on a queue: how many elements each producer has added, how many were taken and their sum,
and the last element of each producer that each consumer has seen. -/
structure QueueNotes where
  added : List Nat
  taken : Nat
  sum : Nat
  last : List (List (Option Nat))
  inOrder : Bool

namespace QueueNotes

def start (producers consumers : Nat) : QueueNotes :=
  ⟨List.replicate producers 0, 0, 0, List.replicate consumers (List.replicate producers none), true⟩

/-- A consumer has got an element. Those of one producer come in the order they were added. -/
def take (notes : QueueNotes) (iterations consumer v : Nat) : QueueNotes :=
  let producer := v / iterations
  let seen := notes.last.getD consumer []
  let later := (seen.getD producer none).all (· < v)
  { notes with
    taken := notes.taken + 1
    sum := notes.sum + v
    last := notes.last.set consumer (seen.set producer (some v))
    inOrder := notes.inOrder && later }

end QueueNotes

def consumers : Nat := 2

def queueProgram (producers iterations : Nat) :
    Program QueueNotes (Queue.Call Nat) (Queue.Reply Nat) where
  next i notes :=
    match notes.added[i]? with
    | some n => if n < iterations then some (.enqueue (element iterations i n)) else none
    | none => if notes.taken < producers * iterations then some .dequeue else none
  called i notes := { notes with added := notes.added.modify i (· + 1) }
  heard i reply notes :=
    match reply with
    | .item v => notes.take iterations (i - producers) v
    | _ => notes

/-- What is seen of a queue with producers and consumers. -/
structure QueueReport where
  sum : Nat
  inOrder : Bool
  empty : Bool

def queue (producers iterations : Nat) : Except Fault QueueReport := do
  let q : Queue Nat ← Queue.create .caching 0
  let world := World.start q (List.replicate (producers + consumers) ())
  let (world, notes) := rounds Queue.protocol (queueProgram producers iterations)
    (enough (2 * producers * iterations)) (world, QueueNotes.start producers consumers)
  return ⟨notes.sum, notes.inOrder, world.shared.isEmpty⟩

/-! ### A stack with pushes and pops -/

/-- Notes on a stack: how many calls each thread has made, and the sum of what was popped. -/
structure StackNotes where
  made : List Nat
  sum : Nat

/-- Each thread pops one element after every second one that it pushes. -/
def stackProgram (iterations : Nat) : Program StackNotes (Stack.Call Nat) (Stack.Reply Nat) where
  next i notes :=
    match notes.made[i]? with
    | none => none
    | some n =>
      if iterations + iterations / 2 ≤ n then none
      else if n % 3 = 2 then some .pop
      else some (.push (element iterations i (2 * (n / 3) + n % 3)))
  called i notes := { notes with made := notes.made.modify i (· + 1) }
  heard _ reply notes :=
    match reply with
    | .item v => { notes with sum := notes.sum + v }
    | _ => notes

structure StackReport where
  /-- Of all that was popped, in the end too. -/
  sum : Nat
  /-- Elements that were left for the end. -/
  left : Nat

def stack (threads iterations : Nat) : Except Fault StackReport := do
  let s : Stack Nat ← Stack.create .caching 0
  let world := World.start s (List.replicate threads ())
  let (⟨s, _, _⟩, notes) := rounds Stack.protocol (stackProgram iterations)
    (enough (2 * threads * iterations)) (world, (⟨List.replicate threads 0, 0⟩ : StackNotes))
  let (rest, _) := s.drain
  return ⟨rest.foldl (· + ·) notes.sum, rest.length⟩

/-! ### A pool with a slot for each thread -/

/-- Notes on a pool: how often each thread has had a slot, and the slot it has now. -/
structure PoolNotes where
  turns : List Nat
  holding : List (Option Nat)
  clean : Bool

def poolProgram (iterations : Nat) : Program PoolNotes Pool.Call Pool.Reply where
  next i notes :=
    match notes.holding.getD i none with
    | some slot => some (.deallocate slot)
    | none => if notes.turns.getD i iterations < iterations then some .allocate else none
  called _ notes := notes
  heard i reply notes :=
    match reply with
    | .slot slot =>
      { notes with
        holding := notes.holding.set i (some slot)
        clean := notes.clean && !notes.holding.contains (some slot) }
    | .exhausted => { notes with clean := false }
    | .done =>
      { notes with holding := notes.holding.set i none, turns := notes.turns.modify i (· + 1) }

structure PoolReport where
  /-- No thread went without a slot, and no slot was with two threads. -/
  clean : Bool
  slots : Nat

def pool (threads iterations : Nat) : Except Fault PoolReport := do
  let p : Pool Nat ← Pool.create .static 16 threads
  let world := World.start p (List.replicate threads [])
  let start : PoolNotes := ⟨List.replicate threads 0, List.replicate threads none, true⟩
  let (world, notes) := rounds Pool.protocol (poolProgram iterations)
    (enough (2 * threads * iterations)) (world, start)
  return ⟨notes.clean, world.shared.free.length⟩

/-! ### A ring between two threads -/

/-- Notes on a ring: how many elements went in and came out, and whether they came in order. -/
structure RingNotes where
  added : Nat
  taken : Nat
  inOrder : Bool

def ringProgram (iterations : Nat) : Program RingNotes (Ring.Call Nat) (Ring.Reply Nat) where
  next i notes :=
    if i = 0 then if notes.added < iterations then some (.enqueue notes.added) else none
    else if notes.taken < iterations then some .dequeue else none
  called _ notes := notes
  heard _ reply notes :=
    match reply with
    | .accepted => { notes with added := notes.added + 1 }
    | .item v =>
      let later := v == notes.taken
      { notes with taken := notes.taken + 1, inOrder := notes.inOrder && later }
    | _ => notes

structure RingReport where
  inOrder : Bool
  len : Nat

def ring (capacity iterations : Nat) : Except Fault RingReport := do
  let (r, _) ← Ring.withCapacity capacity
  let world := World.start r [Ring.Role.producer, .consumer]
  let start : RingNotes := ⟨0, 0, true⟩
  let (world, notes) := rounds Ring.protocol (ringProgram iterations)
    (enough (2 * iterations)) (world, start)
  return ⟨notes.inOrder, world.shared.len⟩

/-! ### Counters -/

variable {w : Nat}

/-- The value after an update of a fresh cell that holds `x`, if the cell has updates. -/
def updated? (k : CellKind w) (u : Update) (x v : BitVec w) : Option (BitVec w) := do
  let access ← k.interface.perform? (.modify u v .previous .seqCst)
  match access (k.fresh x) with
  | .ok _ s => return k.value s
  | .error _ _ => none

structure CounterReport (w : Nat) where
  sum : BitVec w
  xor : BitVec w

/-- One thread after another adds its number plus one to a cell and its element to another one. -/
def counterTurn (k : CellKind w) (iterations i : Nat) (r : CounterReport w) (thread : Nat) :
    Option (CounterReport w) := do
  let sum ← updated? k .add r.sum (BitVec.ofNat w (thread + 1))
  let xor ← updated? k .xor r.xor (BitVec.ofNat w (element iterations thread i))
  return ⟨sum, xor⟩

def counter? (k : CellKind w) (threads iterations : Nat) : Option (CounterReport w) :=
  (List.range iterations).foldlM
    (fun r i => (List.range threads).foldlM (counterTurn k iterations i) r) ⟨0, 0⟩

end OrderedAtomics.Workload
