import OrderedAtomics.Cell.Derivation
import OrderedAtomics.Proofs.Cell.Acting
import OrderedAtomics.Proofs.Cell.Calls
import OrderedAtomics.Proofs.Cell.Interference

/-! Stores and read-modify-writes of a completed cell act at one instant, whatever others do to the
cell meanwhile: the derived ones as much as those that the cell below has. -/

namespace OrderedAtomics

open Access (Atomically)

/-! ### Primitives -/

namespace Cell

variable {α β : Type}

/-- An access that writes once and does nothing else. -/
theorem atomically_of_write {a : Access (Cell α) β} {f : α → β × α} {e : Event α}
    (writes : e.writes = true) (single : e.isAttempt = false)
    (h : ∀ c, a c = .ok (f c.value).1 { c with value := (f c.value).2, trace := c.trace ++ [e] }) :
    Atomically id (fun _ v => v) a f := by
  intro c
  have none : attempts ([] ++ [e]) = 0 := by simp [attempts, single]
  have met : c.met ([] ++ [e]) = c.value := by
    unfold Cell.met
    rw [none]
    rfl
  have went : c.Went ([] ++ [e]) { c with value := (f c.value).2, trace := c.trace ++ [e] } := by
    refine ⟨rfl, ?_⟩
    rw [none]
    rfl
  exact ⟨c.value, _, ⟨[], e, went, by simp, writes, met⟩, h c, rfl⟩

theorem atomically_write (v : α) (o : MemoryOrder) :
    Atomically id (fun _ v => v) (write v o) fun _ => ((), v) :=
  atomically_of_write (e := .store v o) rfl rfl (write_eq v o)

theorem atomically_swap (v : α) (o : MemoryOrder) :
    Atomically id (fun _ v => v) (swap v o) fun x => (x, v) :=
  atomically_of_write (e := .exchange v o) rfl rfl (swap_eq v o)

theorem atomically_modifyBy {e : Event α} (writes : e.writes = true) (single : e.isAttempt = false)
    (f : α → α) : Atomically id (fun _ v => v) (modifyBy e f) fun x => (x, f x) :=
  atomically_of_write writes single (modifyBy_eq e f)

end Cell

/-! ### Levels -/

section Levels

variable {V W : Type} {w : Nat}

/-- To act at one instant, on a part of what a cell holds. -/
def Sense.atomic (view : V → W) (put : V → W → V) : Sense (Cell V) W where
  Acts _ a f := Atomically view put a f
  map := Access.Atomically.map

/-- A cell whose stores and exchanges act at one instant, on a part of what a cell holds. -/
structure Exchange.Atomic (ops : Exchange (Cell V) W) (view : V → W) (put : V → W → V) :
    Prop where
  attempts : ops.toMinimal.Attempts view put
  store : ∀ v o, Atomically view put (ops.store v o) fun _ => ((), v)
  exchange : ∀ v o, Atomically view put (ops.exchange v o) fun x => (x, v)

/-- A cell whose additions do so as well. -/
structure FetchAdd.Atomic (ops : FetchAdd (Cell V) (BitVec w)) (view : V → BitVec w)
    (put : V → BitVec w → V) : Prop extends toExchange : ops.toExchange.Atomic view put where
  fetchAdd : ∀ v o, Atomically view put (ops.fetchAdd v o) fun x => (x, x + v)

theorem Minimal.Attempts.withExchange [DecidableEq W] {ops : Minimal (Cell V) W} {view : V → W}
    {put : V → W → V} (h : ops.Attempts view put)
    (store : ∀ v o, Atomically view put (ops.store v o) fun _ => ((), v)) :
    ops.withExchange.Atomic view put where
  attempts := h
  store := store
  exchange v o := (h.update (fun _ => v) o).map Prod.fst

variable {view : V → BitVec w} {put : V → BitVec w → V}

theorem Exchange.Atomic.withFetchAdd {ops : Exchange (Cell V) (BitVec w)} (h : ops.Atomic view put) :
    ops.withFetchAdd.Atomic view put where
  toExchange := h
  fetchAdd v o := (h.attempts.update (· + v) o).map Prod.fst

theorem Exchange.Atomic.withCounting {ops : Exchange (Cell V) (BitVec w)} (h : ops.Atomic view put)
    {counting : Counting (Cell V) (BitVec w)} (hc : counting.Acts (.atomic view put)) :
    (ops.withCounting counting).Atomic view put where
  toExchange := h
  fetchAdd := hc.withCounting ops

theorem FetchAdd.Atomic.acts {ops : FetchAdd (Cell V) (BitVec w)} (h : ops.Atomic view put) :
    ops.Acts (.atomic view put) where
  update := h.attempts.update
  exchange := h.exchange
  fetchAdd := h.fetchAdd

end Levels

/-! ### Completed cells -/

section Stacks

variable {w : Nat}

theorem Recorder.atomic : (machine : FetchAdd (Cell (BitVec w)) _).Atomic id fun _ v => v where
  attempts := attempts
  store := Cell.atomically_write
  exchange := Cell.atomically_swap
  fetchAdd v _ := Cell.atomically_modifyBy rfl rfl (· + v)

theorem Recorder.atomic_withExchange :
    (machine : FetchAdd (Cell (BitVec w)) _).toMinimal.withExchange.Atomic id fun _ v => v :=
  attempts.withExchange atomic.store

theorem Recorder.counting_acts :
    (counting : Counting (Cell (BitVec w)) _).Acts (.atomic id fun _ v => v) where
  fetchAddVar v _ := Cell.atomically_modifyBy rfl rfl (· + v)
  fetchInc _ := Cell.atomically_modifyBy rfl rfl (· + 1)
  fetchDec _ := Cell.atomically_modifyBy rfl rfl (· - 1)

/-- A small word is stored by a retry loop on the whole. -/
theorem SubWord.atomic {n m shift : Nat} (fits : shift + m ≤ n) :
    (machine (Recorder.machine : FetchAdd (Cell (BitVec n)) _).toMinimal m shift).integral.Atomic
      (extract m shift) (insert shift) := by
  refine ((attempts Recorder.attempts fits).withExchange fun v o => ?_).withFetchAdd
  exact (Recorder.attempts.update (insert shift · v) o).map fun _ => ()

/-- The ways to complete a cell that give all operations. -/
def Derivation.Complete (w : Nat) : Derivation → Prop
  | .fromMinimal | .fromExchange | .fromAdd | .fromTypical | .fromTypicalCas => True
  | .exchangeFromCas | .arithmeticFromAdd => False
  | .fromLarger whole => w ≤ whole

/-- Completed cells over a recorder: the named ones, and small words anywhere in a larger one. -/
inductive CellKind.Completed : {w : Nat} → CellKind w → Prop
  | whole {w : Nat} (d : Derivation) (complete : d.Complete w) : Completed (d.kind w)
  | small {w n shift : Nat} (fits : shift + w ≤ n) :
    Completed ((Derivation.fromAdd.kind n).part w shift).derived

/-- What a cell of a kind does in one call when it acts at one instant: its last access is its only
write, the answer and the new value are those of a variable with the value that the write meets, and
the bits around it are as they are met. -/
def CellKind.ActsAtOnce (k : CellKind w) (call : Call (BitVec w)) (lockFree : Bool) (s : k.State) :
    Prop :=
  ∃ found s', (k.holder.cell s).Wrote found (k.holder.cell s') ∧
    let (answer, left) := call.onVariable lockFree (k.extract found)
    k.call call s = (some (.ok answer), s') ∧ k.value s' = left ∧
      (k.holder.cell s').value &&& ~~~k.embed (.allOnes w) = found &&& ~~~k.embed (.allOnes w)

theorem FetchAdd.Atomic.actsAtOnce {n : Nat} {ops : FetchAdd (Cell (BitVec n)) (BitVec w)}
    {view : BitVec n → BitVec w} {put : BitVec n → BitVec w → BitVec n} (h : ops.Atomic view put)
    {embed : BitVec w → BitVec n} (start : BitVec n → Cell (BitVec n))
    (view_put : ∀ x v, view (put x v) = v)
    (around : ∀ x v, put x v &&& ~~~embed (.allOnes w) = x &&& ~~~embed (.allOnes w))
    {call : Call (BitVec w)} (updates : call.Updates) (lockFree : Bool) (s : Cell (BitVec n)) :
    CellKind.ActsAtOnce ⟨n, _, .itself, start, embed, view, .integral ops⟩ call lockFree s := by
  obtain ⟨access, performed, atomically⟩ := h.acts.perform updates (fun v o _ => h.store v o) lockFree
  obtain ⟨found, s', wrote, ended, value⟩ := atomically s
  refine ⟨found, s', wrote, CellKind.call_ok performed ended, ?_, ?_⟩
  · exact (congrArg view value).trans (view_put _ _)
  · exact (congrArg (· &&& ~~~embed (.allOnes w)) value).trans (around _ _)

/-- Every store and every read-modify-write of a completed cell, whatever others do, ends with its
only write, which turns the value it meets into the one that a variable would then have. -/
theorem CellKind.Completed.updates_at_once {k : CellKind w} (completed : k.Completed)
    {call : Call (BitVec w)} (updates : call.Updates) (lockFree : Bool) (s : k.State) :
    k.ActsAtOnce call lockFree s := by
  have whole {ops : FetchAdd (Cell (BitVec w)) (BitVec w)} (h : ops.Atomic id fun _ v => v)
      (s : Cell (BitVec w)) : (CellKind.plain (.integral ops)).ActsAtOnce call lockFree s := by
    refine h.actsAtOnce _ (fun _ _ => rfl) (fun x v => ?_) updates lockFree s
    simp
  have small {n shift : Nat} (fits : shift + w ≤ n) (s : Cell (BitVec n)) :
      ((Derivation.fromAdd.kind n).part w shift).derived.ActsAtOnce call lockFree s :=
    (SubWord.atomic fits).actsAtOnce _ (SubWord.extract_insert fits)
      (SubWord.insert_around) updates lockFree s
  cases completed with
  | small fits => exact small fits s
  | whole d complete =>
    cases d with
    | fromMinimal =>
      exact whole Recorder.atomic_withExchange.withFetchAdd s
    | fromExchange => exact whole Recorder.atomic.toExchange.withFetchAdd s
    | fromAdd => exact whole Recorder.atomic s
    | fromTypical => exact whole (Recorder.atomic.toExchange.withCounting Recorder.counting_acts) s
    | fromTypicalCas =>
      exact whole (Recorder.atomic_withExchange.withCounting Recorder.counting_acts) s
    | exchangeFromCas => cases complete
    | arithmeticFromAdd => cases complete
    | fromLarger n =>
      have fits : 0 + w ≤ n := by rwa [Nat.zero_add]
      exact small fits s

/-- An addition to the lowest byte of a word that another thread writes before the attempt, and which
fails once more without cause. -/
theorem CellKind.Completed.updates_at_once_lowest_byte :
    let k : CellKind 8 := (Derivation.fromLarger 32).kind 8
    let call : Call (BitVec 8) := .modify .add 2 .updated .acqRel
    let s : Cell (BitVec 32) := ⟨0x010203FF, [.overwrite 0x0A0B0C05, .spurious], []⟩
    k.Completed ∧ call.Updates ∧ k.ActsAtOnce call true s := by
  intro k call s
  have completed : k.Completed := .whole (.fromLarger 32) (by decide : 8 ≤ 32)
  have updates : call.Updates := trivial
  exact ⟨completed, updates, completed.updates_at_once updates true s⟩

end Stacks

end OrderedAtomics
