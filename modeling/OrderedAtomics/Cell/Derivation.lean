import OrderedAtomics.Cell.Kind
import OrderedAtomics.Cell.Recorder

/-! The ways to complete a cell that lacks some operations, over a recorder that shows which
primitives the completed operations use. -/

namespace OrderedAtomics

/-- The ways to complete a cell, by what is taken from it; the rest is derived. -/
inductive Derivation where
  | fromMinimal
  | fromExchange
  | fromAdd
  /-- Exchange and the three counting operations are taken. -/
  | fromTypical
  /-- Only the counting operations are taken besides the minimal ones. -/
  | fromTypicalCas
  /-- As `fromTypicalCas`, but without updates. -/
  | exchangeFromCas
  /-- Fetch-and-add is taken, and there are no bitwise updates. -/
  | arithmeticFromAdd
  /-- A small word in one of the given width. -/
  | fromLarger (whole : Nat)
  deriving DecidableEq, Repr

/-- The completed cell over a recorder, which shows what is taken. -/
def Derivation.kind (w : Nat) : Derivation → CellKind w
  | fromMinimal => .plain (.integral Recorder.machine.toMinimal.integral)
  | fromExchange => .plain (.integral Recorder.machine.toExchange.withFetchAdd)
  | fromAdd => .plain (.integral Recorder.machine)
  | fromTypical => .plain (.integral (Recorder.machine.toExchange.withCounting Recorder.counting))
  | fromTypicalCas =>
    .plain (.integral (Recorder.machine.toMinimal.withExchange.withCounting Recorder.counting))
  | exchangeFromCas =>
    .plain (.exchange Recorder.machine.toMinimal.withExchange (some Recorder.counting))
  | arithmeticFromAdd => .plain (.arithmetic Recorder.machine)
  | fromLarger whole =>
    let larger : FetchAdd (Cell (BitVec whole)) (BitVec whole) := Recorder.machine
    CellKind.embedded (.plain (.fetchAdd larger)) w

end OrderedAtomics
