import OrderedAtomics.Benchmark.Session
import OrderedAtomics.Benchmark.Snapshot
import OrderedAtomics.Json.Reader

/-! The command as a filter. The directory it works in comes as an object on standard input and
goes out as one on standard output, and what the run prints goes to standard error. No program is
there to run benchmarks, so a run that needs one fails at the first of them. -/

open OrderedAtomics Benchmark

def main (words : List String) : IO UInt32 := do
  let text ← (← IO.getStdin).readToEnd
  match (Json.read? text).bind Entry.ofValue? with
  | none =>
    IO.eprintln "Error: standard input is not an object of files"
    return 2
  | some root =>
    let outcome := command none root words
    (outcome.stdout ++ outcome.stderr).forM IO.eprintln
    IO.println outcome.root.toValue.compact
    return outcome.exit.toUInt32
