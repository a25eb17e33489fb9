import OrderedAtomics.Benchmark.Tree
import OrderedAtomics.Json.Value

/-! A directory as one object: a field for each file with its text, and for each directory without
entries a field that is null. The names of the fields are paths. -/

namespace OrderedAtomics.Benchmark.Entry

/-- The directory that an object describes. -/
def ofValue? : Json.Value → Option Entry
  | .object fields => some (ofFiles (fields.map fun f => (f.1, f.2.text?)))
  | _ => none

/-- The object that describes the entries of a directory. -/
def toValue (e : Entry) : Json.Value :=
  .object ((filesIn "" e.entries).map fun f => (f.1, (f.2.map .string).getD .null))

end OrderedAtomics.Benchmark.Entry
