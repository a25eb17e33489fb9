import OrderedAtomics.Benchmark.Tree
import OrderedAtomics.Json.Reader

/-! Rates from a tree of benchmark results. A file of estimates lies in the directory of its
baseline, that one in the directory of its workload, and that one in the directory of its group. -/

namespace OrderedAtomics.Benchmark

/-- Values under names, in the order of the names. -/
abbrev Table (α : Type) := List (String × α)

namespace Table

variable {α : Type}

def get? (t : Table α) (name : String) : Option α := (t.find? fun e => e.1 == name).map (·.2)

/-- Replaces the value of a name by a function of it, or inserts a first value. -/
def alter (t : Table α) (name : String) (f : Option α → α) : Table α :=
  match t with
  | [] => [(name, f none)]
  | (key, v) :: rest =>
    if key = name then (key, f (some v)) :: rest
    else if name < key then (name, f none) :: (key, v) :: rest
    else (key, v) :: alter rest name f

def insert (t : Table α) (name : String) (v : α) : Table α := t.alter name fun _ => v

end Table

/-- Operations per second, for each workload and each baseline in it. -/
abbrev Results := Table (Table Double)

structure Measurement where
  workload : String
  baseline : String
  rate : Double
  deriving DecidableEq, Repr

/-- Nanoseconds in a second. -/
def perSecond : Double := .ofNat 1000000000

/-- The elements that one iteration handles, if the text says so. -/
def elements? (text : String) : Option Double := do
  let value ← Json.read? text
  let throughput ← value.get? "throughput"
  let elements ← throughput.get? "Elements"
  elements.toDouble?

/-- The mean time of an iteration in nanoseconds. -/
def time? (text : String) : Option Double := do
  let value ← Json.read? text
  let mean ← value.get? "mean"
  let estimate ← mean.get? "point_estimate"
  estimate.toDouble?

/-- The rate from the two files of a benchmark. The first one may be missing or malformed; then one
iteration is one operation. -/
def rate? (benchmark : Option String) (estimates : String) : Option Double := do
  let time ← time? estimates
  if Double.less (.zero false) time then
    let elements := (benchmark.bind elements?).getD (.ofNat 1)
    return (elements.mul perSecond).div time
  else none

/-- Baselines that hold no results of their own. -/
def reserved : List String := ["report", "new", "base"]

/-- The workload and the baseline of the files in a directory, named from the inside outwards. -/
def label? : List String → Option (String × String)
  | baseline :: workload :: outer =>
    if isName baseline && isName workload && baseline ∉ reserved && workload ≠ "report" then
      let group := match outer with
        | group :: _ => if isName group then group else ""
        | [] => ""
      some (group ++ "/" ++ workload, baseline)
    else none
  | _ => none

/-- The measurement of a file of estimates among the entries of its directory. -/
def measurement? (path : List String) (entries : List (String × Entry)) (estimates : String) :
    Option Measurement := do
  let (workload, baseline) ← label? path
  let rate ← rate? ((child? entries "benchmark.json").bind (·.text?)) estimates
  return ⟨workload, baseline, rate⟩

mutual

/-- The measurements of an entry of a directory, whose path is named from the inside outwards. -/
def measure (path : List String) (entries : List (String × Entry)) (name : String) :
    Entry → List Measurement
  | .directory inner => measureAll (name :: path) inner inner
  | .file text =>
    if name = "estimates.json" then (measurement? path entries text).toList else []

/-- The measurements of some entries of a directory, in the order of the listing. -/
def measureAll (path : List String) (entries : List (String × Entry)) :
    List (String × Entry) → List Measurement
  | [] => []
  | (name, entry) :: rest => measure path entries name entry ++ measureAll path entries rest

end

/-- The later one of two measurements of the same workload and baseline replaces the earlier one. -/
def Results.add (r : Results) (m : Measurement) : Results :=
  r.alter m.workload fun t => Table.insert (t.getD []) m.baseline m.rate

/-- The results in the directory at a path; none if there is no such directory. -/
def collect (root : Entry) (path : List String) : Results :=
  match root.find? [] path with
  | some (.directory entries) => (measureAll path.reverse entries entries).foldl Results.add []
  | _ => []

end OrderedAtomics.Benchmark
