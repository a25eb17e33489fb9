import OrderedAtomics.Benchmark.Collect
import OrderedAtomics.Floating.Text
import OrderedAtomics.Json.Printer

/-! The report of the results as a table for readers and as a summary for programs. -/

namespace OrderedAtomics.Benchmark

/-- A backend as the benchmarks know it: the name of its baseline, and the feature that selects
it. -/
structure Target where
  name : String
  feature : Option String
  deriving DecidableEq, Repr

namespace Target

/-- The backend that a machine chooses on its own, against which the others are compared. -/
def native : Target := ⟨"native", none⟩

/-- All backends, in the order of their columns. -/
def all : List Target :=
  [native,
    ⟨"generic-cas", some "backend-generic-cas"⟩,
    ⟨"ppc", some "backend-ppc"⟩,
    ⟨"alpha", some "backend-alpha"⟩,
    ⟨"fallback", some "backend-fallback"⟩]

/-- The backends among the names; all of them if no names are given. -/
def select (names : List String) : List Target :=
  all.filter fun t => names.isEmpty || names.contains t.name

end Target

/-- A rate in millions, thousands or ones. -/
def rateText (rate : Double) : String :=
  let million := Double.ofNat 1000000
  let thousand := Double.ofNat 1000
  if million.less rate then (rate.div million).fixed 2 ++ "M"
  else if thousand.less rate then (rate.div thousand).fixed 2 ++ "K"
  else rate.fixed 0

/-- The results of the given backends, without workloads that none of them has. -/
def Results.restrict (r : Results) (targets : List Target) : Results :=
  (r.map fun (workload, rates) =>
    (workload, rates.filter fun rate => targets.any fun t => t.name == rate.1)).filter fun entry =>
      !entry.2.isEmpty

/-- A rate in relation to the one it is compared with; zero if that is not positive. -/
def relation (rate base : Double) : Double :=
  if Double.less (.zero false) base then rate.div base else .zero false

/-- The two cells of a backend in the row of a workload. -/
def cells (rates : Table Double) (target : Target) : String :=
  match rates.get? target.name with
  | some rate =>
    let base := (rates.get? Target.native.name).getD (.zero false)
    " " ++ rateText rate ++ " | **" ++ (relation rate base).fixed 2 ++ "x** |"
  | none => " N/A | - |"

def headerRow (targets : List Target) : String :=
  "| Workload |" ++ String.join (targets.map fun t => " " ++ t.name ++ " (Ops/s) | vs native |")

def ruleRow (targets : List Target) : String :=
  "|---|" ++ String.join (targets.map fun _ => "---|---|")

def row (targets : List Target) (workload : String) (rates : Table Double) : String :=
  "| " ++ workload ++ " |" ++ String.join (targets.map (cells rates))

/-- The table, each line of it ended. -/
def Results.report (r : Results) (targets : List Target) : String :=
  let lines := ["# Backend Benchmark Report", "", headerRow targets, ruleRow targets] ++
    r.map fun (workload, rates) => row targets workload rates
  String.join (lines.map (· ++ "\n"))

def Results.summary (r : Results) : String :=
  let rates (t : Table Double) := Json.object 2 (t.map fun (name, rate) => (name, Json.double rate))
  Json.object 0
    [("baseline", Json.string Target.native.name),
      ("workloads", Json.object 1 (r.map fun (workload, t) => (workload, rates t)))]

end OrderedAtomics.Benchmark
