import OrderedAtomics.Benchmark.Report
import OrderedAtomics.Proofs.Benchmark.Table
import OrderedAtomics.Proofs.Json.Text

/-! The written summary. A reader finds in it just the results that it is of. -/

namespace OrderedAtomics.Benchmark

/-- The value for a workload and a backend that a reader finds in a summary. -/
def valueIn? (summary : Json.Value) (workload baseline : String) : Option Json.Value := do
  let workloads ← summary.get? "workloads"
  let rates ← workloads.get? workload
  rates.get? baseline

/-- Where every name stands once, it does not matter that the last field of a name counts. -/
theorem Table.get?_object {fields : Table Json.Value} (once : fields.names.Nodup) (name : String) :
    (Json.Value.object fields).get? name = fields.get? name := by
  have once' : (Table.names fields.reverse).Nodup := by
    rw [Table.names, List.map_reverse, List.nodup_reverse]
    exact once
  show Table.get? fields.reverse name = fields.get? name
  refine Option.ext fun v => ?_
  constructor
  · exact fun found => get?_of_mem once (List.mem_reverse.mp (mem_of_get? found))
  · exact fun found => get?_of_mem once' (List.mem_reverse.mpr (mem_of_get? found))

namespace Results

variable {r : Results}

/-- What a reader makes of the rates of a workload. -/
def shownRates (t : Table Double) : Json.Value := .object (t.map fun rate => (rate.1, Json.shown rate.2))

/-- What a reader makes of a summary. -/
def shown (r : Results) : Json.Value :=
  .object [("baseline", .string Target.native.name),
    ("workloads", .object (r.map fun e => (e.1, shownRates e.2)))]

theorem read?_summary (r : Results) : Json.read? r.summary = some r.shown := by
  have rates (t : Table Double) :
      Json.Reads (Json.object 2 (t.map fun rate => (rate.1, Json.double rate.2))) (shownRates t) 1 :=
    Json.reads_object (Json.fieldsRead_map Json.reads_double t) 2
  have workloads := Json.reads_object (Json.fieldsRead_map rates r) 1
  have baseline : Json.Reads (Json.string Target.native.name) (.string Target.native.name) 2 :=
    fun _ _ _ enough _ ends => Json.reads_string _ enough (Nat.zero_le _) ends
  exact (Json.reads_object (.cons ⟨rfl, baseline⟩ (.cons ⟨rfl, workloads⟩ .nil)) 0).read? (by decide)

theorem nodup_shown {α : Type} {t : Table α} (sorted : t.Sorted) (f : α → Json.Value) :
    (Table.names (t.map fun e => (e.1, f e.2))).Nodup := (sorted.map f).nodup

/-- There is an entry in what is read for every rate and for nothing else. -/
theorem valueIn?_shown (h : r.Proper) (workload baseline : String) :
    valueIn? r.shown workload baseline = (r.rate? workload baseline).map Json.shown := by
  show (Json.Value.get? (.object (r.map fun e => (e.1, shownRates e.2))) workload).bind
    (Json.Value.get? · baseline) = _
  rw [Table.get?_object (nodup_shown h.sorted shownRates), Table.get?_map]
  unfold rate? rates
  cases found : r.get? workload with
  | none => rfl
  | some t =>
    have sorted : t.Sorted := by
      have inner := h.inner workload
      rwa [rates, found] at inner
    show Json.Value.get? (.object (t.map fun rate => (rate.1, Json.shown rate.2))) baseline = _
    rw [Table.get?_object (nodup_shown sorted Json.shown), Table.get?_map]
    rfl

end Results

end OrderedAtomics.Benchmark
