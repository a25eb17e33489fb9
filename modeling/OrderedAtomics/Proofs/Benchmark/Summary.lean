import OrderedAtomics.Proofs.Benchmark.Printed
import OrderedAtomics.Proofs.Benchmark.Run

/-! The summary of a run. A reader of it finds a rate for each benchmark that a chosen backend has estimates
of, wherever they are, and for nothing else. -/

namespace OrderedAtomics.Benchmark

/-! ### Chosen backends -/

namespace Results

variable {r : Results} {targets : List Target}

/-- The rates of the chosen backends. -/
def chosen (targets : List Target) (t : Table Double) : Table Double :=
  t.filter fun rate => targets.any fun target => target.name == rate.1

theorem restrict_eq (r : Results) (targets : List Target) : r.restrict targets =
    (r.map fun e => (e.1, chosen targets e.2)).filter fun e => !e.2.isEmpty := rfl

theorem get?_restrict (h : r.Proper) (targets : List Target) (workload : String) :
    (r.restrict targets).get? workload =
      ((r.get? workload).map (chosen targets)).filter fun t => !t.isEmpty := by
  rw [restrict_eq, (h.sorted.map (chosen targets)).get?_filter_value fun t : Table Double => !t.isEmpty,
    Table.get?_map]

theorem rates_restrict (h : r.Proper) (targets : List Target) (workload : String) :
    (r.restrict targets).rates workload = chosen targets (r.rates workload) := by
  rw [rates, rates, get?_restrict h]
  cases r.get? workload with
  | none => rfl
  | some t =>
    rw [Option.map_some, Option.filter_some]
    split_ifs with filled
    · rfl
    · exact (List.isEmpty_iff.mp (by simpa using filled)).symm

theorem rate?_restrict (h : r.Proper) (targets : List Target) (workload baseline : String) :
    (r.restrict targets).rate? workload baseline =
      if ∃ target ∈ targets, target.name = baseline then r.rate? workload baseline else none := by
  rw [rate?, rates_restrict h]
  refine (Table.get?_filter (fun name => targets.any fun target => target.name == name) _ _).trans ?_
  simp only [List.any_eq_true, beq_iff_eq, rate?]

theorem Proper.restrict (h : r.Proper) (targets : List Target) : (r.restrict targets).Proper where
  sorted := (h.sorted.map (chosen targets)).filter _
  inner workload := by
    rw [rates_restrict h]
    exact (h.inner workload).filter _
  filled {workload} none := by
    rw [get?_restrict h] at none
    exact absurd (Option.filter_eq_some_iff.mp none).2 (by simp)

end Results

/-! ### Names -/

/-- Two names can be told from what they are when joined by a slash. -/
theorem join_inj {group workload group' workload' : String}
    (h : group ++ "/" ++ workload = group' ++ "/" ++ workload') (hg : '/' ∉ group'.toList)
    (hw : '/' ∉ workload'.toList) : group = group' ∧ workload = workload' := by
  have chars : group.toList ++ '/' :: workload.toList = group'.toList ++ '/' :: workload'.toList := by
    simpa using congrArg String.toList h
  rcases List.append_eq_append_iff.mp chars with ⟨more, left, right⟩ | ⟨more, left, right⟩
  · cases more with
    | nil =>
      rw [List.append_nil] at left
      exact ⟨String.toList_inj.mp left.symm, String.toList_inj.mp (List.cons.inj right).2⟩
    | cons c more =>
      -- the slash after the first group would be part of the second one
      obtain ⟨rfl, -⟩ := List.cons.inj right
      exact absurd (left ▸ List.mem_append_right _ List.mem_cons_self) hg
  · cases more with
    | nil =>
      rw [List.append_nil] at left
      exact ⟨String.toList_inj.mp left, String.toList_inj.mp (List.cons.inj right).2.symm⟩
    | cons c more =>
      -- the slash after the second group would be part of its workload
      obtain ⟨rfl, rest⟩ := List.cons.inj right
      exact absurd (rest ▸ List.mem_append_right _ List.mem_cons_self) hw

/-- With three names to it, the label of a directory is made of them. -/
theorem label?_eq_some_iff {path : List String} {group workload baseline : String}
    (names : ∀ name ∈ path, FileName name) (deep : 3 ≤ path.length) :
    label? path = some (group ++ "/" ++ workload, baseline) ↔
      [baseline, workload, group] <+: path ∧ baseline ∉ reserved ∧ workload ≠ "report" := by
  obtain ⟨b, w, g, outer, rfl⟩ : ∃ b w g outer, path = b :: w :: g :: outer := by
    match path, deep with
    | b :: w :: g :: outer, _ => exact ⟨b, w, g, outer, rfl⟩
  simp only [List.forall_mem_cons] at names
  obtain ⟨⟨-, hb, -⟩, ⟨-, hw, slashless⟩, ⟨-, hg, slashless'⟩, -⟩ := names
  have label : label? (b :: w :: g :: outer) =
      if b ∉ reserved ∧ w ≠ "report" then some (g ++ "/" ++ w, b) else none := by
    simp [label?, hb, hw, hg]
  rw [label]
  simp only [List.cons_prefix_cons, List.nil_prefix, and_true]
  constructor
  · intro same
    split_ifs at same with other
    obtain ⟨joined, rfl⟩ := Prod.mk.inj (Option.some.inj same)
    obtain ⟨rfl, rfl⟩ := join_inj joined.symm slashless' slashless
    exact ⟨⟨rfl, rfl, rfl⟩, other⟩
  · rintro ⟨⟨rfl, rfl, rfl⟩, other⟩
    rw [if_pos other]

/-! ### What there is a rate for -/

namespace Directory

variable {d d' : Directory} {group workload baseline text : String} {rate : Double}

theorem Within.path_suffix (h : d'.Within d) : d.path <:+ d'.path := by
  induction h with
  | here => exact List.suffix_refl _
  | deeper _ _ ih => exact (List.suffix_cons _ _).trans ih

theorem Within.fileNames (h : d'.Within d) (wellFormed : d.WellFormed)
    (names : ∀ name ∈ d.path, FileName name) : ∀ name ∈ d'.path, FileName name := by
  induction h with
  | here => exact names
  | deeper listed _ ih =>
    obtain ⟨⟨-, fileNames⟩, below⟩ := wellFormed_iff.mp wellFormed
    exact ih (below _ _ listed)
      (List.forall_mem_cons.mpr ⟨fileNames _ (Table.mem_names.mpr ⟨_, listed⟩), names⟩)

/-- The text is the estimates of a benchmark under a backend: the directory is named for the backend, and
those around it for the benchmark and its group. -/
structure Estimates (d : Directory) (group workload baseline text : String) : Prop where
  listed : ("estimates.json", .file text) ∈ d.entries
  names : [baseline, workload, group] <+: d.path
  counts : workload ≠ "report"

/-- The rate from the estimates and the directory's own description of the benchmark. -/
def rateOf? (d : Directory) (text : String) : Option Double :=
  rate? ((child? d.entries "benchmark.json").bind Entry.text?) text

/-- It is there if the mean time is a positive number, whatever the description says. -/
theorem isSome_rateOf? : (d.rateOf? text).isSome ↔
    ∃ time, time? text = some time ∧ Double.less (.zero false) time := by
  unfold rateOf? rate?
  cases time? text with
  | none => simp
  | some time => by_cases positive : Double.less (.zero false) time <;> simp [positive]

/-- The directory that is searched, and everything in it. -/
def input (entries : List (String × Entry)) : Directory := ⟨Session.inputDirectory.reverse, entries⟩

variable {entries : List (String × Entry)}

/-- The directory that is searched is named for no backend. -/
theorem three_le_length (within : d.Within (input entries)) {key : String}
    (label : label? d.path = some (key, baseline)) (other : baseline ≠ "criterion") :
    3 ≤ d.path.length := by
  obtain ⟨front, e⟩ := within.path_suffix
  rw [← e] at label ⊢
  cases front with
  | nil =>
    obtain ⟨-, rfl⟩ := Prod.mk.inj (Option.some.inj label)
    exact absurd rfl other
  | cons name front =>
    simp only [input, Session.inputDirectory, List.length_append, List.length_cons, List.length_reverse]
    omega

theorem measures_iff (wellFormed : (input entries).WellFormed) (within : d.Within (input entries))
    (own : baseline ∉ reserved) (other : baseline ≠ "criterion") :
    d.Measures ⟨group ++ "/" ++ workload, baseline, rate⟩ ↔
      ∃ text, d.Estimates group workload baseline text ∧ d.rateOf? text = some rate := by
  have names : ∀ name ∈ d.path, FileName name := within.fileNames wellFormed
    (show ∀ name ∈ Session.inputDirectory.reverse, FileName name by decide)
  constructor
  · rintro ⟨text, listed, measured⟩
    obtain ⟨label, rated⟩ := measurement?_eq_some_iff.mp measured
    obtain ⟨first, -, counts⟩ := (label?_eq_some_iff names (three_le_length within label other)).mp label
    exact ⟨text, ⟨listed, first, counts⟩, rated⟩
  · rintro ⟨text, estimates, rated⟩
    have deep : 3 ≤ d.path.length := estimates.names.length_le
    exact ⟨text, estimates.listed, measurement?_eq_some_iff.mpr
      ⟨(label?_eq_some_iff names deep).mpr ⟨estimates.names, own, estimates.counts⟩, rated⟩⟩

theorem measured_iff (wellFormed : (input entries).WellFormed) (own : baseline ∉ reserved)
    (other : baseline ≠ "criterion") :
    (input entries).Measured ⟨group ++ "/" ++ workload, baseline, rate⟩ ↔
      ∃ d : Directory, d.Within (input entries) ∧
        ∃ text, d.Estimates group workload baseline text ∧ d.rateOf? text = some rate :=
  exists_congr fun _ => and_congr_right fun within => measures_iff wellFormed within own other

theorem exists_measured_iff (wellFormed : (input entries).WellFormed) (own : baseline ∉ reserved)
    (other : baseline ≠ "criterion") :
    (∃ rate, (input entries).Measured ⟨group ++ "/" ++ workload, baseline, rate⟩) ↔
      ∃ d : Directory, d.Within (input entries) ∧ ∃ text, d.Estimates group workload baseline text ∧
        ∃ time, time? text = some time ∧ Double.less (.zero false) time := by
  constructor
  · rintro ⟨rate, measured⟩
    obtain ⟨d, within, text, estimates, rated⟩ := (measured_iff wellFormed own other).mp measured
    exact ⟨d, within, text, estimates, isSome_rateOf?.mp (Option.isSome_of_eq_some rated)⟩
  · rintro ⟨d, within, text, estimates, positive⟩
    obtain ⟨rate, rated⟩ := Option.isSome_iff_exists.mp (isSome_rateOf?.mpr positive)
    exact ⟨rate, (measured_iff wellFormed own other).mpr ⟨d, within, text, estimates, rated⟩⟩

end Directory

/-- What a reader finds in the summary of a directory of criterion when some backends are chosen. -/
structure Summarizes (targets : List Target) (d : Directory) (summary : Json.Value) : Prop where
  baseline : summary.get? "baseline" = some (.string Target.native.name)
  /-- There is an entry for just the chosen backends and benchmarks that there are estimates of. -/
  isSome_iff : ∀ {group workload baseline},
    (valueIn? summary (group ++ "/" ++ workload) baseline).isSome ↔
      (∃ target ∈ targets, target.name = baseline) ∧ ∃ d' : Directory, d'.Within d ∧
        ∃ text, d'.Estimates group workload baseline text ∧
          ∃ time, time? text = some time ∧ Double.less (.zero false) time
  /-- An entry is a rate from the files of one directory. -/
  rate : ∀ {group workload baseline value},
    valueIn? summary (group ++ "/" ++ workload) baseline = some value →
      ∃ d' : Directory, d'.Within d ∧ ∃ text, d'.Estimates group workload baseline text ∧
        ∃ rate, d'.rateOf? text = some rate ∧ value.Stands rate
  /-- There is nothing but entries: every workload and every backend in it stands once and has one. -/
  workloads : ∃ workloads : Table Json.Value, summary.get? "workloads" = some (.object workloads) ∧
    workloads.names.Nodup ∧ ∀ {key value}, (key, value) ∈ workloads →
      (∃ group workload, key = group ++ "/" ++ workload) ∧
        ∃ rates : Table Json.Value, value = .object rates ∧ rates ≠ [] ∧ rates.names.Nodup

theorem key_of_label? {path : List String} {key baseline : String}
    (label : label? path = some (key, baseline)) :
    ∃ group workload, key = group ++ "/" ++ workload := by
  unfold label? at label
  split at label
  next b w outer =>
    split_ifs at label
    exact ⟨_, w, (Prod.mk.inj (Option.some.inj label)).1.symm⟩
  next => cases label

/-- The chosen backends are named like nothing else in the input. -/
theorem chosen_names {names : List String} {baseline : String}
    (chosen : ∃ target ∈ Target.select names, target.name = baseline) :
    baseline ∉ reserved ∧ baseline ≠ "criterion" := by
  obtain ⟨target, among, rfl⟩ := chosen
  have all : ∀ target ∈ Target.all, target.name ∉ reserved ∧ target.name ≠ "criterion" := by decide
  exact all target (List.mem_of_mem_filter among)

theorem summarizes_shown {entries : List (String × Entry)}
    (wellFormed : (Directory.input entries).WellFormed) (names : List String) :
    Summarizes (Target.select names) (.input entries)
      ((Directory.input entries).results.restrict (Target.select names)).shown := by
  have proper := (Directory.input entries).proper_results
  have restricted := proper.restrict (Target.select names)
  refine ⟨rfl, fun {group workload baseline} => ?_, fun {group workload baseline value} found => ?_,
    _, rfl, Results.nodup_shown restricted.sorted _, fun {key value} among => ?_⟩
  · rw [Results.valueIn?_shown restricted, Option.isSome_map, Results.rate?_restrict proper]
    split_ifs with chosen
    · obtain ⟨own, other⟩ := chosen_names chosen
      rw [and_iff_right chosen, Directory.isSome_rate?, Directory.exists_measured_iff wellFormed own other]
    · exact iff_of_false Bool.false_ne_true fun h => chosen h.1
  · rw [Results.valueIn?_shown restricted, Results.rate?_restrict proper] at found
    split_ifs at found with chosen
    · obtain ⟨own, other⟩ := chosen_names chosen
      obtain ⟨rate, measured, rfl⟩ := Option.map_eq_some_iff.mp found
      obtain ⟨d, within, text, estimates, rated⟩ :=
        (Directory.measured_iff wellFormed own other).mp (Directory.measured_of_rate? measured)
      exact ⟨d, within, text, estimates, rate, rated, Json.stands_shown rate⟩
    · cases found
  · obtain ⟨⟨key, rates⟩, listed, e⟩ := List.mem_map.mp among
    obtain ⟨rfl, rfl⟩ := Prod.mk.inj e
    have found := restricted.sorted.mem_iff.mp listed
    refine ⟨?_, _, rfl, fun none => ?_, Results.nodup_shown ?_ _⟩
    · obtain ⟨baseline, there⟩ := restricted.isSome_get?.mp (Option.isSome_of_eq_some found)
      rw [Results.rate?_restrict proper] at there
      split_ifs at there
      · obtain ⟨rate, d, within, text, -, measured⟩ := Directory.isSome_rate?.mp there
        exact key_of_label? (Directory.measurement?_eq_some_iff.mp measured).1
      · cases there
    · exact restricted.filled (List.map_eq_nil_iff.mp none ▸ found)
    · have inner := restricted.inner key
      rwa [Results.rates, found] at inner

/-! ### The summary of a run -/

/-- What a reader finds in the summary that a run leaves. -/
def summary? (runner : Runner) (options : Options) (s : Session) : Option Json.Value :=
  (Session.summaryText? runner options s).bind Json.read?

theorem summary?_eq {runner : Runner} {options : Options} {s : Session} {entries : List (String × Entry)}
    (starts : options.reportOnly ∨ runner.isSome) (chosen : Target.select options.backends ≠ [])
    (found : (Session.reported runner options s.root).find? [] Session.inputDirectory =
      some (.directory entries))
    (free : Session.OutputFree (Session.reported runner options s.root)) :
    summary? runner options s =
      some ((Directory.input entries).results.restrict (Target.select options.backends)).shown := by
  obtain ⟨s', ended, there⟩ := Session.bench_ok starts chosen found free
  rw [Directory.collect_eq found] at there
  have text : Session.summaryText? runner options s = some
      ((Directory.input entries).results.restrict (Target.select options.backends)).summary := by
    rw [Session.summaryText?, ended]
    exact congrArg (Option.bind · Entry.text?) there
  rw [summary?, text, Option.bind_some, Results.read?_summary]

/-- A run with known backends leaves a summary of what then lies in the input directory. A reader finds an
entry in it for each benchmark that one of the backends has estimates of, wherever they lie and whatever the
description of the benchmark says, and for nothing else. What a file in one directory says changes no entries
in a report but those with the names of that directory. -/
theorem summary_of_bench {runner : Runner} {options : Options} {s : Session}
    {entries : List (String × Entry)} (starts : options.reportOnly ∨ runner.isSome)
    (chosen : Target.select options.backends ≠ [])
    (found : (Session.reported runner options s.root).find? [] Session.inputDirectory =
      some (.directory entries))
    (wellFormed : (Directory.input entries).WellFormed)
    (free : Session.OutputFree (Session.reported runner options s.root)) :
    ∃ summary, summary? runner options s = some summary ∧
      Summarizes (Target.select options.backends) (.input entries) summary ∧
      ∀ dirs name text root',
        (Session.reported runner options s.root).writeFile (Session.inputDirectory ++ dirs) name text =
          some root' →
        ∃ summary', summary? none { options with reportOnly := true } { s with root := root' } =
            some summary' ∧
          ∀ key baseline, label? (Session.inputDirectory ++ dirs).reverse ≠ some (key, baseline) →
            valueIn? summary' key baseline = valueIn? summary key baseline := by
  have names : ∀ name ∈ Session.inputDirectory, isName name := by decide
  refine ⟨_, summary?_eq starts chosen found free, summarizes_shown wellFormed _,
    fun dirs name text root' written => ?_⟩
  obtain ⟨entries', -, found'⟩ := Entry.find?_writeFile names found written
  refine ⟨_, summary?_eq (.inl rfl) chosen (found' []) (free.written written), fun key baseline other => ?_⟩
  have proper (es : List (String × Entry)) := (Directory.input es).proper_results
  have same : (Directory.input entries').results.rate? key baseline =
      (Directory.input entries).results.rate? key baseline := by
    have same := rate?_collect_written names found written other
    rwa [Directory.collect_eq found, Directory.collect_eq (found' [])] at same
  rw [Results.valueIn?_shown ((proper entries').restrict _),
    Results.valueIn?_shown ((proper entries).restrict _), Results.rate?_restrict (proper entries'),
    Results.rate?_restrict (proper entries), same]

/-- Benchmarks that fail leave one measurement right in the input, and one in a group whose description
cannot be read. -/
theorem summary_of_bench_malformed :
    let described := .directory (("benchmark.json", .file "\x7b") :: (timed 5).entries)
    let entries := [("fence", .directory [("native", timed 4)]),
      ("load", .directory [("u8", .directory [("native", described), ("report", timed 6)])])]
    let run : List String → List (String × String) → Finished := fun _ _ =>
      { lines := [], succeeded := false,
        change := fun _ => Entry.nest Session.inputDirectory (.directory entries) }
    let options : Options := { backends := ["native", "unknown"] }
    ∃ summary, summary? (some run) options ⟨.directory [], [], []⟩ = some summary ∧
      Summarizes (Target.select options.backends) (.input entries) summary ∧
      (valueIn? summary "criterion/fence" "native").bind (·.toDouble?) = some (.ofNat 250000000) ∧
      (valueIn? summary "load/u8" "native").bind (·.toDouble?) = some (.ofNat 200000000) := by
  intro described entries run options
  have left : Session.reported (some run) options (.directory []) =
      Entry.nest Session.inputDirectory (.directory entries) := rfl
  have found : (Session.reported (some run) options (.directory [])).find? [] Session.inputDirectory =
      some (.directory entries) := left ▸ Entry.find?_nest (by decide) _ _
  have wellFormed : (Directory.input entries).WellFormed := by decide +kernel
  have free : Session.OutputFree (Session.reported (some run) options (.directory [])) := fun e taken => by
    rw [left] at taken
    cases (show (Entry.nest Session.inputDirectory (.directory entries)).find? []
      [Session.outputDirectory] = none from rfl).symm.trans taken
  obtain ⟨summary, read, summarizes, -⟩ :=
    @summary_of_bench (some run) options ⟨.directory [], [], []⟩ entries (.inr rfl) (by decide) found
      wellFormed free
  have rates : (summary? (some run) options ⟨.directory [], [], []⟩).map (fun summary =>
      ((valueIn? summary "criterion/fence" "native").bind (·.toDouble?),
        (valueIn? summary "load/u8" "native").bind (·.toDouble?))) =
        some (some (.ofNat 250000000), some (.ofNat 200000000)) := by decide +kernel
  rw [read] at rates
  obtain ⟨fence, load⟩ := Prod.mk.inj (Option.some.inj rates)
  exact ⟨summary, read, summarizes, fence, load⟩

end OrderedAtomics.Benchmark
