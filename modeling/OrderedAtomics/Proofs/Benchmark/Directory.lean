import OrderedAtomics.Proofs.Benchmark.Table

/-! Directories and what is measured in them. The measurements of a directory are those of its own files and
of the directories below it, at any depth. -/

namespace OrderedAtomics.Benchmark

/-- What can be the name of a file. -/
def FileName (name : String) : Prop := name ≠ "" ∧ isName name ∧ '/' ∉ name.toList

instance (name : String) : Decidable (FileName name) :=
  inferInstanceAs (Decidable (name ≠ "" ∧ isName name ∧ '/' ∉ name.toList))

/-- A directory: the names on the way to it from the inside outwards, and what is in it. -/
structure Directory where
  path : List String
  entries : List (String × Entry)

namespace Directory

variable {d d' : Directory} {name : String} {sub : List (String × Entry)} {m : Measurement}

/-- A directory in this one. -/
abbrev inner (d : Directory) (name : String) (entries : List (String × Entry)) : Directory :=
  ⟨name :: d.path, entries⟩

/-- The same directory with other entries. -/
abbrev list (d : Directory) (entries : List (String × Entry)) : Directory := ⟨d.path, entries⟩

/-- A directory is another one, or it is somewhere below it. -/
inductive Within : Directory → Directory → Prop
  | here {d : Directory} : Within d d
  | deeper {d d' : Directory} {name : String} {sub : List (String × Entry)} :
    (name, .directory sub) ∈ d.entries → Within d' (d.inner name sub) → Within d' d

theorem sizeOf_lt (h : (name, .directory sub) ∈ d.entries) : sizeOf sub < sizeOf d.entries := by
  have := List.sizeOf_lt_of_mem h
  simp only [Prod.mk.sizeOf_spec, Entry.directory.sizeOf_spec] at this
  omega

/-- What holds of a directory if it holds of those right in it holds of all. -/
theorem induction {motive : Directory → Prop} (step : ∀ d,
      (∀ name sub, (name, .directory sub) ∈ d.entries → motive (d.inner name sub)) → motive d)
    (d : Directory) : motive d :=
  step d fun name sub _ => induction step (d.inner name sub)
termination_by sizeOf d.entries
decreasing_by exact sizeOf_lt ‹_›

/-- Here and everywhere below, each name stands once and can be one of a file. -/
def WellFormed (d : Directory) : Prop := ∀ d' : Directory, d'.Within d →
  (Table.names d'.entries).Nodup ∧ ∀ name ∈ Table.names d'.entries, FileName name

theorem wellFormed_iff : d.WellFormed ↔
    ((Table.names d.entries).Nodup ∧ ∀ name ∈ Table.names d.entries, FileName name) ∧
      ∀ name sub, (name, .directory sub) ∈ d.entries → (d.inner name sub).WellFormed := by
  constructor
  · exact fun h => ⟨h d .here, fun name sub listed d' within => h d' (.deeper listed within)⟩
  · rintro ⟨here, below⟩ d' (_ | ⟨listed, within⟩)
    · exact here
    · exact below _ _ listed d' within

mutual

/-- Whether each name stands once and can be one of a file, in a directory and below. -/
def isWellFormed : Entry → Bool
  | .file _ => true
  | .directory es =>
    decide ((Table.names es).Nodup ∧ ∀ name ∈ Table.names es, FileName name) && areWellFormed es

def areWellFormed : List (String × Entry) → Bool
  | [] => true
  | (_, e) :: rest => isWellFormed e && areWellFormed rest

end

theorem areWellFormed_iff {es : List (String × Entry)} :
    areWellFormed es ↔ ∀ name sub, (name, .directory sub) ∈ es → isWellFormed (.directory sub) := by
  induction es with
  | nil => exact iff_of_true rfl nofun
  | cons e es ih =>
    obtain ⟨name, e⟩ := e
    rw [areWellFormed, Bool.and_eq_true, ih]
    cases e with
    | file text => simp [isWellFormed]
    | directory sub =>
      simp only [List.mem_cons, Prod.mk.injEq, Entry.directory.injEq]
      constructor
      · rintro ⟨here, rest⟩ _ _ (⟨rfl, rfl⟩ | listed)
        · exact here
        · exact rest _ _ listed
      · exact fun h => ⟨h _ _ (.inl ⟨rfl, rfl⟩), fun _ _ listed => h _ _ (.inr listed)⟩

theorem isWellFormed_iff (d : Directory) : isWellFormed (.directory d.entries) ↔ d.WellFormed := by
  induction d using Directory.induction with
  | step d ih =>
    rw [isWellFormed, Bool.and_eq_true, decide_eq_true_iff, areWellFormed_iff, wellFormed_iff]
    exact and_congr_right fun _ => forall₂_congr fun name sub => forall_congr' (ih name sub)

instance (d : Directory) : Decidable d.WellFormed := decidable_of_iff _ d.isWellFormed_iff

/-! ### Measurements -/

theorem measurement?_eq_some_iff {path : List String} {entries : List (String × Entry)} {text : String} :
    measurement? path entries text = some m ↔ label? path = some (m.workload, m.baseline) ∧
      rate? ((child? entries "benchmark.json").bind Entry.text?) text = some m.rate := by
  constructor
  · intro measured
    obtain ⟨label, named, measured⟩ := Option.bind_eq_some_iff.mp measured
    obtain ⟨rate, rated, e⟩ := Option.bind_eq_some_iff.mp measured
    cases e
    exact ⟨named, rated⟩
  · rintro ⟨named, rated⟩
    exact Option.bind_eq_some_iff.mpr ⟨_, named, Option.bind_eq_some_iff.mpr ⟨_, rated, rfl⟩⟩

/-- The measurement of the directory's own files. -/
def Measures (d : Directory) (m : Measurement) : Prop :=
  ∃ text, ("estimates.json", .file text) ∈ d.entries ∧ measurement? d.path d.entries text = some m

/-- The directory or one below it has the measurement. -/
def Measured (d : Directory) (m : Measurement) : Prop := ∃ d' : Directory, d'.Within d ∧ d'.Measures m

/-- The measurements in the order in which they are listed. -/
def measurements (d : Directory) : List Measurement := measureAll d.path d.entries d.entries

theorem measureAll_eq (path : List String) (entries listed : List (String × Entry)) :
    measureAll path entries listed = listed.flatMap fun e => measure path entries e.1 e.2 := by
  induction listed with
  | nil => rfl
  | cons e listed ih => rw [measureAll, ih, List.flatMap_cons]

theorem mem_measure_file {text : String} : m ∈ measure d.path d.entries name (.file text) ↔
    name = "estimates.json" ∧ measurement? d.path d.entries text = some m := by
  rw [measure]
  split_ifs with here
  · rw [Option.mem_toList, and_iff_right here]
  · exact iff_of_false List.not_mem_nil fun h => here h.1

theorem mem_measurements : m ∈ d.measurements ↔ d.Measured m := by
  constructor
  · induction d using Directory.induction with
    | step d ih =>
      intro among
      rw [measurements, measureAll_eq] at among
      obtain ⟨⟨name, e⟩, listed, among⟩ := List.mem_flatMap.mp among
      cases e with
      | file text =>
        obtain ⟨rfl, measured⟩ := mem_measure_file.mp among
        exact ⟨d, .here, text, listed, measured⟩
      | directory sub =>
        obtain ⟨d', within, measures⟩ := ih name sub listed among
        exact ⟨d', .deeper listed within, measures⟩
  · rintro ⟨d', within, measures⟩
    induction within with
    | here =>
      obtain ⟨text, listed, measured⟩ := measures
      rw [measurements, measureAll_eq]
      exact List.mem_flatMap.mpr ⟨_, listed, mem_measure_file.mpr ⟨rfl, measured⟩⟩
    | deeper listed _ ih =>
      rw [measurements, measureAll_eq]
      exact List.mem_flatMap.mpr ⟨_, listed, ih measures⟩

/-- The results of a directory. -/
def results (d : Directory) : Results := .ofList d.measurements

theorem proper_results (d : Directory) : d.results.Proper := Results.proper_ofList _

theorem collect_eq {root : Entry} {path : List String} {entries : List (String × Entry)}
    (found : root.find? [] path = some (.directory entries)) :
    collect root path = results ⟨path.reverse, entries⟩ := by
  rw [collect, found]
  rfl

/-- A rate is that of a measurement somewhere. -/
theorem measured_of_rate? {workload baseline : String} {rate : Double}
    (found : d.results.rate? workload baseline = some rate) : d.Measured ⟨workload, baseline, rate⟩ :=
  mem_measurements.mp (Results.exists_of_rate? found)

/-- Whatever is measured has a rate. -/
theorem isSome_rate? {workload baseline : String} : (d.results.rate? workload baseline).isSome ↔
    ∃ rate, d.Measured ⟨workload, baseline, rate⟩ := by
  simp only [results, Results.isSome_rate?, mem_measurements]

end Directory

/-- A directory with the estimates of a benchmark that takes so many nanoseconds in the mean. -/
def timed (time : Nat) : Entry :=
  .directory [("estimates.json",
    .file ("\x7b\"mean\":\x7b\"point_estimate\":" ++ toString time ++ "\x7d\x7d"))]

end OrderedAtomics.Benchmark
