import OrderedAtomics.Benchmark.Session
import OrderedAtomics.Proofs.Benchmark.Writing

/-! Listings of the same tree in another order. What is measured does not depend on the order, but of
several measurements with the same names the one that is listed last stays. -/

namespace OrderedAtomics.Benchmark

/-! ### Other orders -/

/-- The same files in the same directories, each of which may list its entries in another order. -/
inductive Relisted : Entry → Entry → Prop
  | file (text : String) : Relisted (.file text) (.file text)
  | directory {es fs : List (String × Entry)} (names : (Table.names es).Perm (Table.names fs))
    (entries : ∀ {name e f}, (name, e) ∈ es → (name, f) ∈ fs → Relisted e f) :
    Relisted (.directory es) (.directory fs)

namespace Relisted

variable {e f : Entry} {es fs : List (String × Entry)} {name : String}

theorem symm (h : Relisted e f) : Relisted f e := by
  induction h with
  | file text => exact .file text
  | directory names _ ih => exact .directory names.symm fun ha hb => ih hb ha

theorem text?_eq (h : Relisted e f) : e.text? = f.text? := by
  cases h <;> rfl

/-- What is listed in one order is listed in the other. -/
theorem exists_mem (h : Relisted (.directory es) (.directory fs)) (listed : (name, e) ∈ es) :
    ∃ f, (name, f) ∈ fs ∧ Relisted e f := by
  cases h with
  | directory names entries =>
    obtain ⟨f, there⟩ := Table.mem_names.mp (names.mem_iff.mp (Table.mem_names.mpr ⟨e, listed⟩))
    exact ⟨f, there, entries listed there⟩

theorem exists_directory {es : List (String × Entry)} (h : Relisted (.directory es) f) :
    ∃ fs, f = .directory fs := by
  cases h
  exact ⟨_, rfl⟩

/-- A text that is found under a name is found in either order. -/
theorem child?_text (h : Relisted (.directory es) (.directory fs)) (name : String) :
    (child? es name).bind Entry.text? = (child? fs name).bind Entry.text? := by
  cases h with
  | directory names entries =>
    show (Table.get? es name).bind Entry.text? = (Table.get? fs name).bind Entry.text?
    cases found : Table.get? es name with
    | none =>
      rw [Table.get?_eq_none_iff, names.mem_iff, ← Table.get?_eq_none_iff] at found
      rw [found]
    | some e =>
      have there : (Table.get? fs name).isSome := by
        rw [Table.isSome_get?, ← names.mem_iff, ← Table.isSome_get?, found]
        rfl
      obtain ⟨f, found'⟩ := Option.isSome_iff_exists.mp there
      rw [found']
      exact (entries (Table.mem_of_get? found) (Table.mem_of_get? found')).text?_eq

end Relisted

namespace Directory

variable {d d' : Directory} {fs : List (String × Entry)} {m : Measurement}

theorem Within.relisted (within : d'.Within d) (h : Relisted (.directory d.entries) (.directory fs)) :
    ∃ fs', (d'.list fs').Within (d.list fs) ∧ Relisted (.directory d'.entries) (.directory fs') := by
  induction within generalizing fs with
  | here => exact ⟨fs, .here, h⟩
  | deeper listed _ ih =>
    obtain ⟨f, there, h⟩ := h.exists_mem listed
    obtain ⟨sub', rfl⟩ := h.exists_directory
    obtain ⟨fs', within, h⟩ := ih h
    exact ⟨fs', .deeper there within, h⟩

theorem measurement?_relisted (h : Relisted (.directory d.entries) (.directory fs)) (text : String) :
    measurement? d.path fs text = measurement? d.path d.entries text := by
  unfold measurement?
  rw [h.child?_text]

theorem Measures.relisted (measures : d.Measures m)
    (h : Relisted (.directory d.entries) (.directory fs)) : (d.list fs).Measures m := by
  obtain ⟨text, listed, measured⟩ := measures
  obtain ⟨f, there, same⟩ := h.exists_mem listed
  cases same
  exact ⟨text, there, (measurement?_relisted h text).trans measured⟩

theorem Measured.relisted (measured : d.Measured m)
    (h : Relisted (.directory d.entries) (.directory fs)) : (d.list fs).Measured m := by
  obtain ⟨d', within, measures⟩ := measured
  obtain ⟨fs', within, h⟩ := within.relisted h
  exact ⟨d'.list fs', within, measures.relisted h⟩

/-- What is measured does not depend on the order. -/
theorem measured_relisted (h : Relisted (.directory d.entries) (.directory fs)) :
    (d.list fs).Measured m ↔ d.Measured m :=
  ⟨fun measured => measured.relisted (d := d.list fs) h.symm, fun measured => measured.relisted h⟩

/-! ### Directories with the same names -/

/-- Measurements with the same names have the same rate. -/
def Unambiguous (d : Directory) : Prop := ∀ m m', d.Measured m → d.Measured m' →
  m.workload = m'.workload → m.baseline = m'.baseline → m.rate = m'.rate

instance (d : Directory) : Decidable d.Unambiguous :=
  decidable_of_iff (∀ m ∈ d.measurements, ∀ m' ∈ d.measurements,
    m.workload = m'.workload → m.baseline = m'.baseline → m.rate = m'.rate) (by
      simp only [mem_measurements]
      exact ⟨fun h m m' measured measured' => h m measured m' measured',
        fun h m measured m' measured' => h m m' measured measured'⟩)

theorem Unambiguous.rate?_eq (h : d.Unambiguous) (measured : d.Measured m) :
    d.results.rate? m.workload m.baseline = some m.rate := by
  obtain ⟨rate, found⟩ := Option.isSome_iff_exists.mp (isSome_rate?.mpr ⟨m.rate, measured⟩)
  rw [found]
  exact congrArg some (h _ m (measured_of_rate? found) measured rfl rfl)

theorem Unambiguous.results_relisted (h : d.Unambiguous)
    (relisted : Relisted (.directory d.entries) (.directory fs)) :
    (d.list fs).results = d.results := by
  have h' : (d.list fs).Unambiguous := fun m m' measured measured' =>
    h m m' ((measured_relisted relisted).mp measured) ((measured_relisted relisted).mp measured')
  refine (Results.proper_ofList _).ext (Results.proper_ofList _) fun workload baseline => ?_
  show (d.list fs).results.rate? workload baseline = d.results.rate? workload baseline
  cases found : d.results.rate? workload baseline with
  | some rate => exact h'.rate?_eq ((measured_relisted relisted).mpr (measured_of_rate? found))
  | none =>
    rw [← Option.not_isSome_iff_eq_none, isSome_rate?] at found ⊢
    simpa only [measured_relisted relisted] using found

/-! ### Any measurement can be the last one -/

theorem relisted_refl (h : d.WellFormed) : Relisted (.directory d.entries) (.directory d.entries) := by
  induction d using Directory.induction with
  | step d ih =>
    obtain ⟨⟨once, -⟩, below⟩ := wellFormed_iff.mp h
    refine .directory (.refl _) fun {name e f} listed listed' => ?_
    obtain rfl := Table.eq_of_mem once listed listed'
    cases e with
    | file text => exact .file text
    | directory sub => exact ih name sub listed (below name sub listed)

/-- The directory itself lists its entries in another order. -/
theorem relisted_of_perm (h : d.WellFormed) (perm : d.entries.Perm fs) :
    Relisted (.directory d.entries) (.directory fs) := by
  cases relisted_refl h with
  | directory _ entries =>
    exact .directory (perm.map _) fun left right => entries left (perm.mem_iff.mpr right)

/-- One entry comes last, its own entries in another order. -/
theorem relisted_last (h : d.WellFormed) {before after : List (String × Entry)} {name : String}
    {e f : Entry} (split : d.entries = before ++ (name, e) :: after) (relisted : Relisted e f) :
    Relisted (.directory d.entries) (.directory (before ++ after ++ [(name, f)])) := by
  have once : (Table.names d.entries).Nodup := (h d .here).1
  have listed : (name, e) ∈ d.entries := split ▸ List.mem_append_right before List.mem_cons_self
  have perm : d.entries.Perm (before ++ after ++ [(name, e)]) :=
    split ▸ List.perm_middle.trans (List.perm_append_singleton _ _).symm
  cases relisted_of_perm h perm with
  | directory names entries =>
    refine .directory ?_ fun {n a b} left right => ?_
    · simpa [Table.names] using names
    · rcases List.mem_append.mp right with right | right
      · exact entries left (List.mem_append_left _ right)
      · obtain ⟨rfl, rfl⟩ := Prod.mk.inj (List.mem_singleton.mp right)
        rwa [Table.eq_of_mem once left listed]

theorem measurements_last (d : Directory) (before : List (String × Entry)) (name : String) (f : Entry) :
    ∃ earlier, (d.list (before ++ [(name, f)])).measurements =
      earlier ++ measure d.path (before ++ [(name, f)]) name f := by
  rw [measurements, measureAll_eq, List.flatMap_append]
  exact ⟨_, congrArg _ (List.flatMap_singleton _ _)⟩

/-- The last entry of each directory on the way is the one that leads on. -/
theorem exists_last (h : d.WellFormed) (measured : d.Measured m) :
    ∃ fs, Relisted (.directory d.entries) (.directory fs) ∧
      (d.list fs).measurements.getLast? = some m := by
  obtain ⟨d', within, measures⟩ := measured
  induction within with
  | @here d =>
    obtain ⟨text, listed, measured⟩ := measures
    obtain ⟨before, after, split⟩ := List.append_of_mem listed
    have relisted := relisted_last h split (.file text)
    obtain ⟨earlier, e⟩ := measurements_last d (before ++ after) "estimates.json" (.file text)
    refine ⟨_, relisted, ?_⟩
    rw [e, measure, if_pos rfl, measurement?_relisted relisted, measured]
    exact List.getLast?_concat
  | @deeper d d' name sub listed _ ih =>
    obtain ⟨fs, relisted, last⟩ := ih ((wellFormed_iff.mp h).2 name sub listed) measures
    obtain ⟨before, after, split⟩ := List.append_of_mem listed
    obtain ⟨earlier, e⟩ := measurements_last d (before ++ after) name (.directory fs)
    refine ⟨_, relisted_last h split relisted, ?_⟩
    have last : (measure d.path (before ++ after ++ [(name, .directory fs)]) name
      (.directory fs)).getLast? = some m := last
    rw [e, List.getLast?_append, last, Option.some_or]

/-- A measurement that is listed last has its rate in the results. -/
theorem rate?_of_last (last : d.measurements.getLast? = some m) :
    d.results.rate? m.workload m.baseline = some m.rate := by
  obtain ⟨earlier, e⟩ := List.getLast?_eq_some_iff.mp last
  rw [results, e, Results.rate?_ofList, List.reverse_append, List.reverse_singleton,
    List.singleton_append, List.find?_cons]
  simp

/-- If the results are the same in every order, then the names say which measurement is meant. -/
theorem unambiguous_of_results_eq (h : d.WellFormed) (same : ∀ fs,
    Relisted (.directory d.entries) (.directory fs) → (d.list fs).results = d.results) :
    d.Unambiguous := by
  have rate?_eq {m : Measurement} (measured : d.Measured m) :
      d.results.rate? m.workload m.baseline = some m.rate := by
    obtain ⟨fs, relisted, last⟩ := exists_last h measured
    rw [← same fs relisted]
    exact rate?_of_last last
  intro m m' measured measured' workload baseline
  have := rate?_eq measured
  rw [workload, baseline, rate?_eq measured'] at this
  exact (Option.some.inj this).symm

end Directory

/-! ### Collections -/

/-- The results of a directory are the same in whatever order it and the directories below it list their
entries exactly if no two measurements with the same last three names have different rates. In every order
they have a rate for just the names that are measured, and it is one that was measured under them. -/
theorem collect_relisted {root : Entry} {path : List String} {entries : List (String × Entry)}
    (names : ∀ name ∈ path, isName name) (found : root.find? [] path = some (.directory entries))
    (wellFormed : Directory.WellFormed ⟨path.reverse, entries⟩) :
    ((∀ root' entries', root'.find? [] path = some (.directory entries') →
        Relisted (.directory entries) (.directory entries') →
        collect root' path = collect root path) ↔ Directory.Unambiguous ⟨path.reverse, entries⟩) ∧
    ∀ root' entries', root'.find? [] path = some (.directory entries') →
      Relisted (.directory entries) (.directory entries') → ∀ workload baseline,
        (((collect root' path).rate? workload baseline).isSome ↔
          ∃ rate, Directory.Measured ⟨path.reverse, entries⟩ ⟨workload, baseline, rate⟩) ∧
        ∀ rate, (collect root' path).rate? workload baseline = some rate →
          Directory.Measured ⟨path.reverse, entries⟩ ⟨workload, baseline, rate⟩ := by
  set d : Directory := ⟨path.reverse, entries⟩
  refine ⟨⟨fun same => ?_, fun unambiguous root' entries' found' relisted => ?_⟩,
    fun root' entries' found' relisted workload baseline => ?_⟩
  · refine d.unambiguous_of_results_eq wellFormed fun fs relisted => ?_
    have there := Entry.find?_nest names (.directory fs) []
    have := same _ fs there relisted
    rwa [Directory.collect_eq found, Directory.collect_eq there] at this
  · rw [Directory.collect_eq found, Directory.collect_eq found']
    exact unambiguous.results_relisted relisted
  · rw [Directory.collect_eq found']
    simp only [← Directory.measured_relisted (d := d) relisted]
    exact ⟨Directory.isSome_rate?, fun rate => Directory.measured_of_rate?⟩

/-- Two levels of groups: what is measured below a workload has the workload as its group. -/
theorem collect_relisted_nested :
    let entries := [("load", .directory [("native", timed 4), ("u8", .directory [("native", timed 5)])]),
      ("store", .directory [("u16", .directory [("native", timed 6)])])]
    let root := Entry.nest ["target", "criterion", "atomics"] (.directory entries)
    let path := ["target", "criterion", "atomics"]
    (collect root path).rate? "load/u8" "native" = some (Double.ofNat 200000000) ∧
      ∀ root' entries', root'.find? [] path = some (.directory entries') →
        Relisted (.directory entries) (.directory entries') →
          collect root' path = collect root path := by
  intro entries root path
  have names : ∀ name ∈ path, isName name := by decide
  have wellFormed : Directory.WellFormed ⟨path.reverse, entries⟩ := by decide +kernel
  have unambiguous : Directory.Unambiguous ⟨path.reverse, entries⟩ := by decide +kernel
  exact ⟨by decide +kernel,
    (collect_relisted names (Entry.find?_nest names _ []) wellFormed).1.mpr unambiguous⟩

/-- The same workload in two groups of groups: its rate is the one that is listed last. -/
theorem collect_relisted_collision :
    let load time := Entry.nest ["load", "u8", "native"] (timed time)
    let entries := [("first", load 4), ("second", load 5)]
    let collected listed :=
      collect (Entry.nest Session.inputDirectory (.directory listed)) Session.inputDirectory
    Directory.WellFormed ⟨Session.inputDirectory.reverse, entries⟩ ∧
      Relisted (.directory entries) (.directory entries.reverse) ∧
        collected entries ≠ collected entries.reverse := by
  intro load entries collected
  have wellFormed : Directory.WellFormed ⟨Session.inputDirectory.reverse, entries⟩ := by decide +kernel
  exact ⟨wellFormed, Directory.relisted_of_perm wellFormed (List.reverse_perm _).symm, by decide +kernel⟩

end OrderedAtomics.Benchmark
