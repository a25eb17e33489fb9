import OrderedAtomics.Benchmark.Session
import OrderedAtomics.Proofs.Benchmark.Writing

/-! A run of the command. Benchmarks that are started leave a directory tree, and the report of it is
written unless something is in the way of the output. -/

namespace OrderedAtomics.Benchmark.Session

variable {s : Session} {α β : Type}

theorem bind_ok {a : Run α} {f : α → Run β} {s s' : Session} {r : α} (h : a s = .ok r s') :
    (a >>= f) s = f r s' := by
  show EStateM.bind a f s = _
  simp only [EStateM.bind, h]

/-! ### Benchmarks -/

/-- The part succeeds and does this to the tree. -/
def Changes (a : Run Unit) (change : Entry → Entry) : Prop :=
  ∀ s, ∃ s', a s = .ok () s' ∧ s'.root = change s.root

theorem changes_print (lines : List String) : Changes (print lines) id := fun _ => ⟨_, rfl, rfl⟩

theorem changes_warn (line : String) : Changes (warn line) id := fun _ => ⟨_, rfl, rfl⟩

theorem Changes.seq {a b : Run Unit} {change change' : Entry → Entry} (ha : Changes a change)
    (hb : Changes b change') : Changes (do a; b) (change' ∘ change) := by
  intro s
  obtain ⟨s₁, ended, same⟩ := ha s
  obtain ⟨s', ended', same'⟩ := hb s₁
  exact ⟨s', (bind_ok ended).trans ended', by rw [same', same, Function.comp_apply]⟩

theorem Changes.print {a : Run Unit} {change : Entry → Entry} (h : Changes a change) (lines : List String) :
    Changes (do Session.print lines; a) change := (changes_print lines).seq h

theorem changes_forM {f : α → Run Unit} {change : α → Entry → Entry} (h : ∀ x, Changes (f x) (change x))
    (xs : List α) : Changes (xs.forM f) fun root => xs.foldl (fun root x => change x root) root := by
  induction xs with
  | nil => exact fun s => ⟨s, rfl, rfl⟩
  | cons x xs ih => exact (h x).seq ih

/-- The tree that the benchmarks of some backends leave, each of them run in the tree that the one before
has left. -/
def afterAll (run : List String → List (String × String) → Finished) (quick : Bool) (targets : List Target)
    (root : Entry) : Entry :=
  targets.foldl (fun root target => benches.foldl (fun root bench =>
    (run (arguments bench target quick) environment).change root) root) root

/-- Whether a benchmark succeeds or fails, what it has done to the tree is done. -/
theorem changes_runOne (run : List String → List (String × String) → Finished) (quick : Bool)
    (target : Target) (bench : String) : Changes (runOne (some run) quick target bench)
      (run (arguments bench target quick) environment).change := by
  have ended : Changes (do
      print (run (arguments bench target quick) environment).lines
      if (run (arguments bench target quick) environment).succeeded then
        print ["Finished " ++ bench ++ " on " ++ target.name]
      else warn ("Warning: " ++ bench ++ " failed on backend " ++ target.name)) id := by
    refine Changes.print ?_ _
    split
    · exact changes_print _
    · exact changes_warn _
  have changed : Changes (modify fun s : Session =>
      { s with root := (run (arguments bench target quick) environment).change s.root })
      (run (arguments bench target quick) environment).change := fun _ => ⟨_, rfl, rfl⟩
  exact (changed.seq ended).print _

theorem changes_runAll (run : List String → List (String × String) → Finished) (quick : Bool)
    (targets : List Target) : Changes (runAll (some run) quick targets) (afterAll run quick targets) :=
  (changes_forM (fun target =>
    changes_forM (fun bench => changes_runOne run quick target bench) benches) targets).print _

/-- The tree that a report is of: what the benchmarks leave, or what there is if none are run. -/
def reported (runner : Runner) (options : Options) (root : Entry) : Entry :=
  match options.reportOnly, runner with
  | false, some run => afterAll run options.quick (Target.select options.backends) root
  | _, _ => root

/-! ### The report -/

/-- The output can be written: nothing else has the names of its directory and of the files in it. -/
def OutputFree (root : Entry) : Prop := ∀ e, root.find? [] [outputDirectory] = some e → ∃ out,
  e = .directory out ∧ ∀ name ∈ [summaryFile, reportFile], ∀ sub, child? out name ≠ some (.directory sub)

/-- What is written into the input is no hindrance to the output. -/
theorem OutputFree.written {root root' : Entry} {dirs : List String} {name text : String}
    (free : OutputFree root) (written : root.writeFile (inputDirectory ++ dirs) name text = some root') :
    OutputFree root' := by
  obtain ⟨es, es', rfl, rfl⟩ := Entry.directories_of_writeFile written
  rw [inputDirectory, List.cons_append, Entry.writeFile_cons] at written
  obtain ⟨inner, -, written⟩ := Option.bind_eq_some_iff.mp written
  obtain ⟨inner', -, e⟩ := Option.map_eq_some_iff.mp written
  cases e
  have isName : isName outputDirectory := by decide
  unfold OutputFree at free ⊢
  rw [Entry.find?_name isName] at free ⊢
  rwa [child?_setChild, if_neg (by decide)]

variable {entries es out : List (String × Entry)}

theorem prepareOutput_ok (root : s.root = .directory es) (free : OutputFree s.root) :
    ∃ s' out, prepareOutput s = .ok () s' ∧
      s'.root.find? [] [outputDirectory] = some (.directory out) ∧
      ∀ name ∈ [summaryFile, reportFile], ∀ sub, child? out name ≠ some (.directory sub) := by
  have isName : isName outputDirectory := by decide
  obtain ⟨out, made, there⟩ : ∃ out, s.root.makeDirectory [outputDirectory] =
      some (.directory (setChild es outputDirectory (.directory out))) ∧
      ∀ name ∈ [summaryFile, reportFile], ∀ sub, child? out name ≠ some (.directory sub) := by
    rw [root]
    unfold OutputFree at free
    rw [root, Entry.find?_name isName] at free
    cases found : child? es outputDirectory with
    | none => exact ⟨[], by simp [Entry.makeDirectory, found], fun _ _ _ => nofun⟩
    | some e =>
      obtain ⟨out, rfl, free⟩ := free e found
      exact ⟨out, by simp [Entry.makeDirectory, found], free⟩
  let root := Entry.directory (setChild es outputDirectory (.directory out))
  refine ⟨{ s with root := root }, out, ?_, ?_, there⟩
  · refine (bind_ok (a := get) rfl).trans ?_
    rw [made]
    rfl
  · rw [Entry.find?_name isName, child?_setChild, if_pos rfl]

theorem writeOutput_ok (name text : String) (failure : SystemError → Failure)
    (found : s.root.find? [] [outputDirectory] = some (.directory out))
    (free : ∀ sub, child? out name ≠ some (.directory sub)) :
    ∃ s', writeOutput name text failure s = .ok () s' ∧
      s'.root.find? [] [outputDirectory] = some (.directory (setChild out name (.file text))) := by
  have names : ∀ name ∈ [outputDirectory], isName name := by decide
  obtain ⟨root', written⟩ := Entry.exists_writeFile names found free text
  obtain ⟨out', written', found'⟩ := Entry.find?_writeFile names found
    (show s.root.writeFile ([outputDirectory] ++ []) name text = some root' from written)
  obtain ⟨-, e⟩ := Entry.writeFile_nil_iff.mp written'
  refine ⟨{ s with root := root' }, ?_, e ▸ found' []⟩
  refine (bind_ok (a := get) rfl).trans ?_
  rw [written]
  rfl

theorem report_ok (found : s.root.find? [] inputDirectory = some (.directory entries))
    (free : OutputFree s.root) (targets : List Target) : ∃ s', report targets s = .ok () s' ∧
      s'.root.find? [] [outputDirectory, summaryFile] =
        some (.file ((collect s.root inputDirectory).restrict targets).summary) := by
  obtain ⟨s₁, printed, (same : s₁.root = s.root)⟩ := changes_print ["", ">>> Generating Report..."] s
  rw [← same] at found free ⊢
  obtain ⟨es, root⟩ := Entry.directory_of_find? found
  let results := (collect s₁.root inputDirectory).restrict targets
  obtain ⟨s₂, out, prepared, there, outFree⟩ := prepareOutput_ok root free
  obtain ⟨s₃, summary, there⟩ := writeOutput_ok summaryFile results.summary
    (.notWritten (pathText [outputDirectory, summaryFile])) there (outFree summaryFile (by simp))
  have kept (name : String) : child? (setChild out summaryFile (.file results.summary)) name =
      if summaryFile = name then some (.file results.summary) else child? out name :=
    child?_setChild _ _ _ _
  have reportFree (sub : List (String × Entry)) :
      child? (setChild out summaryFile (.file results.summary)) reportFile ≠ some (.directory sub) := by
    rw [kept, if_neg (by decide)]
    exact outFree reportFile (by simp) sub
  obtain ⟨s₄, reported, there⟩ :=
    writeOutput_ok reportFile (results.report targets) .refused there reportFree
  obtain ⟨s₅, said, (same₅ : s₅.root = s₄.root)⟩ := changes_print
    ["Report written to " ++ pathText [outputDirectory, reportFile],
      "Summary written to " ++ pathText [outputDirectory, summaryFile]] s₄
  refine ⟨s₅, (bind_ok printed).trans ((bind_ok (a := get) (r := s₁) rfl).trans ?_), ?_⟩
  · rw [found]
    exact (bind_ok prepared).trans ((bind_ok summary).trans ((bind_ok reported).trans said))
  · rw [same₅, Entry.find?_pair (by decide) (by decide) there, child?_setChild, if_neg (by decide), kept,
      if_pos rfl]

/-- A run with a known backend leaves a summary, unless the benchmarks cannot be started or the output
cannot be written. -/
theorem bench_ok {runner : Runner} {options : Options} (starts : options.reportOnly ∨ runner.isSome)
    (chosen : Target.select options.backends ≠ [])
    (found : (reported runner options s.root).find? [] inputDirectory = some (.directory entries))
    (free : OutputFree (reported runner options s.root)) :
    ∃ s', bench runner options s = .ok () s' ∧
      s'.root.find? [] [outputDirectory, summaryFile] =
        some (.file ((collect (reported runner options s.root) inputDirectory).restrict
          (Target.select options.backends)).summary) := by
  have known : (Target.select options.backends).isEmpty = false := by
    cases all : Target.select options.backends with
    | nil => exact absurd all chosen
    | cons => rfl
  unfold bench
  rw [known]
  unfold reported at found free ⊢
  cases only : options.reportOnly with
  | true =>
    rw [only] at found free
    exact report_ok found free _
  | false =>
    have runs : runner.isSome := starts.resolve_left (by rw [only]; exact Bool.false_ne_true)
    obtain ⟨run, rfl⟩ := Option.isSome_iff_exists.mp runs
    rw [only] at found free
    obtain ⟨s₁, ran, same⟩ := changes_runAll run options.quick (Target.select options.backends) s
    dsimp only at found free ⊢
    rw [← same] at found free ⊢
    obtain ⟨s', reported, there⟩ := report_ok found free (Target.select options.backends)
    exact ⟨s', (bind_ok ran).trans reported, there⟩

/-- The text of the summary that a run leaves. -/
def summaryText? (runner : Runner) (options : Options) (s : Session) : Option String :=
  match bench runner options s with
  | .ok _ s' => (s'.root.find? [] [outputDirectory, summaryFile]).bind (·.text?)
  | .error _ _ => none

end OrderedAtomics.Benchmark.Session
