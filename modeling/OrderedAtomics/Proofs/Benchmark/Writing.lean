import OrderedAtomics.Proofs.Benchmark.Directory

/-! Files that are written into a tree. What else is there stays, and a file in one directory has nothing
to do with what is measured in another one. -/

namespace OrderedAtomics.Benchmark

/-! ### Entries -/

section Entries

variable {es : List (String × Entry)} {name : String} {e : Entry}

theorem child?_cons (first : String × Entry) (es : List (String × Entry)) (name : String) :
    child? (first :: es) name = if first.1 = name then some first.2 else child? es name :=
  Table.get?_cons es first.1 first.2 name

theorem child?_setChild (es : List (String × Entry)) (name : String) (e : Entry) (other : String) :
    child? (setChild es name e) other = if name = other then some e else child? es other := by
  induction es with
  | nil => exact child?_cons (name, e) [] other
  | cons first es ih =>
    unfold setChild
    split_ifs with here same same
    · exact (child?_cons _ _ _).trans (if_pos same)
    · rw [child?_cons, child?_cons, if_neg same, if_neg (here ▸ same)]
    · rw [child?_cons, ih, if_pos same, if_neg fun other => here (other.trans same.symm)]
    · rw [child?_cons, child?_cons, ih, if_neg same]

/-- An entry is put in the place of one that has the same share, or of none if it has none. -/
theorem flatMap_setChild {α : Type} (share : String × Entry → List α)
    (same : ((child? es name).elim [] fun old => share (name, old)) = share (name, e)) :
    (setChild es name e).flatMap share = es.flatMap share := by
  induction es with
  | nil => exact (List.flatMap_singleton share _).trans same.symm
  | cons first es ih =>
    obtain ⟨key, old⟩ := first
    rw [child?_cons] at same
    unfold setChild
    split_ifs at same ⊢ with here
    · obtain rfl : key = name := here
      rw [List.flatMap_cons, List.flatMap_cons, ← same]
      rfl
    · rw [List.flatMap_cons, List.flatMap_cons, ih same]

end Entries

/-! ### Paths -/

namespace Entry

variable {root root' : Entry} {name text : String} {path rest : List String}

theorem find?_cons (isName : isName name) (es : List (String × Entry)) (above : List Entry)
    (path : List String) : (directory es).find? above (name :: path) =
      (child? es name).bind fun e => e.find? (directory es :: above) path := by
  have : name ≠ "." ∧ name ≠ ".." := by simpa [Benchmark.isName] using isName
  simp only [find?, if_neg this.1, if_neg this.2]
  cases child? es name <;> rfl

theorem find?_name (isName : isName name) (es : List (String × Entry)) (above : List Entry) :
    (directory es).find? above [name] = child? es name := by
  rw [find?_cons isName]
  cases child? es name <;> rfl

theorem directory_of_find? {above : List Entry} {e : Entry}
    (found : root.find? above (name :: path) = some e) : ∃ es, root = directory es := by
  cases root with
  | file text =>
    rw [find?] at found
    cases found
  | directory es => exact ⟨es, rfl⟩

/-- An entry at the end of a path of names, and nothing else. -/
def nest (path : List String) (e : Entry) : Entry :=
  path.foldr (fun name inner => directory [(name, inner)]) e

theorem find?_nest (names : ∀ name ∈ path, isName name) (e : Entry) (above : List Entry) :
    (nest path e).find? above path = some e := by
  induction path generalizing above with
  | nil => rfl
  | cons name path ih =>
    obtain ⟨here, names⟩ := List.forall_mem_cons.mp names
    have own : child? [(name, nest path e)] name = some (nest path e) :=
      (child?_cons _ [] name).trans (if_pos rfl)
    show (directory [(name, nest path e)]).find? above (name :: path) = some e
    rw [find?_cons here, own, Option.bind_some, ih names]

/-- What is found in a directory that is found. -/
theorem find?_pair {outer : String} {above : List Entry} {es : List (String × Entry)}
    (isOuter : isName outer) (isInner : isName name)
    (found : root.find? above [outer] = some (directory es)) :
    root.find? above [outer, name] = child? es name := by
  obtain ⟨outside, rfl⟩ := directory_of_find? found
  rw [find?_name isOuter] at found
  rw [find?_cons isOuter, found, Option.bind_some, find?_name isInner]

theorem writeFile_cons (es : List (String × Entry)) (outer : String) (path : List String)
    (name text : String) : (directory es).writeFile (outer :: path) name text =
      (child? es outer).bind fun inner =>
        (inner.writeFile path name text).map fun inner => directory (setChild es outer inner) := by
  rw [writeFile]
  cases child? es outer <;> rfl

/-- A file is put in the place of a file or of nothing. -/
theorem writeFile_nil_iff {es : List (String × Entry)} :
    (directory es).writeFile [] name text = some root' ↔
      (∀ sub, child? es name ≠ some (directory sub)) ∧
        root' = directory (setChild es name (.file text)) := by
  unfold writeFile
  split
  next sub taken => exact iff_of_false nofun fun h => h.1 sub taken
  next free =>
    rw [Option.some_inj, eq_comm (a := root'), and_iff_right free]

/-- A file is written into a directory, which is one afterwards. -/
theorem directories_of_writeFile (h : root.writeFile path name text = some root') :
    ∃ es es', root = directory es ∧ root' = directory es' := by
  cases root with
  | file text =>
    rw [writeFile] at h
    cases h
  | directory es =>
    cases path with
    | nil => exact ⟨es, _, rfl, (writeFile_nil_iff.mp h).2⟩
    | cons outer path =>
      rw [writeFile_cons] at h
      obtain ⟨inner, -, h⟩ := Option.bind_eq_some_iff.mp h
      obtain ⟨inner, -, e⟩ := Option.map_eq_some_iff.mp h
      exact ⟨es, _, rfl, e.symm⟩

/-- A file is written into a directory in which no directory has its name. -/
theorem exists_writeFile (names : ∀ name ∈ path, isName name) {es : List (String × Entry)}
    {above : List Entry} (found : root.find? above path = some (directory es))
    (free : ∀ sub, child? es name ≠ some (directory sub)) (text : String) :
    ∃ root', root.writeFile path name text = some root' := by
  induction path generalizing root above with
  | nil =>
    cases found
    exact ⟨_, writeFile_nil_iff.mpr ⟨free, rfl⟩⟩
  | cons outer path ih =>
    obtain ⟨here, names⟩ := List.forall_mem_cons.mp names
    obtain ⟨outside, rfl⟩ := directory_of_find? found
    rw [find?_cons here] at found
    obtain ⟨inner, named, found⟩ := Option.bind_eq_some_iff.mp found
    obtain ⟨inner', written⟩ := ih names found
    exact ⟨_, by rw [writeFile_cons, named, Option.bind_some, written, Option.map_some]⟩

/-- What is written below a path of names is written into what stands there. -/
theorem find?_writeFile (names : ∀ name ∈ path, isName name) {es : List (String × Entry)}
    {above : List Entry} (found : root.find? above path = some (directory es))
    (written : root.writeFile (path ++ rest) name text = some root') : ∃ es',
      (directory es).writeFile rest name text = some (directory es') ∧
        ∀ above, root'.find? above path = some (directory es') := by
  induction path generalizing root root' above with
  | nil =>
    cases found
    obtain ⟨_, es', -, rfl⟩ := directories_of_writeFile written
    exact ⟨es', written, fun above => rfl⟩
  | cons outer path ih =>
    obtain ⟨here, names⟩ := List.forall_mem_cons.mp names
    obtain ⟨outside, outside', rfl, rfl⟩ := directories_of_writeFile written
    rw [find?_cons here] at found
    obtain ⟨inner, named, found⟩ := Option.bind_eq_some_iff.mp found
    rw [List.cons_append, writeFile_cons, named, Option.bind_some] at written
    obtain ⟨inner', within, e⟩ := Option.map_eq_some_iff.mp written
    cases e
    obtain ⟨es', written, found'⟩ := ih names found within
    refine ⟨es', written, fun above => ?_⟩
    rw [find?_cons here, child?_setChild, if_pos rfl]
    exact found' _

end Entry

/-! ### Measurements -/

namespace Directory

variable {d : Directory} {key baseline name text : String} {fs sub sub' : List (String × Entry)}

/-- The measurements of one workload and baseline. -/
def measurementsOf (d : Directory) (key baseline : String) : List Measurement :=
  d.measurements.filter fun m => m.workload = key ∧ m.baseline = baseline

/-- Those of an entry. -/
def share (d : Directory) (key baseline : String) (e : String × Entry) : List Measurement :=
  (measure d.path d.entries e.1 e.2).filter fun m => m.workload = key ∧ m.baseline = baseline

theorem measurementsOf_eq (d : Directory) (key baseline : String) :
    d.measurementsOf key baseline = d.entries.flatMap (d.share key baseline) := by
  rw [measurementsOf, measurements, measureAll_eq, List.filter_flatMap]
  rfl

theorem rate?_eq_head? (d : Directory) (key baseline : String) : d.results.rate? key baseline =
    (d.measurementsOf key baseline).reverse.head?.map (·.rate) := by
  rw [results, Results.rate?_ofList, measurementsOf, ← List.filter_reverse, List.head?_filter]

/-- The files of a directory with other names have no such measurement. -/
theorem share_file (other : label? d.path ≠ some (key, baseline)) (name text : String) :
    d.share key baseline (name, .file text) = [] := by
  refine List.filter_eq_nil_iff.mpr fun m among this => ?_
  obtain ⟨rfl, rfl⟩ := of_decide_eq_true this
  exact other (measurement?_eq_some_iff.mp (mem_measure_file.mp among).2).1

/-- A file is written into a directory with other names. -/
theorem measurementsOf_setFile (other : label? d.path ≠ some (key, baseline))
    (free : ∀ sub, child? d.entries name ≠ some (.directory sub)) (text : String) :
    (d.list (setChild d.entries name (.file text))).measurementsOf key baseline =
      d.measurementsOf key baseline := by
  have share_eq : (d.list (setChild d.entries name (.file text))).share key baseline =
      d.share key baseline := by
    funext ⟨n, e⟩
    cases e with
    | file text' =>
      rw [share_file (d := d.list (setChild d.entries name (.file text))) other, share_file other]
    | directory sub => rfl
  rw [measurementsOf_eq, measurementsOf_eq, share_eq]
  refine flatMap_setChild _ ?_
  rw [share_file other]
  cases found : child? d.entries name with
  | none => rfl
  | some e =>
    cases e with
    | file text => exact share_file other name text
    | directory sub => exact absurd found (free sub)

/-- A directory changes, but not what has these names in it. -/
theorem measurementsOf_setDirectory (found : child? d.entries name = some (.directory sub))
    (same : (d.inner name sub').measurementsOf key baseline =
      (d.inner name sub).measurementsOf key baseline) :
    (d.list (setChild d.entries name (.directory sub'))).measurementsOf key baseline =
      d.measurementsOf key baseline := by
  have text_eq : (child? (setChild d.entries name (.directory sub')) "benchmark.json").bind Entry.text? =
      (child? d.entries "benchmark.json").bind Entry.text? := by
    rw [child?_setChild]
    split_ifs with here
    · rw [← here, found]
      rfl
    · rfl
  have share_eq : (d.list (setChild d.entries name (.directory sub'))).share key baseline =
      d.share key baseline := by
    funext ⟨n, e⟩
    cases e with
    | file text =>
      unfold share measure measurement?
      rw [text_eq]
    | directory sub => rfl
  rw [measurementsOf_eq, measurementsOf_eq, share_eq]
  refine flatMap_setChild _ ?_
  rw [found]
  exact same.symm

/-- A file is written anywhere but into a directory with these names. -/
theorem measurementsOf_written {dirs : List String}
    (written : (Entry.directory d.entries).writeFile dirs name text = some (.directory fs))
    (other : label? (dirs.reverse ++ d.path) ≠ some (key, baseline)) :
    (d.list fs).measurementsOf key baseline = d.measurementsOf key baseline := by
  induction dirs generalizing d fs with
  | nil =>
    obtain ⟨free, e⟩ := Entry.writeFile_nil_iff.mp written
    cases e
    exact measurementsOf_setFile other free text
  | cons outer dirs ih =>
    rw [Entry.writeFile_cons] at written
    obtain ⟨inner, found, written⟩ := Option.bind_eq_some_iff.mp written
    obtain ⟨inner', within, e⟩ := Option.map_eq_some_iff.mp written
    cases e
    obtain ⟨sub, sub', rfl, rfl⟩ := Entry.directories_of_writeFile within
    refine measurementsOf_setDirectory found (ih (d := d.inner outer sub) within ?_)
    rwa [List.reverse_cons, List.append_assoc] at other

end Directory

/-- A file that is written into a directory, whatever is in it, changes no rates but those with the names of
the directory. -/
theorem rate?_collect_written {root root' : Entry} {path dirs : List String}
    {entries : List (String × Entry)} {name text key baseline : String}
    (names : ∀ name ∈ path, isName name) (found : root.find? [] path = some (.directory entries))
    (written : root.writeFile (path ++ dirs) name text = some root')
    (other : label? (path ++ dirs).reverse ≠ some (key, baseline)) :
    (collect root' path).rate? key baseline = (collect root path).rate? key baseline := by
  obtain ⟨entries', written, found'⟩ := Entry.find?_writeFile names found written
  rw [List.reverse_append] at other
  rw [Directory.collect_eq found, Directory.collect_eq (found' []), Directory.rate?_eq_head?,
    Directory.rate?_eq_head?]
  rw [show Directory.measurementsOf ⟨path.reverse, entries'⟩ key baseline = _ from
    Directory.measurementsOf_written (d := ⟨path.reverse, entries⟩) written other]

end OrderedAtomics.Benchmark
