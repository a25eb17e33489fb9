import OrderedAtomics.Benchmark.Options
import OrderedAtomics.Benchmark.Report
import OrderedAtomics.Text.Quoted

/-! A run of the command in a directory: what it prints, how it ends, and the files it leaves. -/

namespace OrderedAtomics.Benchmark

/-- What the system refuses. -/
inductive SystemError where
  | notFound | fileExists | isDirectory
  deriving DecidableEq, Repr

def SystemError.message : SystemError → String
  | notFound => "No such file or directory (os error 2)"
  | fileExists => "File exists (os error 17)"
  | isDirectory => "Is a directory (os error 21)"

/-- Why a run stops early. -/
inductive Failure where
  | noKnownBackend (names : List String)
  | notStarted (bench target : String) (cause : SystemError)
  | notWritten (path : String) (cause : SystemError)
  | refused (error : SystemError)
  deriving DecidableEq, Repr

namespace Failure

def message : Failure → String
  | noKnownBackend names => "no known backend in " ++ Text.listed (names.map Text.quoted)
  | notStarted bench target _ => "failed to run " ++ bench ++ " for " ++ target
  | notWritten path _ => "writing " ++ path
  | refused error => error.message

def cause? : Failure → Option SystemError
  | notStarted _ _ cause | notWritten _ cause => some cause
  | _ => none

/-- The lines of a failure, with its cause if it has one. -/
def lines (f : Failure) : List String :=
  ("Error: " ++ f.message) ::
    match f.cause? with
    | some cause => ["", "Caused by:", "    " ++ cause.message]
    | none => []

end Failure

/-- What a program has printed, whether it has succeeded, and what it has done to the directory. -/
structure Finished where
  lines : List String
  succeeded : Bool
  change : Entry → Entry := id

/-- A program that leaves the directory as it is. -/
instance : Coe (List String × Bool) Finished := ⟨fun (lines, succeeded) => { lines, succeeded }⟩

/-- The program that runs benchmarks, by its arguments and environment. There may be none. -/
abbrev Runner := Option (List String → List (String × String) → Finished)

/-- The directory of a run and what was printed in it so far. -/
structure Session where
  root : Entry
  stdout : List String
  stderr : List String

/-- A part of a run, which may fail. -/
abbrev Run := EStateM Failure Session

namespace Session

def print (lines : List String) : Run Unit :=
  modify fun s => { s with stdout := s.stdout ++ lines }

def warn (line : String) : Run Unit := modify fun s => { s with stderr := s.stderr ++ [line] }

/-! ### Running the benchmarks -/

def benches : List String := ["atomic_benchmark", "lockfree_benchmark"]

/-- The arguments for one benchmark. Those after the two dashes are for the benchmark itself. -/
def arguments (bench : String) (target : Target) (quick : Bool) : List String :=
  ["bench", "--bench", bench] ++
    (match target.feature with
      | some feature => ["--features", feature]
      | none => []) ++
    ["--", "--save-baseline", target.name] ++
    if quick then ["--measurement-time", "0.1", "--noplot", "--sample-size", "10"] else []

def environment : List (String × String) := [("CARGO_INCREMENTAL", "0")]

def runOne (runner : Runner) (quick : Bool) (target : Target) (bench : String) : Run Unit := do
  print ["", ">>> " ++ bench ++ " on backend: " ++ target.name]
  match runner with
  | none => throw (.notStarted bench target.name .notFound)
  | some run =>
    let finished := run (arguments bench target quick) environment
    modify fun s => { s with root := finished.change s.root }
    print finished.lines
    if finished.succeeded then print ["Finished " ++ bench ++ " on " ++ target.name]
    else warn ("Warning: " ++ bench ++ " failed on backend " ++ target.name)

def runAll (runner : Runner) (quick : Bool) (targets : List Target) : Run Unit := do
  print ["Running benchmarks for " ++ toString targets.length ++ " backend(s)..."]
  targets.forM fun target => benches.forM (runOne runner quick target)

/-! ### The report -/

def inputDirectory : List String := ["target", "criterion"]

def outputDirectory : String := "benchmark_results"

def summaryFile : String := "summary.json"

def reportFile : String := "report.md"

def pathText (components : List String) : String := String.intercalate "/" components

/-- The directory for the output, made if it is not there. -/
def prepareOutput : Run Unit := do
  let s ← get
  match s.root.makeDirectory [outputDirectory] with
  | some root => set { s with root := root }
  | none => throw (.refused .fileExists)

/-- Writes a file into the output directory, or fails if a directory has its name. -/
def writeOutput (name text : String) (failure : SystemError → Failure) : Run Unit := do
  let s ← get
  match s.root.writeFile [outputDirectory] name text with
  | some root => set { s with root := root }
  | none => throw (failure .isDirectory)

/-- Reports what lies in the input directory, in the columns of the given backends. -/
def report (targets : List Target) : Run Unit := do
  print ["", ">>> Generating Report..."]
  let s ← get
  match s.root.find? [] inputDirectory with
  | none => warn ("No criterion output found at " ++ pathText inputDirectory)
  | some _ =>
    let results := (collect s.root inputDirectory).restrict targets
    prepareOutput
    let summaryPath := pathText [outputDirectory, summaryFile]
    writeOutput summaryFile results.summary (.notWritten summaryPath)
    writeOutput reportFile (results.report targets) .refused
    print ["Report written to " ++ pathText [outputDirectory, reportFile],
      "Summary written to " ++ summaryPath]

/-- A whole run with the given options. -/
def bench (runner : Runner) (options : Options) : Run Unit := do
  let targets := Target.select options.backends
  if targets.isEmpty then throw (.noKnownBackend options.backends)
  if !options.reportOnly then runAll runner options.quick targets
  report targets

end Session

/-- How a command ended: its exit code, what it printed, and the directory as it then is. -/
structure Outcome where
  exit : Nat
  stdout : List String
  stderr : List String
  root : Entry

/-- Runs the command. Misuse prints a usage that is left to the reader of the exit code. -/
def command (runner : Runner) (root : Entry) (words : List String) : Outcome :=
  match Request.read words with
  | .misuse => ⟨2, [], [], root⟩
  | .help topic => ⟨0, topic.lines, [], root⟩
  | .bench options =>
    match Session.bench runner options ⟨root, [], []⟩ with
    | .ok _ s => ⟨0, s.stdout, s.stderr, s.root⟩
    | .error failure s => ⟨1, s.stdout, s.stderr ++ failure.lines, s.root⟩

/-- The text of a file in the directory that a command leaves. -/
def Outcome.file? (o : Outcome) (path : List String) : Option String :=
  (o.root.find? [] path).bind (·.text?)

end OrderedAtomics.Benchmark
