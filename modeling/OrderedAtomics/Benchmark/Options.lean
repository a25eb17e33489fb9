/-! The words after the command: what it is asked to do. -/

namespace OrderedAtomics.Benchmark

structure Options where
  /-- Short runs with few samples. -/
  quick : Bool := false
  /-- No runs, only the report of what is there. -/
  reportOnly : Bool := false
  /-- Names of backends; none for all of them. -/
  backends : List String := []
  deriving DecidableEq, Repr

/-- What there is help about. -/
inductive Topic where
  | command | bench | help
  deriving DecidableEq, Repr

inductive Request where
  | bench (options : Options)
  | help (topic : Topic)
  | misuse
  deriving DecidableEq, Repr

namespace Options

def addBackends (o : Options) (names : String) : Options :=
  { o with backends := o.backends ++ names.splitOn "," }

/-- Whether a word is a value and not another option: a lone dash is one. -/
def isValue (word : String) : Bool := !word.startsWith "-" || word == "-"

/-- The text after the front of a word. -/
def after? (front word : String) : Option String :=
  if word.startsWith front then some ((word.drop front.length).toString) else none

/-- Whether a word asks for help: the long form, or a short one that starts with it. -/
def asksHelp (word : String) : Bool := word == "--help" || word.startsWith "-h"

/-- The options of the one task there is. Two dashes end the options, and nothing comes after. -/
def read (o : Options) : List String → Request
  | [] => .bench o
  | ["--"] => .bench o
  | word :: rest =>
    if asksHelp word then .help .bench
    else if word = "--quick" then
      if o.quick then .misuse else read { o with quick := true } rest
    else if word = "--report-only" then
      if o.reportOnly then .misuse else read { o with reportOnly := true } rest
    else if word = "--backends" then
      match rest with
      | value :: rest => if isValue value then read (o.addBackends value) rest else .misuse
      | [] => .misuse
    else
      match after? "--backends=" word with
      | some value => read (o.addBackends value) rest
      | none => .misuse

end Options

/-- Help about a command, by its name. -/
def readTopic : List String → Request
  | [] => .help .command
  | ["bench"] => .help .bench
  | ["help"] => .help .help
  | _ => .misuse

/-- What all the words ask for. -/
def Request.read : List String → Request
  | "bench" :: words => Options.read {} words
  | "help" :: words => readTopic words
  | word :: _ => if Options.asksHelp word then .help .command else .misuse
  | [] => .misuse

/-- The lines of a help text. -/
def Topic.lines : Topic → List String
  | command =>
    ["halo-atomic workspace automation",
      "",
      "Usage: xtask <COMMAND>",
      "",
      "Commands:",
      "  bench  Run the benchmarks once per atomic backend",
      "  help   Print this message or the help of the given subcommand(s)",
      "",
      "Options:",
      "  -h, --help  Print help"]
  | bench =>
    ["Run the benchmarks once per atomic backend",
      "",
      "Usage: xtask bench [OPTIONS]",
      "",
      "Options:",
      "      --quick                Run quickly (lower sample size/time)",
      "      --report-only          Generate report only (skip running benchmarks)",
      "      --backends <BACKENDS>  Only run these backends (default: all)",
      "  -h, --help                 Print help"]
  | help =>
    ["Print this message or the help of the given subcommand(s)",
      "",
      "Usage: xtask help [COMMAND]...",
      "",
      "Arguments:",
      "  [COMMAND]...  Print help for the subcommand(s)"]

end OrderedAtomics.Benchmark
