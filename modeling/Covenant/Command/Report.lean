import Covenant.Command.Request
import Covenant.Contract.Report
import Covenant.Run.Entry

/-!
# What a command does

The answer to a command line: what is printed, and the exit code. It depends on
nothing but the files that it reads.
-/

namespace Covenant.Command

structure Report where
  exitCode : Nat
  stdout : String
  stderr : String
  deriving DecidableEq, Repr, Inhabited

/-- The exit codes of what can go wrong. -/
def exitError : Nat := 1

def exitUsage : Nat := 2

def exitException : Nat := 2

def exitViolation : Nat := 3

def exitRuntime : Nat := 4

/-- Lines with a line break behind each. -/
def unlines (lines : List String) : String := String.join (lines.map (· ++ "\n"))

namespace Report

def success (text : String) : Report := ⟨0, text, ""⟩

def failure (code : Nat) (lines : List String) : Report := ⟨code, "", unlines lines⟩

/-- The report with lines in front of all that goes to the error output. -/
def after (lines : List String) (r : Report) : Report :=
  { r with stderr := unlines lines ++ r.stderr }

end Report

def spanText (s : Span) : String := toString s.start ++ ".." ++ toString s.stop

def faultLines (f : SourceFault) : List String :=
  ["Error: " ++ f.val.kind.word, "  " ++ spanText f.span ++ ": " ++ f.val.message]

def noteLines (n : Note) : List String :=
  ["Advice: soundness gap", "  " ++ spanText n.span ++ ": " ++ n.message]

def diagnosticLines (errors : List Contract.Diagnostic) (notes : List Note) : List String :=
  errors.flatMap (faultLines ·.fault) ++ notes.flatMap noteLines

def violationLines (v : Violation) : List String :=
  ["Error: " ++ v.kind.text ++ " violated in " ++ v.member,
    "  " ++ spanText v.span ++ ": " ++ v.clause ++ " (" ++ v.detail.text ++ ")"]

def unreadable (file : String) (f : ReadFault) : Report :=
  .failure exitError ["error[io]: could not read " ++ file ++ ": " ++ f.text, "  --> " ++ file]

def misconfigured (path : String) (f : ConfigFault) : Report :=
  .failure exitError ["error[config]: " ++ f.message, "  --> " ++ path]

/-- The settings for a file: those that are named have to be there, those beside the file not. -/
def settings (read : ReadFile) (r : Request) : Except (String × ConfigFault) Config :=
  match r.config with
  | some path => (Config.load read path).mapError (path, ·)
  | none =>
    let path := configBeside r.file
    if isFile read path then (Config.load read path).mapError (path, ·) else .ok {}

/-- Analyses a source, and says how much of it is specified. -/
def check (file source : String) : Report :=
  match analyze source with
  | .error f => .failure exitError (faultLines f)
  | .ok ⟨_, plan⟩ =>
    if plan.errors.isEmpty then
      .after (diagnosticLines [] plan.notes) <| .success <|
        file ++ ": " ++ toString plan.specs.size ++ " specified member(s), "
          ++ toString plan.notes.length ++ " soundness note(s)\n"
    else .failure exitError (diagnosticLines plan.errors plan.notes)

/-- Prints the specifications of a source. -/
def specs (source : String) : Report :=
  match analyze source with
  | .error f => .failure exitError (faultLines f)
  | .ok ⟨env, plan⟩ =>
    if plan.errors.isEmpty then .success ((plan.report env).pretty ++ "\n")
    else .failure exitError (diagnosticLines plan.errors plan.notes)

/-- Says how a run ended. -/
def outcome (file entry : String) : Option (Except RunError Outcome) → Report
  | none => .failure exitRuntime ["error [" ++ file ++ "]: the run did not end"]
  | some (.ok (.returned .void)) => .success (entry ++ " completed\n")
  | some (.ok (.returned v)) => .success (entry ++ " returned " ++ v.text ++ "\n")
  | some (.ok (.threw c)) => .failure exitException ["error: uncaught " ++ c]
  | some (.ok (.violated v)) => .failure exitViolation (violationLines v)
  | some (.error e) => .failure exitRuntime ["error [" ++ file ++ "]: " ++ e.text]

/-- Runs a source from an entry point, with checks. -/
def run (file source entry : String) (config : Config) : Report :=
  match build source config.checks with
  | .error (.source f) => .failure exitError (faultLines f)
  | .error (.clauses errors notes) => .failure exitError (diagnosticLines errors notes)
  | .ok built =>
    let result := (built.program.run config.runtime.maxCallDepth Run.ample entry).run .initial
    .after (built.plan.notes.flatMap noteLines) (outcome file entry (result.map (·.1)))

/-- Carries out a request. -/
def perform (read : ReadFile) (r : Request) : Report :=
  match read r.file with
  | .error f => unreadable r.file f
  | .ok source =>
    match r.verb with
    | .check => check r.file source
    | .specs => specs source
    | .run =>
      match settings read r with
      | .error (path, f) => misconfigured path f
      | .ok config => run r.file source r.entry config

def optionHelp : List String := [
  "      --config <CONFIG>  Path to a specweave.toml (defaults to the one next to the source file)"]

def verbosityHelp : List String := [
  "  -v, --verbose...       Log pass summaries to stderr; repeat for per-declaration detail",
  "  -h, --help             Print help"]

/-- The help on one verb. -/
def verbHelp (name about : String) (options : List String) : List String :=
  [about, "", "Usage: specweave " ++ name ++ " [OPTIONS] <FILE>", "", "Arguments:",
    "  <FILE>  Source file path", "", "Options:"] ++ optionHelp ++ options ++ verbosityHelp

def checkAbout : String := "Parse, type-check and validate every contract clause"

def runAbout : String := "Run a static method with contract checks woven in"

def specsAbout : String := "Print the effective specifications as JSON"

def help : Option Verb → List String
  | some .check => verbHelp "check" checkAbout []
  | some .run => verbHelp "run" runAbout [
      "      --entry <ENTRY>    Entry point as Class.method [default: Main.main]"]
  | some .specs => verbHelp "specs" specsAbout []
  | none =>
    ["Runtime-checked contracts in doc comments", "", "Usage: specweave [OPTIONS] <COMMAND>", "",
      "Commands:", "  check  " ++ checkAbout, "  run    " ++ runAbout, "  specs  " ++ specsAbout,
      "  help   Print this message or the help of the given subcommand(s)", "", "Options:"]
      ++ optionHelp ++ verbosityHelp ++ ["  -V, --version          Print version"]

/-- The answer to what a command line asks for. -/
def answer (read : ReadFile) : Reading → Report
  | .request r => perform read r
  | .help verb => .success (unlines (help verb))
  | .version => .success "specweave 0.1.0\n"
  | .unusable => .failure exitUsage ["error: the command line makes no sense"]

/-- The files that the answer depends on. -/
def filesFor : Reading → List String
  | .request r => [r.file, r.config.getD (configBeside r.file)]
  | _ => []

/-- The answer to a command line. -/
def execute (read : ReadFile) (args : List String) : Report := answer read (.ofArgs args)

end Covenant.Command
