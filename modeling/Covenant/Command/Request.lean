import Covenant.Config.Load

/-!
# The command line

A command line names a verb and a file, with options before and behind the verb.
It is read from left to right, and the first thing that is wrong with it, or that
asks for help, settles what it means.
-/

namespace Covenant.Command

inductive Verb
  | check
  | run
  | specs
  deriving DecidableEq, Repr, Inhabited

def Verb.ofName? : String → Option Verb
  | "check" => some .check
  | "run" => some .run
  | "specs" => some .specs
  | _ => none

structure Request where
  verb : Verb
  file : String
  /-- The settings file, if one is named. -/
  config : Option String
  entry : String
  deriving DecidableEq, Repr, Inhabited

/-- What a command line asks for. -/
inductive Reading
  | request (r : Request)
  | help (verb : Option Verb)
  | version
  | unusable
  deriving DecidableEq, Repr, Inhabited

/-- An argument by its looks. -/
inductive Word
  /-- Two dashes: whatever follows is no option. -/
  | separator
  /-- An option with a long name, and the value behind its equals sign. -/
  | long (name : String) (value : Option String)
  /-- Options with names of one letter. -/
  | short (letters : List Char)
  | plain
  deriving DecidableEq, Repr, Inhabited

def Word.ofChars : List Char → Word
  | ['-', '-'] => .separator
  | '-' :: '-' :: cs =>
    let name := cs.takeWhile (· != '=')
    let value := match cs.drop name.length with
      | [] => none
      | _ :: v => some (String.ofList v)
    .long (String.ofList name) value
  | '-' :: c :: cs => .short (c :: cs)
  | _ => .plain

def Word.of (arg : String) : Word := ofChars arg.toList

/-- What has been read so far of the options and arguments of one verb, or of those in front of
it. -/
structure Given where
  file : Option String := none
  config : Option String := none
  entry : Option String := none
  /-- The settings file that is named in front of the verb; one behind it counts more. -/
  outerConfig : Option String := none
  deriving DecidableEq, Repr, Inhabited

namespace Given

/-- A path that is empty or given twice is wrong. -/
def setFile? (g : Given) (path : String) : Option Given :=
  if path.isEmpty || g.file.isSome then none else some { g with file := some path }

def setConfig? (g : Given) (path : String) : Option Given :=
  if path.isEmpty || g.config.isSome then none else some { g with config := some path }

def setEntry? (g : Given) (entry : String) : Option Given :=
  if g.entry.isSome then none else some { g with entry := some entry }

/-- Behind a verb the options start anew. -/
def enter (g : Given) : Given := { outerConfig := g.config }

end Given

/-- The option with a value that has this name. Entry points belong to running. -/
def setOption? (verb : Option Verb) (name : String) : Option (Given → String → Option Given) :=
  match name, verb with
  | "config", _ => some Given.setConfig?
  | "entry", some .run => some Given.setEntry?
  | _, _ => none

def defaultEntry : String := "Main.main"

/-- What a command line asks for that has come to its end. -/
def finish (verb : Option Verb) (g : Given) : Reading :=
  match verb, g.file with
  | some verb, some file =>
    .request ⟨verb, file, g.config.or g.outerConfig, g.entry.getD defaultEntry⟩
  | _, _ => .unusable

/-- Reads the arguments behind a separator. -/
def readPlain (verb : Option Verb) (g : Given) : List String → Reading
  | [] => finish verb g
  | arg :: rest =>
    match verb, g.setFile? arg with
    | some _, some g => readPlain verb g rest
    | _, _ => .unusable

/-- The verb that help is asked for. -/
def readHelp : List String → Reading
  | [] => .help none
  | [name] =>
    match Verb.ofName? name with
    | some verb => .help (some verb)
    | none => if name == "help" then .help none else .unusable
  | _ => .unusable

/-- Reads options of one letter; nothing if they only ask for more output. -/
def readShort (verb : Option Verb) : List Char → Option Reading
  | [] => none
  | 'v' :: cs => readShort verb cs
  | 'h' :: _ => some (.help verb)
  | 'V' :: _ => some (if verb.isNone then .version else .unusable)
  | _ :: _ => some .unusable

/-- Reads an option that takes no value; nothing if it only asks for more output. -/
def readSwitch (verb : Option Verb) (name : String) (value : Option String) : Option Reading :=
  match name, value with
  | "verbose", none => none
  | "help", none => some (.help verb)
  | "version", none => some (if verb.isNone then .version else .unusable)
  | _, _ => some .unusable

/-- Reads the arguments behind a verb, or those in front of it. -/
def readArgs (verb : Option Verb) (g : Given) : List String → Reading
  | [] => finish verb g
  | arg :: rest =>
    match Word.of arg with
    | .separator => readPlain verb g rest
    | .plain =>
      match verb with
      | some _ =>
        match g.setFile? arg with
        | some g => readArgs verb g rest
        | none => .unusable
      | none =>
        match Verb.ofName? arg with
        | some v => readArgs (some v) g.enter rest
        | none => if arg == "help" then readHelp rest else .unusable
    | .short letters =>
      match readShort verb letters with
      | some r => r
      | none => readArgs verb g rest
    | .long name value =>
      match setOption? verb name, value with
      | none, value =>
        match readSwitch verb name value with
        | some r => r
        | none => readArgs verb g rest
      | some setter, some v =>
        match setter g v with
        | some g => readArgs verb g rest
        | none => .unusable
      | some setter, none =>
        match rest with
        | [] => .unusable
        | v :: rest =>
          match Word.of v, setter g v with
          | .plain, some g => readArgs verb g rest
          | _, _ => .unusable

/-- What a command line asks for. -/
def Reading.ofArgs (args : List String) : Reading := readArgs none {} args

/-- The place where settings are looked for that belong to a file: beside it. -/
def configBeside (file : String) : String :=
  match (file.splitOn "/").dropLast with
  | [] => "./" ++ Config.fileName
  | first :: rest =>
    let rest := (rest.reverse.dropWhile fun n => n == "" || n == ".").reverse
    String.intercalate "/" (first :: rest ++ [Config.fileName])

end Covenant.Command
