import Covenant.Config.Basic
import Covenant.Files
import Covenant.Toml.Document

/-!
# Loading settings

Settings stand in a TOML document with a table for checks and a table for
limits. Whatever is left out has its default; what is not a setting is refused.
Either table may also be written as an array, which gives the settings in their
order.
-/

namespace Covenant

inductive ConfigFault
  /-- The text is no TOML document. -/
  | malformed
  /-- A key is unknown, or a value is not of the type of its key. -/
  | unsuitable
  | zeroDepth
  | unreadable (fault : ReadFault)
  deriving DecidableEq, Repr, Inhabited

namespace Config

/-- The name of the file that settings are looked for in. -/
def fileName : String := "specweave.toml"

end Config

def ConfigFault.message : ConfigFault → String
  | malformed => Config.fileName ++ ": invalid syntax: not a TOML document"
  | unsuitable => Config.fileName ++ ": invalid syntax: not a table of settings"
  | zeroDepth => Config.fileName ++ ": max_call_depth must be at least 1"
  | unreadable fault => Config.fileName ++ ": could not read file: " ++ fault.text

namespace Config

open Toml (Node)

/-- The value of a switch. -/
def switch? : Node → Option Bool
  | .boolean b => some b
  | _ => none

/-- The value of a limit. -/
def limit? : Node → Option Nat
  | .integer (.ofNat n) => some n
  | _ => none

def setCheck? (c : Checks) (name : String) (v : Node) : Option Checks :=
  match name with
  | "preconditions" => (switch? v).map fun b => { c with preconditions := b }
  | "postconditions" => (switch? v).map fun b => { c with postconditions := b }
  | "invariants" => (switch? v).map fun b => { c with invariants := b }
  | "exceptional" => (switch? v).map fun b => { c with exceptional := b }
  | _ => none

def setLimit? (l : Limits) (name : String) (v : Node) : Option Limits :=
  match name with
  | "max_call_depth" => (limit? v).map fun n => { l with maxCallDepth := n }
  | _ => none

/-- The settings of a node with these names: those of a table by their keys, those of an array by
their places. An array may have more items than there are settings. -/
def entries? (names : List String) : Node → Option (List (String × Node))
  | .table _ entries => some entries
  | .array items | .tables items => some (names.zip items)
  | _ => none

def checks? (v : Node) : Option Checks := do
  let entries ← entries? ["preconditions", "postconditions", "invariants", "exceptional"] v
  entries.foldlM (fun c (name, v) => setCheck? c name v) {}

def limits? (v : Node) : Option Limits := do
  let entries ← entries? ["max_call_depth"] v
  entries.foldlM (fun l (name, v) => setLimit? l name v) {}

def setPart? (c : Config) (name : String) (v : Node) : Option Config :=
  match name with
  | "checks" => (checks? v).map fun checks => { c with checks }
  | "runtime" => (limits? v).map fun runtime => { c with runtime }
  | _ => none

/-- The settings that a document makes. -/
def ofDocument? : Node → Option Config
  | .table _ entries => entries.foldlM (fun c (name, v) => setPart? c name v) {}
  | _ => none

/-- The settings that a text makes. -/
def ofToml (text : String) : Except ConfigFault Config :=
  match Toml.document? text with
  | none => .error .malformed
  | some d =>
    match ofDocument? d with
    | none => .error .unsuitable
    | some c => if c.runtime.maxCallDepth = 0 then .error .zeroDepth else .ok c

def load (read : ReadFile) (path : String) : Except ConfigFault Config :=
  match read path with
  | .ok text => ofToml text
  | .error fault => .error (.unreadable fault)

end Config

end Covenant
