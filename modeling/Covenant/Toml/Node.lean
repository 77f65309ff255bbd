import Covenant.Source.Table

/-!
# TOML documents

A document is a table of keys and nodes. What may still be added to a table
depends on how it came to be: one that only follows from longer keys can get a
header of its own later, one that has been written out cannot be written again,
and an inline table is closed by its brace.
-/

namespace Covenant.Toml

/-- How a table came to be. -/
inductive Origin
  /-- It has a header; the document itself counts as such a table. -/
  | header
  /-- It stands in front of the last key of a header. -/
  | implied
  /-- It stands in front of the last key of an assignment. -/
  | dotted
  | inline
  deriving DecidableEq, Repr, Inhabited

inductive Node
  | text (s : String)
  | integer (n : Int)
  | boolean (b : Bool)
  | float
  /-- A date, a time, or both. -/
  | moment
  | array (items : List Node)
  /-- An array whose items have headers. -/
  | tables (items : List Node)
  | table (origin : Origin) (entries : List (String × Node))
  deriving Repr, Inhabited

namespace Node

/-- Whether a key can lead into a table of this origin: a header can lead into all that have no
brace, an assignment not into one that has a header. -/
def passable (assignment : Bool) : Origin → Bool
  | .header => !assignment
  | .implied | .dotted => true
  | .inline => false

/-- Changes the table at the end of a path. Tables on the way that are not there are made; of an
array of tables the last one is meant. -/
def edit (assignment : Bool) (f : Node → Option Node) : List String → Node → Option Node
  | [], t => f t
  | key :: path, .table o entries => do
    let t ← match Table.find? key entries with
      | none => edit assignment f path (.table (if assignment then .dotted else .implied) [])
      | some (.table o' entries') =>
        if passable assignment o' then edit assignment f path (.table o' entries') else none
      | some (.tables items) => do
        let t ← edit assignment f path (← items.getLast?)
        pure (.tables (items.dropLast ++ [t]))
      | some _ => none
    return .table o (Table.put key t entries)
  | _ :: _, _ => none

/-- Writes a key that is not there. A table that an assignment leads into has to be one that
assignments made. -/
def addKey (direct : Bool) (key : String) (v : Node) : Node → Option Node
  | .table o entries =>
    if (o == .dotted) == direct || (Table.find? key entries).isSome then none
    else some (.table o (Table.put key v entries))
  | _ => none

/-- Carries out the assignment to a key behind a path, in a table. -/
def assign (t : Node) (path : List String) (key : String) (v : Node) : Option Node :=
  edit true (addKey path.isEmpty key v) path t

/-- Gives a table its header. -/
def addHeader (key : String) : Node → Option Node
  | .table o entries =>
    match Table.find? key entries with
    | none => some (.table o (Table.put key (.table .header []) entries))
    | some (.table .implied inner) =>
      some (.table o (Table.put key (.table .header inner) entries))
    | some _ => none
  | _ => none

/-- Puts an empty table at the end of an array of tables. -/
def addItem (key : String) : Node → Option Node
  | .table o entries =>
    match Table.find? key entries with
    | none => some (.table o (Table.put key (.tables [.table .header []]) entries))
    | some (.tables items) =>
      some (.table o (Table.put key (.tables (items ++ [.table .header []])) entries))
    | some _ => none
  | _ => none

end Node

end Covenant.Toml
