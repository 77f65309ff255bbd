import Covenant.Toml.Read

/-!
# Reading TOML documents

A document is read line by line. A header decides which table the assignments
below it go to; those above the first header go to the document itself.
-/

namespace Covenant.Toml

inductive Line
  | blank
  | assign (a : Assignment)
  /-- The header of a table. -/
  | header (path : List String) (name : String)
  /-- The header of an item of an array of tables. -/
  | item (path : List String) (name : String)

/-- The next line of a document, or its end. -/
def line : Reader (Option Line) := do
  blanks
  match ← get with
  | [] => return none
  | '[' :: '[' :: rest =>
    set rest
    let (path, name) ← key
    Reader.expect [']', ']']
    lineEnd
    return some (.item path name)
  | '[' :: rest =>
    set rest
    let (path, name) ← key
    Reader.expect [']']
    lineEnd
    return some (.header path name)
  | c :: _ =>
    if c = '#' || c = '\n' || c = '\r' then
      lineEnd
      return some .blank
    else
      let a ← assignment (value (nesting - 1))
      lineEnd
      return some (.assign a)

/-- The lines read so far: what they make, and where assignments go. -/
structure Draft where
  root : Node
  current : List String

def Draft.empty : Draft := ⟨.table .header [], []⟩

/-- A document with one line more, unless the line goes against those above it. -/
def Draft.add (d : Draft) : Line → Option Draft
  | .blank => some d
  | .assign a => do
    let root ← d.root.edit false a.applyTo d.current
    return { d with root }
  | .header path name => do
    let root ← d.root.edit false (Node.addHeader name) path
    return ⟨root, path ++ [name]⟩
  | .item path name => do
    let root ← d.root.edit false (Node.addItem name) path
    return ⟨root, path ++ [name]⟩

/-- A byte order mark in front of a text says nothing. -/
def dropMark : List Char → List Char
  | '\ufeff' :: cs => cs
  | cs => cs

/-- The document that a text is, if it is one. -/
def document? (s : String) : Option Node := do
  let (lines, _) ← Reader.repeated line (dropMark s.toList)
  let d ← lines.foldlM Draft.add .empty
  return d.root

end Covenant.Toml
