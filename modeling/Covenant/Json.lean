/-!
# JSON

Values and their printed form: two blanks per level, the members of an object in
the order of their names, and nothing between the brackets of an empty
collection.
-/

namespace Covenant

inductive Json
  | null
  | bool (b : Bool)
  | num (n : Int)
  | str (s : String)
  | arr (items : List Json)
  | obj (members : List (String × Json))
  deriving Inhabited

namespace Json

/-- A list of texts. -/
def strs (xs : List String) : Json := arr (xs.map str)

/-- The digit of a number below sixteen. -/
def hexDigit (n : Nat) : Char := if n < 10 then Char.ofNat (48 + n) else Char.ofNat (87 + n)

/-- A character between quotes. Controls that have no short form are written by their number. -/
def escape (c : Char) : List Char :=
  match c with
  | '"' => ['\\', '"']
  | '\\' => ['\\', '\\']
  | '\n' => ['\\', 'n']
  | '\r' => ['\\', 'r']
  | '\t' => ['\\', 't']
  | '\x08' => ['\\', 'b']
  | '\x0c' => ['\\', 'f']
  | c =>
    if c.toNat < 32 then
      ['\\', 'u', '0', '0', hexDigit (c.toNat / 16), hexDigit (c.toNat % 16)]
    else [c]

def quote (s : String) : String := "\"" ++ String.ofList (s.toList.flatMap escape) ++ "\""

/-- The start of a line that is `depth` levels in. -/
def newline (depth : Nat) : String := "\n" ++ String.ofList (List.replicate (2 * depth) ' ')

/-- Puts a member in front of those with later names. -/
def insertMember (m : String × String) : List (String × String) → List (String × String)
  | [] => [m]
  | n :: rest => if m.1 < n.1 then m :: n :: rest else n :: insertMember m rest

/-- Lines between brackets. -/
def bracket (opener closer : String) (depth : Nat) (lines : List String) : String :=
  match lines with
  | [] => opener ++ closer
  | lines =>
    opener ++ newline (depth + 1) ++ String.intercalate ("," ++ newline (depth + 1)) lines
      ++ newline depth ++ closer

mutual

/-- The printed form, where the value starts `depth` levels in. -/
def render (depth : Nat) : Json → String
  | null => "null"
  | bool b => if b then "true" else "false"
  | num n => toString n
  | str s => quote s
  | arr items => bracket "[" "]" depth (renderAll depth items)
  | obj members =>
    bracket "\x7b" "\x7d" depth <|
      ((renderMembers depth members).foldr insertMember []).map fun (name, value) =>
        quote name ++ ": " ++ value

def renderAll (depth : Nat) : List Json → List String
  | [] => []
  | j :: js => render (depth + 1) j :: renderAll depth js

def renderMembers (depth : Nat) : List (String × Json) → List (String × String)
  | [] => []
  | (name, j) :: ms => (name, render (depth + 1) j) :: renderMembers depth ms

end

/-- The printed form of a whole text. -/
def pretty (j : Json) : String := render 0 j

end Json

end Covenant
