import Covenant.Clause.Record

/-!
# Finding the clauses of a comment

A clause starts at a line whose first word is a tag, and its expression follows
a bar, on the same line or at the start of lines below. Every other line is
prose. Nothing here can fail: a clause that makes no sense is left to the
grammar, and a tag without any expression is no clause.

A line may start with blanks and one star, which are margin.
-/

namespace Covenant.Clause

open Surface (DocComment)

/-- One line of a comment, with the source offset of what follows its margin. -/
inductive Line
  /-- A line that ends the clause above and starts no new one. -/
  | unknownTag
  /-- A line that starts a clause, with what it gives to it. -/
  | tag (start : ClauseRecord)
  | continuation (offset : Nat) (text : List Char)
  | prose

def isWordEnd (c : Char) : Bool := Text.isBlank c || c == '|'

/-- The first word of a text, which a blank or a bar ends, and what follows it. -/
def firstWord (cs : List Char) : List Char × List Char :=
  (cs.takeWhile (!isWordEnd ·), cs.dropWhile (!isWordEnd ·))

/-- A text without the blanks in front, and where it starts if the text starts at `offset`. -/
def skipBlanks (offset : Nat) (cs : List Char) : Nat × List Char :=
  (offset + Text.width (cs.takeWhile Text.isBlank), cs.dropWhile Text.isBlank)

/-- A line without its margin, and where it starts if the line starts at `offset`. -/
def skipMargin (offset : Nat) (cs : List Char) : Nat × List Char :=
  match skipBlanks offset cs with
  | (offset, '*' :: cs) => skipBlanks (offset + 1) cs
  | (offset, cs) => (offset, cs)

/-- The exception name in front of a text at `offset`, and what follows it with its offset. -/
def subject (offset : Nat) (cs : List Char) : Option (Located String) × Nat × List Char :=
  let (offset, cs) := skipBlanks offset cs
  let (name, rest) := firstWord cs
  let stop := offset + Text.width name
  if name.isEmpty then (none, offset, rest)
  else (some ⟨String.ofList name, offset, stop⟩, stop, rest)

/-- Adds a piece of text at a source offset to a clause; blanks around it do not count. -/
def addPiece (r : ClauseRecord) (offset : Nat) (cs : List Char) : ClauseRecord :=
  let (start, cs) := skipBlanks offset cs
  let piece := Text.trimBack cs
  if piece.isEmpty then r
  else
    let text := if r.text.isEmpty then [] else r.text ++ [' ']
    { r with
      text := text ++ piece
      span := ⟨r.span.start, start + Text.width piece⟩
      segments := r.segments ++ [⟨Text.width text, start, Text.width piece⟩] }

/-- The clause that starts with `tag` at `offset`, where `cs` is what follows the tag. -/
def startClause (owner : DeclId) (tag : ClauseTag) (offset : Nat) (word cs : List Char) :
    ClauseRecord :=
  let stop := offset + Text.width word
  let (subject, pos, cs) := if tag.hasSubject then subject stop cs else (none, stop, cs)
  let stop := (subject.map (·.span.stop)).getD stop
  let clause : ClauseRecord :=
    { tag, owner, text := [], subject, span := ⟨offset, stop⟩, segments := [] }
  match cs.dropWhile (· ≠ '|') with
  | _ :: rest => addPiece clause (pos + Text.width (cs.takeWhile (· ≠ '|')) + 1) rest
  | [] => clause

/-- What the line that starts at `offset` says. -/
def readLine (owner : DeclId) (offset : Nat) (line : List Char) : Line :=
  match skipMargin offset line with
  | (offset, '@' :: cs) =>
    let (word, rest) := firstWord ('@' :: cs)
    match ClauseTag.ofWord? (String.ofList word) with
    | some tag => .tag (startClause owner tag offset word rest)
    | none => .unknownTag
  | (offset, '|' :: cs) => .continuation (offset + 1) cs
  | _ => .prose

/-- A clause counts once it has some expression text. -/
def close : Option ClauseRecord → List ClauseRecord
  | some r => if r.text.isEmpty then [] else [r]
  | none => []

/-- The clauses of the lines from `offset` on, where `current` is the one that is being read. -/
def clausesOfLines (owner : DeclId) (current : Option ClauseRecord) (offset : Nat) :
    List (List Char) → List ClauseRecord
  | [] => close current
  | line :: rest =>
    let next := offset + Text.width line + 1
    match readLine owner offset line with
    | .unknownTag => close current ++ clausesOfLines owner none next rest
    | .tag r => close current ++ clausesOfLines owner (some r) next rest
    | .continuation pos text =>
      clausesOfLines owner (current.map fun r => addPiece r pos text) next rest
    | .prose => clausesOfLines owner current next rest

/-- The text of a comment without its delimiters, as far as they are there, and the offset of what
is left. -/
def commentBody (cs : List Char) : Nat × List Char :=
  let (offset, body) := if ['/', '*', '*'].isPrefixOf cs then (3, cs.drop 3) else (0, cs)
  (offset, if ['*', '/'].isSuffixOf body then body.dropLast.dropLast else body)

/-- The clauses of a comment on `owner`, in their order. -/
def ofComment (doc : DocComment) (owner : DeclId) : List ClauseRecord :=
  let (offset, body) := commentBody doc.text.toList
  clausesOfLines owner none (doc.span.start + offset) (Text.lines body)

/-- The clauses of an optional comment. -/
def ofComment? (doc : Option DocComment) (owner : DeclId) : List ClauseRecord :=
  match doc with
  | some d => ofComment d owner
  | none => []

/-- All clauses of a program: those on a type before those on its members. -/
def ofProgram (p : Surface.Program) : List ClauseRecord :=
  p.types.flatMap fun t =>
    ofComment? t.doc t.id ++ t.members.flatMap fun m => ofComment? m.doc m.id

end Covenant.Clause
