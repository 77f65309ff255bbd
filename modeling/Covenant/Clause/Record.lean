import Covenant.Source.Text
import Covenant.Surface.Decl

/-!
# Clause records

A clause as it is found in a documentation comment: its tag, what it is about,
and its expression text. The text is put together from pieces of several lines;
`segments` remembers where each piece stood, so that an offset into the text
leads back to the source.
-/

namespace Covenant

inductive ClauseTag
  | pre
  | post
  | invariant
  | throws
  | mayThrow
  | inspects
  | mutates
  | mutatesProperties
  deriving DecidableEq, Repr, Inhabited

namespace ClauseTag

/-- The tag that a word with an at sign stands for. -/
def ofWord? : String → Option ClauseTag
  | "@pre" => some pre
  | "@post" => some post
  | "@invar" | "@invariant" => some invariant
  | "@throws" => some throws
  | "@may_throw" => some mayThrow
  | "@inspects" => some inspects
  | "@mutates" => some mutates
  | "@mutates_properties" => some mutatesProperties
  | _ => none

/-- The word that stands for the tag; of two it is the shorter one. -/
def word : ClauseTag → String
  | pre => "@pre"
  | post => "@post"
  | invariant => "@invar"
  | throws => "@throws"
  | mayThrow => "@may_throw"
  | inspects => "@inspects"
  | mutates => "@mutates"
  | mutatesProperties => "@mutates_properties"

/-- Whether the clause lists targets; all others hold a condition. -/
def isEffect : ClauseTag → Bool
  | inspects | mutates | mutatesProperties => true
  | _ => false

/-- Whether a name follows the tag, that of an exception class. -/
def hasSubject : ClauseTag → Bool
  | throws | mayThrow => true
  | _ => false

theorem ofWord?_word (t : ClauseTag) : ofWord? t.word = some t := by cases t <;> rfl

end ClauseTag

/-- A run of the text of a clause that is copied from the source: `size` bytes, at `textStart` in
the text and at `sourceStart` in the source. -/
structure Segment where
  textStart : Nat
  sourceStart : Nat
  size : Nat
  deriving DecidableEq, Repr, Inhabited

structure ClauseRecord where
  tag : ClauseTag
  /-- The declaration whose comment holds the clause. -/
  owner : DeclId
  /-- The expression text, its pieces joined by single blanks. -/
  text : List Char
  subject : Option (Located String)
  /-- From the tag to the end of the last piece. -/
  span : Span
  segments : List Segment
  deriving DecidableEq, Repr, Inhabited

namespace ClauseRecord

/-- The source offset of the byte at `offset` of the text. A blank that joins two pieces belongs to
the end of the earlier one. -/
def sourceOffset (r : ClauseRecord) (offset : Nat) : Nat :=
  match (r.segments.reverse.find? fun s => s.textStart ≤ offset).or r.segments.head? with
  | some s => s.sourceStart + min (offset - s.textStart) s.size
  | none => r.span.start

/-- The source span of a span of the text. An end between two pieces belongs to the earlier one. -/
def sourceSpan (r : ClauseRecord) (s : Span) : Span :=
  let start := r.sourceOffset s.start
  let stop := match r.segments.reverse.find? fun g => g.textStart < s.stop with
    | some g => g.sourceStart + min (s.stop - g.textStart) g.size
    | none => start
  ⟨start, max stop start⟩

end ClauseRecord

end Covenant
