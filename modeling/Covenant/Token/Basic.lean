import Covenant.Source.Span

/-!
# Tokens

The words and marks of the language. A token that stands for more than one
spelling (a name, a number, a comment) holds what was read; `Token.text` is the
name that messages use for it.
-/

namespace Covenant

/-- The reserved words. -/
inductive Keyword
  | class_
  | interface_
  | extends_
  | implements_
  | static_
  | void_
  | int_
  | boolean_
  | return_
  | if_
  | else_
  | while_
  | new_
  | this_
  | super_
  | null_
  | true_
  | false_
  | throw_
  | try_
  | catch_
  | finally_
  deriving DecidableEq, Repr, Inhabited

namespace Keyword

def all : List Keyword :=
  [class_, interface_, extends_, implements_, static_, void_, int_, boolean_, return_, if_, else_,
    while_, new_, this_, super_, null_, true_, false_, throw_, try_, catch_, finally_]

/-- The spelling of the word. -/
def text : Keyword → String
  | class_ => "class"
  | interface_ => "interface"
  | extends_ => "extends"
  | implements_ => "implements"
  | static_ => "static"
  | void_ => "void"
  | int_ => "int"
  | boolean_ => "boolean"
  | return_ => "return"
  | if_ => "if"
  | else_ => "else"
  | while_ => "while"
  | new_ => "new"
  | this_ => "this"
  | super_ => "super"
  | null_ => "null"
  | true_ => "true"
  | false_ => "false"
  | throw_ => "throw"
  | try_ => "try"
  | catch_ => "catch"
  | finally_ => "finally"

/-- The reserved word with this spelling. -/
def ofText? (s : String) : Option Keyword := all.find? (·.text == s)

theorem mem_all (k : Keyword) : k ∈ all := by cases k <;> decide

end Keyword

/-- A word that cannot be used as a name. -/
def isKeyword (s : String) : Bool := (Keyword.ofText? s).isSome

/-- Operators and punctuation. -/
inductive Symbol
  | plus
  | minus
  | star
  | slash
  | percent
  | assign
  | eqEq
  | bangEq
  | lt
  | gt
  | ltEq
  | gtEq
  | andAnd
  | orOr
  | bang
  | lparen
  | rparen
  | lbrace
  | rbrace
  | lbracket
  | rbracket
  | comma
  | semi
  | ellipsis
  | dot
  deriving DecidableEq, Repr, Inhabited

namespace Symbol

/-- The characters of the mark. -/
def chars : Symbol → List Char
  | plus => ['+']
  | minus => ['-']
  | star => ['*']
  | slash => ['/']
  | percent => ['%']
  | assign => ['=']
  | eqEq => ['=', '=']
  | bangEq => ['!', '=']
  | lt => ['<']
  | gt => ['>']
  | ltEq => ['<', '=']
  | gtEq => ['>', '=']
  | andAnd => ['&', '&']
  | orOr => ['|', '|']
  | bang => ['!']
  | lparen => ['(']
  | rparen => [')']
  | lbrace => ['\x7b']
  | rbrace => ['\x7d']
  | lbracket => ['[']
  | rbracket => [']']
  | comma => [',']
  | semi => [';']
  | ellipsis => ['.', '.', '.']
  | dot => ['.']

/-- The spelling of the mark. -/
def text (s : Symbol) : String := String.ofList s.chars

/-- All marks, longer ones first. -/
def byLength : List Symbol :=
  [ellipsis, eqEq, bangEq, ltEq, gtEq, andAnd, orOr, plus, minus, star, slash, percent, assign, lt,
    gt, bang, lparen, rparen, lbrace, rbrace, lbracket, rbracket, comma, semi, dot]

theorem mem_byLength (s : Symbol) : s ∈ byLength := by cases s <;> decide

/-- The longest mark at the front of a text, with the text behind it. -/
def longest? (cs : List Char) : Option (Symbol × List Char) :=
  (byLength.find? fun s => s.chars.isPrefixOf cs).map fun s => (s, cs.drop s.chars.length)

/-- The mark that was found is what stood in front. -/
theorem longest?_eq {cs rest : List Char} {s : Symbol} (h : longest? cs = some (s, rest)) :
    cs = s.chars ++ rest := by
  obtain ⟨m, hm, he⟩ := Option.map_eq_some_iff.1 h
  obtain ⟨rfl, rfl⟩ := Prod.mk.inj he
  have hp : m.chars.isPrefixOf cs = true := by simpa using List.find?_some hm
  obtain ⟨t, rfl⟩ := List.isPrefixOf_iff_prefix.1 hp
  simp

theorem chars_ne_nil (s : Symbol) : s.chars ≠ [] := by cases s <;> simp [chars]

end Symbol

/-- The kinds of comment. A documentation comment carries the clauses of what follows it. -/
inductive CommentKind
  | line
  | block
  | doc
  deriving DecidableEq, Repr, Inhabited

inductive Token
  | keyword (word : Keyword)
  | symbol (mark : Symbol)
  | int (value : Int64)
  | ident (name : String)
  | comment (kind : CommentKind) (text : String)
  deriving DecidableEq, Repr, Inhabited

namespace Token

/-- What a message calls the token. -/
def text : Token → String
  | keyword k => k.text
  | symbol s => s.text
  | int n => toString n.toInt
  | ident _ => "identifier"
  | comment .doc _ => "doc comment"
  | comment _ _ => "comment"

def isComment : Token → Bool
  | comment _ _ => true
  | _ => false

end Token

end Covenant
