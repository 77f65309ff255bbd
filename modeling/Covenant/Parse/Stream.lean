import Covenant.Surface.Decl
import Covenant.Token.Scan

/-!
# The stream that the grammar reads

Comments have no place in the grammar. `Stream.ofTokens` takes them out before
parsing starts and leaves each documentation comment with the token that it
stands in front of; of several in a row the last one stays. The grammar is then
written over tokens alone, and a declaration finds its documentation at its
first token.
-/

namespace Covenant.Parse

open Surface (DocComment)

structure Lexeme where
  token : Token
  span : Span
  /-- The last documentation comment between the token before and this one. -/
  doc : Option DocComment
  deriving DecidableEq, Repr, Inhabited

/-- The tokens that are no comments, each with its documentation; `doc` is what was met last. -/
def lexemesFrom (doc : Option DocComment) : List (Located Token) → List Lexeme
  | [] => []
  | ⟨.comment .doc text, span⟩ :: ts => lexemesFrom (some ⟨text, span⟩) ts
  | ⟨.comment _ _, _⟩ :: ts => lexemesFrom doc ts
  | ⟨t, span⟩ :: ts => ⟨t, span, doc⟩ :: lexemesFrom none ts

/-- Where the parser stands. -/
structure State where
  rest : List Lexeme
  /-- The end of the last token, comments counted. -/
  eof : Nat
  nextDecl : DeclId
  nextSite : SiteId
  deriving Repr, Inhabited

/-- The start of a parse that numbers call sites from `firstSite` on. -/
def State.ofTokens (ts : List (Located Token)) (firstSite : SiteId) : State where
  rest := lexemesFrom none ts
  eof := (ts.getLast?.map (·.span.stop)).getD 0
  nextDecl := 0
  nextSite := firstSite

abbrev Parser := StateT State (Except (Located GrammarFault))

def failAt {α : Type} (fault : GrammarFault) (span : Span) : Parser α :=
  throw ⟨fault, span⟩

def failAtEnd {α : Type} (fault : GrammarFault) : Parser α := do
  failAt fault (.point (← get).eof)

/-- The next token, which stays in place. -/
def peek : Parser (Option Lexeme) := return (← get).rest.head?

/-- Whether the token `n` places ahead is `t`. -/
def isAhead (n : Nat) (t : Token) : Parser Bool :=
  return ((← get).rest[n]?).any (·.token == t)

def isNextMark (s : Symbol) : Parser Bool := isAhead 0 (.symbol s)

def atEnd : Parser Bool := return (← get).rest.isEmpty

/-- Whether a list in brackets that `closer` ends is over, or the text is. -/
def atCloser (closer : Symbol) : Parser Bool :=
  return (← isNextMark closer) || (← atEnd)

/-- Takes the next token off. -/
def skip : Parser Unit := modify fun s => { s with rest := s.rest.tail }

/-- Takes the next token off if it is `t`. -/
def eat (t : Token) : Parser Bool := do
  if ← isAhead 0 t then
    skip
    return true
  return false

def eatMark (s : Symbol) : Parser Bool := eat (.symbol s)

def eatWord (k : Keyword) : Parser Bool := eat (.keyword k)

def failExpected {α : Type} (what : Expected) : Parser α := do
  match ← peek with
  | some l => failAt (.expected what l.token) l.span
  | none => failAtEnd (.expected what none)

def expect (t : Token) (what : Expected) : Parser Span := do
  match ← peek with
  | some l =>
    if l.token = t then
      skip
      return l.span
    failExpected what
  | none => failExpected what

def expectMark (s : Symbol) : Parser Span := expect (.symbol s) (.mark s)

def expectWord (k : Keyword) : Parser Span := expect (.keyword k) (.word k)

def expectName : Parser (Located String) := do
  match ← peek with
  | some ⟨.ident name, span, _⟩ =>
    skip
    return ⟨name, span⟩
  | _ => failExpected .identifier

/-- The offset of the next token, or of the end. -/
def position : Parser Nat := do
  let s ← get
  return (s.rest.head?.map (·.span.start)).getD s.eof

/-- The documentation of what starts here. -/
def documentation : Parser (Option DocComment) := return (← peek).bind (·.doc)

def freshDecl : Parser DeclId := do
  let s ← get
  set { s with nextDecl := s.nextDecl + 1 }
  return s.nextDecl

def freshSite : Parser SiteId := do
  let s ← get
  set { s with nextSite := s.nextSite + 1 }
  return s.nextSite

/-- A bound on how deep the grammar can go in the tokens that are left: between two tokens it
descends through at most four rules. -/
def budget : Parser Nat := return 4 * ((← get).rest.length + 1)

end Covenant.Parse
