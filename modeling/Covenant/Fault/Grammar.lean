import Covenant.Token.Basic

/-!
# Faults of the text

The ways in which a text can fail to be a program or a clause, from the
characters up to the statements. `GrammarFault.message` is the one place where
they are worded.
-/

namespace Covenant

/-- What the grammar asks for at a position. -/
inductive Expected
  | word (k : Keyword)
  | mark (s : Symbol)
  | identifier
  | typeName
  | declaration
  deriving DecidableEq, Repr, Inhabited

/-- How a message names what was asked for. -/
def Expected.text : Expected → String
  | word k => k.text
  | mark s => s.text
  | identifier => "identifier"
  | typeName => "type"
  | declaration => "class or interface"

inductive GrammarFault
  | unterminatedComment
  /-- No token starts with this text, or its number does not fit. -/
  | strayText (text : String)
  | commentInClause
  /-- A certain token was asked for; `none` is the end of the text. -/
  | expected (what : Expected) (found : Option Token)
  | endInStatement
  | endInExpression
  | strayToken (found : Token)
  | spreadOutsideEffects
  | interfaceMember
  | voidField
  | assignmentTarget
  | bareTry
  | clauseRemainder (found : Token)
  deriving DecidableEq, Repr, Inhabited

namespace GrammarFault

def message : GrammarFault → String
  | unterminatedComment => "unterminated block comment"
  | strayText text => "unexpected character '" ++ text ++ "'"
  | commentInClause => "comments are not allowed in clause text"
  | expected what found =>
    "expected " ++ what.text ++ ", found " ++ (found.map Token.text).getD "end of file"
  | endInStatement => "unexpected end of file in statement"
  | endInExpression => "unexpected end of file in expression"
  | strayToken found => "unexpected token " ++ found.text ++ " in expression"
  | spreadOutsideEffects => "spread `...` is only allowed in effect clauses"
  | interfaceMember => "interfaces may only declare instance method signatures"
  | voidField => "fields cannot have type void"
  | assignmentTarget => "invalid assignment target"
  | bareTry => "try requires at least one catch or a finally block"
  | clauseRemainder found => "unexpected " ++ found.text ++ " after clause expression"

end GrammarFault

end Covenant
