import Covenant.Parse.Expr

/-!
# Types, statements and blocks

A statement that starts with a type and a name declares a local variable; every
other statement that no word announces is an assignment or an expression.
-/

namespace Covenant.Parse

open Surface (Expr TypeExpr Stmt Block Handler)

/-- The pairs of brackets behind a type, from the inside out. -/
def arraySuffixes : Nat → TypeExpr → Parser TypeExpr
  | 0, t => return t
  | n + 1, t => do
    if (← isAhead 0 (.symbol .lbracket)) && (← isAhead 1 (.symbol .rbracket)) then
      skip
      let close ← expectMark .rbracket
      arraySuffixes n (.array ⟨t.span.start, close.stop⟩ t)
    else
      return t

def typeExpr : Parser TypeExpr := do
  let base ← elementType
  arraySuffixes (← budget) base

/-- Whether these tokens start the declaration of a local variable: a type with a name behind it.
A name with empty brackets can only be a type. -/
def startsDeclaration : List Token → Bool
  | .keyword .int_ :: _ | .keyword .boolean_ :: _ => true
  | .ident _ :: .ident _ :: _ => true
  | .ident _ :: .symbol .lbracket :: .symbol .rbracket :: _ => true
  | _ => false

def isDeclarationAhead : Parser Bool := do
  return startsDeclaration (((← get).rest.take 3).map (·.token))

/-- What may stand on the left of an assignment. -/
def isAssignable : Expr → Bool
  | .name .. | .field .. | .index .. => true
  | _ => false

/-- The value after `=`, if there is one. -/
def optionalValue : Parser (Option Expr) := do
  if ← eatMark .assign then
    return some (← expr .body)
  return none

/-- The end of the semicolon that closes a statement. -/
def semicolon : Parser Nat := return (← expectMark .semi).stop

def declaration (start : Nat) : Parser Stmt := do
  let type ← typeExpr
  let name ← expectName
  let value ← optionalValue
  return .declare ⟨start, ← semicolon⟩ type name value

/-- An assignment, or an expression that is run for its effect. -/
def simpleStmt (start : Nat) : Parser Stmt := do
  let e ← expr .body
  if ← eatMark .assign then
    if !isAssignable e then
      failAt .assignmentTarget e.span
    let value ← expr .body
    return .assign ⟨start, ← semicolon⟩ e value
  return .expr ⟨start, ← semicolon⟩ e

/-- A condition in parentheses. -/
def condition : Parser Expr := do
  let _ ← expectMark .lparen
  let e ← expr .body
  let _ ← expectMark .rparen
  return e

/- The first number of each rule is its budget, which only a text that has ended uses up. -/
mutual

def stmtWithin : Nat → Parser Stmt
  | 0 => failAtEnd .endInStatement
  | n + 1 => do
    let start ← position
    match ← peek with
    | none => failAtEnd .endInStatement
    | some ⟨token, span, _⟩ =>
      match token with
      | .symbol .lbrace =>
        let body ← blockWithin n
        return .block body.span body
      | .keyword .if_ =>
        skip
        let cond ← condition
        let yes ← stmtWithin n
        if ← eatWord .else_ then
          let no ← stmtWithin n
          return .branch ⟨span.start, no.span.stop⟩ cond yes (some no)
        return .branch ⟨span.start, yes.span.stop⟩ cond yes none
      | .keyword .while_ =>
        skip
        let cond ← condition
        let body ← stmtWithin n
        return .loop ⟨span.start, body.span.stop⟩ cond body
      | .keyword .return_ =>
        skip
        if ← isNextMark .semi then
          return .ret ⟨span.start, ← semicolon⟩ none
        let value ← expr .body
        return .ret ⟨span.start, ← semicolon⟩ (some value)
      | .keyword .try_ =>
        skip
        let body ← blockWithin n
        let handlers ← handlersWithin n
        let stop := (handlers.getLast?.map fun (.mk _ _ b) => b.span.stop).getD body.span.stop
        if ← eatWord .finally_ then
          let cleanup ← blockWithin n
          return .attempt ⟨span.start, cleanup.span.stop⟩ body handlers (some cleanup)
        if handlers.isEmpty then
          failAt .bareTry ⟨span.start, stop⟩
        return .attempt ⟨span.start, stop⟩ body handlers none
      | .keyword .throw_ =>
        skip
        let value ← expr .body
        return .throw ⟨start, ← semicolon⟩ value
      | .keyword .super_ =>
        skip
        let site ← freshSite
        let (args, _) ← callArguments .body
        return .superCall ⟨start, ← semicolon⟩ site args
      | _ =>
        if ← isDeclarationAhead then
          declaration start
        else
          simpleStmt start

def blockWithin : Nat → Parser Block
  | 0 => failExpected (.mark .lbrace)
  | n + 1 => do
    let opener ← expectMark .lbrace
    let stmts ← stmtsWithin n
    let closer ← expectMark .rbrace
    return .mk ⟨opener.start, closer.stop⟩ stmts

def stmtsWithin : Nat → Parser (List Stmt)
  | 0 => return []
  | n + 1 => do
    if ← atCloser .rbrace then
      return []
    let s ← stmtWithin n
    let rest ← stmtsWithin n
    return s :: rest

def handlersWithin : Nat → Parser (List Handler)
  | 0 => return []
  | n + 1 => do
    if ← eatWord .catch_ then
      let _ ← expectMark .lparen
      let className ← expectName
      let var ← expectName
      let _ ← expectMark .rparen
      let body ← blockWithin n
      let rest ← handlersWithin n
      return .mk className var body :: rest
    return []

end

def block : Parser Block := do
  blockWithin (← budget)

end Covenant.Parse
