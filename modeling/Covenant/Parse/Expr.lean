import Covenant.Parse.Stream

/-!
# Expressions

Operators are read by precedence climbing: each infix operator binds its left
side with one power and its right side with the next higher one, so operators of
one level associate to the left; prefix operators bind tighter than all of them
and postfix forms tighter still. Clauses know three forms more than bodies:
`old(e)` and `result`, and in effect clauses `...e`.
-/

namespace Covenant.Parse

open Surface (Expr TypeExpr)

/-- Which extensions the expression grammar accepts. -/
inductive Dialect
  | body
  | condition
  | effect
  deriving DecidableEq, Repr, Inhabited

/-- Whether `old(e)` and `result` have a meaning of their own. -/
def Dialect.isClause : Dialect → Bool
  | body => false
  | condition | effect => true

/-- How tightly an operator binds the operand on its left; the right one is bound one tighter. -/
def leftPower : BinaryOp → Nat
  | .or => 1
  | .and => 3
  | .eq | .neq => 5
  | .lt | .gt | .ltEq | .gtEq => 7
  | .add | .sub => 9
  | .mul | .div | .mod => 11

def rightPower (op : BinaryOp) : Nat := leftPower op + 1

/-- Prefix operators bind tighter than every infix operator. -/
def unaryPower : Nat := 13

def binaryOp? : Token → Option BinaryOp
  | .symbol .plus => some .add
  | .symbol .minus => some .sub
  | .symbol .star => some .mul
  | .symbol .slash => some .div
  | .symbol .percent => some .mod
  | .symbol .eqEq => some .eq
  | .symbol .bangEq => some .neq
  | .symbol .lt => some .lt
  | .symbol .gt => some .gt
  | .symbol .ltEq => some .ltEq
  | .symbol .gtEq => some .gtEq
  | .symbol .andAnd => some .and
  | .symbol .orOr => some .or
  | _ => none

/-- The element type of `new T[n]`, which is no array itself. -/
def elementType : Parser TypeExpr := do
  match ← peek with
  | some ⟨.keyword .int_, span, _⟩ =>
    skip
    return .int span
  | some ⟨.keyword .boolean_, span, _⟩ =>
    skip
    return .boolean span
  | some ⟨.ident name, span, _⟩ =>
    skip
    return .named span name
  | _ => failExpected .typeName

/-- Whether what follows `new` creates an array. -/
def isArrayAhead : Parser Bool := do
  return (← isAhead 0 (.keyword .int_)) || (← isAhead 0 (.keyword .boolean_))
    || (← isAhead 1 (.symbol .lbracket))

/- The first number of each rule is its budget, which only a text that has ended uses up. -/
mutual

/-- An expression whose operators all bind at least as tightly as `power`. -/
def exprWithin (d : Dialect) : Nat → Nat → Parser Expr
  | 0, _ => failAtEnd .endInExpression
  | n + 1, power => do
    let lhs ← operand d n
    operators d n power lhs

/-- The postfix forms and infix operators that follow `lhs`. -/
def operators (d : Dialect) : Nat → Nat → Expr → Parser Expr
  | 0, _, lhs => return lhs
  | n + 1, power, lhs => do
    match ← peek with
    | none => return lhs
    | some ⟨.symbol .dot, _, _⟩ => do
      skip
      let name ← expectName
      if ← isNextMark .lparen then
        let site ← freshSite
        let (args, stop) ← arguments d n
        operators d n power (.methodCall ⟨lhs.span.start, stop⟩ site lhs name args)
      else
        operators d n power (.field ⟨lhs.span.start, name.span.stop⟩ lhs name)
    | some ⟨.symbol .lbracket, _, _⟩ => do
      skip
      let index ← exprWithin d n 0
      let close ← expectMark .rbracket
      operators d n power (.index ⟨lhs.span.start, close.stop⟩ lhs index)
    | some l =>
      match binaryOp? l.token with
      | none => return lhs
      | some op =>
        if leftPower op < power then
          return lhs
        else do
          skip
          let rhs ← exprWithin d n (rightPower op)
          operators d n power (.binary ⟨lhs.span.start, rhs.span.stop⟩ op lhs rhs)

/-- What an operator applies to: a literal, a name, a call, a creation, something in parentheses,
or a prefix operator with its operand. -/
def operand (d : Dialect) : Nat → Parser Expr
  | 0 => failAtEnd .endInExpression
  | n + 1 => do
    match ← peek with
    | none => failAtEnd .endInExpression
    | some ⟨token, span, _⟩ =>
      match token with
      | .int value =>
        skip
        return .int span value
      | .keyword .true_ =>
        skip
        return .bool span true
      | .keyword .false_ =>
        skip
        return .bool span false
      | .keyword .null_ =>
        skip
        return .null span
      | .keyword .this_ =>
        skip
        return .this span
      | .ident name =>
        skip
        named d n ⟨name, span⟩
      | .keyword .new_ =>
        skip
        creation d n span
      | .symbol .lparen =>
        skip
        let inner ← exprWithin d n 0
        let _ ← expectMark .rparen
        return inner
      | .symbol .minus =>
        skip
        let e ← exprWithin d n unaryPower
        return .unary ⟨span.start, e.span.stop⟩ .neg e
      | .symbol .bang =>
        skip
        let e ← exprWithin d n unaryPower
        return .unary ⟨span.start, e.span.stop⟩ .not e
      | .symbol .ellipsis =>
        if d = .effect then
          skip
          let e ← exprWithin d n unaryPower
          return .spread ⟨span.start, e.span.stop⟩ e
        else
          failAt .spreadOutsideEffects span
      | t => failAt (.strayToken t) span

/-- What starts with a name: a clause form, a call, or the name alone. -/
def named (d : Dialect) : Nat → Located String → Parser Expr
  | 0, name => return .name name.span name.val
  | n + 1, name => do
    if d.isClause && name.val == "result" then
      return .result name.span
    let isCall ← isNextMark .lparen
    if d.isClause && name.val == "old" && isCall then
      skip
      let inner ← exprWithin d n 0
      let close ← expectMark .rparen
      return .old ⟨name.span.start, close.stop⟩ inner
    else if isCall then
      let site ← freshSite
      let (args, stop) ← arguments d n
      return .call ⟨name.span.start, stop⟩ site name args
    else
      return .name name.span name.val

/-- What follows `new`, whose span is `start`. -/
def creation (d : Dialect) : Nat → Span → Parser Expr
  | 0, _ => failAtEnd .endInExpression
  | n + 1, start => do
    if ← isArrayAhead then
      let elem ← elementType
      let _ ← expectMark .lbracket
      let length ← exprWithin d n 0
      let close ← expectMark .rbracket
      return .newArray ⟨start.start, close.stop⟩ elem length
    else
      let className ← expectName
      let site ← freshSite
      let (args, stop) ← arguments d n
      return .new ⟨start.start, stop⟩ site className args

/-- Arguments in parentheses, with the offset behind the closing one. -/
def arguments (d : Dialect) : Nat → Parser (List Expr × Nat)
  | 0 => failAtEnd .endInExpression
  | n + 1 => do
    let _ ← expectMark .lparen
    let args ← argumentList d n true
    let close ← expectMark .rparen
    return (args, close.stop)

/-- The arguments up to the closing parenthesis; all but the first follow a comma. -/
def argumentList (d : Dialect) : Nat → Bool → Parser (List Expr)
  | 0, _ => return []
  | n + 1, isFirst => do
    if ← atCloser .rparen then
      return []
    if !isFirst then
      let _ ← expectMark .comma
    let arg ← exprWithin d n 0
    let rest ← argumentList d n false
    return arg :: rest

end

/-- An expression whose operators all bind at least as tightly as `power`. -/
def exprAbove (d : Dialect) (power : Nat) : Parser Expr := do
  exprWithin d (← budget) power

def expr (d : Dialect) : Parser Expr := exprAbove d 0

/-- Arguments in parentheses, with the offset behind the closing one. -/
def callArguments (d : Dialect) : Parser (List Expr × Nat) := do
  arguments d (← budget)

end Covenant.Parse
