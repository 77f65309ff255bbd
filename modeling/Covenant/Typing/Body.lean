import Covenant.Typing.Expr

/-!
# Typing of statements and bodies

A declaration adds its name to the scope of the statements behind it in the same
block; what a nested statement declares ends with it. No name may be declared
where it already means a local variable.
-/

namespace Covenant.Typing

open Surface (Block Handler)

/-- What is known of the member that a body belongs to. -/
structure BodyKind where
  isConstructor : Bool
  returnType : Ty

def requireFresh (s : Scope) (name : Located String) : Check Unit :=
  if (s.local? name.val).isSome then fail (.variableTwice name.val) name.span else return

def Scope.add (s : Scope) (name : String) (type : Ty) : Scope :=
  { s with locals := (name, type) :: s.locals }

def checkCondition (s : Scope) (e : Surface.Expr) : Check Typed.Expr := do
  let e ← checkExpr s e
  requireType s .condition .boolean e
  return e

/-- The value is checked before what it is assigned to. -/
def checkAssign (s : Scope) (span : Span) (target value : Surface.Expr) : Check Typed.Stmt := do
  let value ← checkExpr s value
  let target ← checkExpr s target
  requireType s .assignment target.type value
  match target with
  | .var _ _ name => return .setVar span name value
  | .field _ _ object name => return .setField span object name value
  | .staticField _ _ className name => return .setStatic span className name value
  | .index _ _ array index => return .setIndex span array index value
  | t => fail .assignmentTarget t.span

def checkReturn (s : Scope) (span : Span) (type : Ty) (value : Option Surface.Expr) :
    Check Typed.Stmt :=
  match value, type with
  | none, .void => return .ret span none
  | some v, .void => fail .valueInVoid v.span
  | none, t => fail (.missingValue t) span
  | some v, t => do
    let v ← checkExpr s v
    requireType s .returnValue t v
    return .ret span (some v)

def checkThrow (s : Scope) (span : Span) (value : Surface.Expr) : Check Typed.Stmt := do
  let value ← checkExpr s value
  if value.type.className?.any s.env.isException then
    return .throw span value
  fail (.notThrowable value.type) value.span

/-- The first value and type of a local variable. -/
def checkDeclare (s : Scope) (span : Span) (type : Surface.TypeExpr) (name : Located String)
    (value : Option Surface.Expr) : Check (Typed.Stmt × Scope) := do
  let type ← resolveType s type
  let value ← match value with
    | some v => do
      let v ← checkExpr s v
      requireType s .initializer type v
      pure (some v)
    | none => pure none
  requireFresh s name
  return (.declare span type name.val value, s.add name.val type)

mutual

/-- A statement, and the scope of those behind it. -/
def checkStmt (k : BodyKind) (s : Scope) : Surface.Stmt → Check (Typed.Stmt × Scope)
  | .declare span type name value => checkDeclare s span type name value
  | .assign span target value => return (← checkAssign s span target value, s)
  | .expr span e => return (.expr span (← checkExpr s e), s)
  | .branch span cond a b => do
    let cond ← checkCondition s cond
    let (a, _) ← checkStmt k s a
    let b ← checkElse k s b
    return (.branch span cond a b, s)
  | .loop span cond body => do
    let cond ← checkCondition s cond
    let (body, _) ← checkStmt k s body
    return (.loop span cond body, s)
  | .ret span value => return (← checkReturn s span k.returnType value, s)
  | .throw span value => return (← checkThrow s span value, s)
  | .superCall span _ _ => fail .misplacedSuper span
  | .attempt span body handlers cleanup => do
    let body ← checkBlock k s body
    let handlers ← checkHandlers k s handlers
    let cleanup ← checkCleanup k s cleanup
    return (.attempt span body handlers cleanup, s)
  | .block span body => return (.block span (← checkBlock k s body), s)

def checkElse (k : BodyKind) (s : Scope) : Option Surface.Stmt → Check (Option Typed.Stmt)
  | none => return none
  | some b => do
    let (b, _) ← checkStmt k s b
    return some b

def checkBlock (k : BodyKind) (s : Scope) : Block → Check (List Typed.Stmt)
  | .mk _ stmts => checkStmts k s stmts

def checkCleanup (k : BodyKind) (s : Scope) : Option Block → Check (Option (List Typed.Stmt))
  | none => return none
  | some b => return some (← checkBlock k s b)

def checkHandlers (k : BodyKind) (s : Scope) : List Handler → Check (List Typed.Handler)
  | [] => return []
  | h :: hs => do
    let h ← checkHandler k s h
    let hs ← checkHandlers k s hs
    return h :: hs

def checkHandler (k : BodyKind) (s : Scope) : Handler → Check Typed.Handler
  | .mk className var body => do
    if !s.env.isException className.val then
      fail (.notException className.val) className.span
    requireFresh s var
    let body ← checkBlock k (s.add var.val (.ofClass className.val)) body
    return .mk className.val var.val body

def checkStmts (k : BodyKind) (s : Scope) : List Surface.Stmt → Check (List Typed.Stmt)
  | [] => return []
  | stmt :: stmts => do
    let (stmt, s') ← checkStmt k s stmt
    let stmts ← checkStmts k s' stmts
    return stmt :: stmts

end

/-- The call of a constructor of the superclass. -/
def checkSuperCall (s : Scope) (span : Span) (site : SiteId) (args : List Surface.Expr) :
    Check Typed.Stmt :=
  match (s.env.class? s.className).bind (·.superclass) with
  | none => fail (.noSuperclass s.className) span
  | some superclass => do
    let args ← checkArgs s args
    let ctor ← selectOverload s (s.env.constructors superclass) superclass args span
    record s site ctor.id .super (some (s.thisExpr span)) args span
    return .superCall span site ctor.id args

/-- A whole body. Only its first statement can be a call of a superclass constructor, and one that
has to return a value cannot be run off the end of. -/
def checkBody (k : BodyKind) (s : Scope) (body : Block) : Check (List Typed.Stmt) := do
  let stmts ← match body.stmts with
    | .superCall span site args :: rest => do
      if !k.isConstructor then
        fail .misplacedSuper span
      let first ← checkSuperCall s span site args
      let rest ← checkStmts k s rest
      pure (first :: rest)
    | stmts => checkStmts k s stmts
  if k.returnType != .void && !Typed.exitsAll stmts then
    fail (.missingReturn k.returnType) ⟨body.span.stop - 1, body.span.stop⟩
  return stmts

end Covenant.Typing
