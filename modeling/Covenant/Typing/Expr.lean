import Covenant.Env.Declare

/-!
# Typing of expressions

An expression is checked in a scope: the class and member that it stands in, the
local variables, and in a clause the parameters and `result`. Checking a body
also writes down its calls; the calls of a clause are not written down, because
only checks evaluate them.

A name means a local variable first, then a parameter of the clause, then a
field. Where a member is selected, a name that means none of these may be that
of a class.
-/

namespace Covenant.Typing

open Surface (TypeExpr)

/-- What a clause may refer to besides the members of its class. -/
structure ClauseFrame where
  params : List (String × Ty)
  /-- The type of `result`, where it has a value. -/
  result : Option Ty
  deriving Repr, Inhabited

structure Scope where
  env : Env
  className : String
  decl : DeclId
  isStatic : Bool
  /-- The local variables, the newest first. -/
  locals : List (String × Ty)
  /-- Present in clauses. -/
  clause : Option ClauseFrame

namespace Scope

/-- The scope of a body or initializer without parameters. -/
def ofBody (env : Env) (className : String) (decl : DeclId) (isStatic : Bool) : Scope where
  env := env
  className := className
  decl := decl
  isStatic := isStatic
  locals := []
  clause := none

def ofMethod (env : Env) (m : MethodInfo) : Scope :=
  { ofBody env m.owner m.id m.isStatic with locals := m.params.reverse }

def ofClause (env : Env) (className : String) (decl : DeclId) (isStatic : Bool)
    (frame : ClauseFrame) : Scope :=
  { ofBody env className decl isStatic with clause := some frame }

def local? (s : Scope) (name : String) : Option Ty := s.locals.lookup name

/-- The position and type of a parameter of the clause. -/
def param? (s : Scope) (name : String) : Option (Nat × Ty) := do
  let frame ← s.clause
  let i ← frame.params.findIdx? (·.1 == name)
  let (_, type) ← frame.params[i]?
  return (i, type)

/-- The field that a name means on its own. -/
def ownField? (s : Scope) (name : String) : Option FieldInfo := s.env.lookupField? s.className name

/-- The class that an expression names, if its name means no value. -/
def namedClass? (s : Scope) : Surface.Expr → Option String
  | .name _ name =>
    if (s.local? name).isNone && (s.param? name).isNone && (s.ownField? name).isNone
        && s.env.classes.contains name then
      some name
    else none
  | _ => none

def thisExpr (s : Scope) (span : Span) : Typed.Expr := .this span s.className

end Scope

/-- Checking in a body, which writes down the calls that it meets. -/
abbrev Check := StateT (List CallSite) Checked

def fail {α : Type} (fault : TypingFault) (span : Span) : Check α := throw ⟨fault, span⟩

/-- Something that needs an object stands where there is one. -/
def requireInstance (s : Scope) (use : InstanceUse) (span : Span) : Check Unit :=
  if s.isStatic then fail (.staticContext use) span else return

def requireType (s : Scope) (place : TypedPlace) (want : Ty) (e : Typed.Expr) : Check Unit :=
  if s.env.isAssignable e.type want then return
  else fail (.mismatch place want e.type) e.span

def record (s : Scope) (id : SiteId) (callee : DeclId) (kind : CallKind)
    (receiver : Option Typed.Expr) (args : List Typed.Expr) (span : Span) : Check Unit :=
  if s.clause.isSome then return
  else modify (· ++ [{ id, caller := s.decl, callee, kind, receiver, args, span }])

/-- Whether a member takes arguments of these types. -/
def isApplicable (env : Env) (types : List Ty) (m : MethodInfo) : Bool :=
  m.params.length == types.length
    && (types.zip m.paramTypes).all fun (source, target) => env.isAssignable source target

/-- The member that arguments of these types select: one with these very parameter types, or else
the first one that takes them. -/
def selectOverload? (env : Env) (candidates : List MethodInfo) (types : List Ty) :
    Option MethodInfo :=
  let applicable := candidates.filter (isApplicable env types)
  (applicable.find? fun m => m.paramTypes == types).or applicable.head?

def selectOverload (s : Scope) (candidates : List MethodInfo) (name : String)
    (args : List Typed.Expr) (span : Span) : Check MethodInfo :=
  match selectOverload? s.env candidates (args.map (·.type)) with
  | some m => return m
  | none => fail (.noOverload name (args.map (·.type))) span

def resolveType (s : Scope) (t : TypeExpr) : Check Ty := liftM (s.env.resolveType t)

/-- What a name means on its own. -/
def checkName (s : Scope) (span : Span) (name : String) : Check Typed.Expr :=
  match s.local? name with
  | some type => return .var span type name
  | none =>
    match s.param? name with
    | some (i, type) => return .param span type i name
    | none =>
      match s.ownField? name with
      | some f => do
        if f.isStatic then
          return .staticField span f.type f.owner f.name
        requireInstance s (.field name) span
        return .field span f.type (s.thisExpr span) f.name
      | none => fail (.unknownName name) span

/-- A field that is selected from a class. -/
def checkStaticField (s : Scope) (span : Span) (owner : String) (name : Located String) :
    Check Typed.Expr :=
  match s.env.lookupField? owner name.val with
  | some f =>
    if f.isStatic then return .staticField span f.type f.owner f.name
    else fail (.notStaticField name.val owner) name.span
  | none => fail (.noField owner name.val) name.span

/-- A field that is selected from a value; a static one does not need it. -/
def checkField (s : Scope) (span : Span) (object : Typed.Expr) (name : Located String) :
    Check Typed.Expr :=
  match object.type with
  | .ofClass owner =>
    match s.env.lookupField? owner name.val with
    | some f =>
      if f.isStatic then return .staticField span f.type f.owner f.name
      else return .field span f.type object f.name
    | none => fail (.noField owner name.val) name.span
  | .array elem =>
    if name.val == "length" then return .length span object
    else fail (.noFields (.array elem) name.val) name.span
  | t => fail (.noFields t name.val) name.span

def requireOperands (s : Scope) (op : BinaryOp) (type : Ty) (l r : Typed.Expr) : Check Unit := do
  requireType s (.leftOperand op) type l
  requireType s (.rightOperand op) type r

/-- What the operands of an operator have to be. -/
def checkOperands (s : Scope) (span : Span) (op : BinaryOp) (l r : Typed.Expr) : Check Unit :=
  match op with
  | .add | .sub | .mul | .div | .mod | .lt | .gt | .ltEq | .gtEq => requireOperands s op .int l r
  | .and | .or => requireOperands s op .boolean l r
  | .eq | .neq =>
    if s.env.isAssignable l.type r.type || s.env.isAssignable r.type l.type then return
    else fail (.incomparable l.type r.type) span

/-- A call of a method that was found: a static one has no receiver. -/
def checkCall (s : Scope) (span : Span) (site : SiteId) (receiver : Option Typed.Expr)
    (m : MethodInfo) (name : String) (args : List Typed.Expr) : Check Typed.Expr := do
  record s site m.id .method receiver args span
  return .call span m.returnType site receiver m.id name args

/-- The class whose constructors `new` selects from. -/
def checkNewClass (s : Scope) (name : Located String) : Check Unit :=
  match s.env.class? name.val with
  | none => fail (.unknownClass name.val) name.span
  | some info => if info.isInterface then fail (.newInterface name.val) name.span else return

mutual

def checkExpr (s : Scope) : Surface.Expr → Check Typed.Expr
  | .int span n => return .int span n
  | .bool span b => return .bool span b
  | .null span => return .null span
  | .this span => do
    requireInstance s .this span
    return s.thisExpr span
  | .name span name => checkName s span name
  | .binary span op lhs rhs => do
    let l ← checkExpr s lhs
    let r ← checkExpr s rhs
    checkOperands s span op l r
    return .binary span op l r
  | .unary span op operand => do
    let e ← checkExpr s operand
    requireType s (.operand op) (Typed.Expr.operandType op) e
    return .unary span op e
  | .field span object name =>
    match s.namedClass? object with
    | some owner => checkStaticField s span owner name
    | none => do
      let object ← checkExpr s object
      checkField s span object name
  | .call span site name args => do
    let args ← checkArgs s args
    let m ← selectOverload s (s.env.lookupMethods s.className name.val) name.val args span
    if m.isStatic then
      checkCall s span site none m name.val args
    else do
      requireInstance s (.method name.val) name.span
      checkCall s span site (some (s.thisExpr name.span)) m name.val args
  | .methodCall span site object name args =>
    match s.namedClass? object with
    | some owner => do
      let args ← checkArgs s args
      let m ← selectOverload s (s.env.lookupMethods owner name.val) name.val args span
      if m.isStatic then
        checkCall s span site none m name.val args
      else
        fail (.notStaticMethod name.val owner) name.span
    | none => do
      let receiver ← checkExpr s object
      match receiver.type with
      | .ofClass owner => do
        let args ← checkArgs s args
        let m ← selectOverload s (s.env.lookupMethods owner name.val) name.val args span
        checkCall s span site (if m.isStatic then none else some receiver) m name.val args
      | t => fail (.noMethods t name.val) name.span
  | .new span site className args => do
    checkNewClass s className
    let args ← checkArgs s args
    let ctor ← selectOverload s (s.env.constructors className.val) className.val args span
    record s site ctor.id .new none args span
    return .new span site className.val ctor.id args
  | .newArray span elem length => do
    let elem ← resolveType s elem
    let length ← checkExpr s length
    requireType s .arrayLength .int length
    return .newArray span elem length
  | .index span array index => do
    let array ← checkExpr s array
    match array.type with
    | .array elem => do
      let index ← checkExpr s index
      requireType s .arrayIndex .int index
      return .index span elem array index
    | t => fail (.notIndexable t) array.span
  | .old span inner => return .old span (← checkExpr s inner)
  | .result span =>
    match s.clause.bind (·.result) with
    | some type => return .result span type
    | none => fail .noResult span
  | .spread span inner => return .spread span (← checkExpr s inner)

def checkArgs (s : Scope) : List Surface.Expr → Check (List Typed.Expr)
  | [] => return []
  | e :: es => do
    let e ← checkExpr s e
    let es ← checkArgs s es
    return e :: es

end

end Covenant.Typing
