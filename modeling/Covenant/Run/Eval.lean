import Covenant.Run.Machine

/-!
# Evaluation of expressions

`eval` follows the expression and needs no bound on its steps. What a call does
is not its business: that comes in as `Calls`, so that everything said of
evaluation holds whatever calls do, as far as they do it too. An expression
without calls and creations does not depend on `Calls` at all.
-/

namespace Covenant

/-- What happens behind a call, given to everything that evaluates. -/
structure Calls where
  /-- Runs a member on an object and arguments. -/
  invoke : DeclId → Option Ref → List Value → Run Value
  /-- Checks what stands behind the call at a site of a declaration, which was made with an object
  and arguments. -/
  recheck : DeclId → SiteId → Option Ref → List Value → Run Unit
  /-- How often a loop may go round. -/
  rounds : Nat

namespace Run

def asBool : Value → Run Bool
  | .bool b => return b
  | v => defect (.notBoolean v)

def asInt : Value → Run Int64
  | .int n => return n
  | v => defect (.notInt v)

/-- The object that a value refers to; `null` throws. -/
def asObject : Value → Run Ref
  | .ref r => return r
  | .null => throwNew "NullPointerException"
  | v => defect (.notObject v)

/-- A prefix operator applied to a value. -/
def applyUnary : UnaryOp → Value → Run Value
  | .neg, .int n => return .int (-n)
  | .not, .bool b => return .bool (!b)
  | op, v => defect (.unaryOperand op v)

/-- An operator applied to two numbers. Sums and products wrap around, quotients are cut off toward
zero; division by zero throws. -/
def applyInts (op : BinaryOp) (a b : Int64) : Run Value :=
  match op with
  | .add => return .int (a + b)
  | .sub => return .int (a - b)
  | .mul => return .int (a * b)
  | .div => if b = 0 then throwNew "ArithmeticException" else return .int (a / b)
  | .mod => if b = 0 then throwNew "ArithmeticException" else return .int (a % b)
  | .lt => return .bool (a < b)
  | .gt => return .bool (b < a)
  | .ltEq => return .bool (a ≤ b)
  | .gtEq => return .bool (b ≤ a)
  | .eq | .neq | .and | .or => defect (.binaryOperands op (.int a) (.int b))

/-- An operator applied to two values. Any two can be compared for equality. -/
def applyBinary (op : BinaryOp) (l r : Value) : Run Value :=
  match op, l, r with
  | .eq, l, r => return .bool (l == r)
  | .neq, l, r => return .bool (l != r)
  | op, .int a, .int b => applyInts op a b
  | op, l, r => defect (.binaryOperands op l r)

/-- A method call with its object and arguments. What stands behind the call is checked also if the
method throws: it may have broken an invariant before. -/
def callMethod (env : Env) (calls : Calls) (caller : DeclId) (site : SiteId) (method : DeclId)
    (this : Option Ref) (args : List Value) : Run Value := do
  let target ← match this with
    | some r => pure (env.dispatch (← classOf r) method)
    | none => pure method
  let result ← liftM (calls.invoke target this args).run
  match result with
  | .ok v =>
    calls.recheck caller site this args
    return v
  | .error (.throw e) =>
    calls.recheck caller site this args
    stop (.throw e)
  | .error u => stop u

/-- Makes an object and runs a constructor on it. -/
def construct (env : Env) (calls : Calls) (caller : DeclId) (site : SiteId) (className : String)
    (ctor : DeclId) (args : List Value) : Run Value := do
  let r ← instantiate env className
  let _ ← calls.invoke ctor (some r) args
  calls.recheck caller site (some r) args
  return .ref r

mutual

/-- The value of an expression in a frame. -/
def eval (env : Env) (calls : Calls) (f : Frame) : Typed.Expr → Run Value
  | .int _ n => return .int n
  | .bool _ b => return .bool b
  | .null _ => return .null
  | .this _ _ =>
    match f.this with
    | some r => return .ref r
    | none => defect .thisOutsideObject
  | .var _ _ name =>
    match f.scopes.get? name with
    | some v => return v
    | none => defect (.unboundVariable name)
  | .param _ _ i name =>
    match f.args[i]? with
    | some v => return v
    | none => defect (.missingArgument name)
  | .field _ _ object name => do
    let r ← asObject (← eval env calls f object)
    getField r name
  | .staticField _ _ className name => getStatic env className name
  | .length _ array => do
    let r ← asObject (← eval env calls f array)
    arrayLength r
  | .index _ _ array index => do
    let r ← asObject (← eval env calls f array)
    let i ← asInt (← eval env calls f index)
    getItem r i
  | .binary _ .and lhs rhs => do
    if ← asBool (← eval env calls f lhs) then
      return .bool (← asBool (← eval env calls f rhs))
    else
      return .bool false
  | .binary _ .or lhs rhs => do
    if ← asBool (← eval env calls f lhs) then
      return .bool true
    else
      return .bool (← asBool (← eval env calls f rhs))
  | .binary _ op lhs rhs => do
    let l ← eval env calls f lhs
    let r ← eval env calls f rhs
    applyBinary op l r
  | .unary _ op operand => do
    applyUnary op (← eval env calls f operand)
  | .call _ _ site receiver method _ args => do
    let this ← evalReceiver env calls f receiver
    let args ← evalAll env calls f args
    callMethod env calls f.decl site method this args
  | .new _ site className ctor args => do
    let args ← evalAll env calls f args
    construct env calls f.decl site className ctor args
  | .newArray _ elem length => do
    let n ← asInt (← eval env calls f length)
    return .ref (← newArray elem n)
  | .result _ _ => return f.result
  | .slot span type n =>
    match f.slots.get? n with
    | some v => return v
    | none => defect (.emptySlot (Typed.Expr.slot span type n).text)
  | .old span x => defect (.notEvaluable (Typed.Expr.old span x).text)
  | .spread span x => defect (.notEvaluable (Typed.Expr.spread span x).text)

/-- The object that a call has in front of its dot; a static call has none. -/
def evalReceiver (env : Env) (calls : Calls) (f : Frame) : Option Typed.Expr → Run (Option Ref)
  | none => return none
  | some e => do
    let r ← asObject (← eval env calls f e)
    return some r

/-- The values of arguments, from left to right. -/
def evalAll (env : Env) (calls : Calls) (f : Frame) : List Typed.Expr → Run (List Value)
  | [] => return []
  | e :: es => do
    let v ← eval env calls f e
    let vs ← evalAll env calls f es
    return v :: vs

end

def evalBool (env : Env) (calls : Calls) (f : Frame) (e : Typed.Expr) : Run Bool := do
  asBool (← eval env calls f e)

def evalInt (env : Env) (calls : Calls) (f : Frame) (e : Typed.Expr) : Run Int64 := do
  asInt (← eval env calls f e)

def evalObject (env : Env) (calls : Calls) (f : Frame) (e : Typed.Expr) : Run Ref := do
  asObject (← eval env calls f e)

end Run

end Covenant
