import Covenant.Run.Eval

/-!
# Execution of statements

A statement runs in a frame and changes the local variables, which are the state
here. A block takes away what it declared on every way out of it. As in
evaluation, the recursion follows the statement; only loops need a bound on
their rounds.
-/

namespace Covenant

/-- Where control goes behind a statement that did not stop early. -/
inductive Flow
  | normal
  /-- Out of the body, because of the `return` at this place. -/
  | ret (v : Value) (span : Span)
  deriving DecidableEq, Repr, Inhabited

namespace Run

/-- Evaluates in a frame with the variables as they are now. -/
def inScope {α : Type} (f : Frame) (x : Frame → Run α) : RunWith Scopes α := do
  let scopes ← getThe Scopes
  keep (x { f with scopes })

/-- Hands over how a computation ended, be it by an early stop. -/
def observe {σ α : Type} (x : RunWith σ α) : RunWith σ (Except Unwind α) :=
  ExceptT.mk do
    let r ← x.run
    return .ok r

/-- Runs a block that starts with some variables. -/
def inBlock {α : Type} (vars : Table String Value) (x : RunWith Scopes α) : RunWith Scopes α :=
  ExceptT.mk do
    modifyThe Scopes (vars :: ·)
    let r ← x.run
    modifyThe Scopes List.tail
    return r

/-- Goes round while the condition holds and the body does not return. -/
def iterate (condition : RunWith Scopes Bool) (body : RunWith Scopes Flow) :
    Nat → RunWith Scopes Flow
  | 0 => keep exhausted
  | n + 1 => do
    if ← condition then
      match ← body with
      | .normal => iterate condition body n
      | .ret v span => return .ret v span
    else return .normal

/-- Hands an exception that is thrown to a handler. Nothing else can be caught. -/
def catching (body : RunWith Scopes Flow) (handle : Ref → RunWith Scopes Flow) :
    RunWith Scopes Flow := do
  match ← observe body with
  | .ok flow => return flow
  | .error (.throw e) => handle e
  | .error u => keep (stop u)

/-- How a statement with a `finally` block ends. A violation or a fatal error goes on whatever the
block does; of all other ends, that of the block counts if it does not end normally. -/
def afterCleanup (body cleanup : Except Unwind Flow) : Except Unwind Flow :=
  match body, cleanup with
  | .error (.violation v), _ => .error (.violation v)
  | .error (.fatal e), _ => .error (.fatal e)
  | _, .error u => .error u
  | _, .ok (.ret v span) => .ok (.ret v span)
  | r, .ok .normal => r

def withCleanup (body cleanup : RunWith Scopes Flow) : RunWith Scopes Flow := do
  let r ← observe body
  let c ← observe cleanup
  keep (ofResult (afterCleanup r c))

/-- Writes a variable that has to be there. -/
def assign (name : String) (v : Value) : RunWith Scopes Unit := do
  match (← getThe Scopes).assign? name v with
  | some scopes => set scopes
  | none => keep (defect (.unboundAssignment name))

/-- The value of an expression that may be left out. -/
def evalOr (env : Env) (calls : Calls) (f : Frame) (absent : Value) :
    Option Typed.Expr → RunWith Scopes Value
  | some e => inScope f (eval env calls · e)
  | none => return absent

mutual

/-- Runs a statement. The call of a superclass constructor is not run here: it does something only
as the first statement of a constructor. -/
def exec (env : Env) (calls : Calls) (f : Frame) : Typed.Stmt → RunWith Scopes Flow
  | .declare _ type name value => do
    let v ← evalOr env calls f (Value.default type) value
    modifyThe Scopes (·.declare name v)
    return .normal
  | .setVar _ name value => do
    let v ← inScope f (eval env calls · value)
    assign name v
    return .normal
  | .setField _ object name value => do
    let r ← inScope f (evalObject env calls · object)
    let v ← inScope f (eval env calls · value)
    keep (setField r name v)
    return .normal
  | .setStatic _ className name value => do
    let v ← inScope f (eval env calls · value)
    keep (setStatic env className name v)
    return .normal
  | .setIndex _ array index value => do
    let r ← inScope f (evalObject env calls · array)
    let i ← inScope f (evalInt env calls · index)
    let v ← inScope f (eval env calls · value)
    keep (setItem r i v)
    return .normal
  | .expr _ value => do
    let _ ← inScope f (eval env calls · value)
    return .normal
  | .branch _ condition thenBranch elseBranch => do
    if ← inScope f (evalBool env calls · condition) then
      inBlock .empty (exec env calls f thenBranch)
    else execElse env calls f elseBranch
  | .loop _ condition body =>
    iterate (inScope f (evalBool env calls · condition)) (inBlock .empty (exec env calls f body))
      calls.rounds
  | .ret span value => do
    let v ← evalOr env calls f .void value
    return .ret v span
  | .throw _ value => do
    let r ← inScope f (evalObject env calls · value)
    keep (stop (.throw r))
  | .superCall .. => return .normal
  | .attempt _ body handlers cleanup =>
    withCleanup
      (catching (inBlock .empty (execAll env calls f body)) fun e => do
        execHandlers env calls f e (← keep (classOf e)) handlers)
      (execCleanup env calls f cleanup)
  | .block _ body => inBlock .empty (execAll env calls f body)

/-- Runs statements until one of them leaves the body. -/
def execAll (env : Env) (calls : Calls) (f : Frame) : List Typed.Stmt → RunWith Scopes Flow
  | [] => return .normal
  | s :: rest => do
    match ← exec env calls f s with
    | .normal => execAll env calls f rest
    | .ret v span => return .ret v span

def execElse (env : Env) (calls : Calls) (f : Frame) : Option Typed.Stmt → RunWith Scopes Flow
  | none => return .normal
  | some s => inBlock .empty (exec env calls f s)

/-- Runs the first handler that takes exceptions of the class; without one the exception goes
on. -/
def execHandlers (env : Env) (calls : Calls) (f : Frame) (e : Ref) (className : String) :
    List Typed.Handler → RunWith Scopes Flow
  | [] => keep (stop (.throw e))
  | .mk c var body :: rest =>
    if env.isSubtype className c then
      inBlock (.ofList [(var, .ref e)]) (execAll env calls f body)
    else execHandlers env calls f e className rest

def execCleanup (env : Env) (calls : Calls) (f : Frame) :
    Option (List Typed.Stmt) → RunWith Scopes Flow
  | none => return .normal
  | some body => inBlock .empty (execAll env calls f body)

end

end Run

end Covenant
