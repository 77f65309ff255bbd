import Covenant.Typing.Body

/-!
# Typing of programs

Every initializer and body of a program is checked in its order. The result is
the environment with typed bodies and all calls.
-/

namespace Covenant.Typing

open Surface (Member TypeDecl Program)

/-- What the checking of bodies yields. -/
structure CheckedBodies where
  bodies : List (DeclId × List Typed.Stmt) := []
  fieldInits : List (DeclId × Typed.Expr) := []

def checkFieldInit (env : Env) (owner : String) (d : Surface.FieldDecl) (type : Ty)
    (init : Surface.Expr) : Check Typed.Expr := do
  let s := Scope.ofBody env owner d.id d.isStatic
  let value ← checkExpr s init
  requireType s .initializer type value
  return value

def checkMethod (env : Env) (info : MethodInfo) (body : Surface.Block) :
    Check (List Typed.Stmt) :=
  checkBody ⟨info.isConstructor, info.returnType⟩ (.ofMethod env info) body

def checkMember (env : Env) (owner : String) (out : CheckedBodies) :
    Member → Check CheckedBodies
  | .field d =>
    match d.init, env.field? d.id with
    | some init, some info => do
      let value ← checkFieldInit env owner d info.type init
      return { out with fieldInits := out.fieldInits ++ [(d.id, value)] }
    | _, _ => return out
  | .constructor d | .method d =>
    match d.body, env.method? d.id with
    | some body, some info => do
      let stmts ← checkMethod env info body
      return { out with bodies := out.bodies ++ [(d.id, stmts)] }
    | _, _ => return out
  | .initializer d => do
    let stmts ← checkBody ⟨false, .void⟩ (.ofBody env owner d.id false) d.body
    return { out with bodies := out.bodies ++ [(d.id, stmts)] }

def checkTypeDecl (env : Env) (out : CheckedBodies) (t : TypeDecl) : Check CheckedBodies :=
  t.members.foldlM (checkMember env t.name.val) out

/-- Whether a constructor starts by calling one of the superclass. -/
def callsSuper (bodies : List (DeclId × List Typed.Stmt)) (ctor : DeclId) : Bool :=
  ((Table.find? ctor bodies).bind (·.head?)).any (·.isSuperCall)

/-- A constructor that does not call one of the superclass runs the one that takes nothing, so there
has to be one. -/
def checkImplicitSuper (env : Env) (bodies : List (DeclId × List Typed.Stmt)) (info : ClassInfo) :
    Checked Unit :=
  match info.superclass with
  | none => .ok ()
  | some superclass =>
    if (env.defaultConstructor? superclass).isSome then .ok ()
    else info.ctors.forM fun ctor =>
      if callsSuper bodies ctor then .ok ()
      else typingFault (.implicitSuper superclass)
        (((env.method? ctor).map (·.span)).getD info.span)

/-- Puts a call site in front of those with higher numbers. -/
def insertSite (s : CallSite) : List CallSite → List CallSite
  | [] => [s]
  | t :: ts => if s.id < t.id then s :: t :: ts else t :: insertSite s ts

/-- Call sites in the order of their numbers. -/
def siteTable (sites : List CallSite) : Table SiteId CallSite :=
  .ofList ((sites.foldr insertSite []).map fun s => (s.id, s))

/-- The environment of a program whose declarations, bodies and initializers are all in order. -/
def checkProgram (p : Program) : Checked Env := do
  let env ← Env.declare p
  let (out, sites) ← (p.types.foldlM (checkTypeDecl env) {}).run []
  env.classes.values.forM (checkImplicitSuper env out.bodies)
  return { env with
    bodies := env.bodies.insertAll out.bodies
    fieldInits := env.fieldInits.insertAll out.fieldInits
    callSites := siteTable sites }

end Covenant.Typing
