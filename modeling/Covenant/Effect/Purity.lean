import Covenant.Contract.Basic
import Covenant.Env.Basic

/-!
# Which members mutate nothing

A member that only declares what it inspects mutates nothing. Of the members
that declare nothing, a pure accessor is a method of an object that takes
nothing, returns something, and computes it in one `return` without creating
anything, passing anything, or calling what might mutate. A method without a
body is taken for one if some target or view calls it as an accessor.
-/

namespace Covenant.Effect

/-- The effects that a member declares or inherits, if there are any. -/
def declaredEffects? (specs : Table DeclId Specification) (id : DeclId) : Option EffectClauses :=
  ((specs.get? id).map (·.effects)).filter (!·.isEmpty)

/-- The method of a call without arguments. -/
def accessor? : Typed.Expr → Option DeclId
  | .call _ _ _ _ m _ [] => some m
  | _ => none

/-- The methods that are steps of what members inspect or of whose properties they mutate. -/
def referencedAccessors (specs : Table DeclId Specification) : List DeclId :=
  specs.values.flatMap fun s =>
    (s.effects.inspects ++ s.effects.mutatesProperties).flatMap fun c =>
      c.expr.parts.filterMap accessor?

/-- Whether evaluating this part creates an object or passes an argument. -/
def createsOrPasses : Typed.Expr → Bool
  | .call _ _ _ _ _ _ args => !args.isEmpty
  | .new .. | .newArray .. => true
  | _ => false

/-- The method of a call. -/
def callee? : Typed.Expr → Option DeclId
  | .call _ _ _ _ m _ _ => some m
  | _ => none

/-- What a body returns that does nothing else. -/
def returnedExpr? : List Typed.Stmt → Option Typed.Expr
  | [.ret _ (some e)] => some e
  | _ => none

/-- Whether a method has the form of an accessor. -/
def isAccessorForm (m : MethodInfo) : Bool :=
  !m.isStatic && !m.isConstructor && m.params.isEmpty && m.returnType != .void

/-- Whether a member mutates nothing, where those of `visiting` are not relied on. -/
def isPureFrom (env : Env) (specs : Table DeclId Specification) :
    Nat → List DeclId → DeclId → Bool
  | 0, _, _ => false
  | n + 1, visiting, id =>
    match declaredEffects? specs id with
    | some e => e.mutates.isEmpty && e.mutatesProperties.isEmpty
    | none =>
      match env.method? id with
      | none => false
      | some m =>
        if !isAccessorForm m then false
        else if !m.hasBody then (referencedAccessors specs).contains id
        else
          match (env.body? id).bind returnedExpr? with
          | none => false
          | some e =>
            !e.parts.any createsOrPasses && !visiting.contains id
              && (e.parts.filterMap callee?).all (isPureFrom env specs n (id :: visiting))

/-- Whether a member mutates nothing. Each step goes to a method that was not visited, so there are
no more steps than methods. -/
def isPure (env : Env) (specs : Table DeclId Specification) (id : DeclId) : Bool :=
  isPureFrom env specs (env.methods.size + 1) [] id

end Covenant.Effect
