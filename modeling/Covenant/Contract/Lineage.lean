import Covenant.Contract.Basic
import Covenant.Env.Basic

/-!
# Inheritance of specifications

A method takes over the clauses of every method that it overrides. Its callers
may rely on whichever declaration they see, so one group of preconditions is
enough to call it, and all postconditions hold. Effects are different: the
nearest declaration that says anything about them replaces all others. Static
methods and constructors have their own clauses only.
-/

namespace Covenant.Contract

/-- The methods whose clauses a member takes over, nearest first. -/
def ancestors (env : Env) (m : MethodInfo) : List DeclId :=
  if m.isConstructor || m.isStatic then [] else (env.overrides.get? m.id).getD []

/-- The declarations that make up a member's specification, its own first. -/
def lineage (env : Env) (decls : Table DeclId OwnClauses) (m : MethodInfo) : List OwnClauses :=
  (decls.get? m.id).getD {} :: (ancestors env m).filterMap decls.get?

def specificationOf (env : Env) (decls : Table DeclId OwnClauses) (m : MethodInfo) :
    Specification :=
  let chain := lineage env decls m
  { member := m.qualifiedName
    preconditions := (chain.map (·.preconditions)).filter (!·.isEmpty)
    postconditions := chain.flatMap (·.postconditions)
    throws := chain.flatMap (·.throws)
    mayThrow := chain.flatMap (·.mayThrow)
    effects := ((chain.map (·.effects)).find? (!·.isEmpty)).getD {} }

/-- The specifications of all members that have one. -/
def specifications (env : Env) (decls : Table DeclId OwnClauses) : Table DeclId Specification :=
  ⟨(env.methods.entries.map fun (id, m) => (id, specificationOf env decls m)).filter
    fun (_, s) => !s.isEmpty⟩

end Covenant.Contract
