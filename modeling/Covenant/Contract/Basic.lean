import Covenant.Clause.Record
import Covenant.Typed.Expr

/-!
# Clauses with their meaning

What is left of a clause once its names have been resolved, what is written on
one declaration, and the specification of a member that inheritance makes of it.
-/

namespace Covenant

/-- A clause whose expression has been typed. -/
structure BoundClause where
  tag : ClauseTag
  /-- The declaration that it is written on; an heir has the clauses of others too. -/
  origin : DeclId
  text : String
  expr : Typed.Expr
  span : Span
  deriving DecidableEq, Repr, Inhabited

/-- A clause about an exception: the class, and when it is thrown. -/
structure ThrowsClause where
  exception : String
  condition : BoundClause
  deriving DecidableEq, Repr, Inhabited

structure EffectClauses where
  inspects : List BoundClause := []
  mutates : List BoundClause := []
  mutatesProperties : List BoundClause := []
  deriving DecidableEq, Repr, Inhabited

def EffectClauses.isEmpty (e : EffectClauses) : Bool :=
  e.inspects.isEmpty && e.mutates.isEmpty && e.mutatesProperties.isEmpty

/-- The clauses that are written on one declaration. -/
structure OwnClauses where
  preconditions : List BoundClause := []
  postconditions : List BoundClause := []
  invariants : List BoundClause := []
  throws : List ThrowsClause := []
  mayThrow : List ThrowsClause := []
  effects : EffectClauses := {}
  deriving DecidableEq, Repr, Inhabited

/-- The clauses that hold for a member, its own and those that it inherits. -/
structure Specification where
  member : String
  /-- One group per declaration that has a precondition, the member's own first. A call is in order
  if it meets all of one group. -/
  preconditions : List (List BoundClause) := []
  postconditions : List BoundClause := []
  throws : List ThrowsClause := []
  mayThrow : List ThrowsClause := []
  effects : EffectClauses := {}
  /-- For each clause of `throws` the slot that keeps its condition's value from entry. -/
  throwsSlots : List Nat := []
  deriving DecidableEq, Repr, Inhabited

def Specification.isEmpty (s : Specification) : Bool :=
  s.preconditions.isEmpty && s.postconditions.isEmpty && s.throws.isEmpty && s.mayThrow.isEmpty
    && s.effects.isEmpty

end Covenant
