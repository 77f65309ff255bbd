/-!
# Settings

Which kinds of checks are placed, and how deep calls may nest.
-/

namespace Covenant

/-- The kinds of checks, each of which can be left out. -/
structure Checks where
  preconditions : Bool := true
  postconditions : Bool := true
  invariants : Bool := true
  /-- Clauses about exceptions. -/
  exceptional : Bool := true
  deriving DecidableEq, Repr, Inhabited

structure Limits where
  maxCallDepth : Nat := 512
  deriving DecidableEq, Repr, Inhabited

structure Config where
  checks : Checks := {}
  runtime : Limits := {}
  deriving DecidableEq, Repr, Inhabited

end Covenant
