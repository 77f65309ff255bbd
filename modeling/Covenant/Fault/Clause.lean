import Covenant.Clause.Record
import Covenant.Fault.Typing

/-!
# Faults of clauses

What can be wrong with a clause whose text the grammar accepts: it stands where
it has no meaning, or it is no condition or no target.
-/

namespace Covenant

/-- Where clauses of members have no place. -/
inductive ClausePlace
  | types
  | fields
  | initializers
  | unknown
  deriving DecidableEq, Repr, Inhabited

def ClausePlace.text : ClausePlace → String
  | types => "types"
  | fields => "fields"
  | initializers => "initializer blocks"
  | unknown => "this declaration"

inductive ClauseFault
  | misplaced (tag : ClauseTag) (place : ClausePlace)
  | misplacedInvariant
  | noSubject (tag : ClauseTag)
  | subjectNotException (name : String)
  | oldOutsidePost
  | nestedOld
  | resultOutsidePost
  /-- The member returns nothing. -/
  | resultWithoutValue
  | notBoolean (tag : ClauseTag) (found : Ty)
  | notSpreadable (type : Ty)
  /-- A target that is no path, with its text. -/
  | notPath (text : String)
  deriving DecidableEq, Repr, Inhabited

namespace ClauseFault

def message : ClauseFault → String
  | misplaced tag place => tag.word ++ " clauses are not allowed on " ++ place.text
  | misplacedInvariant => "invariants are only allowed on classes"
  | noSubject tag => tag.word ++ " needs an exception type"
  | subjectNotException name => quoted name ++ " is not an exception class"
  | oldOutsidePost => "old(...) is only allowed in postconditions"
  | nestedOld => "old(...) cannot be nested"
  | resultOutsidePost => quoted "result" ++ " is only allowed in postconditions"
  | resultWithoutValue => quoted "result" ++ " has no value in a void member or constructor"
  | notBoolean tag found => tag.word ++ " clause must be boolean, found " ++ found.text
  | notSpreadable type => "cannot spread over " ++ type.text
  | notPath text => "effect target " ++ quoted text ++ " is not a path"

end ClauseFault

end Covenant
