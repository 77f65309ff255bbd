import Covenant.Run.Value
import Covenant.Effect.Path
import Covenant.Surface.Expr

/-!
# How a run ends

A computation of a program stops early for one of three reasons: it throws an
exception, a contract is violated, or the run itself cannot go on. Only the
first can be caught.
-/

namespace Covenant

inductive ViolationKind
  | precondition
  | postcondition
  | invariant
  | exceptionalPostcondition
  deriving DecidableEq, Repr, Inhabited

def ViolationKind.text : ViolationKind → String
  | precondition => "precondition"
  | postcondition => "postcondition"
  | invariant => "invariant"
  | exceptionalPostcondition => "exceptional postcondition"

/-- Where a contract failed. -/
inductive ViolationDetail
  | atEntry
  | atReturn
  | atEndOfBody
  /-- Nothing was thrown, though an exception of this class had to be. -/
  | completed (wanted : String)
  | threwOther (thrown wanted : String)
  /-- No condition for the exception held at entry. -/
  | threwUnlicensed (thrown : String)
  | afterCall (callee : String) (object : Effect.Path)
  deriving DecidableEq, Repr, Inhabited

def ViolationDetail.text : ViolationDetail → String
  | atEntry => "at entry"
  | atReturn => "at return"
  | atEndOfBody => "at end of body"
  | completed wanted => "completed normally although it must throw " ++ wanted
  | threwOther thrown wanted => "threw " ++ thrown ++ " but must throw " ++ wanted
  | threwUnlicensed thrown =>
    "threw " ++ thrown ++ " although no condition for it held at entry"
  | afterCall callee object => "after call to " ++ callee ++ ", on " ++ object.text

/-- A contract that was false when it was checked. -/
structure Violation where
  kind : ViolationKind
  /-- The member whose contract it is; for an invariant the class. -/
  member : String
  /-- The text of the clause; for a precondition one clause of each group. -/
  clause : String
  span : Span
  /-- The `return` or the call where it was checked, if there is one. -/
  site : Option Span
  detail : ViolationDetail
  deriving DecidableEq, Repr, Inhabited

def Violation.text (v : Violation) : String :=
  v.kind.text ++ " violated in " ++ v.member ++ ": " ++ v.clause ++ " (" ++ v.detail.text ++ ")"

/-- What goes wrong only in programs that were not checked. -/
inductive Defect
  | unknownMember (id : DeclId)
  | constructorWithoutObject
  | noDefaultConstructor (className : String)
  | notBooleanClause (text : String)
  | noAccessor (name className : String)
  | unboundAssignment (name : String)
  | thisOutsideObject
  | unboundVariable (name : String)
  | missingArgument (name : String)
  | lengthOfNonArray
  | unaryOperand (op : UnaryOp) (v : Value)
  | binaryOperands (op : BinaryOp) (l r : Value)
  | emptySlot (text : String)
  | notEvaluable (text : String)
  | notBoolean (v : Value)
  | notInt (v : Value)
  | notObject (v : Value)
  | noField (name : String)
  | fieldOfNonObject (name : String)
  | indexOfNonArray
  deriving DecidableEq, Repr, Inhabited

def Defect.text : Defect → String
  | unknownMember id => "unknown member #" ++ toString id
  | constructorWithoutObject => "constructor without an object"
  | noDefaultConstructor c => "`" ++ c ++ "` has no no-argument constructor"
  | notBooleanClause t => "clause `" ++ t ++ "` did not evaluate to a boolean"
  | noAccessor name c => "no accessor `" ++ name ++ "` on `" ++ c ++ "`"
  | unboundAssignment name => "assignment to unbound local `" ++ name ++ "`"
  | thisOutsideObject => "`this` outside an instance"
  | unboundVariable name => "unbound local `" ++ name ++ "`"
  | missingArgument name => "missing argument `" ++ name ++ "`"
  | lengthOfNonArray => "`length` of a non-array"
  | unaryOperand op v => "cannot apply " ++ op.text ++ " to " ++ v.text
  | binaryOperands op l r => "cannot apply " ++ op.text ++ " to " ++ l.text ++ " and " ++ r.text
  | emptySlot t => "empty slot " ++ t
  | notEvaluable t => "`" ++ t ++ "` cannot be evaluated"
  | notBoolean v => "expected a boolean, got " ++ v.text
  | notInt v => "expected an int, got " ++ v.text
  | notObject v => "expected an object, got " ++ v.text
  | noField name => "no field `" ++ name ++ "`"
  | fieldOfNonObject name => "field `" ++ name ++ "` of a non-object"
  | indexOfNonArray => "indexing a non-array"

/-- Why a run cannot go on. -/
inductive RunError
  | recursionLimit (member : String) (limit : Nat)
  | unknownEntry (entry : String)
  | badEntry (entry : String)
  | noImplementation (member className : String)
  | internal (defect : Defect)
  deriving DecidableEq, Repr, Inhabited

def RunError.text : RunError → String
  | recursionLimit member limit =>
    "recursion depth limit (" ++ toString limit ++ ") exceeded in " ++ member
  | unknownEntry entry => "unknown entry point `" ++ entry ++ "`"
  | badEntry entry =>
    "entry point `" ++ entry ++ "` must be a static method without parameters"
  | noImplementation member c =>
    "`" ++ member ++ "` has no implementation for receiver class `" ++ c ++ "`"
  | internal defect => "internal error: " ++ defect.text

/-- Why a computation stops early. -/
inductive Unwind
  /-- An exception object was thrown. -/
  | throw (exception : Ref)
  | violation (v : Violation)
  | fatal (e : RunError)
  deriving DecidableEq, Repr, Inhabited

/-- How a run ended that could go on to its end. -/
inductive Outcome
  | returned (v : Value)
  /-- An exception of this class escaped. -/
  | threw (className : String)
  | violated (v : Violation)
  deriving DecidableEq, Repr, Inhabited

end Covenant
