import Covenant.Surface.Expr
import Covenant.Typed.Ty

/-!
# Faults of names and types

What can be wrong with a program that the grammar accepts.
-/

namespace Covenant

/-- The place whose type does not fit. -/
inductive TypedPlace
  | initializer
  | condition
  | returnValue
  | assignment
  | arrayLength
  | arrayIndex
  | operand (op : UnaryOp)
  | leftOperand (op : BinaryOp)
  | rightOperand (op : BinaryOp)
  deriving DecidableEq, Repr, Inhabited

/-- What needs an object to belong to. -/
inductive InstanceUse
  | this
  | field (name : String)
  | method (name : String)
  deriving DecidableEq, Repr, Inhabited

/-- A name as messages show it. -/
def quoted (name : String) : String := "`" ++ name ++ "`"

def TypedPlace.text : TypedPlace → String
  | initializer => "initializer"
  | condition => "condition"
  | returnValue => "return value"
  | assignment => "assignment"
  | arrayLength => "array length"
  | arrayIndex => "array index"
  | operand op => "operand of " ++ quoted op.text
  | leftOperand op => "left operand of " ++ quoted op.text
  | rightOperand op => "right operand of " ++ quoted op.text

def InstanceUse.text : InstanceUse → String
  | this => quoted "this"
  | field name => "field " ++ quoted name
  | method name => "instance method " ++ quoted name

inductive TypingFault
  | typeTwice (name : String)
  | unknownClass (name : String)
  | unknownInterface (name : String)
  | extendsInterface (name : String)
  | implementsClass (name : String)
  | inheritanceCycle (name : String)
  | unknownType (name : String)
  | paramTwice (name : String)
  | fieldTwice (name owner : String)
  | constructorTwice (owner : String)
  | methodTwice (name owner : String)
  | staticWithoutBody
  | hiddenField (name : String)
  | overrideReturn (method base : String)
  | implicitSuper (superclass : String)
  | mismatch (place : TypedPlace) (want found : Ty)
  | variableTwice (name : String)
  | misplacedSuper
  | noSuperclass (name : String)
  | missingReturn (type : Ty)
  | valueInVoid
  | missingValue (type : Ty)
  | notThrowable (type : Ty)
  | notException (name : String)
  | assignmentTarget
  | staticContext (use : InstanceUse)
  | newInterface (name : String)
  | notIndexable (type : Ty)
  | noResult
  | unknownName (name : String)
  | incomparable (left right : Ty)
  | notStaticField (name owner : String)
  | noField (owner name : String)
  /-- A value of a type that has no fields. -/
  | noFields (type : Ty) (name : String)
  | noMethods (type : Ty) (name : String)
  | notStaticMethod (name owner : String)
  | noOverload (name : String) (types : List Ty)
  deriving DecidableEq, Repr, Inhabited

namespace TypingFault

def message : TypingFault → String
  | typeTwice n => "type " ++ quoted n ++ " is already defined"
  | unknownClass n => "unknown class " ++ quoted n
  | unknownInterface n => "unknown interface " ++ quoted n
  | extendsInterface n => quoted n ++ " is an interface; use implements"
  | implementsClass n => quoted n ++ " is not an interface"
  | inheritanceCycle n => "inheritance cycle involving " ++ quoted n
  | unknownType n => "unknown type " ++ quoted n
  | paramTwice n => "duplicate parameter " ++ quoted n
  | fieldTwice n o => "field " ++ quoted n ++ " is already defined in " ++ quoted o
  | constructorTwice o => "constructor " ++ quoted o ++ " with these parameters is already defined"
  | methodTwice n o =>
    "method " ++ quoted n ++ " with these parameters is already defined in " ++ quoted o
  | staticWithoutBody => "static methods need a body"
  | hiddenField n => "field " ++ quoted n ++ " hides an inherited field"
  | overrideReturn m b => quoted m ++ " overrides " ++ quoted b ++ " with a different return type"
  | implicitSuper s => quoted s ++ " has no no-argument constructor; call super(...) explicitly"
  | mismatch p want found => p.text ++ ": expected " ++ want.text ++ ", found " ++ found.text
  | variableTwice n => "variable " ++ quoted n ++ " is already defined"
  | misplacedSuper => "super(...) must be the first statement of a constructor"
  | noSuperclass n => quoted n ++ " has no superclass"
  | missingReturn t => "missing return statement in method returning " ++ t.text
  | valueInVoid => "cannot return a value from a void member"
  | missingValue t => "missing return value of type " ++ t.text
  | notThrowable t => "only exceptions can be thrown, found " ++ t.text
  | notException n => quoted n ++ " is not an exception class"
  | assignmentTarget => "invalid assignment target"
  | staticContext use => use.text ++ " cannot be used in a static context"
  | newInterface n => "cannot instantiate interface " ++ quoted n
  | notIndexable t => "cannot index into " ++ t.text
  | noResult => quoted "result" ++ " has no value here"
  | unknownName n => "unknown name " ++ quoted n
  | incomparable l r => "cannot compare " ++ l.text ++ " with " ++ r.text
  | notStaticField n o => "field " ++ quoted n ++ " of " ++ quoted o ++ " is not static"
  | noField o n => quoted o ++ " has no field " ++ quoted n
  | noFields t n => t.text ++ " has no field " ++ quoted n
  | noMethods t n => t.text ++ " has no method " ++ quoted n
  | notStaticMethod n o => "method " ++ quoted n ++ " of " ++ quoted o ++ " is not static"
  | noOverload n ts =>
    "no applicable " ++ quoted n ++ " for arguments ("
      ++ String.intercalate ", " (ts.map Ty.text) ++ ")"

end TypingFault

end Covenant
