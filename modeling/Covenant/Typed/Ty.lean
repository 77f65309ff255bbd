/-!
# Types
-/

namespace Covenant

inductive Ty
  | int
  | boolean
  | void
  /-- The type of `null`, which every reference type takes. -/
  | null
  | ofClass (name : String)
  | array (elem : Ty)
  deriving DecidableEq, Repr, Inhabited

namespace Ty

def text : Ty → String
  | int => "int"
  | boolean => "boolean"
  | void => "void"
  | null => "null"
  | ofClass name => name
  | array elem => elem.text ++ "[]"

def isReference : Ty → Bool
  | null | ofClass _ | array _ => true
  | int | boolean | void => false

def className? : Ty → Option String
  | ofClass name => some name
  | _ => none

/-- What a collection of this type holds; only arrays are collections. -/
def elem? : Ty → Option Ty
  | array elem => some elem
  | _ => none

end Ty

end Covenant
