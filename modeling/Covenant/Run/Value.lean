import Covenant.Source.Table
import Covenant.Typed.Ty

/-!
# Values and objects

Objects live on a heap that only grows. A reference is the position of its
object; an object keeps its class, an array its length.
-/

namespace Covenant

/-- The position of an object on the heap. -/
abbrev Ref := Nat

inductive Value
  | int (n : Int64)
  | bool (b : Bool)
  | null
  | ref (r : Ref)
  /-- What a call yields that returns nothing. -/
  | void
  deriving DecidableEq, Repr, Inhabited

namespace Value

/-- The value of what was never assigned. -/
def default : Ty → Value
  | .int => int 0
  | .boolean => bool false
  | _ => null

/-- The object that a value refers to. -/
def ref? : Value → Option Ref
  | ref r => some r
  | _ => none

def text : Value → String
  | int n => toString n.toInt
  | bool b => if b then "true" else "false"
  | null => "null"
  | ref r => "@" ++ toString r
  | void => "void"

end Value

inductive Obj
  | inst (className : String) (fields : Table String Value)
  | array (items : Array Value)

namespace Obj

/-- The class of an object; an array has none. -/
def className? : Obj → Option String
  | inst c _ => some c
  | array _ => none

/-- The object with a field written; an array has no fields. -/
def setField (name : String) (v : Value) : Obj → Obj
  | inst c fields => inst c (fields.insert name v)
  | array items => array items

/-- The array with the item at a position written; an object has no items. -/
def setItem (i : Nat) (v : Value) : Obj → Obj
  | inst c fields => inst c fields
  | array items => array (items.setIfInBounds i v)

end Obj

abbrev Heap := Array Obj

namespace Heap

/-- The heap with one object more, and the reference to it. -/
def alloc (h : Heap) (o : Obj) : Ref × Heap := (h.size, h.push o)

/-- The class of what a reference leads to. -/
def className? (h : Heap) (r : Ref) : Option String := (h[r]?).bind Obj.className?

end Heap

end Covenant
