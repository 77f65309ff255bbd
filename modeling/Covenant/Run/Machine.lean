import Covenant.Env.Basic
import Covenant.Run.Outcome

/-!
# The machine

The state that a program works on: the heap, the static fields, and how many
members are active. `Run` is a computation on it. A computation has a number of
steps that it may take; if they do not suffice it has no result at all, which is
never mistaken for a result.
-/

namespace Covenant

structure Machine where
  heap : Heap
  /-- The values of static fields by class and name. -/
  statics : Table (String × String) Value
  /-- The number of active members. -/
  depth : Nat
  deriving Inhabited

def Machine.initial : Machine := ⟨#[], .empty, 0⟩

/-- What happens on a machine, if the steps suffice. -/
abbrev Steps := StateT Machine Option

/-- A computation that yields a value or stops early; the machine goes on either way. -/
abbrev Run := ExceptT Unwind Steps

/-- A computation with a local state that outlives an early stop. -/
abbrev RunWith (σ : Type) := ExceptT Unwind (StateT σ Steps)

namespace Run

/-- The computation that has no steps left. -/
def exhausted {α : Type} : Run α := ExceptT.mk fun _ => none

def stop {α : Type} (u : Unwind) : Run α := ExceptT.mk (pure (.error u))

def fatal {α : Type} (e : RunError) : Run α := stop (.fatal e)

def defect {α : Type} (d : Defect) : Run α := fatal (.internal d)

/-- Goes on as a result says. -/
def ofResult {α : Type} (r : Except Unwind α) : Run α := ExceptT.mk (pure r)

/-- The computation in a place that has a local state, which it leaves alone. -/
def keep {σ α : Type} (x : Run α) : RunWith σ α :=
  ExceptT.mk fun s => do
    let r ← x.run
    return (r, s)

/-- The class of what a reference leads to; nothing for an array. -/
def classOf (r : Ref) : Run String := return ((← get).heap.className? r).getD ""

/-- Puts an object on the heap. -/
def alloc (o : Obj) : Run Ref := do
  let m ← get
  let (r, heap) := m.heap.alloc o
  set { m with heap }
  return r

/-- Throws a new exception of a built-in class. -/
def throwNew {α : Type} (className : String) : Run α := do
  let r ← alloc (.inst className .empty)
  stop (.throw r)

/-- A new object, all of whose fields have the values of their types. -/
def instantiate (env : Env) (className : String) : Run Ref :=
  let fields := ((env.classChain className).flatMap (·.fields)).filterMap env.field?
    |>.filter (!·.isStatic)
  alloc (.inst className (.ofList (fields.map fun f => (f.name, Value.default f.type))))

def getField (r : Ref) (name : String) : Run Value := do
  match (← get).heap[r]? with
  | some (.inst _ fields) =>
    match fields.get? name with
    | some v => return v
    | none => defect (.noField name)
  | _ => defect (.fieldOfNonObject name)

/-- Changes an object where it stands. -/
def updateObj (r : Ref) (f : Obj → Obj) : Run Unit :=
  modify fun m => { m with heap := m.heap.modify r f }

def setField (r : Ref) (name : String) (v : Value) : Run Unit := do
  match (← get).heap[r]? with
  | some (.inst _ _) => updateObj r (.setField name v)
  | _ => defect (.fieldOfNonObject name)

/-- The class that a static field belongs to, with its name. -/
def staticKey (env : Env) (className name : String) : String × String :=
  match env.lookupField? className name with
  | some f => (f.owner, f.name)
  | none => (className, name)

def getStatic (env : Env) (className name : String) : Run Value :=
  return ((← get).statics.get? (staticKey env className name)).getD .null

def setStatic (env : Env) (className name : String) (v : Value) : Run Unit :=
  modify fun m => { m with statics := m.statics.insert (staticKey env className name) v }

def arrayLength (r : Ref) : Run Value := do
  match (← get).heap[r]? with
  | some (.array items) => return .int (Int64.ofNat items.size)
  | _ => defect .lengthOfNonArray

/-- The position that an index names in an array, if there is one. -/
def position? (items : Array Value) (i : Int64) : Option Nat :=
  if 0 ≤ i.toInt && i.toInt < items.size then some i.toInt.toNat else none

theorem position?_lt {items : Array Value} {i : Int64} {n : Nat}
    (h : position? items i = some n) : n < items.size := by
  rw [position?] at h
  split at h
  · next hb =>
      obtain rfl := Option.some.inj h
      simp only [Bool.and_eq_true, decide_eq_true_eq] at hb
      omega
  · cases h

def getItem (r : Ref) (i : Int64) : Run Value := do
  match (← get).heap[r]? with
  | some (.array items) =>
    match position? items i with
    | some n => return items.getD n .null
    | none => throwNew "ArrayIndexOutOfBoundsException"
  | _ => defect .indexOfNonArray

def setItem (r : Ref) (i : Int64) (v : Value) : Run Unit := do
  match (← get).heap[r]? with
  | some (.array items) =>
    match position? items i with
    | some n => updateObj r (.setItem n v)
    | none => throwNew "ArrayIndexOutOfBoundsException"
  | _ => defect .indexOfNonArray

/-- A new array of default values. -/
def newArray (elem : Ty) (length : Int64) : Run Ref :=
  if length.toInt < 0 then throwNew "IllegalArgumentException"
  else alloc (.array (Array.replicate length.toInt.toNat (Value.default elem)))

end Run

/-- The local variables, those of the innermost block first. -/
abbrev Scopes := List (Table String Value)

namespace Scopes

/-- The value of a variable; an inner one hides those outside. -/
def get? (s : Scopes) (name : String) : Option Value := s.findSome? (·.get? name)

/-- Declares a variable in the innermost block. -/
def declare (s : Scopes) (name : String) (v : Value) : Scopes :=
  match s with
  | [] => []
  | t :: rest => t.insert name v :: rest

/-- Writes a variable where it was declared. -/
def assign? (name : String) (v : Value) : Scopes → Option Scopes
  | [] => none
  | t :: rest =>
    if t.contains name then some (t.insert name v :: rest)
    else (assign? name v rest).map (t :: ·)

end Scopes

/-- The entry values that a member has stored. -/
abbrev Slots := Table Nat Value

/-- What the expressions of an active member refer to. -/
structure Frame where
  decl : DeclId
  this : Option Ref
  /-- What was passed; clauses read parameters from here. -/
  args : List Value
  scopes : Scopes
  slots : Slots
  result : Value
  /-- The `return` that ended the body. -/
  exit : Option Span
  thrown : Option Ref
  deriving Inhabited

/-- The frame of a declaration that has just become active. -/
def Frame.start (decl : DeclId) (this : Option Ref) (args : List Value) : Frame where
  decl := decl
  this := this
  args := args
  scopes := [.empty]
  slots := .empty
  result := .void
  exit := none
  thrown := none

end Covenant
