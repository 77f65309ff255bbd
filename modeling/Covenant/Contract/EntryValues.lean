import Covenant.Contract.Basic
import Covenant.Env.Basic

/-!
# Entry values

What a postcondition says in `old` is evaluated when the member is entered, and
so is the condition of a `throws` clause. Each value goes into a slot, and the
exit checks read slots. The conditions come first and have slots of their own,
so that a term in `old` that throws cannot leave one of them empty; equal terms
of one type share a slot.
-/

namespace Covenant.Contract

inductive SnapshotPoint
  /-- Behind the precondition, in front of the body. -/
  | methodEntry
  /-- In front of everything else that a constructor does. -/
  | constructorPrologue
  deriving DecidableEq, Repr, Inhabited

/-- The values that a member stores at entry. A slot is known by its position. -/
structure Snapshot where
  point : SnapshotPoint
  slots : List Typed.Expr
  deriving DecidableEq, Repr, Inhabited

/-- Whether two terms share a slot. -/
def sharesSlot (a b : Typed.Expr) : Bool := a.type == b.type && a.text == b.text

/-- The slot of a term, which is a new one unless one from `first` on can be shared. -/
def slotFor (first : Nat) (slots : List Typed.Expr) (e : Typed.Expr) : Nat × List Typed.Expr :=
  match (slots.drop first).findIdx? (sharesSlot · e) with
  | some i => (first + i, slots)
  | none => (slots.length, slots ++ [e])

mutual

/-- Gives every term in `old` a slot, from the inside out and from left to right, and reads the slot
in its place. -/
def storeOld (first : Nat) (slots : List Typed.Expr) : Typed.Expr → Typed.Expr × List Typed.Expr
  | .old span x =>
    let (x, slots) := storeOld first slots x
    let (n, slots) := slotFor first slots x
    (.slot span x.type n, slots)
  | .field span t object name =>
    let (object, slots) := storeOld first slots object
    (.field span t object name, slots)
  | .length span array =>
    let (array, slots) := storeOld first slots array
    (.length span array, slots)
  | .index span t array index =>
    let (array, slots) := storeOld first slots array
    let (index, slots) := storeOld first slots index
    (.index span t array index, slots)
  | .binary span op l r =>
    let (l, slots) := storeOld first slots l
    let (r, slots) := storeOld first slots r
    (.binary span op l r, slots)
  | .unary span op x =>
    let (x, slots) := storeOld first slots x
    (.unary span op x, slots)
  | .call span t site receiver m name args =>
    let (receiver, slots) := storeOldOpt first slots receiver
    let (args, slots) := storeOldAll first slots args
    (.call span t site receiver m name args, slots)
  | .new span site c ctor args =>
    let (args, slots) := storeOldAll first slots args
    (.new span site c ctor args, slots)
  | .newArray span elem length =>
    let (length, slots) := storeOld first slots length
    (.newArray span elem length, slots)
  | .spread span x =>
    let (x, slots) := storeOld first slots x
    (.spread span x, slots)
  | e => (e, slots)

def storeOldOpt (first : Nat) (slots : List Typed.Expr) :
    Option Typed.Expr → Option Typed.Expr × List Typed.Expr
  | none => (none, slots)
  | some e =>
    let (e, slots) := storeOld first slots e
    (some e, slots)

def storeOldAll (first : Nat) (slots : List Typed.Expr) :
    List Typed.Expr → List Typed.Expr × List Typed.Expr
  | [] => ([], slots)
  | e :: es =>
    let (e, slots) := storeOld first slots e
    let (es, slots) := storeOldAll first slots es
    (e :: es, slots)

end

/-- The postconditions with slots in place of `old`. -/
def storePosts (first : Nat) (slots : List Typed.Expr) :
    List BoundClause → List BoundClause × List Typed.Expr
  | [] => ([], slots)
  | c :: cs =>
    let (e, slots) := storeOld first slots c.expr
    let (cs, slots) := storePosts first slots cs
    ({ c with expr := e } :: cs, slots)

/-- A specification that reads slots, and the terms to store in them. -/
def scheduleOne (s : Specification) : Specification × List Typed.Expr :=
  let conditions := s.throws.map (·.condition.expr)
  let first := conditions.length
  let (posts, slots) := storePosts first conditions s.postconditions
  ({ s with postconditions := posts, throwsSlots := List.range first }, slots)

def snapshotPoint (env : Env) (id : DeclId) : SnapshotPoint :=
  if (env.method? id).any (·.isConstructor) then .constructorPrologue else .methodEntry

/-- Schedules all specifications; a member without slots has no snapshot. -/
def schedule (env : Env) (specs : Table DeclId Specification) :
    Table DeclId Specification × Table DeclId Snapshot :=
  let scheduled := specs.entries.map fun (id, s) => (id, scheduleOne s)
  (⟨scheduled.map fun (id, s, _) => (id, s)⟩,
    ⟨(scheduled.filter fun (_, _, slots) => !slots.isEmpty).map
      fun (id, _, slots) => (id, ⟨snapshotPoint env id, slots⟩)⟩)

end Covenant.Contract
