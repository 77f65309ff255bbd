import Covenant.Proofs.Chronicles
import Covenant.Proofs.Tables
import Mathlib.Logic.Function.Basic

/-!
# Other names for references

A reference is a position on the heap, and a program can do nothing with one but
follow it, pass it on and compare it with others. So nothing that a program works
on depends on which positions its objects have. Here a renaming of references is
carried through everything that values occur in; each operation on values does
the same before a renaming and behind it.
-/

namespace Covenant

/-! ## Tables -/

namespace Table

variable {κ α β : Type} [DecidableEq κ]

omit [DecidableEq κ] in
/-- The table with other values under its keys. -/
def mapValues (f : α → β) (t : Table κ α) : Table κ β := ⟨t.entries.map fun (k, v) => (k, f v)⟩

@[simp] theorem get?_mapValues (f : α → β) (t : Table κ α) (k : κ) :
    (t.mapValues f).get? k = (t.get? k).map f :=
  find?_map (fun _ => f) k t.entries

@[simp] theorem contains_mapValues (f : α → β) (t : Table κ α) (k : κ) :
    (t.mapValues f).contains k = t.contains k := by
  rw [contains, get?_mapValues, Option.isSome_map, contains]

omit [DecidableEq κ] in
@[simp] theorem mapValues_empty (f : α → β) : (empty : Table κ α).mapValues f = empty := rfl

theorem mapValues_insert (f : α → β) (t : Table κ α) (k : κ) (v : α) :
    (t.insert k v).mapValues f = (t.mapValues f).insert k (f v) := by
  have put : ∀ es : List (κ × α), (put k v es).map (fun (k, v) => (k, f v)) =
      Table.put k (f v) (es.map fun (k, v) => (k, f v)) := by
    intro es
    induction es with
    | nil => rfl
    | cons e es ih =>
        obtain ⟨k₀, v₀⟩ := e
        rw [Table.put, List.map_cons, Table.put]
        split
        · rw [List.map_cons]
        · rw [List.map_cons, ih]
  exact congrArg Table.mk (put t.entries)

theorem mapValues_ofList (f : α → β) (es : List (κ × α)) :
    (ofList es).mapValues f = ofList (es.map fun (k, v) => (k, f v)) := by
  have all : ∀ (es : List (κ × α)) (t : Table κ α), (t.insertAll es).mapValues f =
      (t.mapValues f).insertAll (es.map fun (k, v) => (k, f v)) := by
    intro es
    induction es with
    | nil => exact fun _ => rfl
    | cons e es ih =>
        intro t
        exact (ih (t.insert e.1 e.2)).trans (by rw [mapValues_insert]; rfl)
  exact all es empty

end Table

variable (ρ : Ref → Ref)

/-! ## Values and objects -/

namespace Value

def rename : Value → Value
  | ref r => ref (ρ r)
  | int n => int n
  | bool b => bool b
  | null => null
  | void => void

@[simp] theorem rename_default (t : Ty) : (default t).rename ρ = default t := by
  cases t <;> rfl

@[simp] theorem ref?_rename (v : Value) : (v.rename ρ).ref? = v.ref?.map ρ := by
  cases v <;> rfl

@[simp] theorem rename_eq_bool {v : Value} {b : Bool} : v.rename ρ = bool b ↔ v = bool b := by
  cases v <;> simp [rename]

theorem rename_injective {ρ : Ref → Ref} (h : Function.Injective ρ) :
    Function.Injective (rename ρ) := by
  intro v w heq
  cases v <;> cases w <;> simp only [rename, reduceCtorEq, ref.injEq, int.injEq, bool.injEq] at heq
  all_goals first | rfl | rw [heq] | rw [h heq]

end Value

namespace Obj

def rename : Obj → Obj
  | inst c fields => inst c (fields.mapValues (Value.rename ρ))
  | array items => array (items.map (Value.rename ρ))

@[simp] theorem className?_rename (o : Obj) : (o.rename ρ).className? = o.className? := by
  cases o <;> rfl

theorem rename_setField (name : String) (v : Value) (o : Obj) :
    (o.setField name v).rename ρ = (o.rename ρ).setField name (v.rename ρ) := by
  cases o with
  | inst c fields => exact congrArg (inst c) (Table.mapValues_insert _ fields name v)
  | array items => rfl

theorem rename_setItem (i : Nat) (v : Value) (o : Obj) :
    (o.setItem i v).rename ρ = (o.rename ρ).setItem i (v.rename ρ) := by
  cases o with
  | inst c fields => rfl
  | array items => exact congrArg array Array.map_setIfInBounds

end Obj

/-! ## Frames -/

namespace Scopes

def rename (s : Scopes) : Scopes := s.map (Table.mapValues (Value.rename ρ))

theorem get?_cons (t : Table String Value) (s : Scopes) (name : String) :
    get? (t :: s) name = (t.get? name).or (get? s name) := by
  show List.findSome? _ (_ :: _) = _
  rw [List.findSome?_cons]
  cases t.get? name <;> rfl

@[simp] theorem get?_rename (s : Scopes) (name : String) :
    (s.rename ρ).get? name = (s.get? name).map (Value.rename ρ) := by
  induction s with
  | nil => rfl
  | cons t s ih =>
      show get? (t.mapValues (Value.rename ρ) :: rename ρ s) name = _
      rw [get?_cons, get?_cons, Table.get?_mapValues, ih, Option.map_or]

theorem rename_declare (s : Scopes) (name : String) (v : Value) :
    (s.declare name v).rename ρ = (s.rename ρ).declare name (v.rename ρ) := by
  cases s with
  | nil => rfl
  | cons t s => exact congrArg (· :: _) (Table.mapValues_insert _ t name v)

theorem assign?_rename (s : Scopes) (name : String) (v : Value) :
    (s.rename ρ).assign? name (v.rename ρ) = (s.assign? name v).map (rename ρ) := by
  induction s with
  | nil => rfl
  | cons t s ih =>
      show assign? _ _ (_ :: rename ρ s) = _
      rw [assign?, assign?, Table.contains_mapValues]
      split
      · rw [← Table.mapValues_insert]
        rfl
      · rw [ih, Option.map_map, Option.map_map]
        rfl

end Scopes

namespace Frame

def rename (f : Frame) : Frame where
  decl := f.decl
  this := f.this.map ρ
  args := f.args.map (Value.rename ρ)
  scopes := f.scopes.rename ρ
  slots := f.slots.mapValues (Value.rename ρ)
  result := f.result.rename ρ
  exit := f.exit
  thrown := f.thrown.map ρ

end Frame

/-! ## Ways to end -/

def Flow.rename : Flow → Flow
  | .normal => .normal
  | .ret v span => .ret (v.rename ρ) span

theorem Frame.rename_returning (f : Frame) (flow : Flow) :
    (Run.Frame.returning f flow).rename ρ = Run.Frame.returning (f.rename ρ) (flow.rename ρ) := by
  cases flow <;> rfl

/-- The defect as it is met with other references: some show the value that they were met with. -/
def Defect.rename : Defect → Defect
  | .unaryOperand op v => .unaryOperand op (v.rename ρ)
  | .binaryOperands op l r => .binaryOperands op (l.rename ρ) (r.rename ρ)
  | .notBoolean v => .notBoolean (v.rename ρ)
  | .notInt v => .notInt (v.rename ρ)
  | .notObject v => .notObject (v.rename ρ)
  | d => d

def RunError.rename : RunError → RunError
  | .internal d => .internal (d.rename ρ)
  | e => e

def Unwind.rename : Unwind → Unwind
  | .throw e => .throw (ρ e)
  | .violation v => .violation v
  | .fatal e => .fatal (e.rename ρ)

theorem Unwind.uncatchable?_rename {ρ : Ref → Ref} {u : Unwind} (h : u.uncatchable? = some u) :
    (u.rename ρ).uncatchable? = some (u.rename ρ) := by
  cases u with
  | throw => cases h
  | violation | fatal => rfl

def Outcome.rename : Outcome → Outcome
  | .returned v => .returned (v.rename ρ)
  | .threw className => .threw className
  | .violated v => .violated v

/-! ## Names that stay as they are -/

@[simp] theorem Value.rename_id (v : Value) : v.rename id = v := by cases v <;> rfl

theorem Value.rename_id' : Value.rename id = id := funext Value.rename_id

theorem Table.mapValues_id {κ α : Type} (t : Table κ α) : t.mapValues id = t :=
  congrArg Table.mk (List.map_id t.entries)

@[simp] theorem Obj.rename_id (o : Obj) : o.rename id = o := by
  cases o with
  | inst c fields => exact congrArg (Obj.inst c) (by rw [Value.rename_id', Table.mapValues_id])
  | array items => exact congrArg Obj.array (by rw [Value.rename_id', Array.map_id])

@[simp] theorem Unwind.rename_id (u : Unwind) : u.rename id = u := by
  rcases u with _ | _ | ⟨_ | _ | _ | _ | ⟨d⟩⟩
  all_goals first | rfl | cases d <;> simp [Unwind.rename, RunError.rename, Defect.rename]

end Covenant
