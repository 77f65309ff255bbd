import Covenant.Proofs.Fields
import Covenant.Proofs.Ends

/-!
# Machines whose values have their types

What stands on the heap never changes its shape: an object keeps its class, and an
array the type of its elements. So the heap is described by its shapes, to which
later ones are added at the end, and a value has a type for good. On a typed
machine every field of an object, every element of an array and every static field
has a value of its type.
-/

namespace Covenant

/-- What a place on the heap is for: an object of a class, or an array with elements of a type. -/
inductive Shape
  | inst (className : String)
  | array (elem : Ty)

/-- The shapes of a heap, by their places. -/
abbrev Shapes := List Shape

/-! ## Values -/

/-- The value is one of the type: a number, a boolean, nothing, or for a type of references `null`
or a reference to an object of a subclass or to an array. -/
inductive Value.HasType (env : Env) (σ : Shapes) : Value → Ty → Prop
  | int {n} : HasType env σ (.int n) .int
  | bool {b} : HasType env σ (.bool b) .boolean
  | void : HasType env σ .void .void
  | null {t} (ht : t.isReference = true) : HasType env σ .null t
  | inst {r c d} (hr : σ[r]? = some (.inst c)) (hs : env.isSubtype c d = true) :
      HasType env σ (.ref r) (.ofClass d)
  | array {r e} (hr : σ[r]? = some (.array e)) : HasType env σ (.ref r) (.array e)

namespace Value

variable {env : Env} {σ σ' : Shapes} {v : Value} {s t : Ty}

theorem shape_mono {r : Ref} {x : Shape} (hσ : σ <+: σ') (h : σ[r]? = some x) :
    σ'[r]? = some x := by
  obtain ⟨rest, rfl⟩ := hσ
  rw [List.getElem?_append_left (List.getElem?_eq_some_iff.mp h).1, h]

/-- A value keeps its type while the heap grows. -/
theorem HasType.mono (hσ : σ <+: σ') (h : v.HasType env σ t) : v.HasType env σ' t := by
  cases h with
  | int => exact .int
  | bool => exact .bool
  | void => exact .void
  | null ht => exact .null ht
  | inst hr hs => exact .inst (shape_mono hσ hr) hs
  | array hr => exact .array (shape_mono hσ hr)

/-- A value can stand where its type can. -/
theorem HasType.assign (h : v.HasType env σ s) (ha : env.isAssignable s t = true) :
    v.HasType env σ t := by
  rcases Env.isAssignable_iff.mp ha with rfl | ⟨rfl, ⟨c, rfl⟩ | ⟨e, rfl⟩⟩ | ⟨a, b, rfl, rfl, hab⟩
  · exact h
  · cases h
    exact .null rfl
  · cases h
    exact .null rfl
  · cases h with
    | null => exact .null rfl
    | inst hr hs => exact .inst hr (Env.isSubtype_trans hs hab)

theorem hasType_default (ht : t.Stored) : (default t).HasType env σ t := by
  cases t with
  | int => exact .int
  | boolean => exact .bool
  | void | null => exact ht.elim
  | ofClass | array => exact .null rfl

/-- Values of a list have the types of another one, one by one. -/
def HaveTypes (env : Env) (σ : Shapes) (vs : List Value) (ts : List Ty) : Prop :=
  List.Forall₂ (·.HasType env σ) vs ts

theorem HaveTypes.mono {vs : List Value} {ts : List Ty} (hσ : σ <+: σ')
    (h : HaveTypes env σ vs ts) : HaveTypes env σ' vs ts :=
  List.Forall₂.imp (fun _ _ hv => hv.mono hσ) h

theorem HaveTypes.getElem? {vs : List Value} {ts : List Ty} (h : HaveTypes env σ vs ts) {i : Nat}
    (ht : ts[i]? = some t) : ∃ v, vs[i]? = some v ∧ v.HasType env σ t := by
  induction h generalizing i with
  | nil => exact absurd ht (by simp)
  | cons hv _ ih =>
      cases i with
      | zero =>
          obtain rfl := Option.some.inj ht
          exact ⟨_, rfl, hv⟩
      | succ i => exact ih ht

end Value

/-! ## Objects and heaps -/

/-- The object has a shape: for an object a value of each of its fields, and elements of their type
for an array. -/
inductive Obj.HasShape (env : Env) (σ : Shapes) : Obj → Shape → Prop
  | inst {c fields} (h : ∀ f ∈ env.fieldsOf c, f.isStatic = false →
      ∃ v, fields.get? f.name = some v ∧ v.HasType env σ f.type) :
      HasShape env σ (.inst c fields) (.inst c)
  | array {items e} (h : ∀ v ∈ items, v.HasType env σ e) :
      HasShape env σ (.array items) (.array e)

theorem Obj.HasShape.mono {env : Env} {σ σ' : Shapes} {o : Obj} {x : Shape} (hσ : σ <+: σ')
    (h : o.HasShape env σ x) : o.HasShape env σ' x := by
  cases h with
  | inst h =>
      refine .inst fun f hf hs => ?_
      obtain ⟨v, hget, hv⟩ := h f hf hs
      exact ⟨v, hget, hv.mono hσ⟩
  | array h => exact .array fun v hv => (h v hv).mono hσ

/-- Every object of the heap has its shape. -/
structure Heap.Typed (env : Env) (σ : Shapes) (h : Heap) : Prop where
  size : h.size = σ.length
  objects : ∀ (r : Ref) x, σ[r]? = some x → ∃ o : Obj, h[r]? = some o ∧ o.HasShape env σ x

namespace Heap.Typed

variable {env : Env} {σ : Shapes} {h : Heap}

theorem empty : Heap.Typed env [] #[] := ⟨rfl, fun r x hx => absurd hx (by simp)⟩

/-- A new object goes to the end. -/
theorem push (ht : h.Typed env σ) {o : Obj} {x : Shape} (ho : o.HasShape env σ x) :
    Heap.Typed env (σ ++ [x]) (h.push o) := by
  have hσ : σ <+: σ ++ [x] := List.prefix_append ..
  refine ⟨by simp [ht.size], fun r y hy => ?_⟩
  rcases Nat.lt_or_ge r σ.length with hlt | hge
  · rw [List.getElem?_append_left hlt] at hy
    obtain ⟨o', ho', hshape⟩ := ht.objects r y hy
    refine ⟨o', ?_, hshape.mono hσ⟩
    rw [Array.getElem?_push, if_neg (by rw [ht.size]; omega), ho']
  · have hr : r = σ.length := by
      have := (List.getElem?_eq_some_iff.mp hy).1
      rw [List.length_append, List.length_singleton] at this
      exact Nat.le_antisymm (Nat.lt_succ_iff.mp this) hge
    subst hr
    rw [List.getElem?_append_right (Nat.le_refl _), Nat.sub_self] at hy
    obtain rfl := Option.some.inj hy
    refine ⟨o, ?_, ho.mono hσ⟩
    rw [Array.getElem?_push, if_pos ht.size.symm]

/-- An object may change as long as it keeps its shape. -/
theorem modify (ht : h.Typed env σ) {r : Ref} {f : Obj → Obj}
    (hf : ∀ o x, h[r]? = some o → σ[r]? = some x → o.HasShape env σ x → (f o).HasShape env σ x) :
    Heap.Typed env σ (h.modify r f) := by
  refine ⟨by rw [Array.size_modify, ht.size], fun r' x hx => ?_⟩
  obtain ⟨o, ho, hshape⟩ := ht.objects r' x hx
  rw [Array.getElem?_modify]
  split
  · next heq =>
      subst heq
      exact ⟨f o, by rw [ho]; rfl, hf o x ho hx hshape⟩
  · exact ⟨o, ho, hshape⟩

theorem inst (ht : h.Typed env σ) {r : Ref} {c : String} (hr : σ[r]? = some (.inst c)) :
    ∃ fields, h[r]? = some (.inst c fields) ∧ ∀ f ∈ env.fieldsOf c, f.isStatic = false →
      ∃ v, fields.get? f.name = some v ∧ v.HasType env σ f.type := by
  obtain ⟨o, ho, hshape⟩ := ht.objects r _ hr
  cases hshape with
  | inst hfields => exact ⟨_, ho, hfields⟩

theorem array (ht : h.Typed env σ) {r : Ref} {e : Ty} (hr : σ[r]? = some (.array e)) :
    ∃ items, h[r]? = some (.array items) ∧ ∀ v ∈ items, v.HasType env σ e := by
  obtain ⟨o, ho, hshape⟩ := ht.objects r _ hr
  cases hshape with
  | array hitems => exact ⟨_, ho, hitems⟩

theorem className? (ht : h.Typed env σ) {r : Ref} {c : String} (hr : σ[r]? = some (.inst c)) :
    h.className? r = some c := by
  obtain ⟨fields, hget, _⟩ := ht.inst hr
  rw [Heap.className?, hget]
  rfl

end Heap.Typed

/-! ## Machines -/

/-- Every object has its shape, and every static field a value of its type. -/
structure Machine.Typed (env : Env) (σ : Shapes) (μ : Machine) : Prop where
  heap : μ.heap.Typed env σ
  statics : ∀ id f, env.field? id = some f → f.isStatic = true →
    ∃ v, μ.statics.get? (f.owner, f.name) = some v ∧ v.HasType env σ f.type

namespace Machine.Typed

variable {env : Env} {σ σ' : Shapes} {μ : Machine}

/-- Static fields keep their types while the heap changes and grows. -/
theorem withHeap (ht : μ.Typed env σ) (hσ : σ <+: σ') {h : Heap} (hh : h.Typed env σ') :
    Machine.Typed env σ' { μ with heap := h } := by
  refine ⟨hh, fun id f hf hs => ?_⟩
  obtain ⟨v, hget, hv⟩ := ht.statics id f hf hs
  exact ⟨v, hget, hv.mono hσ⟩

theorem enter (ht : μ.Typed env σ) : μ.enter.Typed env σ := ⟨ht.heap, ht.statics⟩

theorem leave (ht : μ.Typed env σ) : μ.leave.Typed env σ := ⟨ht.heap, ht.statics⟩

end Machine.Typed

end Covenant
