import Covenant.Proofs.TypedMachine
import Covenant.Proofs.Elaborated

/-!
# Computations that keep types

A computation is sound for some shapes if it can do nothing wrong on a machine that
has them: the machine that it leaves is typed again, for shapes to which some may
have been added; an exception that it throws is an object; and it does not end in a
defect. What is known of its result is said for the shapes at its end. A sequence
is sound if its parts are, so soundness of an evaluation follows its recursion.
-/

namespace Covenant

variable {τ α β : Type}

/-- An early stop that can occur in a checked program: what is thrown is an object, and nothing has
gone wrong that goes wrong only in programs that were not checked. -/
def Unwind.Typed (σ : Shapes) : Unwind → Prop
  | .throw e => ∃ c, σ[e]? = some (.inst c)
  | .violation _ => True
  | .fatal e => ∀ d, e ≠ .internal d

theorem Unwind.Typed.mono {σ σ' : Shapes} {u : Unwind} (hσ : σ <+: σ') (h : u.Typed σ) :
    u.Typed σ' := by
  cases u with
  | throw e =>
      obtain ⟨c, hc⟩ := h
      exact ⟨c, Value.shape_mono hσ hc⟩
  | violation | fatal => exact h

/-- The end of a computation: its value is as asked for, or it is an early stop that can occur. -/
def Shapes.Admits (σ : Shapes) (Q : α → Prop) : Except Unwind α → Prop
  | .ok a => Q a
  | .error u => u.Typed σ

namespace Run

/-- The computation keeps the types of machines with these shapes, and its value is as asked for. -/
def Sound (env : Env) (σ : Shapes) (x : Run α) (Q : Shapes → α → Prop) : Prop :=
  ∀ ⦃μ⦄, μ.Typed env σ → ∀ ⦃r μ'⦄, x.ends μ = some (r, μ') →
    ∃ σ' : Shapes, σ <+: σ' ∧ μ'.Typed env σ' ∧ σ'.Admits (Q σ') r

namespace Sound

variable {env : Env} {σ : Shapes} {Q Q' : Shapes → α → Prop}

theorem pure {a : α} (h : Q σ a) : Sound env σ (Pure.pure a) Q := by
  rintro μ hμ _ _ ⟨⟩
  exact ⟨σ, List.prefix_rfl, hμ, h⟩

theorem stop {u : Unwind} (h : u.Typed σ) : Sound env σ (Run.stop u) Q := by
  rintro μ hμ _ _ ⟨⟩
  exact ⟨σ, List.prefix_rfl, hμ, h⟩

theorem fatal {e : RunError} (h : ∀ d, e ≠ .internal d) : Sound env σ (Run.fatal e) Q := stop h

theorem exhausted : Sound env σ Run.exhausted Q := by
  rintro μ hμ _ _ ⟨⟩

theorem ofResult {r : Except Unwind α} (h : σ.Admits (Q σ) r) :
    Sound env σ (Run.ofResult r) Q := by
  rintro μ hμ _ _ ⟨⟩
  exact ⟨σ, List.prefix_rfl, hμ, h⟩

theorem bind {x : Run α} {f : α → Run β} {R : Shapes → β → Prop} (hx : Sound env σ x Q)
    (hf : ∀ σ' a, σ <+: σ' → Q σ' a → Sound env σ' (f a) R) : Sound env σ (x >>= f) R := by
  intro μ hμ r μ' h
  rcases ends_bind_eq_some.mp h with ⟨u, hu, rfl⟩ | ⟨a, μ₁, ha, hb⟩
  · exact hx hμ hu
  · obtain ⟨σ₁, hσ₁, hμ₁, hQ⟩ := hx hμ ha
    obtain ⟨σ₂, hσ₂, hμ₂, hR⟩ := hf σ₁ a hσ₁ hQ hμ₁ hb
    exact ⟨σ₂, hσ₁.trans hσ₂, hμ₂, hR⟩

theorem mono {x : Run α} (hx : Sound env σ x Q) (h : ∀ σ' a, σ <+: σ' → Q σ' a → Q' σ' a) :
    Sound env σ x Q' := by
  intro μ hμ r μ' hr
  obtain ⟨σ', hσ', hμ', hQ⟩ := hx hμ hr
  refine ⟨σ', hσ', hμ', ?_⟩
  cases r with
  | ok a => exact h σ' a hσ' hQ
  | error u => exact hQ

/-- What depends on the machine is sound if it is on every typed one. -/
theorem get {f : Machine → Run α} (hf : ∀ μ, μ.Typed env σ → Sound env σ (f μ) Q) :
    Sound env σ (MonadState.get >>= f) Q := by
  intro μ hμ r μ' h
  rw [ends_bind_ok (ends_get μ)] at h
  exact hf μ hμ hμ h

/-- A change that keeps the shapes. -/
theorem modify {f : Machine → Machine} (hf : ∀ μ, μ.Typed env σ → (f μ).Typed env σ) :
    Sound env σ (MonadState.modifyGet fun μ => ((), f μ) : Run PUnit) fun _ _ => True := by
  rintro μ hμ _ _ ⟨⟩
  exact ⟨σ, List.prefix_rfl, hf μ hμ, trivial⟩

end Sound

/-! ## What works on the heap -/

section

variable {env : Env} {σ : Shapes} {Q : Shapes → α → Prop}

theorem alloc_sound {o : Obj} {x : Shape} (ho : o.HasShape env σ x) :
    Sound env σ (alloc o) fun σ' r => σ'[r]? = some x := by
  rintro μ hμ _ _ ⟨⟩
  have hσ : σ <+: σ ++ [x] := List.prefix_append ..
  refine ⟨σ ++ [x], hσ, hμ.withHeap hσ (hμ.heap.push ho), ?_⟩
  show (σ ++ [x])[μ.heap.size]? = some x
  rw [hμ.heap.size, List.getElem?_append_right (Nat.le_refl _), Nat.sub_self]
  rfl

variable {p : Surface.Program} (hd : env.DeclaredBy p)

include hd

theorem throwNew_sound {c : String} (hc : c ∈ Env.builtinExceptions.map (·.1)) :
    Sound env σ (throwNew c) Q := by
  obtain ⟨x, hx, rfl⟩ := List.mem_map.mp hc
  refine (alloc_sound (.inst fun f hf => ?_)).bind fun σ' r _ hr => .stop ⟨x.1, hr⟩
  rw [hd.fieldsOf_exception hx] at hf
  exact absurd hf List.not_mem_nil

/-- A new object has the values that fields start with. -/
theorem instantiate_sound (c : String) :
    Sound env σ (instantiate env c) fun σ' r => σ'[r]? = some (.inst c) := by
  refine alloc_sound (.inst fun f hf hs => ?_)
  have hmem : f ∈ (env.fieldsOf c).filter (!·.isStatic) :=
    List.mem_filter.mpr ⟨hf, by simp [hs]⟩
  obtain ⟨v, hget, hv⟩ := Table.exists_get?_insertAll (t := .empty)
    (List.mem_map_of_mem (f := fun f : FieldInfo => (f.name, Value.default f.type)) hmem)
  obtain ⟨g, hg, heq⟩ := List.mem_map.mp hv
  obtain ⟨hn, rfl⟩ := Prod.mk.inj heq
  obtain rfl := hd.fieldsOf_inj (List.mem_filter.mp hg).1 hf hn
  exact ⟨_, hget, Value.hasType_default (hd.stored_of_mem_fieldsOf hf)⟩

/-- A field of an object has a value of its type. -/
theorem getField_sound {r : Ref} {c n : String} {f : FieldInfo}
    (hr : (Value.ref r).HasType env σ (.ofClass c)) (hf : env.lookupField? c n = some f)
    (hs : f.isStatic = false) : Sound env σ (getField r n) fun σ' v => v.HasType env σ' f.type := by
  cases hr with
  | inst hr hsub =>
      refine .get fun μ hμ => ?_
      obtain ⟨fields, hget, hfields⟩ := hμ.heap.inst hr
      obtain ⟨hmem, rfl⟩ := Env.mem_of_lookupField? (hd.lookupField?_mono hsub hf)
      obtain ⟨v, hv, htype⟩ := hfields f hmem hs
      simp only [hget, hv]
      exact .pure htype

/-- Writing a value of the type of a field keeps objects in shape. -/
theorem setField_sound {r : Ref} {c n : String} {f : FieldInfo} {v : Value}
    (hr : (Value.ref r).HasType env σ (.ofClass c)) (hf : env.lookupField? c n = some f)
    (hv : v.HasType env σ f.type) : Sound env σ (setField r n v) fun _ _ => True := by
  cases hr with
  | @inst _ c' _ hr hsub =>
      obtain ⟨hmem, rfl⟩ := Env.mem_of_lookupField? (hd.lookupField?_mono hsub hf)
      refine .get fun μ hμ => ?_
      obtain ⟨fields, hget, _⟩ := hμ.heap.inst hr
      simp only [hget]
      refine .modify fun μ hμ => hμ.withHeap List.prefix_rfl (hμ.heap.modify fun o x _ hx ho => ?_)
      obtain rfl := Option.some.inj (hr.symm.trans hx)
      cases ho with
      | inst hfields =>
          refine .inst fun g hg hs => ?_
          by_cases hn : f.name = g.name
          · obtain rfl := hd.fieldsOf_inj hmem hg hn
            exact ⟨v, Table.get?_insert_self .., hv⟩
          · obtain ⟨w, hw, htype⟩ := hfields g hg hs
            exact ⟨w, (Table.get?_insert_of_ne _ hn v).trans hw, htype⟩

omit hd in
theorem staticKey_eq {c n : String} {f : FieldInfo} (hf : env.lookupField? c n = some f) :
    staticKey env c n = (f.owner, f.name) := by
  rw [staticKey, hf]

theorem getStatic_sound {c n : String} {f : FieldInfo} (hf : env.lookupField? c n = some f)
    (hs : f.isStatic = true) :
    Sound env σ (getStatic env c n) fun σ' v => v.HasType env σ' f.type := by
  refine .get fun μ hμ => ?_
  obtain ⟨hget, _⟩ := hd.mem_fieldsOf.mp (Env.mem_of_lookupField? hf).1
  obtain ⟨v, hv, htype⟩ := hμ.statics f.id f hget hs
  rw [staticKey_eq hf, hv]
  exact .pure htype

/-- No two fields have one name and one class. -/
theorem eq_of_key {f g : FieldInfo} (hf : env.field? f.id = some f) (hg : env.field? g.id = some g)
    (hkey : (f.owner, f.name) = (g.owner, g.name)) : f = g := by
  obtain ⟨howner, hname⟩ := Prod.mk.inj hkey
  obtain ⟨info, hi, hid⟩ := hd.type_of_field hf
  obtain ⟨info', hi', hid'⟩ := hd.type_of_field hg
  obtain rfl := Option.some.inj ((howner ▸ hi).symm.trans hi')
  exact hd.eq_of_fieldName hi hf hg hid hid' hname

/-- Writing a value of its type to a static field. -/
theorem writeStatic_sound {f : FieldInfo} (hf : env.field? f.id = some f) {v : Value}
    (hv : v.HasType env σ f.type) :
    Sound env σ (MonadState.modifyGet fun μ : Machine =>
      ((), { μ with statics := μ.statics.insert (f.owner, f.name) v }) : Run PUnit)
      fun _ _ => True := by
  refine .modify fun μ hμ => ⟨hμ.heap, fun id g hg hs => ?_⟩
  by_cases hkey : (f.owner, f.name) = (g.owner, g.name)
  · obtain rfl := (hd.field_cases id g hg).1
    obtain rfl := eq_of_key hd hf hg hkey
    exact ⟨v, Table.get?_insert_self .., hv⟩
  · obtain ⟨w, hw, htype⟩ := hμ.statics id g hg hs
    exact ⟨w, (Table.get?_insert_of_ne _ hkey v).trans hw, htype⟩

theorem setStatic_sound {c n : String} {f : FieldInfo} {v : Value}
    (hf : env.lookupField? c n = some f) (hv : v.HasType env σ f.type) :
    Sound env σ (setStatic env c n v) fun _ _ => True := by
  rw [setStatic, staticKey_eq hf]
  exact writeStatic_sound hd (hd.mem_fieldsOf.mp (Env.mem_of_lookupField? hf).1).1 hv

theorem newArray_sound {e : Ty} (he : e.Stored) (n : Int64) :
    Sound env σ (newArray e n) fun σ' r => σ'[r]? = some (.array e) := by
  rw [newArray]
  split
  · exact throwNew_sound hd (by decide)
  · refine alloc_sound (.array fun v hv => ?_)
    obtain ⟨_, rfl⟩ := Array.mem_replicate.mp hv
    exact Value.hasType_default he

omit hd in
theorem arrayLength_sound {r : Ref} {e : Ty} (hr : (Value.ref r).HasType env σ (.array e)) :
    Sound env σ (arrayLength r) fun σ' v => v.HasType env σ' .int := by
  cases hr with
  | array hr =>
      refine .get fun μ hμ => ?_
      obtain ⟨items, hget, _⟩ := hμ.heap.array hr
      simp only [hget]
      exact .pure .int

theorem getItem_sound {r : Ref} {e : Ty} (hr : (Value.ref r).HasType env σ (.array e))
    (i : Int64) : Sound env σ (getItem r i) fun σ' v => v.HasType env σ' e := by
  cases hr with
  | array hr =>
      refine .get fun μ hμ => ?_
      obtain ⟨items, hget, hitems⟩ := hμ.heap.array hr
      simp only [hget]
      cases hn : position? items i with
      | none => exact throwNew_sound hd (by decide)
      | some n =>
          have hlt := position?_lt hn
          refine .pure ?_
          rw [Array.getD_eq_getD_getElem?, Array.getElem?_eq_getElem hlt, Option.getD_some]
          exact hitems _ (Array.getElem_mem hlt)

theorem setItem_sound {r : Ref} {e : Ty} (hr : (Value.ref r).HasType env σ (.array e))
    (i : Int64) {v : Value} (hv : v.HasType env σ e) :
    Sound env σ (setItem r i v) fun _ _ => True := by
  cases hr with
  | array hr =>
      refine .get fun μ hμ => ?_
      obtain ⟨items, hget, _⟩ := hμ.heap.array hr
      simp only [hget]
      cases hn : position? items i with
      | none => exact throwNew_sound hd (by decide)
      | some n =>
          refine .modify fun μ hμ =>
            hμ.withHeap List.prefix_rfl (hμ.heap.modify fun o x _ hx ho => ?_)
          obtain rfl := Option.some.inj (hr.symm.trans hx)
          cases ho with
          | array hitems =>
              refine .array fun w hw => ?_
              rcases Array.mem_or_eq_of_mem_setIfInBounds hw with hw | rfl
              · exact hitems w hw
              · exact hv

/-! ## What works on values -/

omit hd in
theorem asBool_sound {v : Value} (h : v.HasType env σ .boolean) :
    Sound env σ (asBool v) fun _ _ => True := by
  cases h with
  | bool => exact .pure trivial
  | null ht => cases ht

omit hd in
theorem asInt_sound {v : Value} (h : v.HasType env σ .int) :
    Sound env σ (asInt v) fun _ _ => True := by
  cases h with
  | int => exact .pure trivial
  | null ht => cases ht

/-- Of a type of references only `null` and references are values. -/
theorem asObject_sound {v : Value} {t : Ty} (h : v.HasType env σ t)
    (ht : (∃ c, t = .ofClass c) ∨ ∃ e, t = .array e) :
    Sound env σ (asObject v) fun σ' r => (Value.ref r).HasType env σ' t := by
  cases h with
  | int | bool | void => rcases ht with ⟨c, hc⟩ | ⟨e, he⟩ <;> contradiction
  | null => exact throwNew_sound hd (by decide)
  | inst hr hs => exact .pure (.inst hr hs)
  | array hr => exact .pure (.array hr)

omit hd in
theorem applyUnary_sound {op : UnaryOp} {v : Value}
    (h : v.HasType env σ (Typed.Expr.operandType op)) :
    Sound env σ (applyUnary op v) fun σ' w => w.HasType env σ' (Typed.Expr.operandType op) := by
  cases op with
  | neg =>
      cases h with
      | int => exact .pure .int
      | null ht => cases ht
  | not =>
      cases h with
      | bool => exact .pure .bool
      | null ht => cases ht

/-- Operators that are not evaluated from left to right as far as needed. -/
theorem applyBinary_sound {op : BinaryOp} (hop : op ≠ .and ∧ op ≠ .or) {s t : Ty}
    (hfit : Typing.OperandsFit env op s t) {v w : Value} (hv : v.HasType env σ s)
    (hw : w.HasType env σ t) :
    Sound env σ (applyBinary op v w) fun σ' x => x.HasType env σ' (Typed.Expr.resultType op) := by
  cases op with
  | eq | neq => exact .pure .bool
  | and => exact absurd rfl hop.1
  | or => exact absurd rfl hop.2
  | add | sub | mul | lt | gt | ltEq | gtEq =>
      obtain rfl := Env.eq_int_of_isAssignable hfit.1
      obtain rfl := Env.eq_int_of_isAssignable hfit.2
      cases hv with
      | null ht => cases ht
      | int =>
          cases hw with
          | null ht => cases ht
          | int =>
              first
              | exact .pure .int
              | exact .pure .bool
  | div | mod =>
      obtain rfl := Env.eq_int_of_isAssignable hfit.1
      obtain rfl := Env.eq_int_of_isAssignable hfit.2
      cases hv with
      | null ht => cases ht
      | int =>
          cases hw with
          | null ht => cases ht
          | int =>
              simp only [applyBinary, applyInts]
              split
              · exact throwNew_sound hd (by decide)
              · exact .pure .int

end

theorem deeper_sound {env : Env} {σ : Shapes} {x : Run α} {Q : Shapes → α → Prop}
    (hx : Sound env σ x Q) : Sound env σ (deeper x) Q := by
  intro μ hμ r μ' h
  rw [ends_deeper] at h
  obtain ⟨⟨r', μ₁⟩, hr, heq⟩ := Option.map_eq_some_iff.mp h
  obtain ⟨rfl, rfl⟩ := Prod.mk.inj heq
  obtain ⟨σ', hσ', hμ', hQ⟩ := hx hμ.enter hr
  exact ⟨σ', hσ', hμ'.leave, hQ⟩

end Run

/-! ## Computations with a local state -/

/-- The end of a computation with a local state, which is known of its value and of what an early
stop leaves. -/
def Shapes.AdmitsWith (σ : Shapes) (Q : α → τ → Prop) (E : τ → Prop) :
    Except Unwind α → τ → Prop
  | .ok a, s => Q a s
  | .error u, s => u.Typed σ ∧ E s

/-- From a local state the computation keeps the types of machines with these shapes. What is known
of the state that it leaves is said for values and for early stops. -/
def RunWith.Sound (env : Env) (σ : Shapes) (s : τ) (x : RunWith τ α)
    (Q : Shapes → α → τ → Prop) (E : Shapes → τ → Prop) : Prop :=
  ∀ ⦃μ⦄, μ.Typed env σ → ∀ ⦃r s' μ'⦄, x.ends s μ = some ((r, s'), μ') →
    ∃ σ' : Shapes, σ <+: σ' ∧ μ'.Typed env σ' ∧ σ'.AdmitsWith (Q σ') (E σ') r s'

namespace RunWith.Sound

variable {env : Env} {σ : Shapes} {s : τ} {Q Q' : Shapes → α → τ → Prop}
  {E E' : Shapes → τ → Prop}

theorem pure {a : α} (h : Q σ a s) : RunWith.Sound env σ s (Pure.pure a) Q E := by
  rintro μ hμ _ _ _ ⟨⟩
  exact ⟨σ, List.prefix_rfl, hμ, h⟩

theorem bind {x : RunWith τ α} {f : α → RunWith τ β} {R : Shapes → β → τ → Prop}
    (hx : RunWith.Sound env σ s x Q E)
    (hf : ∀ σ' a s', σ <+: σ' → Q σ' a s' → RunWith.Sound env σ' s' (f a) R E) :
    RunWith.Sound env σ s (x >>= f) R E := by
  intro μ hμ r s' μ' h
  rcases RunWith.ends_bind_eq_some.mp h with ⟨u, hu, rfl⟩ | ⟨a, s₁, μ₁, ha, hb⟩
  · exact hx hμ hu
  · obtain ⟨σ₁, hσ₁, hμ₁, hQ⟩ := hx hμ ha
    obtain ⟨σ₂, hσ₂, hμ₂, hR⟩ := hf σ₁ a s₁ hσ₁ hQ hμ₁ hb
    exact ⟨σ₂, hσ₁.trans hσ₂, hμ₂, hR⟩

theorem mono {x : RunWith τ α} (hx : RunWith.Sound env σ s x Q E)
    (hQ : ∀ σ' a s', σ <+: σ' → Q σ' a s' → Q' σ' a s')
    (hE : ∀ σ' s', σ <+: σ' → E σ' s' → E' σ' s') : RunWith.Sound env σ s x Q' E' := by
  intro μ hμ r s' μ' hr
  obtain ⟨σ', hσ', hμ', hend⟩ := hx hμ hr
  refine ⟨σ', hσ', hμ', ?_⟩
  cases r with
  | ok a => exact hQ σ' a s' hσ' hend
  | error u => exact ⟨hend.1, hE σ' s' hσ' hend.2⟩

/-- A computation without the local state leaves it as it is. -/
theorem keep {x : Run α} {R : Shapes → α → Prop} (hx : Run.Sound env σ x R) :
    RunWith.Sound env σ s (Run.keep x) (fun σ' a s' => R σ' a ∧ s' = s) fun _ s' => s' = s := by
  intro μ hμ r s' μ' h
  obtain ⟨hr, rfl⟩ := RunWith.ends_keep_eq_some.mp h
  obtain ⟨σ', hσ', hμ', hR⟩ := hx hμ hr
  refine ⟨σ', hσ', hμ', ?_⟩
  cases r with
  | ok a => exact ⟨hR, rfl⟩
  | error u => exact ⟨hR, rfl⟩

theorem stop {u : Unwind} (hu : u.Typed σ) (hE : E σ s) :
    RunWith.Sound env σ s (Run.keep (Run.stop u) : RunWith τ α) Q E := by
  rintro μ hμ _ _ _ ⟨⟩
  exact ⟨σ, List.prefix_rfl, hμ, hu, hE⟩

theorem exhausted : RunWith.Sound env σ s (Run.keep Run.exhausted : RunWith τ α) Q E := by
  rintro μ hμ _ _ _ ⟨⟩

theorem ofResult {r : Except Unwind α} (h : σ.AdmitsWith (Q σ) (E σ) r s) :
    RunWith.Sound env σ s (Run.keep (Run.ofResult r)) Q E := by
  rintro μ hμ _ _ _ ⟨⟩
  exact ⟨σ, List.prefix_rfl, hμ, h⟩

theorem read : RunWith.Sound env σ s (getThe τ : RunWith τ τ)
    (fun _ a s' => a = s ∧ s' = s) E := by
  rintro μ hμ _ _ _ ⟨⟩
  exact ⟨σ, List.prefix_rfl, hμ, rfl, rfl⟩

theorem update {f : τ → τ} : RunWith.Sound env σ s (modifyThe τ f : RunWith τ PUnit)
    (fun _ _ s' => s' = f s) E := by
  rintro μ hμ _ _ _ ⟨⟩
  exact ⟨σ, List.prefix_rfl, hμ, rfl⟩

theorem write {s' : τ} : RunWith.Sound env σ s (MonadStateOf.set s' : RunWith τ PUnit)
    (fun _ _ t => t = s') E := by
  rintro μ hμ _ _ _ ⟨⟩
  exact ⟨σ, List.prefix_rfl, hμ, rfl⟩

theorem withSlots {f : Frame} {x : Frame → Run α} {s : Slots} {R : Shapes → α → Prop}
    (hx : Run.Sound env σ (x { f with slots := s }) R) :
    RunWith.Sound env σ s (Run.withSlots f x) (fun σ' a s' => R σ' a ∧ s' = s) fun _ _ => True :=
  (keep hx).mono (fun _ _ _ _ h => h) fun _ _ _ _ => trivial

/-- Watching how a computation ends: it never stops early itself. -/
theorem observe {x : RunWith τ α} (hx : RunWith.Sound env σ s x Q E) :
    RunWith.Sound env σ s (Run.observe x) (fun σ' r s' => σ'.AdmitsWith (Q σ') (E σ') r s') E' := by
  intro μ hμ r s' μ' h
  rw [RunWith.ends_observe] at h
  obtain ⟨⟨⟨r₁, s₁⟩, μ₁⟩, hr, heq⟩ := Option.map_eq_some_iff.mp h
  cases heq
  obtain ⟨σ', hσ', hμ', hend⟩ := hx hμ hr
  exact ⟨σ', hσ', hμ', hend⟩

/-- A block takes its own variables away at its end, be it an early stop. -/
theorem inBlock {x : RunWith Scopes α} {vars : Table String Value} {s : Scopes}
    {Q Q' : Shapes → α → Scopes → Prop} {E E' : Shapes → Scopes → Prop}
    (hx : RunWith.Sound env σ (vars :: s) x Q E)
    (hQ : ∀ σ' a s', Q σ' a s' → Q' σ' a s'.tail) (hE : ∀ σ' s', E σ' s' → E' σ' s'.tail) :
    RunWith.Sound env σ s (Run.inBlock vars x) Q' E' := by
  intro μ hμ r s' μ' h
  rw [RunWith.ends_inBlock] at h
  obtain ⟨⟨⟨r₁, s₁⟩, μ₁⟩, hr, heq⟩ := Option.map_eq_some_iff.mp h
  cases heq
  obtain ⟨σ', hσ', hμ', hend⟩ := hx hμ hr
  refine ⟨σ', hσ', hμ', ?_⟩
  cases r with
  | ok a => exact hQ σ' a s₁ hend
  | error u => exact ⟨hend.1, hE σ' s₁ hend.2⟩

/-- Running a computation from a local state on hands over its end. -/
theorem withState {x : RunWith τ α} (hx : RunWith.Sound env σ s x Q E) :
    Run.Sound env σ (Run.withState x s) fun σ' r => σ'.AdmitsWith (Q σ') (E σ') r.1 r.2 := by
  intro μ hμ r μ' h
  rw [Run.ends_withState] at h
  obtain ⟨⟨⟨r₁, s₁⟩, μ₁⟩, hr, heq⟩ := Option.map_eq_some_iff.mp h
  cases heq
  obtain ⟨σ', hσ', hμ', hend⟩ := hx hμ hr
  exact ⟨σ', hσ', hμ', hend⟩

end RunWith.Sound

end Covenant
