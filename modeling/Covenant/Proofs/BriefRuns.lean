import Covenant.Proofs.HeldReferences

/-!
# Brief computations

A computation is calm if it leaves the machine alone, and brief if it makes at most
one change. What either hands on is made of what it was given and of what it found
on the machine, so it never comes by a reference that leads off the heap. All that
a program does between its expressions and statements is brief.
-/

namespace Covenant

open HasRefs

variable {α β : Type}

/-- The object that a reference leads to is on the machine. -/
theorem Held.object {μ : Machine} {r : Ref} {o : Obj} (h : μ.heap[r]? = some o) (held : List Ref) :
    Held o (refs μ ++ held) where
  sub := by
    have hsub : refs o ⊆ refs μ.heap.toList :=
      refs_getElem? (by rw [Array.getElem?_toList]; exact h)
    exact fun r hr => List.mem_append_left _ (List.mem_append_left _ (hsub hr))

/-- A computation that leaves the machine alone and hands on what is at hand or there. -/
class Run.Calm [HasRefs α] (held : List Ref) (x : Run α) : Prop where
  ends : ∀ {μ r μ'}, x.ends μ = some (r, μ') → μ' = μ ∧ refs r ⊆ refs μ ++ held

/-- A computation that changes the machine once at most. -/
class Run.Brief [HasRefs α] (held : List Ref) (x : Run α) : Prop where
  step : ∀ {μ r μ'}, x.ends μ = some (r, μ') → μ.Step μ'
  closed : ∀ {μ r μ'}, x.ends μ = some (r, μ') → μ.Closed → Below μ.heap.size held →
    Below μ'.heap.size (refs r) ∧ μ'.Closed

namespace Run

variable [HasRefs α] [HasRefs β] {held : List Ref} {x : Run α}

namespace Calm

instance pure {a : α} [h : Held a held] : Calm held (Pure.pure a) where
  ends hx := by
    cases hx
    exact ⟨rfl, List.Subset.trans h.sub (List.subset_append_right ..)⟩

instance throw {e : Ref} [h : Held e held] : Calm held (stop (.throw e) : Run α) where
  ends hx := by
    cases hx
    exact ⟨rfl, List.Subset.trans h.sub (List.subset_append_right ..)⟩

instance violation {v : Violation} : Calm held (stop (.violation v) : Run α) where
  ends hx := by
    cases hx
    exact ⟨rfl, List.nil_subset _⟩

instance fatal {e : RunError} : Calm held (fatal e : Run α) where
  ends hx := by
    cases hx
    exact ⟨rfl, List.nil_subset _⟩

instance defect {d : Defect} : Calm held (defect d : Run α) := fatal

instance exhausted : Calm held (exhausted : Run α) where
  ends hx := by cases hx

instance get : Calm held (get : Run Machine) where
  ends hx := by
    cases hx
    exact ⟨rfl, List.subset_append_left ..⟩

instance bind {f : α → Run β} [i : Calm held x] [k : ∀ a, Calm (refs a ++ held) (f a)] :
    Calm held (x >>= f) where
  ends {μ r μ'} h := by
    rcases ends_bind_eq_some.mp h with ⟨u, hx, rfl⟩ | ⟨a, μ₁, hx, hf⟩
    · exact i.ends hx
    · obtain ⟨rfl, ha⟩ := i.ends hx
      obtain ⟨rfl, hr⟩ := (k a).ends hf
      exact ⟨rfl, List.Subset.trans hr (List.append_subset.mpr ⟨List.subset_append_left ..,
        List.append_subset.mpr ⟨ha, List.subset_append_right ..⟩⟩)⟩

instance map {f : α → β} [Calm held x] [∀ a, Held (f a) (refs a ++ held)] :
    Calm held (f <$> x) :=
  inferInstanceAs (Calm held (x >>= fun a => Pure.pure (f a)))

instance classOf {r : Ref} : Calm held (classOf r) :=
  inferInstanceAs (Calm held (MonadState.get >>= fun _ => Pure.pure _))

instance getField {r : Ref} {name : String} : Calm held (getField r name) := by
  refine bind (k := fun μ => ?_)
  rcases hr : μ.heap[r]? with _ | ⟨c, fields⟩ | items
  · exact defect
  · show Calm _ (match fields.get? name with
      | some v => Pure.pure v
      | none => Run.defect (.noField name))
    cases hv : fields.get? name with
    | none => exact defect
    | some v => exact pure (h := ⟨List.Subset.trans (refs_get? hv) (Held.object hr held).sub⟩)
  · exact defect

instance getStatic {env : Env} {c name : String} : Calm held (getStatic env c name) := by
  refine bind (k := fun μ => ?_)
  cases hv : μ.statics.get? (staticKey env c name) with
  | none => exact pure (h := Held.null)
  | some v => exact pure (h := .of_eq_some hv)

instance arrayLength {r : Ref} : Calm held (arrayLength r) := by
  refine bind (k := fun μ => ?_)
  rcases μ.heap[r]? with _ | ⟨c, fields⟩ | items
  · exact defect
  · exact defect
  · exact pure

instance asBool {v : Value} : Calm held (asBool v) := by
  cases v <;> first | exact pure | exact defect

instance asInt {v : Value} : Calm held (asInt v) := by
  cases v <;> first | exact pure | exact defect

instance applyUnary {op : UnaryOp} {v : Value} : Calm held (applyUnary op v) := by
  cases op <;> cases v <;> first | exact pure | exact defect

instance checkThrows {env : Env} {f : Frame} {checks : List ThrowsCheck}
    {mayThrow : List String} : Calm held (checkThrows env f checks mayThrow) := by
  have judged (thrown : Option String) {held : List Ref} :
      Calm held (match brokenThrows? env f.slots thrown checks mayThrow with
        | none => Pure.pure ()
        | some (t, detail) => stop (.violation (exitViolation env .exceptionalPostcondition f
            t.clause detail)) : Run Unit) := by
    cases brokenThrows? env f.slots thrown checks mayThrow <;> infer_instance
  rw [Run.checkThrows]
  cases f.thrown with
  | none => exact bind (k := fun thrown => judged thrown)
  | some e => exact bind (k := fun thrown => judged thrown)

instance startOf {env : Env} {p : Effect.Path} {this : Option Ref} {args : List Value}
    [hthis : Held this held] [hargs : Held args held] : Calm held (startOf env p this args) := by
  rw [Run.startOf]
  split
  · exact pure
  · exact pure
  · exact bind (k := fun _ => pure)
  · exact pure

end Calm

namespace Brief

instance calm [h : Calm held x] : Brief held x where
  step hx := by
    obtain ⟨rfl, _⟩ := h.ends hx
    exact .stay
  closed hx hμ hheld := by
    obtain ⟨rfl, hr⟩ := h.ends hx
    exact ⟨(Below.append.mpr ⟨hμ, hheld⟩).subset hr, hμ⟩

/-- What is made of what a computation finds. -/
theorem after {f : α → Run β} [i : Calm held x] (k : ∀ a, Brief (refs a ++ held) (f a)) :
    Brief held (x >>= f) := by
  have found : Brief held x := calm
  have split {μ r μ'} (h : (x >>= f).ends μ = some (r, μ')) :
      (∃ u, x.ends μ = some (.error u, μ') ∧ r = .error u) ∨
        ∃ a, x.ends μ = some (.ok a, μ) ∧ (f a).ends μ = some (r, μ') := by
    rcases ends_bind_eq_some.mp h with hstop | ⟨a, μ₁, hx, hf⟩
    · exact .inl hstop
    · obtain ⟨rfl, _⟩ := i.ends hx
      exact .inr ⟨a, hx, hf⟩
  constructor
  · intro μ r μ' h
    rcases split h with ⟨u, hx, rfl⟩ | ⟨a, hx, hf⟩
    · exact found.step hx
    · exact (k a).step hf
  · intro μ r μ' h hμ hheld
    rcases split h with ⟨u, hx, rfl⟩ | ⟨a, hx, hf⟩
    · exact found.closed hx hμ hheld
    · exact (k a).closed hf hμ
        (Below.append.mpr ⟨(found.closed hx hμ hheld).1, hheld⟩)

instance alloc {o : Obj} [h : Held o held] : Brief held (alloc o) where
  step hx := by
    cases hx
    exact .alloc o
  closed {μ r μ'} hx hμ hheld := by
    cases hx
    have hle : μ.heap.size ≤ (μ.heap.push o).size := by simp
    refine ⟨fun r hr => ?_, ?_⟩
    · obtain rfl := List.mem_singleton.mp hr
      simp
    · obtain ⟨hheap, hstatics⟩ := Below.append.mp hμ
      refine Below.append.mpr ⟨?_, hstatics.mono hle⟩
      show Below _ (refs (μ.heap.push o).toList)
      rw [Array.toList_push, refs_append, refs_cons, refs_nil, List.append_nil]
      exact Below.append.mpr ⟨hheap.mono hle, (h.below hheld).mono hle⟩

instance throwNew {className : String} : Brief held (throwNew className : Run α) where
  step {μ r μ'} h := by
    rcases ends_bind_eq_some.mp h with ⟨u, hx, rfl⟩ | ⟨a, μ₁, hx, hf⟩
    · cases hx
    · cases hf
      exact (alloc (o := .inst className .empty) (h := ⟨List.nil_subset held⟩)).step hx
  closed {μ r μ'} h hμ hheld := by
    rcases ends_bind_eq_some.mp h with ⟨u, hx, rfl⟩ | ⟨a, μ₁, hx, hf⟩
    · cases hx
    · cases hf
      exact (alloc (o := .inst className .empty) (h := ⟨List.nil_subset held⟩)).closed hx hμ hheld

theorem refs_defaults {κ γ : Type} [DecidableEq κ] (fs : List γ) (key : γ → κ) (type : γ → Ty) :
    refs ((fs.map fun f => (key f, Value.default (type f))).map (·.2)) = [] := by
  rw [List.map_map]
  refine List.eq_nil_iff_forall_not_mem.mpr fun r hr => ?_
  obtain ⟨v, hv, hr⟩ := mem_list.mp hr
  obtain ⟨f, _, rfl⟩ := List.mem_map.mp hv
  rw [Function.comp, refs_default] at hr
  exact List.not_mem_nil hr

instance instantiate {env : Env} {className : String} :
    Brief held (instantiate env className) := by
  refine alloc (h := ⟨List.Subset.trans (refs_insertAll _ _) ?_⟩)
  rw [refs_defaults]
  exact List.nil_subset _

/-- Other static fields. -/
theorem statics {g : Machine → Table (String × String) Value}
    (hg : ∀ μ, refs (g μ) ⊆ refs μ.statics ++ held) :
    Brief held (modify fun μ => { μ with statics := g μ } : Run PUnit) where
  step hx := by
    cases hx
    exact .statics _
  closed {μ _ _} hx hμ hheld := by
    cases hx
    obtain ⟨hheap, hstatics⟩ := Below.append.mp hμ
    exact ⟨.nil, Below.append.mpr
      ⟨hheap, (Below.append.mpr ⟨hstatics, hheld⟩).subset (hg μ)⟩⟩

instance setStatic {env : Env} {c name : String} {v : Value} [h : Held v held] :
    Brief held (setStatic env c name v) :=
  statics fun _ => List.Subset.trans (refs_insert ..) (List.append_subset.mpr
    ⟨List.Subset.trans h.sub (List.subset_append_right ..), List.subset_append_left ..⟩)

instance resetStatics {fields : List FieldInfo} : Brief held (resetStatics fields) :=
  statics fun _ => by
    refine List.Subset.trans (refs_insertAll ..) ?_
    rw [refs_defaults, List.nil_append]
    exact List.subset_append_left ..

/-- A value written to an object that is there. -/
theorem closed_modify {μ : Machine} (hμ : μ.Closed) {v : Value} (hv : Below μ.heap.size (refs v))
    {r : Ref} {f : Obj → Obj} (hf : ∀ o, refs (f o) ⊆ refs v ++ refs o) :
    Machine.Closed { μ with heap := μ.heap.modify r f } := by
  obtain ⟨hheap, hstatics⟩ := Below.append.mp hμ
  show Below (μ.heap.modify r f).size _
  rw [Array.size_modify]
  exact Below.append.mpr ⟨(Below.append.mpr ⟨hv, hheap⟩).subset (refs_modify _ r hf), hstatics⟩

instance setField {r : Ref} {name : String} {v : Value} [h : Held v held] :
    Brief held (setField r name v) where
  step {μ o μ'} hx := by
    rw [Run.setField, ends_bind_ok (ends_get μ)] at hx
    split at hx
    · next hr =>
        cases hx
        exact .field hr name v
    · cases hx
      exact .stay
  closed {μ o μ'} hx hμ hheld := by
    rw [Run.setField, ends_bind_ok (ends_get μ)] at hx
    split at hx
    · cases hx
      exact ⟨.nil, closed_modify hμ (h.below hheld) (refs_setField name v)⟩
    · cases hx
      exact ⟨.nil, hμ⟩

instance setItem {r : Ref} {i : Int64} {v : Value} [h : Held v held] :
    Brief held (setItem r i v) where
  step {μ o μ'} hx := by
    have outside : Brief held (Run.throwNew "ArrayIndexOutOfBoundsException" : Run Unit) := throwNew
    rw [Run.setItem, ends_bind_ok (ends_get μ)] at hx
    split at hx
    · next items hr =>
        split at hx
        · cases hx
          exact .item hr _ v
        · exact outside.step hx
    · cases hx
      exact .stay
  closed {μ o μ'} hx hμ hheld := by
    have outside : Brief held (Run.throwNew "ArrayIndexOutOfBoundsException" : Run Unit) := throwNew
    rw [Run.setItem, ends_bind_ok (ends_get μ)] at hx
    split at hx
    · split at hx
      · cases hx
        exact ⟨.nil, closed_modify hμ (h.below hheld) (refs_setItem _ v)⟩
      · exact outside.closed hx hμ hheld
    · cases hx
      exact ⟨.nil, hμ⟩

instance getItem {r : Ref} {i : Int64} : Brief held (getItem r i) := by
  refine after fun μ => ?_
  rcases hr : μ.heap[r]? with _ | ⟨c, fields⟩ | items
  · exact calm
  · exact calm
  · show Brief _ (match position? items i with
      | some n => Pure.pure (items.getD n .null)
      | none => Run.throwNew "ArrayIndexOutOfBoundsException")
    cases position? items i with
    | none => exact throwNew
    | some n =>
        refine calm (h := Calm.pure (h := ⟨List.Subset.trans ?_ (Held.object hr held).sub⟩))
        rw [Array.getD_eq_getD_getElem?]
        cases hn : items[n]? with
        | none => exact List.nil_subset _
        | some v => exact refs_getElem? (by rw [Array.getElem?_toList]; exact hn)

instance newArray {elem : Ty} {length : Int64} : Brief held (newArray elem length) := by
  rw [Run.newArray]
  split
  · exact throwNew
  · refine alloc (h := ⟨fun r hr => ?_⟩)
    obtain ⟨v, hv, hr⟩ := mem_list.mp hr
    rw [Array.toList_replicate] at hv
    rw [List.eq_of_mem_replicate hv, refs_default] at hr
    exact absurd hr List.not_mem_nil

instance asObject {v : Value} [Held v held] : Brief held (asObject v) := by
  cases v with
  | ref r => exact calm (h := Calm.pure (h := ⟨‹Held (Value.ref r) held›.sub⟩))
  | null => exact throwNew
  | int | bool | void => exact calm (h := Calm.defect)

instance applyInts {op : BinaryOp} {a b : Int64} : Brief held (applyInts op a b) := by
  unfold Run.applyInts
  split <;> try infer_instance
  all_goals split <;> infer_instance

instance applyBinary {op : BinaryOp} {l r : Value} : Brief held (applyBinary op l r) := by
  unfold Run.applyBinary
  split <;> infer_instance

end Brief

end Run

end Covenant
