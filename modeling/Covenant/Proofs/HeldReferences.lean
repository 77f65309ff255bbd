import Covenant.Proofs.Chronicles
import Covenant.Proofs.Tables

/-!
# References that are held

A reference is the position of an object, so it leads somewhere only while the
heap is large enough. Here it is said which references a piece of data holds, a
frame and a whole machine among them, and what one change of a machine can be: a
new object, a field or an item written, other static fields, another number of
active members. No change takes an object from the heap, gives it another class
or an array another length.
-/

namespace Covenant

variable {α β σ κ ε : Type}

/-! ## What holds references -/

/-- Data that may hold references to objects. -/
class HasRefs (α : Type) where
  refs : α → List Ref

open HasRefs (refs)

namespace HasRefs

instance : HasRefs Ref := ⟨fun r => [r]⟩

instance : HasRefs Value := ⟨fun v => v.ref?.toList⟩

instance [HasRefs α] : HasRefs (List α) := ⟨fun l => l.flatMap refs⟩

instance [HasRefs α] : HasRefs (Option α) := ⟨fun o => refs o.toList⟩

instance [HasRefs α] [HasRefs β] : HasRefs (α × β) := ⟨fun p => refs p.1 ++ refs p.2⟩

instance [HasRefs α] : HasRefs (Table κ α) := ⟨fun t => refs t.values⟩

instance : HasRefs Obj where
  refs
    | .inst _ fields => refs fields
    | .array items => refs items.toList

instance : HasRefs Machine := ⟨fun μ => refs μ.heap.toList ++ refs μ.statics⟩

instance : HasRefs Frame where
  refs f := refs f.this ++ (refs f.args ++ (refs f.scopes ++ (refs f.slots ++
    (refs f.result ++ refs f.thrown))))

instance : HasRefs Flow where
  refs
    | .normal => []
    | .ret v _ => refs v

instance : HasRefs Unwind where
  refs
    | .throw e => [e]
    | .violation _ | .fatal _ => []

instance [HasRefs ε] [HasRefs α] : HasRefs (Except ε α) where
  refs
    | .ok a => refs a
    | .error e => refs e

instance : HasRefs Bool := ⟨fun _ => []⟩

instance : HasRefs Int64 := ⟨fun _ => []⟩

instance : HasRefs String := ⟨fun _ => []⟩

instance : HasRefs Unit := ⟨fun _ => []⟩

instance : HasRefs Typed.Stmt := ⟨fun _ => []⟩

instance : HasRefs BoundClause := ⟨fun _ => []⟩

instance : HasRefs Effect.Step := ⟨fun _ => []⟩

variable [HasRefs α] [HasRefs β] [DecidableEq κ]

theorem mem_list {r : Ref} {l : List α} : r ∈ refs l ↔ ∃ a ∈ l, r ∈ refs a := List.mem_flatMap

@[simp] theorem refs_nil : refs ([] : List α) = [] := rfl

@[simp] theorem refs_cons (a : α) (l : List α) : refs (a :: l) = refs a ++ refs l := rfl

@[simp] theorem refs_append (l l' : List α) : refs (l ++ l') = refs l ++ refs l' :=
  List.flatMap_append

theorem refs_mem {a : α} {l : List α} (h : a ∈ l) : refs a ⊆ refs l :=
  fun _ hr => mem_list.mpr ⟨a, h, hr⟩

@[simp] theorem refs_some (a : α) : refs (some a) = refs a := List.append_nil _

theorem refs_getElem? {a : α} {l : List α} {i : Nat} (h : l[i]? = some a) : refs a ⊆ refs l :=
  refs_mem (List.mem_of_getElem? h)

omit [DecidableEq κ] in
theorem refs_entries {t : Table κ α} {k : κ} {v : α} (h : (k, v) ∈ t.entries) :
    refs v ⊆ refs t :=
  refs_mem (l := t.values) (List.mem_map.mpr ⟨_, h, rfl⟩)

theorem refs_get? {t : Table κ α} {k : κ} {v : α} (h : t.get? k = some v) : refs v ⊆ refs t :=
  refs_entries (Table.mem_of_get? h)

theorem refs_put (k : κ) (v : α) (es : List (κ × α)) :
    refs ((Table.put k v es).map (·.2)) ⊆ refs v ++ refs (es.map (·.2)) := by
  induction es with
  | nil => exact List.Subset.refl _
  | cons e es ih =>
      rw [Table.put]
      split <;> simp only [List.map_cons, refs_cons] <;> grind

theorem refs_insert (t : Table κ α) (k : κ) (v : α) :
    refs (t.insert k v) ⊆ refs v ++ refs t :=
  refs_put k v t.entries

theorem refs_insertAll (es : List (κ × α)) (t : Table κ α) :
    refs (t.insertAll es) ⊆ refs (es.map (·.2)) ++ refs t := by
  induction es generalizing t with
  | nil => exact List.Subset.refl _
  | cons e es ih =>
      have hhead := refs_insert t e.1 e.2
      have hrest := ih (t.insert e.1 e.2)
      simp only [List.map_cons, refs_cons]
      exact List.Subset.trans hrest (by grind)

theorem refs_default (t : Ty) : refs (Value.default t) = [] := by cases t <;> rfl

/-! ### Variables -/

theorem refs_scopes_get? {s : Scopes} {name : String} {v : Value} (h : s.get? name = some v) :
    refs v ⊆ refs s := by
  obtain ⟨t, ht, hv⟩ := List.exists_of_findSome?_eq_some h
  exact List.Subset.trans (refs_get? hv) (refs_mem ht)

theorem refs_declare (s : Scopes) (name : String) (v : Value) :
    refs (s.declare name v) ⊆ refs v ++ refs s := by
  cases s with
  | nil => exact List.nil_subset _
  | cons t rest =>
      have hhead := refs_insert t name v
      simp only [Scopes.declare, refs_cons]
      grind

theorem refs_assign? {s s' : Scopes} {name : String} {v : Value}
    (h : s.assign? name v = some s') : refs s' ⊆ refs v ++ refs s := by
  induction s generalizing s' with
  | nil => cases h
  | cons t rest ih =>
      rw [Scopes.assign?] at h
      split at h
      · cases h
        have hhead := refs_insert t name v
        simp only [refs_cons]
        grind
      · obtain ⟨rest', hrest, rfl⟩ := Option.map_eq_some_iff.mp h
        have hrest := ih hrest
        simp only [refs_cons]
        grind

/-! ### Objects -/

theorem refs_setField (name : String) (v : Value) (o : Obj) :
    refs (o.setField name v) ⊆ refs v ++ refs o := by
  cases o with
  | inst c fields => exact refs_insert fields name v
  | array items => exact List.subset_append_right ..

theorem refs_setItem (i : Nat) (v : Value) (o : Obj) :
    refs (o.setItem i v) ⊆ refs v ++ refs o := by
  cases o with
  | inst c fields => exact List.subset_append_right ..
  | array items =>
      intro r hr
      obtain ⟨w, hw, hrw⟩ := mem_list.mp hr
      rw [Array.toList_setIfInBounds] at hw
      rcases List.mem_or_eq_of_mem_set hw with hw | rfl
      · exact List.mem_append_right _ (refs_mem hw hrw)
      · exact List.mem_append_left _ hrw

/-- What a change of one object adds to what a heap holds. -/
theorem refs_modify (h : Heap) (r : Ref) {f : Obj → Obj} {added : List Ref}
    (hf : ∀ o, refs (f o) ⊆ added ++ refs o) :
    refs (h.modify r f).toList ⊆ added ++ refs h.toList := by
  intro x hx
  obtain ⟨o, ho, hx⟩ := mem_list.mp hx
  obtain ⟨i, hi⟩ := List.mem_iff_getElem?.mp ho
  rw [Array.getElem?_toList, Array.getElem?_modify] at hi
  split at hi
  · obtain ⟨o', ho', rfl⟩ := Option.map_eq_some_iff.mp hi
    have hsub : refs o' ⊆ refs h.toList := refs_getElem? (by rw [Array.getElem?_toList]; exact ho')
    rcases List.mem_append.mp (hf o' hx) with hx | hx
    · exact List.mem_append_left _ hx
    · exact List.mem_append_right _ (hsub hx)
  · exact List.mem_append_right _ (refs_getElem? (by rw [Array.getElem?_toList]; exact hi) hx)

end HasRefs

open HasRefs

/-- Data without references. -/
class NoRefs (α : Type) [HasRefs α] : Prop where
  nil : ∀ a : α, refs a = []

namespace NoRefs

instance : NoRefs Bool := ⟨fun _ => rfl⟩

instance : NoRefs Int64 := ⟨fun _ => rfl⟩

instance : NoRefs String := ⟨fun _ => rfl⟩

instance : NoRefs Unit := ⟨fun _ => rfl⟩

instance : NoRefs Typed.Stmt := ⟨fun _ => rfl⟩

instance : NoRefs BoundClause := ⟨fun _ => rfl⟩

instance : NoRefs Effect.Step := ⟨fun _ => rfl⟩

instance [HasRefs α] [h : NoRefs α] : NoRefs (List α) :=
  ⟨fun _ => List.flatMap_eq_nil_iff.mpr fun a _ => h.nil a⟩

instance [HasRefs α] [NoRefs α] : NoRefs (Option α) := ⟨fun o => NoRefs.nil o.toList⟩

end NoRefs

/-! ## References below a bound -/

/-- All references lead to one of the first `n` objects. -/
def Below (n : Nat) (rs : List Ref) : Prop := ∀ r ∈ rs, r < n

namespace Below

variable {n m : Nat} {rs rs' : List Ref}

theorem nil : Below n [] := fun _ h => absurd h List.not_mem_nil

theorem append : Below n (rs ++ rs') ↔ Below n rs ∧ Below n rs' := List.forall_mem_append

theorem mono (h : Below n rs) (hle : n ≤ m) : Below m rs :=
  fun r hr => Nat.lt_of_lt_of_le (h r hr) hle

theorem subset (h : Below n rs) (hsub : rs' ⊆ rs) : Below n rs' := fun r hr => h r (hsub hr)

end Below

/-- Every reference on the machine leads to an object. -/
def Machine.Closed (μ : Machine) : Prop := Below μ.heap.size (refs μ)

theorem Machine.Closed.initial : Machine.initial.Closed := Below.nil

/-! ## Changes of a machine -/

/-- What never changes about an object: its class, or that it is an array of some length. -/
inductive Obj.Kind
  | inst (className : String)
  | array (length : Nat)

def Obj.kind : Obj → Obj.Kind
  | .inst c _ => .inst c
  | .array items => .array items.size

@[simp] theorem Obj.kind_setField (name : String) (v : Value) (o : Obj) :
    (o.setField name v).kind = o.kind := by
  cases o <;> rfl

@[simp] theorem Obj.kind_setItem (i : Nat) (v : Value) (o : Obj) :
    (o.setItem i v).kind = o.kind := by
  cases o with
  | inst => rfl
  | array items => exact congrArg Obj.Kind.array Array.size_setIfInBounds

/-- No object is gone from the heap, and each has its class or its length. -/
structure Heap.Kept (h h' : Heap) : Prop where
  size : h.size ≤ h'.size
  kinds : ∀ (r : Ref) (o : Obj), h[r]? = some o → ∃ o' : Obj, h'[r]? = some o' ∧ o'.kind = o.kind

namespace Heap.Kept

variable {h h' h'' : Heap}

theorem refl (h : Heap) : Heap.Kept h h := ⟨Nat.le_refl _, fun _ o ho => ⟨o, ho, rfl⟩⟩

theorem trans (hk : Heap.Kept h h') (hk' : Heap.Kept h' h'') : Heap.Kept h h'' where
  size := Nat.le_trans hk.size hk'.size
  kinds r o ho := by
    obtain ⟨o', ho', hkind⟩ := hk.kinds r o ho
    obtain ⟨o'', ho'', hkind'⟩ := hk'.kinds r o' ho'
    exact ⟨o'', ho'', hkind'.trans hkind⟩

theorem push (h : Heap) (o : Obj) : Heap.Kept h (h.push o) where
  size := by simp
  kinds r o' ho' := by
    have hlt := (Array.getElem?_eq_some_iff.mp ho').1
    exact ⟨o', by rw [Array.getElem?_push, if_neg (Nat.ne_of_lt hlt), ho'], rfl⟩

theorem modify (h : Heap) (r : Ref) {f : Obj → Obj} (hf : ∀ o, (f o).kind = o.kind) :
    Heap.Kept h (h.modify r f) where
  size := by simp
  kinds r' o ho := by
    rw [Array.getElem?_modify, ho]
    split
    · exact ⟨f o, rfl, hf o⟩
    · exact ⟨o, rfl, rfl⟩

end Heap.Kept

/-- What can become of a machine at once. -/
inductive Machine.Step (μ : Machine) : Machine → Prop
  | stay : Step μ μ
  | alloc (o : Obj) : Step μ { μ with heap := μ.heap.push o }
  | field {r : Ref} {c : String} {fields : Table String Value}
      (there : μ.heap[r]? = some (.inst c fields)) (name : String) (v : Value) :
      Step μ { μ with heap := μ.heap.modify r (.setField name v) }
  | item {r : Ref} {items : Array Value} (there : μ.heap[r]? = some (.array items)) (i : Nat)
      (v : Value) : Step μ { μ with heap := μ.heap.modify r (.setItem i v) }
  | statics (statics : Table (String × String) Value) : Step μ { μ with statics }
  | depth (depth : Nat) : Step μ { μ with depth }

theorem Machine.Step.kept {μ μ' : Machine} (h : μ.Step μ') : Heap.Kept μ.heap μ'.heap := by
  cases h with
  | stay | statics | depth => exact .refl _
  | alloc o => exact .push _ o
  | field _ name v => exact .modify _ _ (Obj.kind_setField name v)
  | item _ i v => exact .modify _ _ (Obj.kind_setItem i v)

/-! ## Data at hand -/

/-- The references of the data are among those at hand. -/
class Held [HasRefs α] (a : α) (held : List Ref) : Prop where
  sub : refs a ⊆ held

namespace Held

variable [HasRefs α] [HasRefs β] {a : α} {b : β} {held : List Ref}

instance head : Held a (refs a ++ held) := ⟨List.subset_append_left ..⟩

instance tail [h : Held a held] : Held a (refs b ++ held) :=
  ⟨List.Subset.trans h.sub (List.subset_append_right ..)⟩

instance last : Held b (refs a ++ refs b) := ⟨List.subset_append_right ..⟩

theorem below {n : Nat} [h : Held a held] (hb : Below n held) : Below n (refs a) :=
  hb.subset h.sub

instance ofNoRefs [h : NoRefs α] : Held a held := ⟨h.nil a ▸ List.nil_subset _⟩

instance nil : Held ([] : List α) held := ⟨List.nil_subset _⟩

instance cons {l : List α} [h : Held a held] [h' : Held l held] : Held (a :: l) held :=
  ⟨List.append_subset.mpr ⟨h.sub, h'.sub⟩⟩

theorem of_cons {l : List α} : Held (a :: l) held ↔ Held a held ∧ Held l held :=
  ⟨fun ⟨h⟩ => ⟨⟨(List.append_subset.mp h).1⟩, ⟨(List.append_subset.mp h).2⟩⟩,
    fun ⟨⟨h⟩, ⟨h'⟩⟩ => ⟨List.append_subset.mpr ⟨h, h'⟩⟩⟩

instance append {l l' : List α} [h : Held l held] [h' : Held l' held] : Held (l ++ l') held :=
  ⟨by rw [refs_append]; exact List.append_subset.mpr ⟨h.sub, h'.sub⟩⟩

instance ofNone : Held (none : Option α) held := ⟨List.nil_subset _⟩

instance ofSome [h : Held a held] : Held (some a) held := ⟨by rw [refs_some]; exact h.sub⟩

instance toList {o : Option α} [h : Held o held] : Held o.toList held := ⟨h.sub⟩

instance objects {o : Option Ref} [h : Held o held] : Held (o.toList.map Value.ref) held := by
  cases o with
  | none => exact nil
  | some r => exact ⟨h.sub⟩

instance getElem? {l : List α} {i : Nat} [h : Held l held] : Held l[i]? held := by
  cases hi : l[i]? with
  | none => exact ofNone
  | some v => exact ⟨by rw [refs_some]; exact List.Subset.trans (refs_getElem? hi) h.sub⟩

instance get? {κ : Type} [DecidableEq κ] {t : Table κ α} {k : κ} [h : Held t held] :
    Held (t.get? k) held := by
  cases hk : t.get? k with
  | none => exact ofNone
  | some v => exact ⟨by rw [refs_some]; exact List.Subset.trans (refs_get? hk) h.sub⟩

instance scopes_get? {s : Scopes} {name : String} [h : Held s held] :
    Held (s.get? name) held := by
  cases hs : s.get? name with
  | none => exact ofNone
  | some v => exact ⟨by rw [refs_some]; exact List.Subset.trans (refs_scopes_get? hs) h.sub⟩

instance statics {μ : Machine} : Held μ.statics (refs μ ++ held) :=
  ⟨fun _ hr => List.mem_append_left _ (List.mem_append_right _ hr)⟩

/-- What a look-up at hand has found. -/
theorem of_eq_some {o : Option α} (heq : o = some a) [h : Held o held] : Held a held := by
  subst heq
  exact ⟨refs_some a ▸ h.sub⟩

instance pair [h : Held a held] [h' : Held b held] : Held (a, b) held :=
  ⟨List.append_subset.mpr ⟨h.sub, h'.sub⟩⟩

instance first {x : α × β} : Held x.1 (refs x ++ held) :=
  ⟨fun _ hr => List.mem_append_left _ (List.mem_append_left _ hr)⟩

instance objectsOf {vs : List Value} [h : Held vs held] : Held (vs.filterMap Value.ref?) held where
  sub r hr := by
    obtain ⟨r', hr', hmem⟩ := HasRefs.mem_list.mp hr
    obtain rfl := List.mem_singleton.mp hmem
    obtain ⟨v, hv, href⟩ := List.mem_filterMap.mp hr'
    refine h.sub (HasRefs.refs_mem hv ?_)
    show r ∈ v.ref?.toList
    rw [href]
    exact List.mem_singleton_self r

instance ref {r : Ref} [h : Held r held] : Held (Value.ref r) held := ⟨h.sub⟩

instance default {t : Ty} : Held (Value.default t) held :=
  ⟨by rw [refs_default]; exact List.nil_subset _⟩

instance int {n : Int64} : Held (Value.int n) held := ⟨List.nil_subset _⟩

instance bool {b : Bool} : Held (Value.bool b) held := ⟨List.nil_subset _⟩

instance null : Held Value.null held := ⟨List.nil_subset _⟩

instance void : Held Value.void held := ⟨List.nil_subset _⟩

instance normal : Held Flow.normal held := ⟨List.nil_subset _⟩

instance ret {v : Value} {span : Span} [h : Held v held] : Held (Flow.ret v span) held := ⟨h.sub⟩

instance throw {e : Ref} [h : Held e held] : Held (Unwind.throw e) held := ⟨h.sub⟩

instance violation {v : Violation} : Held (Unwind.violation v) held := ⟨List.nil_subset _⟩

instance fatal {e : RunError} : Held (Unwind.fatal e) held := ⟨List.nil_subset _⟩

/-! ### Frames -/

theorem of_frame {f : Frame} : Held f held ↔ Held f.this held ∧ Held f.args held ∧
    Held f.scopes held ∧ Held f.slots held ∧ Held f.result held ∧ Held f.thrown held := by
  constructor
  · rintro ⟨h⟩
    obtain ⟨hthis, h⟩ := List.append_subset.mp h
    obtain ⟨hargs, h⟩ := List.append_subset.mp h
    obtain ⟨hscopes, h⟩ := List.append_subset.mp h
    obtain ⟨hslots, h⟩ := List.append_subset.mp h
    obtain ⟨hresult, hthrown⟩ := List.append_subset.mp h
    exact ⟨⟨hthis⟩, ⟨hargs⟩, ⟨hscopes⟩, ⟨hslots⟩, ⟨hresult⟩, ⟨hthrown⟩⟩
  · rintro ⟨⟨hthis⟩, ⟨hargs⟩, ⟨hscopes⟩, ⟨hslots⟩, ⟨hresult⟩, ⟨hthrown⟩⟩
    exact ⟨List.append_subset.mpr ⟨hthis, List.append_subset.mpr ⟨hargs, List.append_subset.mpr
      ⟨hscopes, List.append_subset.mpr ⟨hslots, List.append_subset.mpr ⟨hresult, hthrown⟩⟩⟩⟩⟩⟩

section

variable {f : Frame} [h : Held f held]

instance this : Held f.this held := (of_frame.mp h).1

instance args : Held f.args held := (of_frame.mp h).2.1

instance scopes : Held f.scopes held := (of_frame.mp h).2.2.1

instance slots : Held f.slots held := (of_frame.mp h).2.2.2.1

instance result : Held f.result held := (of_frame.mp h).2.2.2.2.1

instance inScopes {scopes : Scopes} [h' : Held scopes held] : Held { f with scopes } held := by
  obtain ⟨hthis, hargs, _, hrest⟩ := of_frame.mp h
  exact of_frame.mpr ⟨hthis, hargs, h', hrest⟩

instance inSlots {slots : Slots} [h' : Held slots held] : Held { f with slots } held := by
  obtain ⟨hthis, hargs, hscopes, _, hrest⟩ := of_frame.mp h
  exact of_frame.mpr ⟨hthis, hargs, hscopes, h', hrest⟩

instance throwing {e : Ref} [h' : Held e held] : Held { f with thrown := some e } held := by
  obtain ⟨hthis, hargs, hscopes, hslots, hresult, _⟩ := of_frame.mp h
  exact of_frame.mpr ⟨hthis, hargs, hscopes, hslots, hresult, ofSome⟩

instance returning {flow : Flow} [h' : Held flow held] :
    Held (Run.Frame.returning f flow) held := by
  cases flow with
  | normal => exact h
  | ret v span =>
      obtain ⟨hthis, hargs, hscopes, hslots, _, hthrown⟩ := of_frame.mp h
      exact of_frame.mpr ⟨hthis, hargs, hscopes, hslots, ⟨h'.sub⟩, hthrown⟩

end

instance empty {k : Type} [DecidableEq k] : Held (Table.empty : Table k α) held :=
  ⟨List.nil_subset _⟩

instance single {k : Type} [DecidableEq k] {key : k} [h : Held a held] :
    Held (Table.ofList [(key, a)]) held :=
  ⟨List.append_subset.mpr ⟨h.sub, List.nil_subset _⟩⟩

instance start {decl : DeclId} {this : Option Ref} {args : List Value} [Held this held]
    [Held args held] : Held (Frame.start decl this args) held :=
  of_frame.mpr ⟨‹_›, ‹_›, cons, empty, void, ofNone⟩

instance params {m : MethodInfo} {args : List Value} [h : Held args held] :
    Held (Run.paramScopes m args) held where
  sub := by
    rw [Run.paramScopes, refs_cons, refs_nil, List.append_nil]
    refine List.Subset.trans (refs_insertAll _ _) (List.append_subset.mpr ⟨?_, List.nil_subset _⟩)
    intro r hr
    obtain ⟨v, hv, hr⟩ := mem_list.mp hr
    obtain ⟨x, hx, rfl⟩ := List.mem_map.mp hv
    exact h.sub (refs_mem (List.of_mem_zip hx).2 hr)

end Held

end Covenant
