import Covenant.Proofs.HeldReferences
import Covenant.Proofs.Paths
import Covenant.Proofs.Traceless

/-!
# Read sets miss nothing

A path from an object denotes places: fields of objects, items of arrays and static
fields. On two machines whose objects are of the same classes and whose arrays have
the same lengths, an invariant that makes no call and creates nothing gives one answer
if the machines agree on the places of its read set; what else they hold does not
matter. Evaluation gets at an object only along the path that its expression denotes,
so the place that it reads next is in the read set: `sameAnswer_of_agrees`. The
objects of a path are those that a run reaches along it: `reach_objects`.
-/

namespace Covenant

variable {α β : Type}

deriving instance DecidableEq for Obj.Kind

/-! ## Places -/

/-- Where a machine keeps a value. -/
inductive Place
  | field (object : Ref) (name : String)
  | item (array : Ref) (index : Nat)
  | static (className name : String)
  deriving DecidableEq, Repr

namespace Machine

/-- The value at a place, if there is such a place. -/
def at? (μ : Machine) : Place → Option Value
  | .field r name =>
    match μ.heap[r]? with
    | some (.inst _ fields) => fields.get? name
    | _ => none
  | .item r i =>
    match μ.heap[r]? with
    | some (.array items) => items[i]?
    | _ => none
  | .static c name => μ.statics.get? (c, name)

/-- The places of an object that one step leads to. A call leads to no place. -/
def placesOf (μ : Machine) (r : Ref) : Effect.Step → List Place
  | .field name => [.field r name]
  | .elements =>
    match μ.heap[r]? with
    | some (.array items) => (List.range items.size).map (.item r)
    | _ => []
  | .accessor _ => []

theorem mem_placesOf_elements {μ : Machine} {r : Ref} {items : Array Value}
    (hr : μ.heap[r]? = some (.array items)) {i : Nat} (hi : i < items.size) :
    .item r i ∈ μ.placesOf r .elements := by
  simp only [placesOf, hr]
  exact List.mem_map.mpr ⟨i, List.mem_range.mpr hi, rfl⟩

/-- The objects at some places. -/
def refsAt (μ : Machine) (places : List Place) : List Ref :=
  places.filterMap fun x => (μ.at? x).bind Value.ref?

/-- The places that one step leads to from the objects at some places. -/
def placesBehind (μ : Machine) (places : List Place) (s : Effect.Step) : List Place :=
  (μ.refsAt places).flatMap fun r => μ.placesOf r s

/-- The objects to which steps lead from some objects. -/
def refsAlong (μ : Machine) (rs : List Ref) (steps : List Effect.Step) : List Ref :=
  steps.foldl (fun rs s => rs.flatMap fun r => μ.refsAt (μ.placesOf r s)) rs

/-- Whether the objects of two machines have the same classes and lengths. -/
def SameKinds (μ μ' : Machine) : Prop := μ.heap.map Obj.kind = μ'.heap.map Obj.kind

/-- Where a reference leads on machines whose objects have the same classes and lengths. -/
inductive Alike (μ μ' : Machine) (r : Ref) : Prop
  | gone (left : μ.heap[r]? = none) (right : μ'.heap[r]? = none)
  | insts {c fields fields'} (left : μ.heap[r]? = some (.inst c fields))
      (right : μ'.heap[r]? = some (.inst c fields'))
  | arrays {items items'} (left : μ.heap[r]? = some (.array items))
      (right : μ'.heap[r]? = some (.array items')) (size : items.size = items'.size)

theorem SameKinds.alike {μ μ' : Machine} (h : SameKinds μ μ') (r : Ref) : Alike μ μ' r := by
  have hr : μ.heap[r]?.map Obj.kind = μ'.heap[r]?.map Obj.kind := by
    rw [← Array.getElem?_map, ← Array.getElem?_map, h]
  cases hleft : μ.heap[r]? with
  | none =>
      rw [hleft] at hr
      exact .gone hleft (Option.map_eq_none_iff.mp hr.symm)
  | some x =>
      rw [hleft, Option.map_some] at hr
      obtain ⟨y, hright, hkind⟩ := Option.map_eq_some_iff.mp hr.symm
      cases x with
      | inst =>
          cases y with
          | inst =>
              cases hkind
              exact .insts hleft hright
          | array => cases hkind
      | array =>
          cases y with
          | inst => cases hkind
          | array => exact .arrays hleft hright (Obj.Kind.array.inj hkind).symm

end Machine

namespace Effect

/-- The places that a path denotes from an object: those of its last step, on the objects to which
the steps before it lead. -/
def Path.places (env : Env) (μ : Machine) (o : Ref) (p : Path) : List Place :=
  match p.root, p.trail with
  | .this, s :: steps => steps.foldl μ.placesBehind (μ.placesOf o s)
  | .static c, .field name :: steps =>
    let (owner, name) := Run.staticKey env c name
    steps.foldl μ.placesBehind [.static owner name]
  | _, _ => []

variable {env : Env} {μ μ' : Machine} {o r : Ref} {p q : Path}

/-- Types take no part in what a path denotes. -/
theorem Path.places_same (h : p.same q = true) : p.places env μ o = q.places env μ o := by
  obtain ⟨hroot, htrail⟩ := Path.same_iff.mp h
  rw [places, places, hroot, htrail]

/-- The objects to which a path leads: the one where it starts, or those at its places. -/
def Path.objects (env : Env) (μ : Machine) (o : Ref) (p : Path) : List Ref :=
  match p.root, p.trail with
  | .this, [] => [o]
  | _, _ => μ.refsAt (p.places env μ o)

theorem Path.mem_objects {x : Place} (h : x ∈ p.places env μ o)
    (hvalue : μ.at? x = some (.ref r)) : r ∈ p.objects env μ o := by
  have hat : r ∈ μ.refsAt (p.places env μ o) :=
    List.mem_filterMap.mpr ⟨x, h, by rw [hvalue]; rfl⟩
  rw [objects]
  split
  · next hroot hnil =>
      rw [places, hroot, hnil] at h
      exact absurd h List.not_mem_nil
  · exact hat

/-- One step further from an object to which a path leads. -/
theorem Path.mem_places_step {s : Step} {t : Ty} {x : Place} (h : r ∈ p.objects env μ o)
    (hx : x ∈ μ.placesOf r s) : x ∈ (p.step s t).places env μ o := by
  have htrail : (p.step s t).trail = p.trail ++ [s] := by simp [Path.trail, Path.step]
  rw [objects] at h
  split at h
  · next hroot hnil =>
      obtain rfl := List.mem_singleton.mp h
      rw [places, show (p.step s t).root = _ from hroot, htrail, hnil]
      exact hx
  · have hbehind : x ∈ μ.placesBehind (p.places env μ o) s := List.mem_flatMap.mpr ⟨r, h, hx⟩
    rw [places] at h hbehind ⊢
    rw [show (p.step s t).root = p.root from rfl, htrail]
    split at h
    · next hroot hcons =>
        rw [hroot, hcons] at hbehind ⊢
        simpa [List.foldl_append] using hbehind
    · next hroot hcons =>
        rw [hroot, hcons] at hbehind ⊢
        simpa [List.foldl_append] using hbehind
    · exact absurd h List.not_mem_nil

/-- Whether two machines have the same at all places that a path denotes. -/
def Agrees (env : Env) (μ μ' : Machine) (o : Ref) (p : Path) : Prop :=
  ∀ x ∈ p.places env μ o, μ.at? x = μ'.at? x

end Effect

/-! ## One answer -/

namespace Run

open Effect

variable {env : Env} {c d : Calls} {μ μ' : Machine} {o : Ref} {decl : DeclId}

/-- Whether two computations, each on a machine of its own, give the same answer: one value with
nothing written, exceptions of one class, or one internal error. -/
inductive SameAnswer (x y : Run α) (μ μ' : Machine) : Prop
  | yields (a : α) (left : x.ends μ = some (.ok a, μ)) (right : y.ends μ' = some (.ok a, μ'))
  | throws (className : String) {e e' : Ref} {ν ν' : Machine}
      (left : x.ends μ = some (.error (.throw e), ν) ∧ ν.heap.className? e = some className)
      (right : y.ends μ' = some (.error (.throw e'), ν') ∧ ν'.heap.className? e' = some className)
  | fails (defect : Defect) (left : x.ends μ = some (.error (.fatal (.internal defect)), μ))
      (right : y.ends μ' = some (.error (.fatal (.internal defect)), μ'))

namespace SameAnswer

theorem pure (a : α) : SameAnswer (Pure.pure a) (Pure.pure a) μ μ' := .yields a rfl rfl

theorem defect (e : Defect) : SameAnswer (Run.defect e : Run α) (Run.defect e) μ μ' :=
  .fails e rfl rfl

theorem throwNew (className : String) :
    SameAnswer (Run.throwNew className : Run α) (Run.throwNew className) μ μ' := by
  have hthrow (μ : Machine) : ∃ e ν, (Run.throwNew className : Run α).ends μ =
      some (.error (.throw e), ν) ∧ ν.heap.className? e = some className := by
    refine ⟨_, _, rfl, ?_⟩
    simp [Heap.className?, Obj.className?]
  obtain ⟨_, _, hleft⟩ := hthrow μ
  obtain ⟨_, _, hright⟩ := hthrow μ'
  exact .throws className hleft hright

theorem bind {x y : Run α} {f g : α → Run β} (h : SameAnswer x y μ μ')
    (hf : ∀ a, x.ends μ = some (.ok a, μ) → SameAnswer (f a) (g a) μ μ') :
    SameAnswer (x >>= f) (y >>= g) μ μ' := by
  cases h with
  | throws className hleft hright =>
      exact .throws className ⟨ends_bind_error hleft.1, hleft.2⟩
        ⟨ends_bind_error hright.1, hright.2⟩
  | fails defect hleft hright =>
      exact .fails defect (ends_bind_error hleft) (ends_bind_error hright)
  | yields a hleft hright =>
      cases hf a hleft with
      | yields b hb hb' =>
          exact .yields b ((ends_bind_ok hleft).trans hb) ((ends_bind_ok hright).trans hb')
      | throws className hb hb' =>
          exact .throws className ⟨(ends_bind_ok hleft).trans hb.1, hb.2⟩
            ⟨(ends_bind_ok hright).trans hb'.1, hb'.2⟩
      | fails defect hb hb' =>
          exact .fails defect ((ends_bind_ok hleft).trans hb) ((ends_bind_ok hright).trans hb')

/-- What does one thing whatever the machine is does the same on both. -/
theorem direct {P : α → Prop} {x : Run α} (h : Direct P x) : SameAnswer x x μ μ' := by
  cases h with
  | yields _ eq => exact eq ▸ .pure _
  | throws eq => exact eq ▸ .throwNew _
  | fails eq => exact eq ▸ .defect _

/-- What goes on with the object that a part leads to. -/
theorem object {x y : Run Value} {f g : Ref → Run α} (h : SameAnswer x y μ μ')
    (hf : ∀ r, x.ends μ = some (.ok (.ref r), μ) → SameAnswer (f r) (g r) μ μ') :
    SameAnswer (x >>= fun v => asObject v >>= f) (y >>= fun v => asObject v >>= g) μ μ' := by
  refine h.bind fun v hv => (direct (asObject_direct v)).bind fun r hr => hf r ?_
  cases v with
  | ref =>
      cases hr
      exact hv
  | _ => cases hr

/-! ### Reading -/

/-- What looks at the machine gives the same answer if what it goes on with does. -/
theorem get {f g : Machine → Run α} (h : SameAnswer (f μ) (g μ') μ μ') :
    SameAnswer (MonadState.get >>= f) (MonadState.get >>= g) μ μ' := by
  have hleft := ends_bind_ok (f := f) (ends_get μ)
  have hright := ends_bind_ok (f := g) (ends_get μ')
  cases h with
  | yields a ha ha' => exact .yields a (hleft.trans ha) (hright.trans ha')
  | throws c hc hc' => exact .throws c ⟨hleft.trans hc.1, hc.2⟩ ⟨hright.trans hc'.1, hc'.2⟩
  | fails e he he' => exact .fails e (hleft.trans he) (hright.trans he')

theorem getField {r : Ref} {name : String} (hk : μ.Alike μ' r)
    (h : μ.at? (.field r name) = μ'.at? (.field r name)) :
    SameAnswer (Run.getField r name) (Run.getField r name) μ μ' := by
  refine .get ?_
  cases hk with
  | gone hleft hright =>
      rw [hleft, hright]
      exact .defect _
  | arrays hleft hright =>
      rw [hleft, hright]
      exact .defect _
  | @insts _ fields fields' hleft hright =>
      have hfield : fields.get? name = fields'.get? name := by
        simpa only [Machine.at?, hleft, hright] using h
      simp only [hleft, hright, hfield]
      split
      · exact .pure _
      · exact .defect _

theorem getStatic {className name : String}
    (h : let key := staticKey env className name
      μ.at? (.static key.1 key.2) = μ'.at? (.static key.1 key.2)) :
    SameAnswer (Run.getStatic env className name) (Run.getStatic env className name) μ μ' := by
  refine .get ?_
  rw [show μ.statics.get? (staticKey env className name) = _ from h]
  exact .pure _

theorem arrayLength {r : Ref} (hk : μ.Alike μ' r) :
    SameAnswer (Run.arrayLength r) (Run.arrayLength r) μ μ' := by
  refine .get ?_
  cases hk with
  | gone hleft hright =>
      rw [hleft, hright]
      exact .defect _
  | insts hleft hright =>
      rw [hleft, hright]
      exact .defect _
  | arrays hleft hright hsize =>
      simp only [hleft, hright, hsize]
      exact .pure _

/-- An item of an array, if the machines agree on all of its items. -/
theorem getItem {r : Ref} {i : Int64} (hk : μ.Alike μ' r)
    (h : ∀ x ∈ μ.placesOf r .elements, μ.at? x = μ'.at? x) :
    SameAnswer (Run.getItem r i) (Run.getItem r i) μ μ' := by
  refine .get ?_
  cases hk with
  | gone hleft hright =>
      rw [hleft, hright]
      exact .defect _
  | insts hleft hright =>
      rw [hleft, hright]
      exact .defect _
  | @arrays items items' hleft hright hsize =>
      have hitems (n : Nat) (hn : n < items.size) : items.getD n .null = items'.getD n .null := by
        have hitem : items[n]? = items'[n]? := by
          simpa only [Machine.at?, hleft, hright] using h _ (Machine.mem_placesOf_elements hleft hn)
        simp only [Array.getD_eq_getD_getElem?, hitem]
      have hposition : position? items' i = position? items i := by
        rw [position?, position?, hsize]
      simp only [hleft, hright, hposition]
      split
      · next n hn =>
          rw [hitems n (position?_lt hn)]
          exact .pure _
      · exact .throwNew _

end SameAnswer

/-! ## Evaluation -/

theorem getField_at {r : Ref} {name : String} {v : Value} {ν : Machine}
    (h : (getField r name).ends μ = some (.ok v, ν)) : μ.at? (.field r name) = some v := by
  rw [getField, ends_bind_ok (ends_get μ)] at h
  split at h
  · next hr =>
      split at h
      · next hv =>
          cases h
          simpa only [Machine.at?, hr] using hv
      · cases h
  · cases h

theorem getItem_place {r r' : Ref} {i : Int64} {ν : Machine}
    (h : (getItem r i).ends μ = some (.ok (.ref r'), ν)) :
    ∃ x ∈ μ.placesOf r .elements, μ.at? x = some (.ref r') := by
  rw [getItem, ends_bind_ok (ends_get μ)] at h
  split at h
  · next items hr =>
      split at h
      · next n hn =>
          have hlt := position?_lt hn
          rw [Array.getD_eq_getD_getElem?, Array.getElem?_eq_getElem hlt, Option.getD_some] at h
          have hvalue : items[n] = .ref r' := by
            rw [ends_pure, Option.some.injEq, Prod.mk.injEq] at h
            exact Except.ok.inj h.1
          refine ⟨.item r n, Machine.mem_placesOf_elements hr hlt, ?_⟩
          simp only [Machine.at?, hr, Array.getElem?_eq_getElem hlt, hvalue]
      · cases h
  · cases h

/-- A sequence that completes goes on where a part that leaves no trace started. -/
theorem Traceless.of_bind {x : Run α} {f : α → Run β} {b : β} {ν : Machine} (hx : Traceless x)
    (h : (x >>= f).ends μ = some (.ok b, ν)) :
    ∃ a, x.ends μ = some (.ok a, μ) ∧ (f a).ends μ = some (.ok b, ν) := by
  rcases ends_bind_eq_some.mp h with ⟨_, _, hb⟩ | ⟨a, _, ha, hb⟩
  · cases hb
  · obtain rfl := hx ha
    exact ⟨a, ha, hb⟩

/-- What goes on with an object got it from a part that leaves no trace. -/
theorem Traceless.of_asObject {x : Run Value} {f : Ref → Run β} {b : β} {ν : Machine}
    (hx : Traceless x) (h : (x >>= fun v => asObject v >>= f).ends μ = some (.ok b, ν)) :
    ∃ r, x.ends μ = some (.ok (.ref r), μ) ∧ (f r).ends μ = some (.ok b, ν) := by
  obtain ⟨v, hv, h⟩ := hx.of_bind h
  obtain ⟨r, hr, h⟩ := (asObject_reads v).traceless.of_bind h
  cases v with
  | ref =>
      cases hr
      exact ⟨r, hv, h⟩
  | _ => cases hr

/-- Whether a computation never yields an object. -/
def Plain (x : Run Value) : Prop := ∀ ⦃μ r ν⦄, x.ends μ ≠ some (.ok (.ref r), ν)

namespace Plain

theorem bind {x : Run α} {f : α → Run Value} (h : ∀ a, Plain (f a)) : Plain (x >>= f) := by
  intro μ r ν hx
  rcases ends_bind_eq_some.mp hx with ⟨_, _, hr⟩ | ⟨a, μ₁, _, ha⟩
  · cases hr
  · exact h a ha

theorem ite {x y : Run Value} {b : Bool} (hx : Plain x) (hy : Plain y) :
    Plain (if b then x else y) := by
  cases b
  · exact hy
  · exact hx

theorem int (n : Int64) : Plain (pure (.int n)) := nofun

theorem bool (b : Bool) : Plain (pure (.bool b)) := nofun

theorem defect (d : Defect) : Plain (Run.defect d) := nofun

theorem direct {x : Run Value} (h : Direct (fun v => v.ref? = none) x) : Plain x := by
  cases h with
  | @yields a plain eq =>
      rintro μ r ν hr
      rw [eq] at hr
      cases hr
      cases plain
  | throws eq => exact eq ▸ nofun
  | fails eq => exact eq ▸ nofun

theorem arrayLength (r : Ref) : Plain (Run.arrayLength r) := by
  refine bind fun μ => ?_
  split
  · exact .int _
  · exact .defect _

theorem binary (f : Frame) (span : Span) (op : BinaryOp) (x y : Typed.Expr) :
    Plain (eval env c f (.binary span op x y)) := by
  cases op with
  | and =>
      rw [eval]
      exact .bind fun _ => .bind fun _ => .ite (.bind fun _ => .bind fun _ => .bool _) (.bool _)
  | or =>
      rw [eval]
      exact .bind fun _ => .bind fun _ => .ite (.bool _) (.bind fun _ => .bind fun _ => .bool _)
  | _ =>
      simp only [eval]
      exact .bind fun v => .bind fun w => .direct (applyBinary_direct _ v w)

end Plain

/-- What an invariant gets to is along the path that its expression denotes: the frame has nothing
but an object, so evaluation leads to others from there or from a class. -/
theorem mem_objects_of_eval : ∀ e : Typed.Expr, e.callFree = true → ∀ {r : Ref} {ν : Machine},
    (eval env c (Frame.start decl (some o) []) e).ends μ = some (.ok (.ref r), ν) →
    ∃ p, Path.of? [] e = some p ∧ r ∈ p.objects env μ o
  | .this .., _, r, ν, h => by
    rw [eval] at h
    cases h
    exact ⟨_, rfl, List.mem_singleton_self _⟩
  | .staticField _ t cls name, _, r, ν, h => by
    rw [eval, getStatic, ends_bind_ok (ends_get μ)] at h
    have hvalue : μ.statics.get? (staticKey env cls name) = some (.ref r) := by
      cases hget : μ.statics.get? (staticKey env cls name) with
      | none =>
          rw [hget] at h
          cases h
      | some v =>
          rw [hget] at h
          cases h
          rfl
    exact ⟨_, rfl, Path.mem_objects (List.mem_singleton_self _) hvalue⟩
  | .field _ t x name, hfree, r, ν, h => by
    rw [eval] at h
    obtain ⟨r', hr', h⟩ := (eval_traceless x hfree).of_asObject h
    obtain ⟨p, hp, hobject⟩ := mem_objects_of_eval x hfree hr'
    refine ⟨p.step (.field name) t, by rw [Path.of?, hp, Option.map_some], ?_⟩
    exact Path.mem_objects (Path.mem_places_step hobject (List.mem_singleton_self _))
      (getField_at h)
  | .index _ t x i, hfree, r, ν, h => by
    rw [Typed.Expr.callFree, Bool.and_eq_true] at hfree
    rw [eval] at h
    obtain ⟨r', hr', h⟩ := (eval_traceless x hfree.1).of_asObject h
    obtain ⟨p, hp, hobject⟩ := mem_objects_of_eval x hfree.1 hr'
    obtain ⟨w, _, h⟩ := (eval_traceless i hfree.2).of_bind h
    obtain ⟨n, _, h⟩ := (asInt_reads w).traceless.of_bind h
    obtain ⟨y, hy, hvalue⟩ := getItem_place h
    refine ⟨p.step .elements t, by rw [Path.of?, hp, Option.map_some], ?_⟩
    exact Path.mem_objects (Path.mem_places_step hobject hy) hvalue
  | .binary .., _, _, _, h => (Plain.binary _ _ _ _ _ h).elim
  | .unary _ op x, _, _, _, h => by
    rw [eval] at h
    exact (Plain.bind (fun v => .direct (applyUnary_direct op v)) h).elim
  | .length .., _, _, _, h => by
    rw [eval] at h
    exact (Plain.bind (fun _ => .bind fun r => .arrayLength r) h).elim
  | .int .., _, _, _, h | .bool .., _, _, _, h | .null .., _, _, _, h | .var .., _, _, _, h
  | .param .., _, _, _, h | .result .., _, _, _, h | .slot .., _, _, _, h | .old .., _, _, _, h
  | .spread .., _, _, _, h => by
    rw [eval] at h
    cases h
  | .call .., hfree, _, _, _ | .new .., hfree, _, _, _ | .newArray .., hfree, _, _, _ => by
    cases hfree

/-- An expression gives the same answer on two machines that agree on what its parts read. -/
theorem eval_sameAnswer (hk : μ.SameKinds μ') : ∀ e : Typed.Expr, e.callFree = true →
    (∀ part ∈ e.parts, ∀ p, readPath? part = some p → Agrees env μ μ' o p) →
    SameAnswer (eval env c (Frame.start decl (some o) []) e)
      (eval env d (Frame.start decl (some o) []) e) μ μ'
  | .int .., _, _ | .bool .., _, _ | .null .., _, _ | .this .., _, _ | .result .., _, _ => by
    rw [eval, eval]
    exact .pure _
  | .var .., _, _ | .param .., _, _ | .slot .., _, _ | .old .., _, _ | .spread .., _, _ => by
    rw [eval, eval]
    exact .defect _
  | .staticField .., _, h => by
    rw [eval, eval]
    exact .getStatic (h _ (List.mem_singleton_self _) _ rfl _ (List.mem_singleton_self _))
  | .field _ t x name, hfree, h => by
    obtain ⟨hread, hx⟩ := List.forall_mem_cons.mp h
    rw [eval, eval]
    refine (eval_sameAnswer hk x hfree hx).object fun r hr => ?_
    obtain ⟨p, hp, hobject⟩ := mem_objects_of_eval x hfree hr
    refine .getField (hk.alike r) (hread (p.step (.field name) t) ?_ _ ?_)
    · rw [readPath?, Path.of?, hp, Option.map_some]
    · exact Path.mem_places_step hobject (List.mem_singleton_self _)
  | .length _ x, hfree, h => by
    rw [eval, eval]
    refine (eval_sameAnswer hk x hfree (List.forall_mem_cons.mp h).2).object fun r _ => ?_
    exact .arrayLength (hk.alike r)
  | .index _ t x i, hfree, h => by
    rw [Typed.Expr.callFree, Bool.and_eq_true] at hfree
    obtain ⟨hread, hparts⟩ := List.forall_mem_cons.mp h
    obtain ⟨hx, hi⟩ := List.forall_mem_append.mp hparts
    rw [eval, eval]
    refine (eval_sameAnswer hk x hfree.1 hx).object fun r hr => ?_
    obtain ⟨p, hp, hobject⟩ := mem_objects_of_eval x hfree.1 hr
    refine (eval_sameAnswer hk i hfree.2 hi).bind fun v _ => ?_
    refine (SameAnswer.direct (asInt_direct v)).bind fun n _ => ?_
    refine .getItem (hk.alike r) fun y hy => hread (p.step .elements t) ?_ y ?_
    · rw [readPath?, Path.of?, hp, Option.map_some]
    · exact Path.mem_places_step hobject hy
  | .binary _ op x y, hfree, h => by
    rw [Typed.Expr.callFree, Bool.and_eq_true] at hfree
    obtain ⟨hx, hy⟩ := List.forall_mem_append.mp (List.forall_mem_cons.mp h).2
    have hleft := eval_sameAnswer hk x hfree.1 hx
    have hright := eval_sameAnswer hk y hfree.2 hy
    cases op with
    | and =>
        rw [eval, eval]
        refine hleft.bind fun v _ => (SameAnswer.direct (asBool_direct v)).bind fun b _ => ?_
        cases b with
        | false => exact .pure _
        | true => exact hright.bind fun w _ =>
            (SameAnswer.direct (asBool_direct w)).bind fun _ _ => .pure _
    | or =>
        rw [eval, eval]
        refine hleft.bind fun v _ => (SameAnswer.direct (asBool_direct v)).bind fun b _ => ?_
        cases b with
        | true => exact .pure _
        | false => exact hright.bind fun w _ =>
            (SameAnswer.direct (asBool_direct w)).bind fun _ _ => .pure _
    | _ =>
        simp only [eval]
        exact hleft.bind fun v _ => hright.bind fun w _ => .direct (applyBinary_direct _ v w)
  | .unary _ op x, hfree, h => by
    rw [eval, eval]
    refine (eval_sameAnswer hk x hfree (List.forall_mem_cons.mp h).2).bind fun v _ => ?_
    exact .direct (applyUnary_direct op v)
  | .call .., hfree, _ | .new .., hfree, _ | .newArray .., hfree, _ => by
    cases hfree

/-! ## Ways without calls

The objects to which a path without calls leads are those that a run reaches along the path when it
checks an obligation. -/

theorem refsAt_items {r : Ref} {items : Array Value} (hr : μ.heap[r]? = some (.array items)) :
    μ.refsAt (μ.placesOf r .elements) = items.toList.filterMap Value.ref? := by
  have hplaces : μ.refsAt (μ.placesOf r .elements) =
      (List.range items.size).filterMap fun i => items[i]?.bind Value.ref? := by
    simp only [Machine.refsAt, Machine.placesOf, hr, List.filterMap_map]
    refine List.filterMap_congr fun i _ => ?_
    simp only [Function.comp_apply, Machine.at?, hr]
  rw [hplaces]
  conv_rhs => rw [← List.map_getElem_finRange items.toList, List.filterMap_map]
  rw [← List.map_coe_finRange_eq_range, List.filterMap_map]
  refine List.filterMap_congr fun i _ => ?_
  simp

theorem refsAt_static (key : String × String) :
    μ.refsAt [.static key.1 key.2] = (μ.statics.get? key).toList.filterMap Value.ref? := by
  have hkey : μ.at? (.static key.1 key.2) = μ.statics.get? key := rfl
  rw [Machine.refsAt, List.filterMap_cons, hkey]
  cases μ.statics.get? key with
  | none => rfl
  | some v => rfl

theorem refsAt_flatMap {α : Type} (xs : List α) (f : α → List Place) :
    μ.refsAt (xs.flatMap f) = xs.flatMap fun x => μ.refsAt (f x) := by
  simp only [Machine.refsAt, List.filterMap_flatMap]

theorem stepFrom_objects {s : Step} (hs : ∀ name, s ≠ .accessor name) {r : Ref} {vs : List Value}
    {ν : Machine} (h : (stepFrom env c r s).ends μ = some (.ok vs, ν)) :
    ν = μ ∧ vs.filterMap Value.ref? = μ.refsAt (μ.placesOf r s) := by
  cases s with
  | accessor name => exact absurd rfl (hs name)
  | field name =>
      obtain ⟨v, hv, h⟩ := (getField_reads r name).traceless.of_bind h
      cases h
      refine ⟨rfl, ?_⟩
      simp only [Machine.placesOf, Machine.refsAt, List.filterMap_cons, getField_at hv]
      rfl
  | elements =>
      rw [stepFrom, ends_bind_ok (ends_get μ)] at h
      split at h
      · next items hr =>
          cases h
          exact ⟨rfl, (refsAt_items hr).symm⟩
      · next hr =>
          cases h
          refine ⟨rfl, ?_⟩
          cases hobject : μ.heap[r]? with
          | none => simp [Machine.placesOf, Machine.refsAt, hobject]
          | some x =>
              cases x with
              | array items => exact absurd hobject (hr items)
              | inst => simp [Machine.placesOf, Machine.refsAt, hobject]

theorem stepFromAll_objects {s : Step} (hs : ∀ name, s ≠ .accessor name) {vs ws : List Value}
    {ν : Machine} (h : (stepFromAll env c s vs).ends μ = some (.ok ws, ν)) :
    ν = μ ∧ ws.filterMap Value.ref? =
      (vs.filterMap Value.ref?).flatMap fun r => μ.refsAt (μ.placesOf r s) := by
  induction vs generalizing ws ν with
  | nil =>
      cases h
      exact ⟨rfl, rfl⟩
  | cons v vs ih =>
      cases v with
      | ref r =>
          rcases ends_bind_eq_some.mp h with ⟨_, _, hr⟩ | ⟨here, μ₁, hhere, htail⟩
          · cases hr
          · obtain ⟨rfl, hfirst⟩ := stepFrom_objects hs hhere
            rcases ends_bind_eq_some.mp htail with ⟨_, _, hr⟩ | ⟨others, μ₂, hothers, hend⟩
            · cases hr
            · obtain ⟨rfl, hrest⟩ := ih hothers
              cases hend
              refine ⟨rfl, ?_⟩
              rw [List.filterMap_append, hfirst, hrest]
              rfl
      | int | bool | null | void => exact ih h

theorem refsAt_foldl (steps : List Step) (places : List Place) :
    μ.refsAt (steps.foldl μ.placesBehind places) = μ.refsAlong (μ.refsAt places) steps := by
  induction steps generalizing places with
  | nil => rfl
  | cons s steps ih =>
      rw [List.foldl_cons, ih, Machine.placesBehind, refsAt_flatMap]
      rfl

theorem refsAlong_nil (steps : List Step) : μ.refsAlong [] steps = [] := by
  induction steps with
  | nil => rfl
  | cons s steps ih => exact ih

theorem objects_of_this {p : Path} (h : p.root = .this) :
    p.objects env μ o = μ.refsAlong [o] p.trail := by
  rw [Path.objects, h]
  cases htrail : p.trail with
  | nil => rfl
  | cons s steps =>
      have hfirst : μ.refsAlong [o] (s :: steps) = μ.refsAlong (μ.refsAt (μ.placesOf o s)) steps :=
        congrArg (μ.refsAlong · steps) (List.append_nil _)
      rw [hfirst, ← refsAt_foldl, Path.places, h, htrail]

theorem walk_objects {steps : List Step} (hs : ∀ s ∈ steps, ∀ name, s ≠ .accessor name)
    {vs ws : List Value} {ν : Machine} (h : (walk env c steps vs).ends μ = some (.ok ws, ν)) :
    ν = μ ∧ ws.filterMap Value.ref? = μ.refsAlong (vs.filterMap Value.ref?) steps := by
  induction steps generalizing vs with
  | nil =>
      cases h
      exact ⟨rfl, rfl⟩
  | cons s steps ih =>
      obtain ⟨hfirst, hothers⟩ := List.forall_mem_cons.mp hs
      rcases ends_bind_eq_some.mp h with ⟨_, _, hr⟩ | ⟨next, μ₁, hnext, hwalk⟩
      · cases hr
      · obtain ⟨rfl, hvalues⟩ := stepFromAll_objects hfirst hnext
        obtain ⟨rfl, hrest⟩ := ih hothers hwalk
        refine ⟨rfl, ?_⟩
        rw [hrest, hvalues]
        rfl

/-- Where a path starts, and what is left of it, lead to its objects. -/
theorem startOf_objects {p : Path} (hroot : ∀ i, p.root ≠ .param i) {vs : List Value}
    {steps : List Step} (h : (startOf env p (some o) []).ends μ = some (.ok (vs, steps), μ)) :
    μ.refsAlong (vs.filterMap Value.ref?) steps = p.objects env μ o := by
  rw [startOf.eq_def] at h
  split at h
  · next hthis =>
      cases h
      exact (objects_of_this hthis).symm
  · next i hparam => exact absurd hparam (hroot i)
  · next cls name steps hstatic htrail =>
      cases h
      rw [Path.objects, Path.places, hstatic, htrail, refsAt_foldl]
      exact congrArg (μ.refsAlong · steps) (refsAt_static _).symm
  · next cls hstatic hno =>
      -- From a class a path leads nowhere unless a static field comes first.
      cases h
      have hnone : p.places env μ o = [] := by
        rw [Path.places, hstatic]
        split
        · next hroot _ => cases hroot
        · next hroot htrail =>
            cases hroot
            exact absurd htrail (hno _ _)
        · rfl
      rw [Path.objects, hstatic, hnone]
      exact refsAlong_nil _

/-- Where the program gets along a path without calls from an object. -/
theorem reach_objects {p : Path} (hs : ∀ s ∈ p.trail, ∀ name, s ≠ .accessor name)
    (hroot : ∀ i, p.root ≠ .param i) {rs : List Ref} {ν : Machine}
    (h : (reach env c p (some o) []).ends μ = some (.ok rs, ν)) :
    ν = μ ∧ rs = p.objects env μ o := by
  obtain ⟨⟨vs, steps⟩, hstart, hrest⟩ := (startOf_traceless p (some o) []).of_bind h
  rcases ends_bind_eq_some.mp hrest with ⟨_, _, hr⟩ | ⟨ws, _, hwalk, hend⟩
  · cases hr
  · cases hend
    have hsteps : ∀ s ∈ steps, ∀ name, s ≠ .accessor name :=
      fun s hmem => hs s (startOf_subset hstart hmem)
    obtain ⟨rfl, hobjects⟩ := walk_objects hsteps hwalk
    exact ⟨rfl, hobjects.trans (startOf_objects hroot hstart)⟩

end Run

open Effect Run

/-- An invariant without calls and creations gives the same answer for an object on any two machines
that agree on the places of its read set, whatever else they hold, if their objects are of the same
classes and their arrays of the same lengths. -/
theorem sameAnswer_of_agrees {env : Env} {c d : Calls} {clause : BoundClause} {o : Ref}
    {μ μ' : Machine} (hfree : clause.expr.callFree = true) (hk : μ.SameKinds μ')
    (h : ∀ p ∈ readSet clause, Agrees env μ μ' o p) :
    SameAnswer (holds env c (Frame.start clause.origin (some o) []) clause)
      (holds env d (Frame.start clause.origin (some o) []) clause) μ μ' := by
  have hparts : ∀ part ∈ clause.expr.parts, ∀ p, readPath? part = some p →
      Agrees env μ μ' o p := by
    intro part hpart p hp
    have hread := List.mem_filterMap.mpr ⟨part, hpart, hp⟩
    obtain ⟨q, hq, hsame⟩ := exists_mem_firsts Path.same_refl hread
    rw [Agrees, ← Path.places_same hsame]
    exact h q hq
  refine (eval_sameAnswer hk clause.expr hfree hparts).bind fun v _ => ?_
  cases v with
  | bool b => exact .pure b
  | _ => exact .defect _

/-- An invariant that reads through an array, a computed index and a static field. -/
def shelfSource : String :=
  "class Item { int weight; int price; }
   /** @invar | items[first].weight <= Shelf.limit */
   class Shelf { static int limit; Item[] items; int first; int count; }"

/-- A shelf with one item. The invariant reads neither the count nor the price. -/
def shelfMachine (count price : Int64) : Machine where
  heap := #[.inst "Shelf" (.ofList [("items", .ref 1), ("first", .int 0), ("count", .int count)]),
    .array #[.ref 2], .inst "Item" (.ofList [("weight", .int 3), ("price", .int price)])]
  statics := .ofList [(("Shelf", "limit"), .int 5)]
  depth := 0

instance (μ μ' : Machine) : Decidable (μ.SameKinds μ') :=
  inferInstanceAs (Decidable (μ.heap.map Obj.kind = μ'.heap.map Obj.kind))

instance (env : Env) (μ μ' : Machine) (o : Ref) (p : Path) : Decidable (Agrees env μ μ' o p) :=
  inferInstanceAs (Decidable (∀ x ∈ p.places env μ o, μ.at? x = μ'.at? x))

/-- Evaluates what is said of `shelfSource`. -/
def shelfCheck : Option Bool := do
  let b ← (build shelfSource {}).toOption
  let env := b.program.env
  let (_, clause) ← (classInvariants env b.plan.invariants "Shelf").head?
  let (result, _) ← (holds env (calls b.program 8 8) (Frame.start clause.origin (some 0) [])
    clause).ends (shelfMachine 0 0)
  return decide (clause.expr.callFree = true ∧ result = .ok true ∧
    (shelfMachine 0 0).SameKinds (shelfMachine 1 2) ∧
    ∀ p ∈ readSet clause, Agrees env (shelfMachine 0 0) (shelfMachine 1 2) 0 p)

/-- The invariant is true on both machines, and on the second one whatever calls do. -/
theorem sameAnswer_of_agrees_shelf :
    ∃ (b : Build) (clause : BoundClause), build shelfSource {} = .ok b ∧
      ∀ d : Calls, (holds b.program.env d (Frame.start clause.origin (some 0) []) clause).ends
        (shelfMachine 1 2) = some (.ok true, shelfMachine 1 2) := by
  have h : shelfCheck = some true := by
    set_option maxRecDepth 20000 in
    rw [shelfCheck, show shelfSource = String.ofList _ from rfl, build_ofList]
    decide +kernel
  simp only [shelfCheck, Option.bind_eq_bind, Option.bind_eq_some_iff] at h
  obtain ⟨b, hb, ⟨_, clause⟩, _, ⟨result, μ⟩, hholds, h⟩ := h
  simp only [Option.pure_def, Option.some.injEq, decide_eq_true_eq] at h
  obtain ⟨hfree, rfl, hkinds, hagree⟩ := h
  refine ⟨b, clause, ok_of_toOption hb, fun d => ?_⟩
  cases sameAnswer_of_agrees (c := calls b.program 8 8) (d := d) hfree hkinds hagree with
  | yields a hleft hright =>
      cases hholds.symm.trans hleft
      exact hright
  | throws _ hleft _ => cases hholds.symm.trans hleft.1
  | fails _ hleft _ => cases hholds.symm.trans hleft

end Covenant
