import Covenant.Proofs.CheckedProgram
import Mathlib.Data.List.Nodup

/-!
# Types of values, and fields

A value of one type can stand where another one is asked for as far as the second
type is a supertype of the first. A class has the fields of its superclasses, and
no two of its fields have one name, so a name means in a subclass the field that
it means in the class.
-/

namespace Covenant

open Relation (ReflTransGen)

/-- A type that variables, fields and elements can have. -/
def Ty.Stored : Ty → Prop
  | .void | .null => False
  | .int | .boolean | .ofClass _ => True
  | .array elem => elem.Stored

namespace Env

section

variable {env : Env} {s t u : Ty}

theorem isAssignable_iff : env.isAssignable s t = true ↔
    s = t ∨ (s = .null ∧ ((∃ c, t = .ofClass c) ∨ ∃ e, t = .array e)) ∨
      ∃ a b, s = .ofClass a ∧ t = .ofClass b ∧ env.isSubtype a b = true := by
  cases s <;> cases t <;> simp [isAssignable]

theorem isAssignable_refl : env.isAssignable t t = true := isAssignable_iff.mpr (.inl rfl)

theorem isAssignable_trans (h : env.isAssignable s t = true) (h' : env.isAssignable t u = true) :
    env.isAssignable s u = true := by
  rcases isAssignable_iff.mp h with rfl | ⟨rfl, hnull⟩ | ⟨a, b, rfl, rfl, hab⟩
  · exact h'
  · rcases isAssignable_iff.mp h' with rfl | ⟨rfl, hnull'⟩ | ⟨b, c, rfl, rfl, _⟩
    · exact h
    · exact isAssignable_iff.mpr (.inr (.inl ⟨rfl, hnull'⟩))
    · exact isAssignable_iff.mpr (.inr (.inl ⟨rfl, .inl ⟨c, rfl⟩⟩))
  · rcases isAssignable_iff.mp h' with rfl | ⟨hb, _⟩ | ⟨b', c, hb, rfl, hbc⟩
    · exact h
    · exact absurd hb (by simp)
    · obtain rfl := Ty.ofClass.inj hb
      exact isAssignable_iff.mpr (.inr (.inr ⟨a, c, rfl, rfl, isSubtype_trans hab hbc⟩))

/-- Only an `int` is taken for an `int`. -/
theorem eq_int_of_isAssignable (h : env.isAssignable t .int = true) : t = .int := by
  simpa [isAssignable_iff] using h

theorem eq_boolean_of_isAssignable (h : env.isAssignable t .boolean = true) : t = .boolean := by
  simpa [isAssignable_iff] using h

theorem isAssignable_ofClass {a b : String} (h : env.isSubtype a b = true) :
    env.isAssignable (.ofClass a) (.ofClass b) = true :=
  isAssignable_iff.mpr (.inr (.inr ⟨a, b, rfl, rfl, h⟩))

/-- What a type expression stands for can be stored. -/
theorem stored_of_resolveType : ∀ {e : Surface.TypeExpr} {t : Ty}, env.resolveType e = .ok t →
    t.Stored
  | .int _, _, h | .boolean _, _, h => by
      cases h
      trivial
  | .named .., _, h => by
      rw [resolveType] at h
      split at h
      · cases h
        trivial
      · cases h
  | .array _ elem, _, h => by
      cases he : env.resolveType elem with
      | error fault =>
          rw [resolveType, he] at h
          cases h
      | ok elem' =>
          have helem : elem'.Stored := stored_of_resolveType he
          rw [resolveType, he] at h
          cases h
          exact helem

end

/-- A known class stands in front of its superclasses. -/
theorem classChain_eq_cons {env : Env} {c : String} {info : ClassInfo}
    (hi : env.class? c = some info) : env.classChain c = info :: (env.classChain c).drop 1 := by
  obtain ⟨n, hn⟩ : ∃ n, env.classes.size = n + 1 := by
    refine Nat.exists_eq_succ_of_ne_zero fun hz => ?_
    have hmem := Table.mem_of_get? hi
    rw [List.eq_nil_of_length_eq_zero hz] at hmem
    exact absurd hmem List.not_mem_nil
  rw [classChain, hn, chainFrom, hi]
  rfl

/-- The fields of a class, its own and those that it inherits; static ones are among them. -/
def fieldsOf (env : Env) (c : String) : List FieldInfo :=
  ((env.classChain c).flatMap (·.fields)).filterMap env.field?

theorem mem_of_lookupField? {env : Env} {c n : String} {f : FieldInfo}
    (h : env.lookupField? c n = some f) : f ∈ env.fieldsOf c ∧ f.name = n :=
  ⟨List.mem_of_find?_eq_some h, by simpa using List.find?_some h⟩

namespace DeclaredBy

open Surface (Program TypeDecl)

variable {env : Env} {p : Program} (h : env.DeclaredBy p)

include h

/-- What is listed as a field of a type is one, and the type is a class. -/
theorem field_of_type {name : String} {info : ClassInfo} (hi : env.class? name = some info)
    {id : DeclId} (hid : id ∈ info.fields) :
    ∃ f, env.field? id = some f ∧ f.id = id ∧ f.owner = name ∧ f.type.Stored ∧
      info.isInterface = false := by
  rcases h.info_cases hi with ⟨x, _, i, ctor, _, _, rfl⟩ | ⟨t, ht, ms, ctors, he, rfl, rfl⟩
  · exact absurd hid List.not_mem_nil
  · have hid : id ∈ ms.fields.map (·.id) := hid
    obtain ⟨f, hf, rfl⟩ := List.mem_map.mp hid
    obtain ⟨d, type, hd, htype, hdecl⟩ := (membersOf he.members).fields f hf
    refine ⟨f, he.field f hf, rfl, by rw [hdecl]; rfl, ?_, ?_⟩
    · rw [hdecl]
      exact stored_of_resolveType htype
    · by_contra hint
      have hsign := (h.wellFormed.types t ht).signatures (of_decide_eq_true (Bool.not_eq_false _ ▸ hint)) _ hd
      exact absurd hsign (by simp [Parse.isSignature])

/-- The parameters of a member have different names, and types that can be stored. -/
theorem params_cases {id : DeclId} {m : MethodInfo} (hm : env.method? id = some m) :
    (m.params.map (·.1)).Nodup ∧ ∀ x ∈ m.params, x.2.Stored := by
  have resolved {env₀ : Env} {ps : List Surface.Param}
      (hps : env₀.resolveParams [] ps = .ok m.params) :
      (m.params.map (·.1)).Nodup ∧ ∀ x ∈ m.params, x.2.Stored := by
    obtain ⟨hnodup, _, htypes⟩ := resolveParams_ok hps
    refine ⟨hnodup, fun x hx => ?_⟩
    obtain ⟨t, ht⟩ := htypes x hx
    exact stored_of_resolveType ht
  have none (hparams : m.params = []) :
      (m.params.map (·.1)).Nodup ∧ ∀ x ∈ m.params, x.2.Stored :=
    hparams ▸ ⟨List.nodup_nil, fun x hx => absurd hx List.not_mem_nil⟩
  obtain ⟨_, ⟨x, _, i, he⟩ | ⟨t, _, ms, ctors, he, hmem⟩⟩ := h.method_cases id m hm
  · obtain rfl := Option.some.inj (he.method.symm.trans hm)
    exact none rfl
  · rcases List.mem_append.mp hmem with hmem | hmem
    · obtain ⟨d, _, hsig⟩ := (membersOf he.members).methods m hmem
      exact resolved hsig.params
    · have hctors := he.constructors
      cases hctors with
      | declared =>
          obtain ⟨d, _, hsig⟩ := (membersOf he.members).ctors m hmem
          exact resolved hsig.params
      | default =>
          obtain rfl := List.mem_singleton.mp hmem
          exact none rfl

/-- Every field is listed by its class. -/
theorem type_of_field {id : DeclId} {f : FieldInfo} (hf : env.field? id = some f) :
    ∃ info, env.class? f.owner = some info ∧ id ∈ info.fields := by
  obtain ⟨rfl, t, ht, ms, ctors, he, hmem⟩ := h.field_cases id f hf
  obtain ⟨d, type, hd, htype, hdecl⟩ := (membersOf he.members).fields f hmem
  have howner : f.owner = t.name.val := by rw [hdecl]; rfl
  exact ⟨_, howner ▸ he.info, List.mem_map.mpr ⟨f, hmem, rfl⟩⟩

/-- No two fields of a type have one name. -/
theorem eq_of_fieldName {name : String} {info : ClassInfo} (hi : env.class? name = some info)
    {f g : FieldInfo} (hf : env.field? f.id = some f) (hg : env.field? g.id = some g)
    (hif : f.id ∈ info.fields) (hig : g.id ∈ info.fields) (hn : f.name = g.name) : f = g := by
  rcases h.info_cases hi with ⟨x, _, i, ctor, _, _, rfl⟩ | ⟨t, ht, ms, ctors, he, rfl, rfl⟩
  · exact absurd hif List.not_mem_nil
  · have listed {f : FieldInfo} (hf : env.field? f.id = some f)
        (hid : f.id ∈ ms.fields.map (·.id)) : f ∈ ms.fields := by
      obtain ⟨f', hf', hid⟩ := List.mem_map.mp hid
      have hget := he.field f' hf'
      rw [hid, hf] at hget
      exact Option.some.inj hget ▸ hf'
    exact List.inj_on_of_nodup_map (membersOf he.members).fieldNames (listed hf hif)
      (listed hg hig) hn

/-- The fields of a class are those of the classes in its chain. -/
theorem mem_fieldsOf {c : String} {f : FieldInfo} :
    f ∈ env.fieldsOf c ↔ env.field? f.id = some f ∧ ∃ info ∈ env.classChain c,
      info.name = f.owner ∧ f.id ∈ info.fields := by
  constructor
  · intro hf
    obtain ⟨id, hid, hget⟩ := List.mem_filterMap.mp hf
    obtain ⟨info, hin, hid⟩ := List.mem_flatMap.mp hid
    obtain ⟨hi, _⟩ := h.isSubtype_of_mem_chain hin
    obtain ⟨f', hf', rfl, howner, _⟩ := h.field_of_type hi hid
    obtain rfl := Option.some.inj (hget.symm.trans hf')
    exact ⟨hget, info, hin, howner.symm, hid⟩
  · rintro ⟨hget, info, hin, _, hid⟩
    exact List.mem_filterMap.mpr ⟨f.id, List.mem_flatMap.mpr ⟨info, hin, hid⟩, hget⟩

theorem stored_of_mem_fieldsOf {c : String} {f : FieldInfo} (hf : f ∈ env.fieldsOf c) :
    f.type.Stored := by
  obtain ⟨hget, info, hin, howner, hid⟩ := h.mem_fieldsOf.mp hf
  obtain ⟨f', hf', _, _, hs, _⟩ := h.field_of_type (h.isSubtype_of_mem_chain hin).1 hid
  exact Option.some.inj (hget.symm.trans hf') ▸ hs

/-- A subclass has the fields of the class. -/
theorem fieldsOf_mono {c d : String} (hs : env.isSubtype d c = true) {f : FieldInfo}
    (hf : f ∈ env.fieldsOf c) : f ∈ env.fieldsOf d := by
  obtain ⟨hget, info, hin, howner, hid⟩ := h.mem_fieldsOf.mp hf
  obtain ⟨hi, hsub⟩ := h.isSubtype_of_mem_chain hin
  obtain ⟨_, _, _, _, _, hclass⟩ := h.field_of_type hi hid
  exact h.mem_fieldsOf.mpr ⟨hget, info,
    h.mem_chain_of_isSubtype hi hclass (isSubtype_trans hs hsub), howner, hid⟩

theorem mem_fieldsOf_owner {c : String} {f : FieldInfo} (hf : f ∈ env.fieldsOf c) :
    f ∈ env.fieldsOf f.owner ∧ env.isSubtype c f.owner = true := by
  obtain ⟨hget, info, hin, howner, hid⟩ := h.mem_fieldsOf.mp hf
  obtain ⟨hi, hsub⟩ := h.isSubtype_of_mem_chain hin
  refine ⟨h.mem_fieldsOf.mpr ⟨hget, info, ?_, howner, hid⟩, howner ▸ hsub⟩
  exact mem_classChain.mpr ⟨info.name, hi, howner ▸ .refl⟩

/-- Of two classes in one chain, one extends the other. -/
theorem chain_total {c : String} {i j : ClassInfo} (hi : i ∈ env.classChain c)
    (hj : j ∈ env.classChain c) :
    ReflTransGen env.Extends i.name j.name ∨ ReflTransGen env.Extends j.name i.name := by
  obtain ⟨a, ha, hca⟩ := mem_classChain.mp hi
  obtain ⟨b, hb, hcb⟩ := mem_classChain.mp hj
  rw [h.name_eq ha, h.name_eq hb]
  refine ReflTransGen.total_of_right_unique ?_ hca hcb
  rintro x y z ⟨info, hx, hy⟩ ⟨info', hx', hz⟩
  obtain rfl := Option.some.inj (hx.symm.trans hx')
  exact Option.some.inj (hy.symm.trans hz)

/-- A field does not have the name of one that its class inherits. -/
theorem eq_of_extends {i j : ClassInfo} (hi : env.class? i.name = some i)
    (hj : env.class? j.name = some j) (hij : ReflTransGen env.Extends i.name j.name)
    {f g : FieldInfo} (hf : env.field? f.id = some f) (hg : env.field? g.id = some g)
    (hif : f.id ∈ i.fields) (hjg : g.id ∈ j.fields) (hn : f.name = g.name) : f = g := by
  by_cases hne : j = i
  · subst hne
    exact h.eq_of_fieldName hi hf hg hif hjg hn
  · have hin : j ∈ env.classChain i.name := mem_classChain.mpr ⟨j.name, hj, hij⟩
    rw [classChain_eq_cons hi] at hin
    have hin := (List.mem_cons.mp hin).resolve_left hne
    have hcheck := forM_ok (h.fieldsDiffer i (List.mem_map.mpr ⟨_, Table.mem_of_get? hi, rfl⟩)) f
      (List.mem_filterMap.mpr ⟨f.id, hif, hf⟩)
    split at hcheck
    · exact absurd hcheck (by simp [typingFault])
    · next hany =>
        refine absurd (List.any_eq_true.mpr ⟨g, ?_, by simp [hn]⟩) hany
        exact List.mem_filterMap.mpr ⟨g.id, List.mem_flatMap.mpr ⟨j, hin, hjg⟩, hg⟩

/-- No two fields of a class have one name, also not if it inherits them. -/
theorem fieldsOf_inj {c : String} {f g : FieldInfo} (hf : f ∈ env.fieldsOf c)
    (hg : g ∈ env.fieldsOf c) (hn : f.name = g.name) : f = g := by
  obtain ⟨hgetf, i, hi, _, hif⟩ := h.mem_fieldsOf.mp hf
  obtain ⟨hgetg, j, hj, _, hjg⟩ := h.mem_fieldsOf.mp hg
  have hi' := (h.isSubtype_of_mem_chain hi).1
  have hj' := (h.isSubtype_of_mem_chain hj).1
  rcases h.chain_total hi hj with hij | hji
  · exact h.eq_of_extends hi' hj' hij hgetf hgetg hif hjg hn
  · exact (h.eq_of_extends hj' hi' hji hgetg hgetf hjg hif hn.symm).symm

/-- A name means in a subclass the field that it means in the class. -/
theorem lookupField?_mono {c d n : String} (hs : env.isSubtype d c = true) {f : FieldInfo}
    (hf : env.lookupField? c n = some f) : env.lookupField? d n = some f := by
  obtain ⟨hmem, hn⟩ := mem_of_lookupField? hf
  have hmem' := h.fieldsOf_mono hs hmem
  cases hd : env.lookupField? d n with
  | none => exact absurd (List.find?_eq_none.mp hd f hmem') (by simp [hn])
  | some g =>
      obtain ⟨hg, hgn⟩ := mem_of_lookupField? hd
      rw [h.fieldsOf_inj hg hmem' (hgn.trans hn.symm)]

/-- A field is found under its name in its own class. -/
theorem lookupField?_owner {c : String} {f : FieldInfo} (hf : f ∈ env.fieldsOf c) :
    env.lookupField? f.owner f.name = some f := by
  obtain ⟨hmem, _⟩ := h.mem_fieldsOf_owner hf
  cases hd : env.lookupField? f.owner f.name with
  | none => exact absurd (List.find?_eq_none.mp hd f hmem) (by simp)
  | some g =>
      obtain ⟨hg, hgn⟩ := mem_of_lookupField? hd
      rw [h.fieldsOf_inj hg hmem hgn]

/-- Built-in exceptions have no fields. -/
theorem fieldsOf_exception {x : String × Option String} (hx : x ∈ builtinExceptions) :
    env.fieldsOf x.1 = [] := by
  have closed : ∀ x ∈ builtinExceptions, ∀ s, x.2 = some s → ∃ y ∈ builtinExceptions, y.1 = s := by
    decide
  have builtin {b : String} (hr : ReflTransGen env.Extends x.1 b) :
      ∃ y ∈ builtinExceptions, y.1 = b := by
    induction hr with
    | refl => exact ⟨x, hx, rfl⟩
    | tail _ hstep ih =>
        obtain ⟨y, hy, rfl⟩ := ih
        obtain ⟨info, hi, hs⟩ := hstep
        obtain ⟨_, _, he⟩ := h.exceptions y hy
        obtain rfl := Option.some.inj (hi.symm.trans he.info)
        exact closed y hy _ hs
  refine List.eq_nil_iff_forall_not_mem.mpr fun f hf => ?_
  obtain ⟨_, info, hin, _, hid⟩ := h.mem_fieldsOf.mp hf
  obtain ⟨b, hb, hr⟩ := mem_classChain.mp hin
  obtain ⟨y, hy, rfl⟩ := builtin hr
  obtain ⟨_, _, he⟩ := h.exceptions y hy
  obtain rfl := Option.some.inj (hb.symm.trans he.info)
  exact absurd hid List.not_mem_nil

end DeclaredBy

end Env

end Covenant
