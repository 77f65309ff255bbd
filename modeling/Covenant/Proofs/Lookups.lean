import Covenant.Proofs.Inheritance

/-!
# What names of members mean

The methods that a name can mean in a type are those of that name in the type and
its supertypes. What is listed as a constructor of a class makes objects of that
class, and what is listed among its initializers belongs to it.
-/

namespace Covenant.Env

open Surface (Program)

/-- A first value among the initializers is that of a field of objects. -/
theorem field_of_item {env : Env} {owner : String} {members : List Surface.Member}
    {ms : MemberList} (h : members.foldlM (env.addMember owner) {} = .ok ms) :
    ∀ id, .field id ∈ ms.initOrder →
      ∃ f ∈ ms.fields, f.id = id ∧ f.owner = owner ∧ f.isStatic = false := by
  refine members_induct (P := fun ms => ∀ id, .field id ∈ ms.initOrder →
    ∃ f ∈ ms.fields, f.id = id ∧ f.owner = owner ∧ f.isStatic = false) h
    (fun _ h => absurd h List.not_mem_nil) ?_
  intro list m _ list' hl ha
  have keep {fields : List FieldInfo} {id : DeclId} (hid : .field id ∈ list.initOrder) :
      ∃ f ∈ list.fields ++ fields, f.id = id ∧ f.owner = owner ∧ f.isStatic = false := by
    obtain ⟨f, hf, hfacts⟩ := hl id hid
    exact ⟨f, List.mem_append_left _ hf, hfacts⟩
  cases ha with
  | @field d type =>
      intro id hid
      rcases List.mem_append.mp hid with hid | hid
      · exact keep hid
      · split at hid
        · next hd =>
            cases List.mem_singleton.mp hid
            rw [Bool.and_eq_true, Bool.not_eq_true'] at hd
            exact ⟨fieldOf owner d type, List.mem_append_right _ (List.mem_singleton.mpr rfl),
              rfl, rfl, hd.1⟩
        · exact absurd hid List.not_mem_nil
  | constructor | method => exact hl
  | initializer =>
      intro id hid
      rcases List.mem_append.mp hid with hid | hid
      · exact hl id hid
      · cases List.mem_singleton.mp hid

/-- The method that the name of an accessor stands for in a class. -/
def accessor? (env : Env) (className name : String) : Option MethodInfo :=
  (env.lookupMethods className name).find? fun m => !m.isStatic && m.params.isEmpty

namespace DeclaredBy

variable {env : Env} {p : Program} (h : env.DeclaredBy p)

include h

theorem method_id {id : DeclId} {m : MethodInfo} (hm : env.method? id = some m) : m.id = id :=
  (h.method_cases id m hm).1

/-- The methods that a name can mean in a type. -/
theorem mem_lookupMethods {c name : String} {m : MethodInfo} :
    m ∈ env.lookupMethods c name ↔ env.method? m.id = some m ∧ m.isConstructor = false ∧
      env.isSubtype c m.owner = true ∧ m.name = name := by
  rw [lookupMethods, List.mem_filter, beq_iff_eq]
  constructor
  · rintro ⟨hmem, hname⟩
    obtain ⟨id, hid, hget⟩ := List.mem_filterMap.mp hmem
    obtain ⟨info, hinfo, hid⟩ := List.mem_flatMap.mp hid
    obtain ⟨a, ha, hi⟩ := List.mem_filterMap.mp hinfo
    obtain ⟨m', hm', rfl, hc, _⟩ := h.method_of_type hi hid
    obtain rfl := Option.some.inj (hget.symm.trans hm')
    obtain rfl := h.method_id hget
    exact ⟨hget, hc, isSubtype_iff.mpr (.inr ha), hname⟩
  · rintro ⟨hget, hc, hsub, hname⟩
    obtain ⟨info, hi, hid⟩ := h.type_of_method hget hc
    refine ⟨List.mem_filterMap.mpr ⟨m.id, List.mem_flatMap.mpr ⟨info, ?_, hid⟩, hget⟩, hname⟩
    refine List.mem_filterMap.mpr ⟨m.owner, ?_, hi⟩
    exact mem_supertypes.mpr ⟨⟨info, hi⟩, reach_of_isSubtype hsub⟩

/-- What is listed as a constructor of a class makes objects of it. -/
theorem constructor_of_type {name : String} {info : ClassInfo} (hi : env.class? name = some info)
    {id : DeclId} (hid : id ∈ info.ctors) :
    ∃ m, env.method? id = some m ∧ m.owner = name ∧ m.isConstructor = true ∧
      m.isStatic = false ∧ m.returnType = .void := by
  rcases h.info_cases hi with ⟨x, _, i, ctor, he, rfl, rfl⟩ | ⟨t, ht, ms, ctors, he, rfl, rfl⟩
  · obtain rfl := List.mem_singleton.mp hid
    exact ⟨_, he.method, rfl, rfl, rfl, rfl⟩
  · have hid : id ∈ ctors.map (·.id) := hid
    obtain ⟨m, hm, rfl⟩ := List.mem_map.mp hid
    have hmethod := he.method m (List.mem_append_right _ hm)
    have hctors := he.constructors
    cases hctors with
    | declared =>
        obtain ⟨d, hd, hsig⟩ := (membersOf he.members).ctors m hm
        obtain ⟨hyes, hstatic, hvoid⟩ := ((h.wellFormed.types t ht).members _ hd).1
        refine ⟨m, hmethod, hsig.owner, hsig.isConstructor.trans hyes,
          hsig.isStatic.trans hstatic, ?_⟩
        have hreturn := hsig.returnType
        rw [hvoid] at hreturn
        exact hreturn
    | default =>
        obtain rfl := List.mem_singleton.mp hm
        exact ⟨_, hmethod, rfl, rfl, rfl, rfl⟩

/-- In the subtypes of its class an accessor's name stands for a method of its signature. -/
theorem exists_accessor {m : MethodInfo} (hm : env.method? m.id = some m)
    (hs : m.isStatic = false) (hc : m.isConstructor = false) (hp : m.params = []) {d : String}
    (hsub : env.isSubtype d m.owner = true) :
    ∃ n, env.accessor? d m.name = some n ∧ env.method? n.id = some n ∧ n.isStatic = false ∧
      n.isConstructor = false ∧ env.isSubtype d n.owner = true ∧ n.sameSignature m = true := by
  have hmem : m ∈ env.lookupMethods d m.name := h.mem_lookupMethods.mpr ⟨hm, hc, hsub, rfl⟩
  cases hfind : env.accessor? d m.name with
  | none => exact absurd (List.find?_eq_none.mp hfind m hmem) (by simp [hs, hp])
  | some n =>
      obtain ⟨hn, hnc, hnsub, hname⟩ := h.mem_lookupMethods.mp (List.mem_of_find?_eq_some hfind)
      have hprop := List.find?_some hfind
      rw [Bool.and_eq_true, Bool.not_eq_true', List.isEmpty_iff] at hprop
      refine ⟨n, rfl, hn, hprop.1, hnc, hnsub, MethodInfo.sameSignature_iff.mpr ⟨hname, ?_⟩⟩
      rw [MethodInfo.paramTypes, MethodInfo.paramTypes, hp, hprop.2]

theorem mem_constructors {c : String} {m : MethodInfo} (hm : m ∈ env.constructors c) :
    env.method? m.id = some m ∧ m.owner = c ∧ m.isConstructor = true ∧ m.isStatic = false ∧
      m.returnType = .void := by
  rw [constructors] at hm
  split at hm
  · next info hi =>
      obtain ⟨id, hid, hget⟩ := List.mem_filterMap.mp hm
      obtain ⟨m', hm', hfacts⟩ := h.constructor_of_type hi hid
      obtain rfl := Option.some.inj (hget.symm.trans hm')
      obtain rfl := h.method_id hget
      exact ⟨hget, hfacts⟩
  · exact absurd hm List.not_mem_nil

/-- Every constructor is listed by its class. -/
theorem type_of_constructor {id : DeclId} {m : MethodInfo} (hm : env.method? id = some m)
    (hc : m.isConstructor = true) :
    ∃ info, env.class? m.owner = some info ∧ id ∈ info.ctors := by
  obtain ⟨rfl, ⟨x, _, i, he⟩ | ⟨t, ht, ms, ctors, he, hmem⟩⟩ := h.method_cases id m hm
  · have howner := congrArg MethodInfo.owner (Option.some.inj (hm.symm.trans he.method))
    exact ⟨_, (show m.owner = x.1 from howner) ▸ he.info, List.mem_singleton.mpr rfl⟩
  · rcases List.mem_append.mp hmem with hmem | hmem
    · obtain ⟨d, hd, hsig⟩ := (membersOf he.members).methods m hmem
      have hno := ((h.wellFormed.types t ht).members _ hd).1
      exact absurd (hsig.isConstructor.trans hno) (by simp [hc])
    · refine ⟨infoOf t ms ctors, ?_, List.mem_map.mpr ⟨m, hmem, rfl⟩⟩
      have hctors := he.constructors
      cases hctors with
      | declared =>
          obtain ⟨d, _, hsig⟩ := (membersOf he.members).ctors m hmem
          exact hsig.owner ▸ he.info
      | default =>
          obtain rfl := List.mem_singleton.mp hmem
          exact he.info

/-- The initializers of a class belong to it. -/
theorem item_of_type {name : String} {info : ClassInfo} (hi : env.class? name = some info)
    {item : InitItem} (hitem : item ∈ info.initOrder) :
    (∃ f, env.field? f.id = some f ∧ f.owner = name ∧ f.isStatic = false ∧ item = .field f.id) ∨
      ∃ t ∈ p.types, t.name.val = name ∧ ∃ d, .initializer d ∈ t.members ∧ item = .block d.id := by
  rcases h.info_cases hi with ⟨x, _, i, ctor, he, rfl, rfl⟩ | ⟨t, ht, ms, ctors, he, rfl, rfl⟩
  · exact absurd hitem List.not_mem_nil
  · rcases (membersOf he.members).items item hitem with ⟨d, _, _, _, rfl⟩ | ⟨d, hd, rfl⟩
    · obtain ⟨f, hf, hid, howner, hs⟩ := field_of_item he.members d.id hitem
      exact .inl ⟨f, he.field f hf, howner, hs, hid ▸ rfl⟩
    · exact .inr ⟨t, ht, rfl, d, hd, rfl⟩

end DeclaredBy

end Covenant.Env
