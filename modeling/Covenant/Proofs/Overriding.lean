import Covenant.Proofs.Inheritance

/-!
# Chains of overriding

The methods that a method takes clauses over from are found by one search through
the supertypes of its class. Here overriding is a relation between two methods,
and the search finds what chains of it lead to: each method once, however many
ways there are to it.
-/

namespace Covenant.Env

open Relation (ReflTransGen)

/-- A method of objects overrides those of its signature in the types above its own. -/
structure Overrides (env : Env) (m b : MethodInfo) : Prop where
  known : env.method? m.id = some m
  known' : env.method? b.id = some b
  notConstructor : m.isConstructor = false ∧ b.isConstructor = false
  notStatic : m.isStatic = false ∧ b.isStatic = false
  signature : b.sameSignature m = true
  other : b.owner ≠ m.owner
  above : ReflTransGen env.Names m.owner b.owner

/-- The declarations whose clauses hold for a member: its own first, and then each one that chains
of overriding lead to, once. -/
structure Lineage (env : Env) (m : MethodInfo) (ids : List DeclId) : Prop where
  first : ∃ above, ids = m.id :: above
  nodup : ids.Nodup
  mem : ∀ id, id ∈ ids ↔ ∃ b, b.id = id ∧ ReflTransGen env.Overrides m b

/-- The members among some declarations are found under their own numbers. -/
theorem ids_sublist {env : Env} (hk : env.MethodsKeyed) (P : MethodInfo → Bool)
    (ids : List DeclId) :
    (((ids.filterMap env.method?).filter P).map (·.id)).Sublist ids := by
  induction ids with
  | nil => exact .slnil
  | cons id ids ih =>
      cases hm : env.method? id with
      | none =>
          rw [List.filterMap_cons_none hm]
          exact ih.cons id
      | some m =>
          rw [List.filterMap_cons_some hm]
          by_cases hp : P m = true
          · rw [List.filter_cons_of_pos hp, List.map_cons, hk.id_eq hm]
            exact ih.cons_cons id
          · rw [List.filter_cons_of_neg hp]
            exact ih.cons id

namespace DeclaredBy

variable {env : Env} {p : Surface.Program} (h : env.DeclaredBy p)

include h

/-- A type lists no method twice. -/
theorem nodup_methods {name : String} {info : ClassInfo} (hi : env.class? name = some info) :
    info.methods.Nodup := by
  rcases h.info_cases hi with ⟨x, _, i, ctor, _, _, rfl⟩ | ⟨t, _, ms, ctors, he, _, rfl⟩
  · exact List.nodup_nil
  · show (ms.methods.map (·.id)).Nodup
    have hpair : ms.methods.Pairwise fun a b => a.sameSignature b = false :=
      (membersOf he.members).signatures
    refine List.pairwise_map.mpr (hpair.imp_of_mem fun {a b} ha hb hab heq => ?_)
    -- Two methods of one number would be one method, and a method has its own signature.
    have hget := he.method a (List.mem_append_left _ ha)
    rw [heq, he.method b (List.mem_append_left _ hb)] at hget
    obtain rfl := Option.some.inj hget
    exact absurd hab (by simp [MethodInfo.sameSignature])

/-- No two types list one method. -/
theorem owner_of_listed {a b : String} {info info' : ClassInfo} (hi : env.class? a = some info)
    (hi' : env.class? b = some info') {id : DeclId} (hid : id ∈ info.methods)
    (hid' : id ∈ info'.methods) : a = b := by
  obtain ⟨m, hm, howner, _⟩ := h.method_of_type hi hid
  obtain ⟨m', hm', howner', _⟩ := h.method_of_type hi' hid'
  obtain rfl := Option.some.inj (hm.symm.trans hm')
  exact howner.symm.trans howner'

/-- Different types have no methods in common, so a list of types lists each method once. -/
theorem nodup_listed {names : List String} (hn : names.Nodup) :
    ((names.filterMap env.class?).flatMap (·.methods)).Nodup := by
  induction names with
  | nil => exact List.nodup_nil
  | cons name names ih =>
      obtain ⟨hname, hn⟩ := List.nodup_cons.mp hn
      cases hi : env.class? name with
      | none =>
          rw [List.filterMap_cons_none hi]
          exact ih hn
      | some info =>
          rw [List.filterMap_cons_some hi, List.flatMap_cons]
          refine List.nodup_append.mpr ⟨h.nodup_methods hi, ih hn, fun id hid id' hid' heq => ?_⟩
          subst heq
          obtain ⟨info', hin, hid'⟩ := List.mem_flatMap.mp hid'
          obtain ⟨name', hname', hi'⟩ := List.mem_filterMap.mp hin
          exact hname (h.owner_of_listed hi hi' hid hid' ▸ hname')

/-- The search for what a method overrides comes to each method once. -/
theorem nodup_ancestors (hk : env.MethodsKeyed) {m : MethodInfo}
    (hm : env.method? m.id = some m) : (Contract.ancestors env m).Nodup := by
  rw [Contract.ancestors]
  split
  · exact List.nodup_nil
  · next hdynamic =>
      obtain ⟨hc, hs⟩ : m.isConstructor = false ∧ m.isStatic = false := by simpa using hdynamic
      obtain ⟨info, hi, hid⟩ := h.type_of_method hm hc
      have hbases := h.overrides info (List.mem_map.mpr ⟨_, Table.mem_of_get? hi, rfl⟩) m.id hid m
        hm hs
      obtain ⟨_, _, hend⟩ := bind_eq_ok.mp hbases
      rw [← Except.ok.inj hend]
      have hsupers : ((env.supertypes m.owner).drop 1).Nodup :=
        nodup_visit.sublist (List.drop_sublist 1 _)
      exact (h.nodup_listed hsupers).sublist (ids_sublist hk _ _)

/-- The search finds what is overridden. -/
theorem mem_ancestors_iff (hk : env.MethodsKeyed) {m : MethodInfo}
    (hm : env.method? m.id = some m) {id : DeclId} :
    id ∈ Contract.ancestors env m ↔ ∃ b, b.id = id ∧ env.Overrides m b := by
  by_cases hdynamic : m.isConstructor = false ∧ m.isStatic = false
  · obtain ⟨hc, hs⟩ := hdynamic
    refine (h.mem_ancestors hm hs hc).trans ⟨?_, ?_⟩
    · rintro ⟨b, hb, hbc, hbs, hsig, hne, hsub⟩
      obtain rfl := hk.id_eq hb
      exact ⟨b, rfl, hm, hb, ⟨hc, hbc⟩, ⟨hs, hbs⟩, hsig, hne, reach_of_isSubtype hsub⟩
    · rintro ⟨b, rfl, hover⟩
      obtain ⟨info, hi, _⟩ := h.type_of_method hover.known' hover.notConstructor.2
      exact ⟨b, hover.known', hover.notConstructor.2, hover.notStatic.2, hover.signature,
        hover.other, isSubtype_of_reach hi hover.above⟩
  · have hnone : Contract.ancestors env m = [] := by
      rw [Contract.ancestors, if_pos (by simpa [or_iff_not_imp_left] using hdynamic)]
    rw [hnone]
    refine ⟨fun hin => absurd hin List.not_mem_nil, ?_⟩
    rintro ⟨b, _, hover⟩
    exact absurd ⟨hover.notConstructor.1, hover.notStatic.1⟩ hdynamic

/-- What a method overrides by way of another one it overrides itself, if it is not the method. -/
theorem overrides_trans {a b c : MethodInfo} (hab : env.Overrides a b) (hbc : env.Overrides b c) :
    c = a ∨ env.Overrides a c := by
  have hsame : c.sameSignature a = true := by
    have hsig := MethodInfo.sameSignature_iff.mp hab.signature
    have hsig' := MethodInfo.sameSignature_iff.mp hbc.signature
    exact MethodInfo.sameSignature_iff.mpr ⟨hsig'.1.trans hsig.1, hsig'.2.trans hsig.2⟩
  by_cases howner : c.owner = a.owner
  · obtain ⟨info, hi, hic⟩ := h.type_of_method hbc.known' hbc.notConstructor.2
    obtain ⟨info', hi', hia⟩ := h.type_of_method hab.known hab.notConstructor.1
    obtain rfl := Option.some.inj ((howner ▸ hi).symm.trans hi')
    exact .inl (h.eq_of_sameSignature hi' hbc.known' hab.known hic hia hsame)
  · exact .inr ⟨hab.known, hbc.known', ⟨hab.notConstructor.1, hbc.notConstructor.2⟩,
      ⟨hab.notStatic.1, hbc.notStatic.2⟩, hsame, howner, hab.above.trans hbc.above⟩

/-- Chains of overriding are no longer than one step. -/
theorem overrides_of_chain {a b : MethodInfo} (hab : ReflTransGen env.Overrides a b) :
    b = a ∨ env.Overrides a b := by
  induction hab with
  | refl => exact .inl rfl
  | tail _ hstep ih =>
      rcases ih with rfl | hover
      · exact .inr hstep
      · exact h.overrides_trans hover hstep

/-- The declarations that inheritance collects clauses from are the ones that chains of overriding
lead to. -/
theorem lineage (hk : env.MethodsKeyed) {m : MethodInfo} (hm : env.method? m.id = some m) :
    env.Lineage m (m.id :: Contract.ancestors env m) where
  first := ⟨_, rfl⟩
  nodup := by
    refine List.nodup_cons.mpr ⟨fun hin => ?_, h.nodup_ancestors hk hm⟩
    obtain ⟨b, hid, hover⟩ := (h.mem_ancestors_iff hk hm).mp hin
    have hb := hover.known'
    rw [hid, hm] at hb
    obtain rfl := Option.some.inj hb
    exact hover.other rfl
  mem id := by
    rw [List.mem_cons, h.mem_ancestors_iff hk hm]
    constructor
    · rintro (rfl | ⟨b, hid, hover⟩)
      · exact ⟨m, rfl, .refl⟩
      · exact ⟨b, hid, .single hover⟩
    · rintro ⟨b, rfl, hchain⟩
      rcases h.overrides_of_chain hchain with rfl | hover
      · exact .inl rfl
      · exact .inr ⟨b, rfl, hover⟩

end DeclaredBy

/-- Static methods and constructors override nothing. -/
theorem Lineage.eq_singleton {env : Env} {m : MethodInfo} {ids : List DeclId}
    (h : env.Lineage m ids) (hfixed : m.isStatic = true ∨ m.isConstructor = true) :
    ids = [m.id] := by
  obtain ⟨above, rfl⟩ := h.first
  cases above with
  | nil => rfl
  | cons id above =>
      obtain ⟨b, hid, hchain⟩ := (h.mem id).mp (List.mem_cons_of_mem _ List.mem_cons_self)
      rcases ReflTransGen.cases_head hchain with heq | ⟨_, hover, _⟩
      · subst heq hid
        exact absurd List.mem_cons_self (List.nodup_cons.mp h.nodup).1
      · rcases hfixed with hs | hc
        · exact absurd hs (by simp [hover.notStatic.1])
        · exact absurd hc (by simp [hover.notConstructor.1])

end Covenant.Env
