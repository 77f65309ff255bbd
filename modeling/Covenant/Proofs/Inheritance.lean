import Covenant.Proofs.BoundClauses
import Covenant.Proofs.CheckedProgram
import Mathlib.Data.List.Pairwise

/-!
# Which contracts reach the implementation that runs

Two searches have to agree for a caller to be able to rely on a method's
contract. Dispatch goes up the superclasses of an object until it finds a body
with the right signature; inheritance goes up the supertypes of the class that a
method stands in. They agree where that class is a subtype of the one the caller
sees. A class can also implement an interface with a method of a superclass that
knows nothing of the interface; `dispatch_inherits_iff` says exactly when the
contract reaches such an implementation.
-/

namespace Covenant

open Relation (ReflTransGen)

theorem MethodInfo.sameSignature_iff {a b : MethodInfo} :
    a.sameSignature b = true ↔ a.name = b.name ∧ a.paramTypes = b.paramTypes := by
  simp [sameSignature]

theorem MethodInfo.sameSignature_comm (a b : MethodInfo) :
    a.sameSignature b = b.sameSignature a := by
  rw [Bool.eq_iff_iff, sameSignature_iff, sameSignature_iff, eq_comm, eq_comm (a := a.paramTypes)]

namespace Env.DeclaredBy

open Surface (Program TypeDecl)

variable {env : Env} {p : Program} (h : env.DeclaredBy p)

include h

/-! ## The methods of a type -/

/-- What is listed as a method of a type is one, and in an interface it has no body. -/
theorem method_of_type {name : String} {info : ClassInfo} (hi : env.class? name = some info)
    {id : DeclId} (hid : id ∈ info.methods) :
    ∃ m, env.method? id = some m ∧ m.owner = name ∧ m.isConstructor = false ∧
      (info.isInterface = true → m.isStatic = false ∧ m.hasBody = false) := by
  rcases h.info_cases hi with ⟨x, _, i, ctor, _, _, rfl⟩ | ⟨t, ht, ms, ctors, he, rfl, rfl⟩
  · exact absurd hid List.not_mem_nil
  · have hid : id ∈ ms.methods.map (·.id) := hid
    obtain ⟨m, hm, rfl⟩ := List.mem_map.mp hid
    obtain ⟨d, hd, hsig⟩ := (membersOf he.members).methods m hm
    have hwf := h.wellFormed.types t ht
    refine ⟨m, he.method m (List.mem_append_left _ hm), hsig.owner,
      hsig.isConstructor.trans (hwf.members _ hd).1, fun hint => ?_⟩
    have hsign := hwf.signatures (of_decide_eq_true hint) _ hd
    rw [Parse.isSignature, Bool.and_eq_true, Bool.not_eq_true', Option.isNone_iff_eq_none] at hsign
    exact ⟨hsig.isStatic.trans hsign.2, by rw [hsig.hasBody, hsign.1]; rfl⟩

/-- Every method that is no constructor is listed by its type. -/
theorem type_of_method {id : DeclId} {m : MethodInfo} (hm : env.method? id = some m)
    (hc : m.isConstructor = false) :
    ∃ info, env.class? m.owner = some info ∧ id ∈ info.methods := by
  obtain ⟨rfl, ⟨x, _, i, he⟩ | ⟨t, ht, ms, ctors, he, hmem⟩⟩ := h.method_cases id m hm
  · have heq := Option.some.inj (hm.symm.trans he.method)
    exact absurd (heq ▸ hc) (by simp [emptyConstructor])
  · rcases List.mem_append.mp hmem with hmem | hmem
    · obtain ⟨d, _, hsig⟩ := (membersOf he.members).methods m hmem
      exact ⟨_, hsig.owner ▸ he.info, List.mem_map.mpr ⟨m, hmem, rfl⟩⟩
    · have hctors := he.constructors
      cases hctors with
      | declared =>
          obtain ⟨d, hd, hsig⟩ := (membersOf he.members).ctors m hmem
          have hyes := ((h.wellFormed.types t ht).members _ hd).1.1
          exact absurd (hsig.isConstructor.trans hyes) (by simp [hc])
      | default =>
          obtain rfl := List.mem_singleton.mp hmem
          exact absurd hc (by simp [emptyConstructor])

/-- No two methods of a type have one signature. -/
theorem eq_of_sameSignature {name : String} {info : ClassInfo} (hi : env.class? name = some info)
    {a b : MethodInfo} (ha : env.method? a.id = some a) (hb : env.method? b.id = some b)
    (hia : a.id ∈ info.methods) (hib : b.id ∈ info.methods) (hs : a.sameSignature b = true) :
    a = b := by
  rcases h.info_cases hi with ⟨x, _, i, ctor, _, _, rfl⟩ | ⟨t, ht, ms, ctors, he, rfl, rfl⟩
  · exact absurd hia List.not_mem_nil
  · have listed {m : MethodInfo} (hm : env.method? m.id = some m)
        (hid : m.id ∈ ms.methods.map (·.id)) : m ∈ ms.methods := by
      obtain ⟨m', hm', hid⟩ := List.mem_map.mp hid
      have hget := he.method m' (List.mem_append_left _ hm')
      rw [hid, hm] at hget
      exact Option.some.inj hget ▸ hm'
    have hpair : ms.methods.Pairwise fun a b => a.sameSignature b = false :=
      (membersOf he.members).signatures
    have : Std.Symm fun a b : MethodInfo => a.sameSignature b = false :=
      ⟨fun a b hab => by rwa [MethodInfo.sameSignature_comm]⟩
    by_contra hne
    exact absurd (hpair.forall (listed ha hia) (listed hb hib) hne) (by simp [hs])

/-! ## Overriding -/

/-- The methods that a method overrides: those of its signature in the types above its own. -/
theorem mem_ancestors {m : MethodInfo} (hm : env.method? m.id = some m)
    (hs : m.isStatic = false) (hc : m.isConstructor = false) {a : DeclId} :
    a ∈ Contract.ancestors env m ↔ ∃ b, env.method? a = some b ∧ b.isConstructor = false ∧
      b.isStatic = false ∧ b.sameSignature m = true ∧ b.owner ≠ m.owner ∧
      env.isSubtype m.owner b.owner = true := by
  obtain ⟨info, hi, hid⟩ := h.type_of_method hm hc
  have hbases := h.overrides info (List.mem_map.mpr ⟨_, Table.mem_of_get? hi, rfl⟩) m.id hid m hm hs
  obtain ⟨_, _, hend⟩ := bind_eq_ok.mp hbases
  have hend := Except.ok.inj hend
  rw [Contract.ancestors, hc, hs, Bool.or_self, if_neg (by simp), ← hend, List.mem_map]
  constructor
  · rintro ⟨b, hb, rfl⟩
    obtain ⟨hb, hover⟩ := List.mem_filter.mp hb
    obtain ⟨a, ha, hget⟩ := List.mem_filterMap.mp hb
    obtain ⟨sup, hsup, ha⟩ := List.mem_flatMap.mp ha
    obtain ⟨c, hc', hsup⟩ := List.mem_filterMap.mp hsup
    obtain ⟨hc', hne⟩ := (mem_drop_supertypes hi).mp hc'
    obtain ⟨b', hb', howner, hctor, _⟩ := h.method_of_type hsup ha
    obtain rfl : b = b' := Option.some.inj (hget.symm.trans hb')
    rw [overridden, Bool.and_eq_true, Bool.not_eq_true'] at hover
    obtain rfl := (h.method_cases a b hget).1
    exact ⟨b, hget, hctor, hover.1, hover.2, howner ▸ hne, howner ▸ isSubtype_iff.mpr (.inr hc')⟩
  · rintro ⟨b, hget, hctor, hstatic, hsig, hne, hsub⟩
    obtain rfl := (h.method_cases a b hget).1
    obtain ⟨sup, hsup, hin⟩ := h.type_of_method hget hctor
    have hc' : b.owner ∈ env.supertypes m.owner :=
      (isSubtype_iff.mp hsub).resolve_left fun heq => hne heq.symm
    refine ⟨b, List.mem_filter.mpr ⟨List.mem_filterMap.mpr ⟨b.id, ?_, hget⟩, ?_⟩, rfl⟩
    · exact List.mem_flatMap.mpr ⟨sup, List.mem_filterMap.mpr
        ⟨b.owner, (mem_drop_supertypes hi).mpr ⟨hc', hne⟩, hsup⟩, hin⟩
    · rw [overridden, hstatic, hsig]
      rfl

/-- What a method overrides returns the same type. -/
theorem returnType_of_ancestor {m b : MethodInfo} (hm : env.method? m.id = some m)
    (hs : m.isStatic = false) (hc : m.isConstructor = false)
    (hb : env.method? b.id = some b) (ha : b.id ∈ Contract.ancestors env m) :
    b.returnType = m.returnType := by
  obtain ⟨info, hi, hid⟩ := h.type_of_method hm hc
  have hbases := h.overrides info (List.mem_map.mpr ⟨_, Table.mem_of_get? hi, rfl⟩) m.id hid m hm hs
  obtain ⟨_, hchecks, hend⟩ := bind_eq_ok.mp hbases
  have hend := Except.ok.inj hend
  rw [Contract.ancestors, hc, hs, Bool.or_self, if_neg (by simp), ← hend] at ha
  obtain ⟨b', hb', hid'⟩ := List.mem_map.mp ha
  have hcheck := forM_ok hchecks b' hb'
  obtain ⟨a, _, hget⟩ := List.mem_filterMap.mp (List.mem_filter.mp hb').1
  have hkey := (h.method_cases a b' hget).1
  rw [← hkey, hid', hb] at hget
  obtain rfl := Option.some.inj hget
  split at hcheck
  · exact absurd hcheck (by simp [typingFault])
  · next heq => simpa using heq

/-- A member that has the clauses of another one, itself or one that it overrides: the two are called
alike, on objects of types of which one is above the other. -/
structure InheritsFrom (env : Env) (m d : MethodInfo) : Prop where
  isStatic : d.isStatic = m.isStatic
  isConstructor : d.isConstructor = m.isConstructor
  paramTypes : d.paramTypes = m.paramTypes
  returnType : d.returnType = m.returnType
  owner : env.isSubtype m.owner d.owner = true

theorem inheritsFrom {m d : MethodInfo} (hm : env.method? m.id = some m) {id : DeclId}
    (hd : env.method? id = some d) (hid : id = m.id ∨ id ∈ Contract.ancestors env m) :
    InheritsFrom env m d := by
  rcases hid with rfl | hin
  · obtain rfl := Option.some.inj (hm.symm.trans hd)
    exact ⟨rfl, rfl, rfl, rfl, isSubtype_refl⟩
  · by_cases hdynamic : m.isConstructor = false ∧ m.isStatic = false
    · obtain ⟨hc, hs⟩ := hdynamic
      obtain ⟨d', hd', hc', hs', hsig, _, hsub⟩ := (h.mem_ancestors hm hs hc).mp hin
      obtain rfl := Option.some.inj (hd.symm.trans hd')
      obtain rfl := (h.method_cases id d hd).1
      exact ⟨hs'.trans hs.symm, hc'.trans hc.symm, (MethodInfo.sameSignature_iff.mp hsig).2,
        h.returnType_of_ancestor hm hs hc hd hin, hsub⟩
    · rw [Contract.ancestors, if_pos (by simpa [or_iff_not_imp_left] using hdynamic)] at hin
      exact absurd hin List.not_mem_nil

/-! ## Dispatch -/

/-- What runs when a method is called on an object of a subclass is a method of the same signature,
in the chain of superclasses of the object. -/
theorem dispatch_cases {m d : MethodInfo} {r : String} (hm : env.method? m.id = some m)
    (hs : m.isStatic = false) (hc : m.isConstructor = false)
    (hr : env.isSubtype r m.owner = true) (hd : env.method? (env.dispatch r m.id) = some d)
    (hb : d.hasBody = true) :
    d.isStatic = false ∧ d.isConstructor = false ∧ d.sameSignature m = true ∧
      env.isSubtype r d.owner = true := by
  have found : ((((env.classChain r).flatMap (·.methods)).filterMap env.method?).find?
      fun x => x.hasBody && !x.isStatic && x.sameSignature m) = some d := by
    have hdisp : env.dispatch r m.id = ((((env.classChain r).flatMap (·.methods)).filterMap
        env.method?).find? fun x => x.hasBody && !x.isStatic && x.sameSignature m).elim m.id
          (·.id) := by
      simp only [dispatch, hm, hs, hc, Bool.or_self]
      rfl
    rw [hdisp] at hd
    cases hfind : (((env.classChain r).flatMap (·.methods)).filterMap env.method?).find?
        fun x => x.hasBody && !x.isStatic && x.sameSignature m with
    | some x =>
        rw [hfind] at hd
        obtain ⟨id, _, hget⟩ := List.mem_filterMap.mp (List.mem_of_find?_eq_some hfind)
        have hkey := (h.method_cases id x hget).1
        rw [Option.elim, hkey, hget] at hd
        exact hd
    | none =>
        -- The method itself would have been found: it has a body, so it stands in a class.
        rw [hfind, Option.elim, hm] at hd
        obtain rfl := Option.some.inj hd
        obtain ⟨info, hi, hid⟩ := h.type_of_method hm hc
        have hclass : info.isInterface = false := by
          by_contra hint
          obtain ⟨m', hm', _, _, hno⟩ := h.method_of_type hi hid
          obtain rfl := Option.some.inj (hm.symm.trans hm')
          exact absurd hb (by simp [(hno (by simpa using hint)).2])
        have hin := h.mem_chain_of_isSubtype hi hclass hr
        have hall := List.find?_eq_none.mp hfind m (List.mem_filterMap.mpr
          ⟨m.id, List.mem_flatMap.mpr ⟨info, hin, hid⟩, hm⟩)
        exact absurd (by simp [hb, hs, MethodInfo.sameSignature]) hall
  have hprop := List.find?_some found
  rw [Bool.and_eq_true, Bool.and_eq_true, Bool.not_eq_true'] at hprop
  obtain ⟨id, hid, hget⟩ := List.mem_filterMap.mp (List.mem_of_find?_eq_some found)
  obtain ⟨info, hin, hid⟩ := List.mem_flatMap.mp hid
  obtain ⟨hi, hsub⟩ := h.isSubtype_of_mem_chain hin
  obtain ⟨d', hd', howner, hctor, _⟩ := h.method_of_type hi hid
  obtain rfl := Option.some.inj (hget.symm.trans hd')
  exact ⟨hprop.1.2, hctor, hprop.2, howner ▸ hsub⟩

end Env.DeclaredBy

/-! ## What a specification takes over -/

/-- Something is written on a declaration that callers rely on. Effects are left out: they are not
collected from all declarations. -/
def OwnClauses.Speaks (own : OwnClauses) : Prop :=
  own.preconditions ≠ [] ∨ own.postconditions ≠ [] ∨ own.throws ≠ [] ∨ own.mayThrow ≠ []

theorem OwnClauses.Speaks.ne {own : OwnClauses} (h : own.Speaks) : own ≠ {} := by
  rintro rfl
  rcases h with h | h | h | h <;> exact h rfl

namespace Contract

/-- A specification has all that a caller relies on who knows the other one. -/
structure Covers (s t : Specification) : Prop where
  preconditions : ∀ g ∈ t.preconditions, g ∈ s.preconditions
  postconditions : ∀ c ∈ t.postconditions, c ∈ s.postconditions
  throws : ∀ c ∈ t.throws, c ∈ s.throws
  mayThrow : ∀ c ∈ t.mayThrow, c ∈ s.mayThrow

/-- The clauses of a declaration know where they are written. -/
def Signed (decls : Table DeclId OwnClauses) : Prop :=
  ∀ id own, decls.get? id = some own → (∀ c ∈ own.preconditions, c.origin = id) ∧
    (∀ c ∈ own.postconditions, c.origin = id) ∧ (∀ t ∈ own.throws, t.condition.origin = id) ∧
    ∀ t ∈ own.mayThrow, t.condition.origin = id

theorem ConditionOf.origin {env : Env} {k : SiteId} {r : ClauseRecord} {c : BoundClause}
    (h : ConditionOf env k r c) : c.origin = r.owner := by
  cases h
  rfl

theorem bind_signed (env : Env) (records : List ClauseRecord) (k : SiteId) :
    Signed (bind env records k).decls := by
  intro id own hget
  have h := (bind_fromRecords env records k).own id own hget
  refine ⟨fun c hc => ?_, fun c hc => ?_, fun t ht => ?_, fun t ht => ?_⟩
  · obtain ⟨r, hr, _, hof⟩ := h.pre c hc
    exact hof.origin.trans hr
  · obtain ⟨r, hr, _, hof⟩ := h.post c hc
    exact hof.origin.trans hr
  · obtain ⟨r, hr, _, hof, _⟩ := h.throws t ht
    exact hof.origin.trans hr
  · obtain ⟨r, hr, _, hof, _⟩ := h.mayThrow t ht
    exact hof.origin.trans hr

section

variable {env : Env} {decls : Table DeclId OwnClauses} {m d : MethodInfo} {own : OwnClauses}

/-- The clauses that make up a specification, as far as there are any, stand in the table under the
member and what it overrides. -/
theorem mem_lineage_iff (hne : own ≠ {}) :
    own ∈ lineage env decls m ↔ ∃ a ∈ m.id :: ancestors env m, decls.get? a = some own := by
  rw [lineage, List.mem_cons, List.mem_filterMap]
  constructor
  · rintro (heq | ⟨a, ha, hget⟩)
    · cases hget : decls.get? m.id with
      | none => exact absurd (heq.trans (by rw [hget]; rfl)) hne
      | some own' =>
          rw [hget] at heq
          exact ⟨m.id, List.mem_cons_self, heq ▸ hget⟩
    · exact ⟨a, List.mem_cons_of_mem _ ha, hget⟩
  · rintro ⟨a, ha, hget⟩
    rcases List.mem_cons.mp ha with rfl | ha
    · exact .inl (by rw [hget]; rfl)
    · exact .inr ⟨a, ha, hget⟩

/-- A specification covers another one if it is made of everything that the other one is made of. -/
theorem covers_of_lineage (h : ∀ own ∈ lineage env decls m, own.Speaks → own ∈ lineage env decls d) :
    Covers (specificationOf env decls d) (specificationOf env decls m) where
  preconditions := by
    intro g hg
    obtain ⟨hg, hne⟩ := List.mem_filter.mp hg
    obtain ⟨own, hown, rfl⟩ := List.mem_map.mp hg
    have hspeaks : own.Speaks := .inl (by simpa using hne)
    exact List.mem_filter.mpr ⟨List.mem_map.mpr ⟨own, h own hown hspeaks, rfl⟩, hne⟩
  postconditions := by
    intro c hc
    obtain ⟨own, hown, hc⟩ := List.mem_flatMap.mp hc
    exact List.mem_flatMap.mpr
      ⟨own, h own hown (.inr (.inl (List.ne_nil_of_mem hc))), hc⟩
  throws := by
    intro c hc
    obtain ⟨own, hown, hc⟩ := List.mem_flatMap.mp hc
    exact List.mem_flatMap.mpr
      ⟨own, h own hown (.inr (.inr (.inl (List.ne_nil_of_mem hc)))), hc⟩
  mayThrow := by
    intro c hc
    obtain ⟨own, hown, hc⟩ := List.mem_flatMap.mp hc
    exact List.mem_flatMap.mpr
      ⟨own, h own hown (.inr (.inr (.inr (List.ne_nil_of_mem hc)))), hc⟩

/-- A clause of a specification was written on the member or on something that it overrides. -/
theorem origin_of_lineage (hd : Signed decls) (hown : own ∈ lineage env decls d) :
    (∀ c ∈ own.preconditions, c.origin ∈ d.id :: ancestors env d) ∧
    (∀ c ∈ own.postconditions, c.origin ∈ d.id :: ancestors env d) ∧
    (∀ t ∈ own.throws, t.condition.origin ∈ d.id :: ancestors env d) ∧
    ∀ t ∈ own.mayThrow, t.condition.origin ∈ d.id :: ancestors env d := by
  by_cases hne : own = {}
  · subst hne
    exact ⟨fun c hc => absurd hc List.not_mem_nil, fun c hc => absurd hc List.not_mem_nil,
      fun c hc => absurd hc List.not_mem_nil, fun c hc => absurd hc List.not_mem_nil⟩
  · obtain ⟨a, ha, hget⟩ := (mem_lineage_iff hne).mp hown
    obtain ⟨hpre, hpost, hthrows, hmay⟩ := hd a own hget
    exact ⟨fun c hc => hpre c hc ▸ ha, fun c hc => hpost c hc ▸ ha, fun t ht => hthrows t ht ▸ ha,
      fun t ht => hmay t ht ▸ ha⟩

/-- Only by being made of it can a specification cover what a declaration says. -/
theorem mem_of_covers (hd : Signed decls)
    (h : Covers (specificationOf env decls d) (specificationOf env decls m)) {a : DeclId}
    (ha : a ∈ m.id :: ancestors env m) (hget : decls.get? a = some own) (hspeaks : own.Speaks) :
    a ∈ d.id :: ancestors env d := by
  have hown : own ∈ lineage env decls m := (mem_lineage_iff hspeaks.ne).mpr ⟨a, ha, hget⟩
  obtain ⟨hpre, hpost, hthrows, hmay⟩ := hd a own hget
  rcases hspeaks with hne | hne | hne | hne
  · obtain ⟨c, hc⟩ := List.exists_mem_of_ne_nil _ hne
    have hgroup := h.preconditions own.preconditions (List.mem_filter.mpr
      ⟨List.mem_map.mpr ⟨own, hown, rfl⟩, by simpa using hne⟩)
    obtain ⟨own', hown', heq⟩ := List.mem_map.mp (List.mem_filter.mp hgroup).1
    exact hpre c hc ▸ (origin_of_lineage hd hown').1 c (heq ▸ hc)
  · obtain ⟨c, hc⟩ := List.exists_mem_of_ne_nil _ hne
    obtain ⟨own', hown', hc'⟩ := List.mem_flatMap.mp
      (h.postconditions c (List.mem_flatMap.mpr ⟨own, hown, hc⟩))
    exact hpost c hc ▸ (origin_of_lineage hd hown').2.1 c hc'
  · obtain ⟨t, ht⟩ := List.exists_mem_of_ne_nil _ hne
    obtain ⟨own', hown', ht'⟩ := List.mem_flatMap.mp
      (h.throws t (List.mem_flatMap.mpr ⟨own, hown, ht⟩))
    exact hthrows t ht ▸ (origin_of_lineage hd hown').2.2.1 t ht'
  · obtain ⟨t, ht⟩ := List.exists_mem_of_ne_nil _ hne
    obtain ⟨own', hown', ht'⟩ := List.mem_flatMap.mp
      (h.mayThrow t (List.mem_flatMap.mpr ⟨own, hown, ht⟩))
    exact hmay t ht ▸ (origin_of_lineage hd hown').2.2.2 t ht'

end

end Contract

/-! ## What a caller can rely on -/

/-- An implementation is what a caller of `m` expects: it takes and returns the same types, and its
specification has all that the specification of `m` says. -/
structure Fulfils (env : Env) (decls : Table DeclId OwnClauses) (d m : MethodInfo) :
    Prop where
  paramTypes : d.paramTypes = m.paramTypes
  returnType : d.returnType = m.returnType
  covers : Contract.Covers (Contract.specificationOf env decls d)
    (Contract.specificationOf env decls m)

section

variable {env : Env} {p : Surface.Program} {decls : Table DeclId OwnClauses} {m d : MethodInfo}

/-- An implementation is what a caller of `m` expects exactly if it returns the same type and its
class is a subtype of every type whose declaration of `m` says something. -/
theorem Env.DeclaredBy.fulfils_iff (h : env.DeclaredBy p) (hsigned : Contract.Signed decls)
    (hm : env.method? m.id = some m) (hms : m.isStatic = false) (hmc : m.isConstructor = false)
    (hd : env.method? d.id = some d) (hds : d.isStatic = false) (hdc : d.isConstructor = false)
    (hsig : d.sameSignature m = true) :
    Fulfils env decls d m ↔ d.returnType = m.returnType ∧
      ∀ b own, env.method? b.id = some b → b.id ∈ m.id :: Contract.ancestors env m →
        decls.get? b.id = some own → own.Speaks → env.isSubtype d.owner b.owner = true := by
  -- What is known of a declaration that `m` takes over, or of `m` itself.
  have base {b : MethodInfo} (hb : env.method? b.id = some b)
      (hin : b.id ∈ m.id :: Contract.ancestors env m) :
      b.isConstructor = false ∧ b.isStatic = false ∧ b.sameSignature d = true := by
    rcases List.mem_cons.mp hin with heq | hin
    · rw [heq, hm] at hb
      obtain rfl := Option.some.inj hb
      exact ⟨hmc, hms, MethodInfo.sameSignature_comm d m ▸ hsig⟩
    · obtain ⟨b', hb', hc, hs, hsame, _, _⟩ := (h.mem_ancestors hm hms hmc).mp hin
      obtain rfl := Option.some.inj (hb.symm.trans hb')
      rw [MethodInfo.sameSignature_iff] at hsame hsig ⊢
      exact ⟨hc, hs, hsame.1.trans hsig.1.symm, hsame.2.trans hsig.2.symm⟩
  have known {a : DeclId} (hin : a ∈ m.id :: Contract.ancestors env m) :
      ∃ b, env.method? b.id = some b ∧ b.id = a := by
    rcases List.mem_cons.mp hin with rfl | hin
    · exact ⟨m, hm, rfl⟩
    · obtain ⟨b, hb, _⟩ := (h.mem_ancestors hm hms hmc).mp hin
      obtain rfl := (h.method_cases a b hb).1
      exact ⟨b, hb, rfl⟩
  constructor
  · rintro ⟨_, hret, hcovers⟩
    refine ⟨hret, fun b own hb hin hget hspeaks => ?_⟩
    rcases List.mem_cons.mp (Contract.mem_of_covers hsigned hcovers hin hget hspeaks) with heq | hin'
    · rw [heq, hd] at hb
      obtain rfl := Option.some.inj hb
      exact Env.isSubtype_refl
    · obtain ⟨b', hb', _, _, _, _, hsub⟩ := (h.mem_ancestors hd hds hdc).mp hin'
      obtain rfl := Option.some.inj (hb.symm.trans hb')
      exact hsub
  · rintro ⟨hret, hall⟩
    refine ⟨(MethodInfo.sameSignature_iff.mp hsig).2, hret,
      Contract.covers_of_lineage fun own hown hspeaks => ?_⟩
    obtain ⟨a, hin, hget⟩ := (Contract.mem_lineage_iff hspeaks.ne).mp hown
    obtain ⟨b, hb, rfl⟩ := known hin
    have hsub := hall b own hb hin hget hspeaks
    obtain ⟨hbc, hbs, hsame⟩ := base hb hin
    refine (Contract.mem_lineage_iff hspeaks.ne).mpr ⟨b.id, ?_, hget⟩
    by_cases howner : b.owner = d.owner
    · obtain ⟨info, hi, hib⟩ := h.type_of_method hb hbc
      obtain ⟨info', hi', hid⟩ := h.type_of_method hd hdc
      obtain rfl := Option.some.inj ((howner ▸ hi).symm.trans hi')
      exact List.mem_cons.mpr (.inl (congrArg _ (h.eq_of_sameSignature hi' hb hd hib hid hsame)))
    · exact List.mem_cons_of_mem _ ((h.mem_ancestors hd hds hdc).mpr
        ⟨b, hb, hbc, hbs, hsame, howner, hsub⟩)

/-- An implementation in a subtype of the type that the caller sees is what the caller expects. -/
theorem Env.DeclaredBy.fulfils_of_isSubtype (h : env.DeclaredBy p)
    (hsigned : Contract.Signed decls) (hm : env.method? m.id = some m) (hms : m.isStatic = false)
    (hmc : m.isConstructor = false) (hd : env.method? d.id = some d) (hds : d.isStatic = false)
    (hdc : d.isConstructor = false) (hsig : d.sameSignature m = true)
    (hsub : env.isSubtype d.owner m.owner = true) : Fulfils env decls d m := by
  refine (h.fulfils_iff hsigned hm hms hmc hd hds hdc hsig).mpr ⟨?_, fun b own hb hin _ _ => ?_⟩
  · by_cases howner : m.owner = d.owner
    · obtain ⟨info, hi, him⟩ := h.type_of_method hm hmc
      obtain ⟨info', hi', hid⟩ := h.type_of_method hd hdc
      obtain rfl := Option.some.inj ((howner ▸ hi).symm.trans hi')
      rw [h.eq_of_sameSignature hi' hd hm hid him hsig]
    · refine (h.returnType_of_ancestor hd hds hdc hm ((h.mem_ancestors hd hds hdc).mpr ?_)).symm
      exact ⟨m, hm, hmc, hms, MethodInfo.sameSignature_comm d m ▸ hsig, howner, hsub⟩
  · rcases List.mem_cons.mp hin with heq | hin
    · rw [heq, hm] at hb
      obtain rfl := Option.some.inj hb
      exact hsub
    · obtain ⟨b', hb', _, _, _, _, hup⟩ := (h.mem_ancestors hm hms hmc).mp hin
      obtain rfl := Option.some.inj (hb.symm.trans hb')
      exact Env.isSubtype_trans hsub hup

end

/-- The implementation that runs when a method is called on an object of a subtype has the parameter
types of the method. It returns the same type and has the whole contract of the method exactly if
it returns the same type and its class is a subtype of every type whose declaration of the method
says something to callers. That is so whenever its class is a subtype of the one the caller sees;
it may fail where an interface is implemented by a method that a superclass has of its own. -/
theorem dispatch_inherits_iff {source : String} {checks : Checks} {b : Build}
    (h : build source checks = .ok b) {p : Surface.Program} (hp : Parse.program source = .ok p)
    {m d : MethodInfo} {r : String} (hm : b.program.env.method? m.id = some m)
    (hs : m.isStatic = false) (hc : m.isConstructor = false)
    (hr : b.program.env.isSubtype r m.owner = true)
    (hd : b.program.env.method? (b.program.env.dispatch r m.id) = some d)
    (hb : d.hasBody = true) :
    d.paramTypes = m.paramTypes ∧
    (Fulfils b.program.env (Contract.bind b.program.env (Clause.ofProgram p) p.siteCount).decls d m ↔
      d.returnType = m.returnType ∧
        ∀ a own, b.program.env.method? a.id = some a →
          a.id ∈ m.id :: Contract.ancestors b.program.env m →
          (Contract.bind b.program.env (Clause.ofProgram p) p.siteCount).decls.get? a.id = some own →
          own.Speaks → b.program.env.isSubtype d.owner a.owner = true) ∧
    (b.program.env.isSubtype d.owner m.owner = true →
      Fulfils b.program.env (Contract.bind b.program.env (Clause.ofProgram p) p.siteCount).decls
        d m) := by
  obtain ⟨p', env, hp', henv, _, _, hprog⟩ := build_eq_ok h
  obtain rfl : p = p' := Except.ok.inj (hp.symm.trans hp')
  have hdecl : b.program.env.DeclaredBy p := by
    rw [hprog]
    exact Env.declaredBy_of_check (Parse.program_wellFormed hp) henv
  have hsigned := Contract.bind_signed b.program.env (Clause.ofProgram p) p.siteCount
  obtain ⟨hds, hdc, hsig, _⟩ := hdecl.dispatch_cases hm hs hc hr hd hb
  rw [← (hdecl.method_cases _ d hd).1] at hd
  exact ⟨(MethodInfo.sameSignature_iff.mp hsig).2,
    hdecl.fulfils_iff hsigned hm hs hc hd hds hdc hsig,
    hdecl.fulfils_of_isSubtype hsigned hm hs hc hd hds hdc hsig⟩

deriving instance DecidableEq for MethodInfo

/-- The method or constructor of a qualified name. -/
def Env.methodNamed? (env : Env) (name : String) : Option MethodInfo :=
  env.methods.values.find? (·.qualifiedName == name)

/-- A class inherits the implementation of a method whose contract stands in an interface that the
superclass implements. -/
def implementedSource : String :=
  "interface I { /** @post | result > 0 */ int m(); }
   class B implements I { int m() { return 1; } }
   class C extends B { }"

theorem dispatch_inherits_iff_implemented :
    ∃ b p m d, build implementedSource {} = .ok b ∧ Parse.program implementedSource = .ok p ∧
      b.program.env.isSubtype "C" m.owner = true ∧
      b.program.env.method? (b.program.env.dispatch "C" m.id) = some d ∧ d.hasBody = true ∧
      Fulfils b.program.env (Contract.bind b.program.env (Clause.ofProgram p) p.siteCount).decls
        d m := by
  have h : (do
      let b ← (build implementedSource {}).toOption
      let p ← (Parse.program implementedSource).toOption
      let m ← b.program.env.methodNamed? "I.m"
      let d ← b.program.env.method? (b.program.env.dispatch "C" m.id)
      return decide (b.program.env.method? m.id = some m) && (!m.isStatic && (!m.isConstructor &&
        (b.program.env.isSubtype "C" m.owner && (d.hasBody &&
          b.program.env.isSubtype d.owner m.owner))))) = some true := by
    set_option maxRecDepth 20000 in
    rw [show implementedSource = String.ofList _ from rfl, build_ofList, Parse.program_ofList]
    decide +kernel
  simp only [Option.bind_eq_bind, Option.bind_eq_some_iff] at h
  obtain ⟨b, hb, p, hp, m, _, d, hd, h⟩ := h
  simp only [Option.pure_def, Option.some.injEq, Bool.and_eq_true, Bool.not_eq_true',
    decide_eq_true_eq] at h
  obtain ⟨hm, hs, hc, hr, hbody, hsub⟩ := h
  exact ⟨b, p, m, d, ok_of_toOption hb, ok_of_toOption hp, hr, hd, hbody,
    (dispatch_inherits_iff (ok_of_toOption hb) (ok_of_toOption hp) hm hs hc hr hd hbody).2.2 hsub⟩

/-- A class implements an interface with a method of a superclass that does not know of it. -/
def sidewaysSource : String :=
  "interface I { /** @post | result > 0 */ int m(); }
   class B { int m() { return -1; } }
   class C extends B implements I { }"

/-- The implementation that runs lacks the postcondition of the interface. -/
theorem contract_bypassed :
    ∃ b p m d, build sidewaysSource {} = .ok b ∧ Parse.program sidewaysSource = .ok p ∧
      b.program.env.method? m.id = some m ∧ m.isStatic = false ∧ m.isConstructor = false ∧
      b.program.env.isSubtype "C" m.owner = true ∧
      b.program.env.method? (b.program.env.dispatch "C" m.id) = some d ∧ d.hasBody = true ∧
      ∃ c ∈ (Contract.specificationOf b.program.env
          (Contract.bind b.program.env (Clause.ofProgram p) p.siteCount).decls m).postconditions,
        c ∉ (Contract.specificationOf b.program.env
          (Contract.bind b.program.env (Clause.ofProgram p) p.siteCount).decls d).postconditions := by
  have h : (do
      let b ← (build sidewaysSource {}).toOption
      let p ← (Parse.program sidewaysSource).toOption
      let m ← b.program.env.methodNamed? "I.m"
      let d ← b.program.env.method? (b.program.env.dispatch "C" m.id)
      let decls := (Contract.bind b.program.env (Clause.ofProgram p) p.siteCount).decls
      return decide (b.program.env.method? m.id = some m) && (!m.isStatic && (!m.isConstructor &&
        (b.program.env.isSubtype "C" m.owner && (d.hasBody &&
          decide (∃ c ∈ (Contract.specificationOf b.program.env decls m).postconditions,
            c ∉ (Contract.specificationOf b.program.env decls d).postconditions)))))) =
      some true := by
    set_option maxRecDepth 20000 in
    rw [show sidewaysSource = String.ofList _ from rfl, build_ofList, Parse.program_ofList]
    decide +kernel
  simp only [Option.bind_eq_bind, Option.bind_eq_some_iff] at h
  obtain ⟨b, hb, p, hp, m, _, d, hd, h⟩ := h
  simp only [Option.pure_def, Option.some.injEq, Bool.and_eq_true, Bool.not_eq_true',
    decide_eq_true_eq] at h
  obtain ⟨hm, hs, hc, hr, hbody, hlacks⟩ := h
  exact ⟨b, p, m, d, ok_of_toOption hb, ok_of_toOption hp, hm, hs, hc, hr, hd, hbody, hlacks⟩

end Covenant
