import Covenant.Proofs.DeclaredTypes
import Covenant.Proofs.ElaboratedProgram

/-!
# The types of a checked program

What later proofs use of the declarations of a checked program: how classes and
interfaces stand in the hierarchy, which methods a type has, and which of them
override which. Bodies, initializers and calls come in after declarations and
change none of this.
-/

namespace Covenant.Env

open Surface (Program TypeDecl)
open Relation (ReflTransGen)

variable {env : Env} {p : Program}

/-! ## Checking bodies keeps the declarations -/

theorem congr_bodies {bodies : Table DeclId (List Typed.Stmt)}
    {fieldInits : Table DeclId Typed.Expr} {callSites : Table SiteId CallSite}
    (h : env.DeclaredBy p) (hb : ∀ id, p.declCount ≤ id → bodies.get? id = env.body? id) :
    Env.DeclaredBy { env with bodies, fieldInits, callSites } p := by
  have hexc {x : String × Option String} {i ctor : DeclId}
      (he : env.HasException p i ctor x.1 x.2) :
      Env.HasException { env with bodies, fieldInits, callSites } p i ctor x.1 x.2 :=
    ⟨he.fresh, he.info, he.method, (hb _ he.fresh).trans he.body⟩
  have hentered {t : TypeDecl} {ms : MemberList} {ctors : List MethodInfo}
      (he : env.Entered p t ms ctors) :
      Env.Entered { env with bodies, fieldInits, callSites } p t ms ctors := by
    refine ⟨?_, ?_, he.info, he.method, he.field⟩
    · rw [@addMember_congr env { env with bodies, fieldInits, callSites }
        fun _ => rfl]
      exact he.members
    · have hctors := he.constructors
      cases hctors with
      | declared hne => exact .declared hne
      | @default id hk hn hid hbody => exact .default hk hn hid ((hb id hid).trans hbody)
  refine ⟨h.wellFormed, ?_, ?_, h.class_cases, ?_, ?_, h.superclasses, h.interfaces, ?_, ?_, ?_⟩
  · intro x hx
    obtain ⟨i, ctor, he⟩ := h.exceptions x hx
    exact ⟨i, ctor, hexc he⟩
  · intro t ht
    obtain ⟨ms, ctors, he⟩ := h.types t ht
    exact ⟨ms, ctors, hentered he⟩
  · intro id m hm
    obtain ⟨hid, hcases⟩ := h.method_cases id m hm
    refine ⟨hid, hcases.imp ?_ ?_⟩
    · rintro ⟨x, hx, i, he⟩
      exact ⟨x, hx, i, hexc he⟩
    · rintro ⟨t, ht, ms, ctors, he, hmem⟩
      exact ⟨t, ht, ms, ctors, hentered he, hmem⟩
  · intro id f hf
    obtain ⟨hid, t, ht, ms, ctors, he, hmem⟩ := h.field_cases id f hf
    exact ⟨hid, t, ht, ms, ctors, hentered he, hmem⟩
  · exact h.acyclic
  · intro info hi
    rw [@checkHiding_congr env { env with bodies, fieldInits, callSites } rfl rfl]
    exact h.fieldsDiffer info hi
  · intro info hi id hid m hm hs
    rw [@basesOf_congr env { env with bodies, fieldInits, callSites } rfl rfl]
    exact h.overrides info hi id hid m hm hs

/-- Two environments have the same declarations; bodies, first values and calls may be different. -/
structure SameDecls (env₀ env : Env) : Prop where
  classes : env.classes = env₀.classes
  methods : env.methods = env₀.methods
  fields : env.fields = env₀.fields

namespace SameDecls

variable {env₀ : Env} (h : env₀.SameDecls env)

include h

theorem class? (c : String) : env.class? c = env₀.class? c := by
  rw [Env.class?, Env.class?, h.classes]

theorem method? (id : DeclId) : env.method? id = env₀.method? id := by
  rw [Env.method?, Env.method?, h.methods]

theorem field? (id : DeclId) : env.field? id = env₀.field? id := by
  rw [Env.field?, Env.field?, h.fields]

theorem classChain (c : String) : env.classChain c = env₀.classChain c := by
  rw [Env.classChain, Env.classChain, chainFrom_congr h.classes, h.classes]

theorem isAssignable (t u : Ty) : env.isAssignable t u = env₀.isAssignable t u := by
  simp only [Env.isAssignable, Env.isSubtype, supertypes_congr h.classes]

theorem lookupField? (c name : String) : env.lookupField? c name = env₀.lookupField? c name := by
  have hfield : env.field? = env₀.field? := funext h.field?
  simp only [Env.lookupField?, h.classChain, hfield]

theorem lookupMethods (c name : String) : env.lookupMethods c name = env₀.lookupMethods c name := by
  have hclass : env.class? = env₀.class? := funext h.class?
  have hmethod : env.method? = env₀.method? := funext h.method?
  simp only [Env.lookupMethods, supertypes_congr h.classes, hclass, hmethod]

theorem constructors (c : String) : env.constructors c = env₀.constructors c := by
  have hmethod : env.method? = env₀.method? := funext h.method?
  simp only [Env.constructors, h.class?, hmethod]

end SameDecls

/-- The bodies of a member stand under its own number. -/
theorem bodies_of_member {env : Env} {owner : String} {m : Surface.Member}
    {part : Typing.CheckedBodies} {cs : List CallSite}
    (h : Typing.ElabMember env owner m part cs) : ∀ x ∈ part.bodies, x.1 = m.id := by
  cases h with
  | init | noInit | noBody => exact fun x hx => absurd hx List.not_mem_nil
  | body hm =>
      intro x hx
      obtain rfl := List.mem_singleton.mp hx
      rcases hm with rfl | rfl <;> rfl
  | block =>
      intro x hx
      obtain rfl := List.mem_singleton.mp hx
      rfl

/-- What checking makes of a program has the declarations of the program. -/
theorem declaredBy_of_check (hp : p.WellFormed) (h : Typing.checkProgram p = .ok env) :
    env.DeclaredBy p := by
  obtain ⟨env₀, parts, h₀, hparts, _, _, rfl⟩ := Typing.checkProgram_elab hp h
  refine congr_bodies (declaredBy hp h₀) fun id hid => ?_
  refine Table.get?_insertAll_of_not_mem fun hmem => ?_
  obtain ⟨x, hx, rfl⟩ := List.mem_map.mp hmem
  obtain ⟨part, hpart, hx⟩ := List.mem_flatMap.mp hx
  obtain ⟨m, hm, hel⟩ := hparts.exists_member hpart
  obtain ⟨t, ht, hm⟩ := List.mem_flatMap.mp hm
  obtain ⟨m', hm', rfl⟩ := List.mem_map.mp hm
  have hin : m'.id ∈ p.types.flatMap TypeDecl.ids :=
    List.mem_flatMap.mpr ⟨t, ht, List.mem_cons_of_mem _ (List.mem_map.mpr ⟨m', hm', rfl⟩)⟩
  exact absurd (hp.ids.bounds _ hin).2 (bodies_of_member hel x hx ▸ Nat.not_lt.mpr hid)

/-! ## Classes and interfaces -/

/-- No built-in exception is above itself: each extends one that stands further in front. -/
theorem exceptions_acyclic {r : String → String → Prop}
    (hr : ∀ x ∈ builtinExceptions, ∀ b, r x.1 b → x.2 = some b) {x : String × Option String}
    (hx : x ∈ builtinExceptions) : ¬ Relation.TransGen r x.1 x.1 := by
  have front : ∀ x ∈ builtinExceptions, ∀ s, x.2 = some s → ∃ y ∈ builtinExceptions, y.1 = s ∧
      builtinExceptions.idxOf y < builtinExceptions.idxOf x := by decide
  have unique : ∀ x ∈ builtinExceptions, ∀ y ∈ builtinExceptions, x.1 = y.1 → x = y := by decide
  have back {b : String} (h : Relation.TransGen r x.1 b) : ∃ y ∈ builtinExceptions, y.1 = b ∧
      builtinExceptions.idxOf y < builtinExceptions.idxOf x := by
    induction h with
    | single h => exact front x hx _ (hr x hx _ h)
    | tail _ h ih =>
        obtain ⟨y, hy, rfl, hlt⟩ := ih
        obtain ⟨z, hz, rfl, hlt'⟩ := front y hy _ (hr y hy _ h)
        exact ⟨z, hz, rfl, hlt'.trans hlt⟩
  intro hcycle
  obtain ⟨y, hy, heq, hlt⟩ := back hcycle
  obtain rfl := unique y hy x hx heq
  exact absurd hlt (Nat.lt_irrefl _)

namespace DeclaredBy

variable (h : env.DeclaredBy p)

include h

/-- The information of a type is that of a built-in exception or of a type of the program. -/
theorem info_cases {name : String} {info : ClassInfo} (hi : env.class? name = some info) :
    (∃ x ∈ builtinExceptions, ∃ id ctor, env.HasException p id ctor x.1 x.2 ∧ x.1 = name ∧
      info = exceptionInfo id ctor x.1 x.2) ∨
    ∃ t ∈ p.types, ∃ ms ctors, env.Entered p t ms ctors ∧ t.name.val = name ∧
      info = infoOf t ms ctors := by
  rcases h.class_cases name info hi with ⟨x, hx, rfl⟩ | ⟨t, ht, rfl⟩
  · obtain ⟨id, ctor, he⟩ := h.exceptions x hx
    exact .inl ⟨x, hx, id, ctor, he, rfl, Option.some.inj (hi.symm.trans he.info)⟩
  · obtain ⟨ms, ctors, he⟩ := h.types t ht
    exact .inr ⟨t, ht, ms, ctors, he, rfl, Option.some.inj (hi.symm.trans he.info)⟩

theorem name_eq {name : String} {info : ClassInfo} (hi : env.class? name = some info) :
    info.name = name := by
  rcases h.info_cases hi with ⟨x, _, id, ctor, _, rfl, rfl⟩ | ⟨t, _, ms, ctors, _, rfl, rfl⟩ <;> rfl

/-- A superclass is a class, and so is what extends it. -/
theorem superclass_known {name s : String} {info : ClassInfo} (hi : env.class? name = some info)
    (hs : info.superclass = some s) :
    info.isInterface = false ∧ ∃ i, env.class? s = some i ∧ i.isInterface = false := by
  rcases h.info_cases hi with ⟨x, hx, id, ctor, _, _, rfl⟩ | ⟨t, ht, ms, ctors, _, _, rfl⟩
  · refine ⟨rfl, ?_⟩
    have closed : ∀ x ∈ builtinExceptions, ∀ s, x.2 = some s → ∃ y ∈ builtinExceptions, y.1 = s := by
      decide
    obtain ⟨y, hy, rfl⟩ := closed x hx s hs
    obtain ⟨_, _, he⟩ := h.exceptions y hy
    exact ⟨_, he.info, rfl⟩
  · have hs : t.superclass.map (·.val) = some s := hs
    obtain ⟨l, hl, rfl⟩ := Option.map_eq_some_iff.mp hs
    refine ⟨?_, h.superclasses t ht l hl⟩
    show decide (t.kind = .ofInterface) = false
    have hk : t.kind ≠ .ofInterface := fun hk =>
      absurd (((h.wellFormed.types t ht).superclass hk).symm.trans hl) (by simp)
    simpa using hk

theorem interface_known {name i : String} {info : ClassInfo} (hi : env.class? name = some info)
    (hin : i ∈ info.interfaces) : ∃ j, env.class? i = some j ∧ j.isInterface = true := by
  rcases h.info_cases hi with ⟨x, hx, id, ctor, _, _, rfl⟩ | ⟨t, ht, ms, ctors, _, _, rfl⟩
  · exact absurd hin List.not_mem_nil
  · have hin : i ∈ t.interfaces.map (·.val) := hin
    obtain ⟨l, hl, rfl⟩ := List.mem_map.mp hin
    exact h.interfaces t ht l hl

theorem names_cases {a b : String} (hn : env.Names a b) :
    env.Extends a b ∨ ∃ j, env.class? b = some j ∧ j.isInterface = true := by
  obtain ⟨info, hi, hb⟩ := hn
  rcases List.mem_append.mp hb with hb | hb
  · exact .inl ⟨info, hi, by simpa using hb⟩
  · exact .inr (h.interface_known hi hb)

/-- Only interfaces can be reached from an interface. -/
theorem interface_of_reach {a b : String} {info : ClassInfo} (ha : env.class? a = some info)
    (hint : info.isInterface = true) (hr : ReflTransGen env.Names a b) :
    ∃ j, env.class? b = some j ∧ j.isInterface = true := by
  induction hr with
  | refl => exact ⟨info, ha, hint⟩
  | tail _ hn ih =>
      obtain ⟨i, hi, hiint⟩ := ih
      rcases h.names_cases hn with ⟨i', hi', hs⟩ | hj
      · obtain rfl : i = i' := Option.some.inj (hi.symm.trans hi')
        exact absurd (h.superclass_known hi hs).1 (by simp [hiint])
      · exact hj

/-- A class is reached along superclasses only. -/
theorem extends_of_reach {a b : String} {info : ClassInfo} (hb : env.class? b = some info)
    (hclass : info.isInterface = false) (hr : ReflTransGen env.Names a b) :
    ReflTransGen env.Extends a b := by
  induction hr using Relation.ReflTransGen.head_induction_on with
  | refl => exact .refl
  | head hn hrest ih =>
      rcases h.names_cases hn with he | ⟨j, hj, hjint⟩
      · exact .head he ih
      · obtain ⟨k, hk, hkint⟩ := h.interface_of_reach hj hjint hrest
        obtain rfl : info = k := Option.some.inj (hb.symm.trans hk)
        exact absurd hclass (by simp [hkint])

/-- A class that is a supertype stands in the chain of superclasses. -/
theorem mem_chain_of_isSubtype {a b : String} {info : ClassInfo} (hb : env.class? b = some info)
    (hclass : info.isInterface = false) (hs : env.isSubtype a b = true) :
    info ∈ env.classChain a :=
  mem_classChain.mpr ⟨b, hb, h.extends_of_reach hb hclass (reach_of_isSubtype hs)⟩

theorem isSubtype_of_mem_chain {a : String} {info : ClassInfo} (hmem : info ∈ env.classChain a) :
    env.class? info.name = some info ∧ env.isSubtype a info.name = true := by
  obtain ⟨b, hb, hr⟩ := mem_classChain.mp hmem
  rw [h.name_eq hb]
  exact ⟨hb, isSubtype_of_reach hb (hr.lift id fun _ _ hab => hab.names)⟩

/-- No type reaches itself. -/
theorem irreflexive {a s : String} (hn : env.Names a s) : ¬ ReflTransGen env.Names s a := by
  intro hr
  obtain ⟨info, hi, hs⟩ := hn
  rcases h.info_cases hi with ⟨x, hx, id, ctor, _, rfl, rfl⟩ | ⟨t, ht, ms, ctors, _, rfl, rfl⟩
  · refine exceptions_acyclic (fun y hy b hb => ?_) hx (Relation.TransGen.head' ⟨_, hi, hs⟩ hr)
    obtain ⟨info, hi, hb⟩ := hb
    obtain ⟨_, _, he⟩ := h.exceptions y hy
    obtain rfl := Option.some.inj (hi.symm.trans he.info)
    simpa [exceptionInfo, directSupertypes] using hb
  · exact h.acyclic t ht s ⟨_, hi, hs⟩ hr

/-- Two types that are subtypes of each other are one. -/
theorem eq_of_isSubtype {a b : String} (hab : env.isSubtype a b = true)
    (hba : env.isSubtype b a = true) : a = b := by
  rcases Relation.ReflTransGen.cases_head (reach_of_isSubtype hab) with heq | ⟨c, hac, hcb⟩
  · exact heq
  · exact absurd (hcb.trans (reach_of_isSubtype hba)) (h.irreflexive hac)

end DeclaredBy

end Covenant.Env
