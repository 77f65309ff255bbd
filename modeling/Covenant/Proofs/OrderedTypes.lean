import Covenant.Proofs.Built
import Covenant.Proofs.Distances
import Covenant.Proofs.Fields

/-!
# Hierarchies in order

When the types of a program are accepted: each name is given once, superclasses are
classes, interfaces are interfaces, and no type is above itself. All of this is said
of the program as it is written; what is in the environment then has the order that
was written. The check finds cycles among program types only, which is enough because
nothing above a built-in exception is a type of the program.
-/

namespace Covenant

open Relation (ReflTransGen TransGen)

namespace Surface.Program

/-- A type has the other one written as its superclass or as one of its interfaces. -/
inductive Above (p : Program) : String → String → Prop
  | exception {a b} (h : (a, some b) ∈ Env.builtinExceptions) : Above p a b
  | superclass {t s} (ht : t ∈ p.types) (hs : t.superclass = some s) : Above p t.name.val s.val
  | interface {t i} (ht : t ∈ p.types) (hi : i ∈ t.interfaces) : Above p t.name.val i.val

def IsClass (p : Program) (name : String) : Prop :=
  (∃ x ∈ Env.builtinExceptions, x.1 = name) ∨
    ∃ t ∈ p.types, t.name.val = name ∧ t.kind = .ofClass

def IsInterface (p : Program) (name : String) : Prop :=
  ∃ t ∈ p.types, t.name.val = name ∧ t.kind = .ofInterface

/-- The headers of a program's types are in order. -/
structure Hierarchical (p : Program) : Prop where
  names : (p.types.map (·.name.val)).Nodup
  new : ∀ t ∈ p.types, ∀ x ∈ Env.builtinExceptions, x.1 ≠ t.name.val
  superclasses : ∀ t ∈ p.types, ∀ s, t.superclass = some s → p.IsClass s.val
  interfaces : ∀ t ∈ p.types, ∀ i ∈ t.interfaces, p.IsInterface i.val
  acyclic : ∀ name, ¬ TransGen p.Above name name

end Surface.Program

namespace Env

open Surface (Program TypeDecl)

/-- Types are ordered as a relation between their names says. -/
structure OrderedBy (env : Env) (above : String → String → Prop) : Prop where
  subtype : ∀ a b, env.isSubtype a b = true ↔ ReflTransGen above a b
  antisymm : ∀ a b, env.isSubtype a b = true → env.isSubtype b a = true → a = b
  assignable_refl : ∀ t, env.isAssignable t t = true
  assignable_trans : ∀ s t u, env.isAssignable s t = true → env.isAssignable t u = true →
    env.isAssignable s u = true
  first : ∀ a info, env.class? a = some info → (env.supertypes a).head? = some a
  once : ∀ a, (env.supertypes a).Nodup
  complete : ∀ a info, env.class? a = some info →
    ∀ b, b ∈ env.supertypes a ↔ ReflTransGen above a b
  nearest : ∀ a, (env.supertypes a).Pairwise fun b c => distance above a b ≤ distance above a c

variable {env env' : Env} {p : Program}

/-! ## What has been entered -/

namespace AfterTypes

variable {done : List TypeDecl} (h : AfterTypes p done env)

include h

/-- No type of the program has the name of a built-in exception. -/
theorem new {t : TypeDecl} (ht : t ∈ done) {x : String × Option String}
    (hx : x ∈ builtinExceptions) : x.1 ≠ t.name.val := by
  intro heq
  obtain ⟨id, ctor, he, _⟩ := h.exceptions x hx
  have hinfo : exceptionInfo id ctor x.1 x.2 = headerOf t :=
    Option.some.inj (he.info.symm.trans (heq ▸ h.headers t ht))
  exact absurd (congrArg ClassInfo.isBuiltin hinfo) (by simp [exceptionInfo, headerOf])

/-- A type can be entered as long as its name is new. -/
theorem exists_addType {t : TypeDecl} (hnew : ∀ x ∈ builtinExceptions, x.1 ≠ t.name.val)
    (hname : t.name.val ∉ done.map (·.name.val)) : ∃ env', env.addType t = .ok env' := by
  have hfree : env.classes.contains t.name.val = false := by
    refine Option.isSome_eq_false_iff.mpr (Option.isNone_iff_eq_none.mpr ?_)
    cases hi : env.classes.get? t.name.val with
    | none => rfl
    | some info =>
        rcases h.class_cases _ info hi with ⟨x, hx, heq⟩ | ⟨t', ht', heq⟩
        · exact absurd heq (hnew x hx)
        · exact absurd (List.mem_map.mpr ⟨t', ht', heq⟩) hname
  rw [addType]
  simp only [hfree, Bool.false_eq_true, if_false]
  exact ⟨_, rfl⟩

end AfterTypes

/-- Types with names of their own can be entered one after the other. -/
theorem exists_addTypes (hnew : ∀ t ∈ p.types, ∀ x ∈ builtinExceptions, x.1 ≠ t.name.val) :
    ∀ (todo done : List TypeDecl) (env : Env), done ++ todo = p.types →
      (p.types.map (·.name.val)).Nodup → AfterTypes p done env →
      ∃ env', todo.foldlM addType env = .ok env' ∧ AfterTypes p p.types env' := by
  intro todo
  induction todo with
  | nil =>
      intro done env hl _ h
      rw [List.append_nil] at hl
      exact ⟨env, rfl, hl ▸ h⟩
  | cons t todo ih =>
      intro done env hl hnames h
      have hname : t.name.val ∉ done.map (·.name.val) := by
        rw [← hl, List.map_append, List.map_cons] at hnames
        exact fun hmem => (List.nodup_append.mp hnames).2.2 _ hmem _ List.mem_cons_self rfl
      have ht : t ∈ p.types := hl ▸ List.mem_append_right _ List.mem_cons_self
      obtain ⟨env₁, h₁⟩ := h.exists_addType (hnew t ht) hname
      obtain ⟨env', hrest, hafter⟩ := ih (done ++ [t]) env₁ (by simp [hl]) hnames (h.add h₁)
      exact ⟨env', by rw [List.foldlM_cons, h₁]; exact hrest, hafter⟩

/-! ## The environment and the program -/

namespace AfterTypes

variable (h : AfterTypes p p.types env)

include h

/-- An environment says the same of what is above a type as the program that it was made of. -/
theorem names_iff {a b : String} : env.Names a b ↔ p.Above a b := by
  constructor
  · rintro ⟨info, hi, hb⟩
    rcases h.class_cases a info hi with ⟨x, hx, rfl⟩ | ⟨t, ht, rfl⟩
    · obtain ⟨id, ctor, he, _⟩ := h.exceptions x hx
      obtain rfl := Option.some.inj (hi.symm.trans he.info)
      have hb : x.2 = some b := by simpa [exceptionInfo, directSupertypes] using hb
      exact .exception (hb ▸ hx)
    · obtain rfl := Option.some.inj (hi.symm.trans (h.headers t ht))
      rcases List.mem_append.mp hb with hb | hb
      · have hb : t.superclass.map (·.val) = some b := by simpa [headerOf] using hb
        obtain ⟨s, hs, rfl⟩ := Option.map_eq_some_iff.mp hb
        exact .superclass ht hs
      · obtain ⟨i, hi, rfl⟩ := List.mem_map.mp hb
        exact .interface ht hi
  · intro hab
    cases hab with
    | @exception a b hx =>
        obtain ⟨_, _, he, _⟩ := h.exceptions (a, some b) hx
        exact ⟨_, he.info, by simp [exceptionInfo, directSupertypes]⟩
    | @superclass t s ht hs =>
        exact ⟨_, h.headers t ht, by simp [headerOf, directSupertypes, hs]⟩
    | @interface t i ht hi =>
        exact ⟨_, h.headers t ht, List.mem_append_right _ (List.mem_map.mpr ⟨i, hi, rfl⟩)⟩

theorem names_eq : env.Names = p.Above := by
  funext a b
  exact propext h.names_iff

theorem isClass_iff {name : String} :
    (∃ info, env.class? name = some info ∧ info.isInterface = false) ↔ p.IsClass name := by
  constructor
  · rintro ⟨info, hi, hclass⟩
    refine (h.class_cases name info hi).imp id ?_
    rintro ⟨t, ht, rfl⟩
    obtain rfl := Option.some.inj (hi.symm.trans (h.headers t ht))
    have hkind : t.kind ≠ .ofInterface := of_decide_eq_false hclass
    refine ⟨t, ht, rfl, ?_⟩
    cases hk : t.kind with
    | ofClass => rfl
    | ofInterface => exact absurd hk hkind
  · rintro (⟨x, hx, rfl⟩ | ⟨t, ht, rfl, hk⟩)
    · obtain ⟨_, _, he, _⟩ := h.exceptions x hx
      exact ⟨_, he.info, rfl⟩
    · exact ⟨_, h.headers t ht, by simp [headerOf, hk]⟩

theorem isInterface_iff {name : String} :
    (∃ info, env.class? name = some info ∧ info.isInterface = true) ↔ p.IsInterface name := by
  constructor
  · rintro ⟨info, hi, hint⟩
    rcases h.class_cases name info hi with ⟨x, hx, rfl⟩ | ⟨t, ht, rfl⟩
    · obtain ⟨_, _, he, _⟩ := h.exceptions x hx
      obtain rfl := Option.some.inj (hi.symm.trans he.info)
      exact absurd hint Bool.false_ne_true
    · obtain rfl := Option.some.inj (hi.symm.trans (h.headers t ht))
      exact ⟨t, ht, rfl, of_decide_eq_true hint⟩
  · rintro ⟨t, ht, rfl, hk⟩
    exact ⟨_, h.headers t ht, by simp [headerOf, hk]⟩

/-- The types of an environment are the classes and the interfaces of the program. -/
theorem known_iff {name : String} :
    (∃ info, env.class? name = some info) ↔ p.IsClass name ∨ p.IsInterface name := by
  rw [← h.isClass_iff, ← h.isInterface_iff]
  constructor
  · rintro ⟨info, hi⟩
    cases hk : info.isInterface with
    | false => exact .inl ⟨info, hi, hk⟩
    | true => exact .inr ⟨info, hi, hk⟩
  · rintro (⟨info, hi, _⟩ | ⟨info, hi, _⟩) <;> exact ⟨info, hi⟩

end AfterTypes

/-! ## The checks of headers -/

theorem forM_ok_iff {ε α : Type} {f : α → Except ε PUnit} {l : List α} :
    l.forM f = .ok () ↔ ∀ a ∈ l, f a = .ok () := by
  refine ⟨forM_ok, fun h => ?_⟩
  induction l with
  | nil => rfl
  | cons a l ih =>
      rw [List.forM_eq_forM, List.forM_cons, h a List.mem_cons_self]
      exact ih fun a' ha' => h a' (List.mem_cons_of_mem _ ha')

theorem checkHeader_iff {t : TypeDecl} : env.checkHeader t = .ok () ↔
    (∀ s, t.superclass = some s →
      ∃ info, env.class? s.val = some info ∧ info.isInterface = false) ∧
    ∀ i ∈ t.interfaces, ∃ info, env.class? i.val = some info ∧ info.isInterface = true := by
  refine ⟨checkHeader_ok, fun ⟨hsuper, hints⟩ => ?_⟩
  have hforM : t.interfaces.forM env.checkInterface = .ok () := by
    refine forM_ok_iff.mpr fun i hi => ?_
    obtain ⟨info, hinfo, hint⟩ := hints i hi
    simp [checkInterface, hinfo, hint]
  rw [checkHeader]
  cases hs : t.superclass with
  | none => exact hforM
  | some s =>
      obtain ⟨info, hinfo, hint⟩ := hsuper s hs
      have hclass : env.checkSuperclass s = .ok () := by
        rw [checkSuperclass]
        simp [hinfo, hint]
      simp only [hclass]
      exact hforM

theorem checkAcyclic_iff {t : TypeDecl} {info : ClassInfo}
    (hi : env.class? t.name.val = some info) :
    env.checkAcyclic t = .ok () ↔ ¬ TransGen env.Names t.name.val t.name.val := by
  constructor
  · intro h hcycle
    obtain ⟨s, hs, hreach⟩ := TransGen.head'_iff.mp hcycle
    exact checkAcyclic_ok h hi hs hreach
  · intro h
    rw [checkAcyclic, if_neg]
    intro hc
    rw [isCyclic, hi, Option.map_some, Option.getD_some, List.any_eq_true] at hc
    obtain ⟨s, hs, hmem⟩ := hc
    have hreach := (mem_supertypes.mp (by simpa using hmem)).2
    exact h (TransGen.head' ⟨info, hi, hs⟩ hreach)

/-- A program whose types have been entered is hierarchical if and only if the checks pass. -/
theorem AfterTypes.hierarchical_iff (h : AfterTypes p p.types env) :
    p.Hierarchical ↔ p.types.forM env.checkHeader = .ok () ∧
      p.types.forM env.checkAcyclic = .ok () := by
  rw [forM_ok_iff, forM_ok_iff]
  constructor
  · intro hp
    refine ⟨fun t ht => checkHeader_iff.mpr ⟨fun s hs => ?_, fun i hi => ?_⟩, fun t ht => ?_⟩
    · exact h.isClass_iff.mpr (hp.superclasses t ht s hs)
    · exact h.isInterface_iff.mpr (hp.interfaces t ht i hi)
    · rw [checkAcyclic_iff (h.headers t ht), h.names_eq]
      exact hp.acyclic t.name.val
  · rintro ⟨hheaders, hacyclic⟩
    refine ⟨h.names, fun t ht x hx => h.new ht hx, fun t ht s hs => ?_, fun t ht i hi => ?_, ?_⟩
    · exact h.isClass_iff.mp ((checkHeader_iff.mp (hheaders t ht)).1 s hs)
    · exact h.isInterface_iff.mp ((checkHeader_iff.mp (hheaders t ht)).2 i hi)
    · intro name hcycle
      rw [← h.names_eq] at hcycle
      obtain ⟨s, ⟨info, hi, _⟩, _⟩ := TransGen.head'_iff.mp hcycle
      rcases h.class_cases name info hi with ⟨x, hx, rfl⟩ | ⟨t, ht, rfl⟩
      · refine exceptions_acyclic (fun y hy b hb => ?_) hx hcycle
        obtain ⟨info, hi, hb⟩ := hb
        obtain ⟨_, _, he, _⟩ := h.exceptions y hy
        obtain rfl := Option.some.inj (hi.symm.trans he.info)
        simpa [exceptionInfo, directSupertypes] using hb
      · exact (checkAcyclic_iff (h.headers t ht)).mp (hacyclic t ht) hcycle

/-- Above a type of a hierarchical program stand types only. -/
theorem AfterTypes.known_of_above (h : AfterTypes p p.types env) (hp : p.Hierarchical)
    {a b : String} (hab : p.Above a b) : ∃ info, env.class? b = some info := by
  rw [h.known_iff]
  cases hab with
  | @exception a b hx =>
      have closed : ∀ x ∈ builtinExceptions, ∀ s, x.2 = some s →
          ∃ y ∈ builtinExceptions, y.1 = s := by
        decide
      exact .inl (.inl (closed _ hx b rfl))
  | superclass ht hs => exact .inl (hp.superclasses _ ht _ hs)
  | interface ht hi => exact .inr (hp.interfaces _ ht _ hi)

theorem addTypes_eq_ok : (empty p.declCount).addExceptions.addTypes p = .ok env ↔
    p.types.foldlM addType (empty p.declCount).addExceptions = .ok env ∧
      p.types.forM env.checkHeader = .ok () ∧ p.types.forM env.checkAcyclic = .ok () := by
  rw [addTypes, bind_eq_ok]
  constructor
  · rintro ⟨env₁, hfold, h⟩
    obtain ⟨_, hheaders, h⟩ := bind_eq_ok.mp h
    obtain ⟨_, hacyclic, h⟩ := bind_eq_ok.mp h
    cases h
    exact ⟨hfold, hheaders, hacyclic⟩
  · rintro ⟨hfold, hheaders, hacyclic⟩
    exact ⟨env, hfold, bind_eq_ok.mpr ⟨(), hheaders, bind_eq_ok.mpr ⟨(), hacyclic, rfl⟩⟩⟩

/-- The order of the types of a hierarchical program is the one that is written. -/
theorem AfterTypes.orderedBy (h : AfterTypes p p.types env) (hp : p.Hierarchical) :
    env.OrderedBy p.Above := by
  have hnames := h.names_eq
  have known {a b : String} {info : ClassInfo} (ha : env.class? a = some info)
      (hr : ReflTransGen p.Above a b) : ∃ info, env.class? b = some info := by
    rcases ReflTransGen.cases_tail hr with rfl | ⟨c, _, hcb⟩
    · exact ⟨info, ha⟩
    · exact h.known_of_above hp hcb
  have hsub (a b : String) : env.isSubtype a b = true ↔ ReflTransGen p.Above a b := by
    refine ⟨fun hs => hnames ▸ reach_of_isSubtype hs, fun hr => ?_⟩
    rcases ReflTransGen.cases_tail hr with rfl | ⟨c, _, hcb⟩
    · exact isSubtype_refl
    · obtain ⟨info, hi⟩ := h.known_of_above hp hcb
      exact isSubtype_of_reach hi (hnames ▸ hr)
  refine ⟨hsub, fun a b hab hba => ?_, fun t => isAssignable_refl,
    fun s t u => isAssignable_trans, fun a info hi => ?_, fun a => nodup_visit,
    fun a info hi b => ?_, fun a => hnames ▸ pairwise_supertypes⟩
  · rcases ReflTransGen.cases_head ((hsub a b).mp hab) with heq | ⟨c, hac, hcb⟩
    · exact heq
    · exact absurd (TransGen.head' hac (hcb.trans ((hsub b a).mp hba))) (hp.acyclic a)
  · rw [supertypes_eq_cons hi]
    rfl
  · rw [mem_supertypes, hnames]
    exact ⟨And.right, fun hr => ⟨known hi hr, hr⟩⟩

/-- Exactly the programs with a hierarchy in order pass the reading of their types, and then the
environment has the types of the program, ordered as they are written. -/
theorem addTypes_exact (p : Program) :
    ((∃ env, (empty p.declCount).addExceptions.addTypes p = .ok env) ↔ p.Hierarchical) ∧
    ∀ env, (empty p.declCount).addExceptions.addTypes p = .ok env →
      (∀ name, (∃ info, env.class? name = some info) ↔ p.IsClass name ∨ p.IsInterface name) ∧
      env.OrderedBy p.Above := by
  have stages {env : Env} (h : (empty p.declCount).addExceptions.addTypes p = .ok env) :
      AfterTypes p p.types env ∧ p.Hierarchical := by
    obtain ⟨hfold, hchecks⟩ := addTypes_eq_ok.mp h
    have hafter : AfterTypes p p.types env :=
      foldlM_stages (P := fun done _ env => AfterTypes p done env)
        (fun done t _ env env' _ h ht => h.add ht) (afterNoTypes p) hfold
    exact ⟨hafter, hafter.hierarchical_iff.mpr hchecks⟩
  refine ⟨⟨fun ⟨env, h⟩ => (stages h).2, fun hp => ?_⟩, fun env h => ?_⟩
  · obtain ⟨env, hfold, hafter⟩ := exists_addTypes hp.new p.types [] _ rfl hp.names (afterNoTypes p)
    exact ⟨env, addTypes_eq_ok.mpr ⟨hfold, hafter.hierarchical_iff.mp hp⟩⟩
  · obtain ⟨hafter, hp⟩ := stages h
    exact ⟨fun name => hafter.known_iff, hafter.orderedBy hp⟩

end Env

/-- A class that comes to an interface on two ways. -/
def cubeSource : String :=
  "interface Shape \x7b \x7d
   interface Solid extends Shape \x7b \x7d
   class Base implements Shape \x7b \x7d
   class Cube extends Base implements Solid \x7b \x7d"

def cubeCheck : Option Bool := do
  let p ← (Parse.program cubeSource).toOption
  let env ← ((Env.empty p.declCount).addExceptions.addTypes p).toOption
  return env.supertypes "Cube" == ["Cube", "Base", "Solid", "Shape"]

/-- The interface is listed once, behind what is nearer. -/
theorem addTypes_exact_cube : ∃ p env, Parse.program cubeSource = .ok p ∧
    (Env.empty p.declCount).addExceptions.addTypes p = .ok env ∧ p.Hierarchical ∧
    env.supertypes "Cube" = ["Cube", "Base", "Solid", "Shape"] ∧
    ReflTransGen p.Above "Cube" "Shape" ∧ ¬ ReflTransGen p.Above "Shape" "Cube" ∧
    distance p.Above "Cube" "Solid" ≤ distance p.Above "Cube" "Shape" := by
  have h : cubeCheck = some true := by
    set_option maxRecDepth 20000 in
    rw [cubeCheck, show cubeSource = String.ofList _ from rfl, Parse.program_ofList]
    decide +kernel
  rw [cubeCheck] at h
  obtain ⟨p, hp, h⟩ := Option.bind_eq_some_iff.mp h
  obtain ⟨env, henv, h⟩ := Option.bind_eq_some_iff.mp h
  have hlist : env.supertypes "Cube" = ["Cube", "Base", "Solid", "Shape"] :=
    beq_iff_eq.mp (Option.some.inj h)
  obtain ⟨haccept, hexact⟩ := Env.addTypes_exact p
  obtain ⟨_, hord⟩ := hexact env (ok_of_toOption henv)
  have habove : ReflTransGen p.Above "Cube" "Shape" :=
    (hord.subtype _ _).mp (Env.isSubtype_iff.mpr (.inr (by simp [hlist])))
  refine ⟨p, env, ok_of_toOption hp, ok_of_toOption henv, haccept.mp ⟨env, ok_of_toOption henv⟩,
    hlist, habove, fun hback => ?_, ?_⟩
  · have heq := hord.antisymm _ _ ((hord.subtype _ _).mpr habove) ((hord.subtype _ _).mpr hback)
    exact absurd heq (by decide)
  · have hnearest := hord.nearest "Cube"
    rw [hlist] at hnearest
    simp only [List.pairwise_cons] at hnearest
    exact hnearest.2.2.1 _ (by simp)

end Covenant
