import Covenant.Proofs.DeclaredMembers
import Covenant.Proofs.Hierarchy

/-!
# What an environment consists of

An environment has the built-in exceptions and the types of its program, and each
type stands in it with all its members: `Env.Entered` says so for one type, and
`Env.DeclaredBy` for a program. No two declarations have one number, so nothing
that has been entered is ever written over, which is why the description of a
type survives the reading of all types behind it.
-/

namespace Covenant.Env

open Surface (Program TypeDecl Member)
open Relation (ReflTransGen)

/-! ## Types and built-in exceptions in an environment -/

/-- The information of a built-in exception. -/
def exceptionInfo (id ctor : DeclId) (name : String) (superclass : Option String) : ClassInfo where
  id := id
  name := name
  isInterface := false
  isBuiltin := true
  superclass := superclass
  interfaces := []
  fields := []
  methods := []
  ctors := [ctor]
  initOrder := []
  span := .point 0

/-- A built-in exception stands in the environment, with a number that no declaration of the program
has. -/
structure HasException (env : Env) (p : Program) (id ctor : DeclId) (name : String)
    (superclass : Option String) : Prop where
  fresh : p.declCount ≤ ctor
  info : env.class? name = some (exceptionInfo id ctor name superclass)
  method : env.method? ctor = some (emptyConstructor ctor name (.point 0))
  body : env.body? ctor = some []

/-- The information of a type with its members. -/
def infoOf (t : TypeDecl) (ms : MemberList) (ctors : List MethodInfo) : ClassInfo :=
  { headerOf t with
    fields := ms.fields.map (·.id)
    methods := ms.methods.map (·.id)
    ctors := ctors.map (·.id)
    initOrder := ms.initOrder }

/-- The constructors of a type: those that it declares, or the empty one of a class that declares
none. -/
inductive ConstructorsOf (env : Env) (p : Program) (t : TypeDecl) (ms : MemberList) :
    List MethodInfo → Prop
  | declared (h : t.kind = .ofClass → ms.ctors ≠ []) : ConstructorsOf env p t ms ms.ctors
  | default {id} (hk : t.kind = .ofClass) (hn : ms.ctors = []) (hid : p.declCount ≤ id)
      (hb : env.body? id = some []) :
      ConstructorsOf env p t ms [emptyConstructor id t.name.val t.name.span]

/-- A type stands in the environment with all its members. -/
structure Entered (env : Env) (p : Program) (t : TypeDecl) (ms : MemberList)
    (ctors : List MethodInfo) : Prop where
  members : t.members.foldlM (env.addMember t.name.val) {} = .ok ms
  constructors : env.ConstructorsOf p t ms ctors
  info : env.class? t.name.val = some (infoOf t ms ctors)
  method : ∀ m ∈ ms.methods ++ ctors, env.method? m.id = some m
  field : ∀ f ∈ ms.fields, env.field? f.id = some f

/-! ## What later steps leave alone -/

/-- What a later step leaves alone: which types there are, and what stands under numbers that are
taken. -/
structure Keeps (env env' : Env) (taken : DeclId → Prop) : Prop where
  contains : ∀ n, env'.classes.contains n = env.classes.contains n
  method : ∀ id, taken id → env'.method? id = env.method? id
  field : ∀ id, taken id → env'.field? id = env.field? id
  body : ∀ id, taken id → env'.body? id = env.body? id

variable {env env' : Env} {p : Program} {taken : DeclId → Prop}

theorem HasException.keep {id ctor : DeclId} {name : String} {superclass : Option String}
    (h : env.HasException p id ctor name superclass) (hk : env.Keeps env' taken)
    (hc : env'.class? name = env.class? name) (ht : taken ctor) :
    env'.HasException p id ctor name superclass :=
  ⟨h.fresh, hc.trans h.info, (hk.method _ ht).trans h.method, (hk.body _ ht).trans h.body⟩

theorem Entered.keep {t : TypeDecl} {ms : MemberList} {ctors : List MethodInfo}
    (h : env.Entered p t ms ctors) (hk : env.Keeps env' taken)
    (hc : env'.class? t.name.val = env.class? t.name.val)
    (hm : ∀ m ∈ ms.methods ++ ctors, taken m.id) (hf : ∀ f ∈ ms.fields, taken f.id) :
    env'.Entered p t ms ctors where
  members := by
    rw [addMember_congr hk.contains]
    exact h.members
  constructors := by
    have hctors := h.constructors
    cases hctors with
    | declared hne => exact .declared hne
    | @default id hkind hn hid hb =>
        exact .default hkind hn hid ((hk.body _ (hm (emptyConstructor id t.name.val t.name.span)
          (by simp))).trans hb)
  info := hc.trans h.info
  method := fun m hmem => (hk.method _ (hm m hmem)).trans (h.method m hmem)
  field := fun f hmem => (hk.field _ (hf f hmem)).trans (h.field f hmem)

/-! ## The stages of reading declarations -/

/-- After some built-in exceptions have been added. -/
structure AfterExceptions (p : Program) (done : List (String × Option String)) (env : Env) :
    Prop where
  next : p.declCount ≤ env.nextDecl
  exceptions : ∀ x ∈ done, ∃ id ctor, env.HasException p id ctor x.1 x.2 ∧ ctor < env.nextDecl
  class_cases : ∀ name info, env.class? name = some info → ∃ x ∈ done, x.1 = name
  method_cases : ∀ id m, env.method? id = some m →
    id < env.nextDecl ∧ ∃ x ∈ done, ∃ i, env.HasException p i id x.1 x.2
  fields : ∀ id, env.field? id = none
  overrides : env.overrides = .empty

theorem AfterExceptions.add {done : List (String × Option String)}
    (h : AfterExceptions p done env) {name : String} {superclass : Option String}
    (hn : name ∉ done.map (·.1)) :
    AfterExceptions p (done ++ [(name, superclass)]) (env.addException name superclass) := by
  have keep {x : String × Option String} {id ctor : DeclId} (hx : x ∈ done)
      (he : env.HasException p id ctor x.1 x.2) (hlt : ctor < env.nextDecl) :
      (env.addException name superclass).HasException p id ctor x.1 x.2 := by
    have hne : name ≠ x.1 := fun heq => hn (heq ▸ List.mem_map.mpr ⟨x, hx, rfl⟩)
    have hid : env.nextDecl + 1 ≠ ctor := Nat.ne_of_gt (Nat.lt_succ_of_lt hlt)
    exact ⟨he.fresh, (Table.get?_insert_of_ne _ hne _).trans he.info,
      (Table.get?_insert_of_ne _ hid _).trans he.method,
      (Table.get?_insert_of_ne _ hid _).trans he.body⟩
  have new : (env.addException name superclass).HasException p env.nextDecl (env.nextDecl + 1) name
      superclass :=
    ⟨Nat.le_succ_of_le h.next, Table.get?_insert_self _ _ _, Table.get?_insert_self _ _ _,
      Table.get?_insert_self _ _ _⟩
  refine ⟨Nat.le_trans h.next (Nat.le_add_right _ 2), ?_, ?_, ?_, h.fields, h.overrides⟩
  · intro x hx
    rcases List.mem_append.mp hx with hx | hx
    · obtain ⟨id, ctor, he, hlt⟩ := h.exceptions x hx
      exact ⟨id, ctor, keep hx he hlt, Nat.lt_of_lt_of_le hlt (Nat.le_add_right _ 2)⟩
    · obtain rfl := List.mem_singleton.mp hx
      exact ⟨_, _, new, Nat.lt_succ_self _⟩
  · intro n info hinfo
    rcases Table.get?_insert_cases hinfo with ⟨rfl, _⟩ | hinfo
    · exact ⟨_, List.mem_append_right _ List.mem_cons_self, rfl⟩
    · obtain ⟨x, hx, heq⟩ := h.class_cases n info hinfo
      exact ⟨x, List.mem_append_left _ hx, heq⟩
  · intro id m hm
    rcases Table.get?_insert_cases hm with ⟨rfl, _⟩ | hm
    · exact ⟨Nat.lt_succ_self _, _, List.mem_append_right _ List.mem_cons_self, _, new⟩
    · obtain ⟨hlt, x, hx, i, he⟩ := h.method_cases id m hm
      exact ⟨Nat.lt_of_lt_of_le hlt (Nat.le_add_right _ 2), x, List.mem_append_left _ hx, i,
        keep hx he hlt⟩

theorem afterExceptions (p : Program) :
    AfterExceptions p builtinExceptions (empty p.declCount).addExceptions := by
  suffices hall : ∀ (todo done : List (String × Option String)) (env : Env),
      ((done ++ todo).map (·.1)).Nodup → AfterExceptions p done env →
      AfterExceptions p (done ++ todo) (todo.foldl (fun e x => e.addException x.1 x.2) env) by
    refine hall builtinExceptions [] _ (by decide) ⟨Nat.le_refl _, ?_, ?_, ?_, fun _ => rfl, rfl⟩
    · exact fun x hx => absurd hx List.not_mem_nil
    · exact fun n info hi => absurd hi (by simp [class?, empty])
    · exact fun id m hm => absurd hm (by simp [method?, empty])
  intro todo
  induction todo with
  | nil =>
      intro done env _ h
      rw [List.append_nil]
      exact h
  | cons x todo ih =>
      intro done env hn h
      have hfresh : x.1 ∉ done.map (·.1) := by
        rw [List.map_append, List.map_cons] at hn
        exact fun hmem => (List.nodup_append.mp hn).2.2 _ hmem _ List.mem_cons_self rfl
      have heq : done ++ x :: todo = done ++ [x] ++ todo := by simp
      rw [heq] at hn ⊢
      exact ih (done ++ [x]) _ hn (h.add hfresh)

/-- After some types have been added without their members. -/
structure AfterTypes (p : Program) (done : List TypeDecl) (env : Env) : Prop where
  next : p.declCount ≤ env.nextDecl
  exceptions : ∀ x ∈ builtinExceptions,
    ∃ id ctor, env.HasException p id ctor x.1 x.2 ∧ ctor < env.nextDecl
  headers : ∀ t ∈ done, env.class? t.name.val = some (headerOf t)
  names : (done.map (·.name.val)).Nodup
  class_cases : ∀ name info, env.class? name = some info →
    (∃ x ∈ builtinExceptions, x.1 = name) ∨ ∃ t ∈ done, t.name.val = name
  method_cases : ∀ id m, env.method? id = some m →
    id < env.nextDecl ∧ ∃ x ∈ builtinExceptions, ∃ i, env.HasException p i id x.1 x.2
  fields : ∀ id, env.field? id = none
  overrides : env.overrides = .empty

theorem afterNoTypes (p : Program) : AfterTypes p [] (empty p.declCount).addExceptions := by
  have h := afterExceptions p
  exact ⟨h.next, h.exceptions, fun t ht => absurd ht List.not_mem_nil, List.nodup_nil,
    fun n i hi => .inl (h.class_cases n i hi), h.method_cases, h.fields, h.overrides⟩

theorem class?_of_contains {n : String} (h : env.classes.contains n = false) :
    env.class? n = none := by
  rw [Table.contains] at h
  exact Option.isSome_eq_false_iff.mp h |> Option.isNone_iff_eq_none.mp

theorem AfterTypes.add {done : List TypeDecl} (h : AfterTypes p done env) {t : TypeDecl}
    (ht : env.addType t = .ok env') : AfterTypes p (done ++ [t]) env' := by
  obtain ⟨hfresh, rfl⟩ := addType_eq_ok ht
  have hnone := class?_of_contains hfresh
  have hne {name : String} {info : ClassInfo} (hi : env.class? name = some info) :
      t.name.val ≠ name := by
    rintro rfl
    exact absurd (hnone.symm.trans hi) (by simp)
  have keep {id ctor : DeclId} {name : String} {superclass : Option String}
      (he : env.HasException p id ctor name superclass) :
      Env.HasException { env with
        typeDecls := env.typeDecls.insert t.id t.name.val
        classes := env.classes.insert t.name.val (headerOf t) } p id ctor name superclass :=
    ⟨he.fresh, (Table.get?_insert_of_ne _ (hne he.info) _).trans he.info, he.method, he.body⟩
  refine ⟨h.next, ?_, ?_, ?_, ?_, ?_, h.fields, h.overrides⟩
  · intro x hx
    obtain ⟨id, ctor, he, hlt⟩ := h.exceptions x hx
    exact ⟨id, ctor, keep he, hlt⟩
  · intro t' ht'
    rcases List.mem_append.mp ht' with ht' | ht'
    · exact (Table.get?_insert_of_ne _ (hne (h.headers t' ht')) _).trans (h.headers t' ht')
    · obtain rfl := List.mem_singleton.mp ht'
      exact Table.get?_insert_self _ _ _
  · rw [List.map_append]
    refine List.nodup_append.mpr ⟨h.names, by simp, ?_⟩
    rintro a ha b hb rfl
    obtain ⟨t', ht', rfl⟩ := List.mem_map.mp ha
    exact hne (h.headers t' ht') (by simpa using hb : t'.name.val = t.name.val).symm
  · intro name info hi
    rcases Table.get?_insert_cases hi with ⟨rfl, _⟩ | hi
    · exact .inr ⟨t, by simp, rfl⟩
    · exact (h.class_cases name info hi).imp id fun ⟨t', ht', heq⟩ =>
        ⟨t', List.mem_append_left _ ht', heq⟩
  · intro id m hm
    obtain ⟨hlt, x, hx, i, he⟩ := h.method_cases id m hm
    exact ⟨hlt, x, hx, i, keep he⟩

/-- Numbers that have been given to members. -/
def Taken (p : Program) (done : List TypeDecl) (env : Env) (id : DeclId) : Prop :=
  p.declCount ≤ id ∧ id < env.nextDecl ∨ id ∈ done.flatMap TypeDecl.ids

/-- After some types have got their members. -/
structure AfterMembers (p : Program) (done todo : List TypeDecl) (env : Env) : Prop where
  next : p.declCount ≤ env.nextDecl
  exceptions : ∀ x ∈ builtinExceptions, ∃ id ctor, env.HasException p id ctor x.1 x.2
  entered : ∀ t ∈ done, ∃ ms ctors, env.Entered p t ms ctors
  headers : ∀ t ∈ todo, env.class? t.name.val = some (headerOf t)
  class_cases : ∀ name info, env.class? name = some info →
    (∃ x ∈ builtinExceptions, x.1 = name) ∨ ∃ t ∈ p.types, t.name.val = name
  method_cases : ∀ id m, env.method? id = some m → m.id = id ∧ Taken p done env id ∧
    ((∃ x ∈ builtinExceptions, ∃ i, env.HasException p i id x.1 x.2) ∨
      ∃ t ∈ done, ∃ ms ctors, env.Entered p t ms ctors ∧ m ∈ ms.methods ++ ctors)
  field_cases : ∀ id f, env.field? id = some f → f.id = id ∧ Taken p done env id ∧
    ∃ t ∈ done, ∃ ms ctors, env.Entered p t ms ctors ∧ f ∈ ms.fields
  overrides : env.overrides = .empty

/-- The constructors that a type gets. A new one has the next free number. -/
theorem withConstructors_eq (env : Env) (t : TypeDecl) (ms : MemberList) :
    env.withConstructors t ms = (env, ms.ctors) ∧ (t.kind = .ofClass → ms.ctors ≠ []) ∨
      t.kind = .ofClass ∧ ms.ctors = [] ∧ env.withConstructors t ms =
        ({ env with nextDecl := env.nextDecl + 1, bodies := env.bodies.insert env.nextDecl [] },
          [emptyConstructor env.nextDecl t.name.val t.name.span]) := by
  rw [withConstructors]
  split
  · next h =>
      rw [Bool.and_eq_true, decide_eq_true_eq, List.isEmpty_iff] at h
      exact .inr ⟨h.1, h.2, rfl⟩
  · next h =>
      refine .inl ⟨rfl, fun hk hn => h ?_⟩
      simp [hk, hn]

/-- The numbers of the members that a type brings in: none is taken, and none occurs twice. -/
structure NewIds (p : Program) (done : List TypeDecl) (env : Env) (t : TypeDecl)
    (ms : MemberList) (ctors : List MethodInfo) : Prop where
  nodup : ((ms.methods ++ ctors).map (·.id)).Nodup
  fieldNodup : (ms.fields.map (·.id)).Nodup
  method : ∀ m ∈ ms.methods ++ ctors, ¬ Taken p done env m.id
  field : ∀ f ∈ ms.fields, ¬ Taken p done env f.id ∧ f.id ∈ t.ids

theorem newIds (hp : p.WellFormed) {done todo : List TypeDecl} {t : TypeDecl}
    (hl : done ++ t :: todo = p.types) (hnext : p.declCount ≤ env.nextDecl) {ms : MemberList}
    (hms : t.members.foldlM (env.addMember t.name.val) {} = .ok ms) :
    NewIds p done env t ms (env.withConstructors t ms).2 := by
  have hperm := ids_of_members hms
  have hids := hp.ids
  rw [← hl, List.flatMap_append, List.flatMap_cons] at hids
  have hsplit := List.nodup_append.mp hids.nodup
  have hmembers : (t.members.map Member.id).Nodup :=
    (List.nodup_cons.mp (List.nodup_append.mp hsplit.2.1).1).2
  -- What is declared in the type has a number of the type, and these are not taken.
  have declared {id : DeclId} (h : id ∈ (ms.methods ++ ms.ctors).map (·.id) ++
      (ms.fields.map (·.id) ++ ms.blocks)) : ¬ Taken p done env id ∧ id ∈ t.ids := by
    have hmem : id ∈ t.ids := List.mem_cons_of_mem _ (hperm.mem_iff.mp h)
    have hall : id ∈ t.ids ++ todo.flatMap TypeDecl.ids := List.mem_append_left _ hmem
    refine ⟨?_, hmem⟩
    rintro (⟨hge, _⟩ | hdone)
    · exact absurd (hids.bounds id (List.mem_append_right _ hall)).2 (Nat.not_lt.mpr hge)
    · exact hsplit.2.2 id hdone id hall rfl
  have hnodup := hperm.nodup_iff.mpr hmembers
  have hfields : (ms.fields.map (·.id)).Nodup :=
    (List.nodup_append.mp (List.nodup_append.mp hnodup).2.1).1
  have field : ∀ f ∈ ms.fields, ¬ Taken p done env f.id ∧ f.id ∈ t.ids := fun f hf =>
    declared (List.mem_append_right _ (List.mem_append_left _ (List.mem_map.mpr ⟨f, hf, rfl⟩)))
  rcases withConstructors_eq env t ms with ⟨heq, _⟩ | ⟨_, hn, heq⟩
  · rw [heq]
    refine ⟨(List.nodup_append.mp hnodup).1, hfields, fun m hm => ?_, field⟩
    exact (declared (List.mem_append_left _ (List.mem_map.mpr ⟨m, hm, rfl⟩))).1
  · rw [heq]
    have hmethods : ((ms.methods).map (·.id)).Nodup := by
      have h := (List.nodup_append.mp hnodup).1
      rwa [hn, List.append_nil] at h
    have method : ∀ m ∈ ms.methods, ¬ Taken p done env m.id ∧ m.id ∈ t.ids := fun m hm =>
      declared (List.mem_append_left _ (List.mem_map.mpr ⟨m, List.mem_append_left _ hm, rfl⟩))
    have lt : ∀ id ∈ t.ids, id < p.declCount := fun id hid =>
      (hids.bounds id (List.mem_append_right _ (List.mem_append_left _ hid))).2
    refine ⟨?_, hfields, fun m hm => ?_, field⟩
    · rw [List.map_append]
      refine List.nodup_append.mpr ⟨hmethods, by simp, ?_⟩
      rintro a ha b hb rfl
      obtain ⟨m, hm, rfl⟩ := List.mem_map.mp ha
      have hid : m.id = env.nextDecl := by simpa [emptyConstructor] using hb
      exact absurd (lt _ (method m hm).2) (hid ▸ Nat.not_lt.mpr hnext)
    · rcases List.mem_append.mp hm with hm | hm
      · exact (method m hm).1
      · obtain rfl := List.mem_singleton.mp hm
        rintro (⟨_, hlt⟩ | hdone)
        · exact absurd hlt (Nat.lt_irrefl _)
        · have := (hids.bounds _ (List.mem_append_left _ hdone)).2
          exact absurd this (Nat.not_lt.mpr hnext)

/-- Reading the members of a type leaves alone what stands under numbers that are taken. -/
theorem keeps_enterMembers {done : List TypeDecl} {t : TypeDecl} {ms : MemberList}
    (hnew : NewIds p done env t ms (env.withConstructors t ms).2)
    (hc : env.class? t.name.val = some (headerOf t)) :
    env.Keeps ((env.withConstructors t ms).1.enterMembers t (headerOf t) ms
      (env.withConstructors t ms).2) (Taken p done env) := by
  have hbase : (env.withConstructors t ms).1.classes = env.classes ∧
      (env.withConstructors t ms).1.methods = env.methods ∧
      (env.withConstructors t ms).1.fields = env.fields := by
    rw [withConstructors]
    split <;> exact ⟨rfl, rfl, rfl⟩
  refine ⟨fun n => ?_, fun id hid => ?_, fun id hid => ?_, fun id hid => ?_⟩
  · show ((env.withConstructors t ms).1.classes.insert _ _).contains n = _
    rw [hbase.1, Table.contains_insert]
    by_cases h : t.name.val = n
    · subst h
      have : env.classes.get? t.name.val = some (headerOf t) := hc
      simp [Table.contains, this]
    · simp [h]
  · show ((env.withConstructors t ms).1.methods.insertAll _).get? id = _
    rw [hbase.2.1, method?]
    refine Table.get?_insertAll_of_not_mem fun hmem => ?_
    rw [List.map_map] at hmem
    obtain ⟨m, hm, rfl⟩ := List.mem_map.mp hmem
    exact hnew.method m hm hid
  · show ((env.withConstructors t ms).1.fields.insertAll _).get? id = _
    rw [hbase.2.2, field?]
    refine Table.get?_insertAll_of_not_mem fun hmem => ?_
    rw [List.map_map] at hmem
    obtain ⟨f, hf, rfl⟩ := List.mem_map.mp hmem
    exact (hnew.field f hf).1 hid
  · show (env.withConstructors t ms).1.bodies.get? id = _
    rcases withConstructors_eq env t ms with ⟨heq, _⟩ | ⟨_, _, heq⟩
    · rw [heq]
      rfl
    · rw [heq]
      refine Table.get?_insert_of_ne _ ?_ _
      rintro rfl
      refine hnew.method (emptyConstructor env.nextDecl t.name.val t.name.span) ?_ hid
      rw [heq]
      exact List.mem_append_right _ List.mem_cons_self

/-- The type that has just got its members. -/
theorem entered_enterMembers {done : List TypeDecl} {t : TypeDecl} {ms : MemberList}
    (hnext : p.declCount ≤ env.nextDecl)
    (hms : t.members.foldlM (env.addMember t.name.val) {} = .ok ms)
    (hnew : NewIds p done env t ms (env.withConstructors t ms).2)
    (hk : env.Keeps ((env.withConstructors t ms).1.enterMembers t (headerOf t) ms
      (env.withConstructors t ms).2) (Taken p done env)) :
    ((env.withConstructors t ms).1.enterMembers t (headerOf t) ms
      (env.withConstructors t ms).2).Entered p t ms (env.withConstructors t ms).2 where
  members := by
    rw [addMember_congr hk.contains]
    exact hms
  constructors := by
    rcases withConstructors_eq env t ms with ⟨heq, hne⟩ | ⟨hkind, hn, heq⟩
    · rw [heq]
      exact .declared hne
    · rw [heq]
      exact .default hkind hn hnext (Table.get?_insert_self _ _ _)
  info := Table.get?_insert_self _ _ _
  method := fun m hm => Table.get?_insertAll_of_mem (by rw [List.map_map]; exact hnew.nodup)
    (List.mem_map.mpr ⟨m, hm, rfl⟩)
  field := fun f hf => Table.get?_insertAll_of_mem (by rw [List.map_map]; exact hnew.fieldNodup)
    (List.mem_map.mpr ⟨f, hf, rfl⟩)

theorem Taken.mono {done : List TypeDecl} {t : TypeDecl} {id : DeclId}
    (h : Taken p done env id) (hnext : env.nextDecl ≤ env'.nextDecl) :
    Taken p (done ++ [t]) env' id := by
  rcases h with ⟨hge, hlt⟩ | h
  · exact .inl ⟨hge, Nat.lt_of_lt_of_le hlt hnext⟩
  · exact .inr (by rw [List.flatMap_append]; exact List.mem_append_left _ h)

theorem nextDecl_enterMembers (env : Env) (t : TypeDecl) (ms : MemberList) (info : ClassInfo) :
    env.nextDecl ≤ ((env.withConstructors t ms).1.enterMembers t info ms
      (env.withConstructors t ms).2).nextDecl := by
  show env.nextDecl ≤ (env.withConstructors t ms).1.nextDecl
  rw [withConstructors]
  split
  · exact Nat.le_succ _
  · exact Nat.le_refl _

/-- The members of a new type have numbers that are taken from now on. -/
theorem taken_enterMembers {done : List TypeDecl} {t : TypeDecl} {ms : MemberList}
    {info : ClassInfo} (hnext : p.declCount ≤ env.nextDecl)
    (hms : t.members.foldlM (env.addMember t.name.val) {} = .ok ms) {m : MethodInfo}
    (hm : m ∈ ms.methods ++ (env.withConstructors t ms).2) :
    Taken p (done ++ [t]) ((env.withConstructors t ms).1.enterMembers t info ms
      (env.withConstructors t ms).2) m.id := by
  have declared (h : m ∈ ms.methods ++ ms.ctors) :
      m.id ∈ (done ++ [t]).flatMap TypeDecl.ids := by
    rw [List.flatMap_append]
    refine List.mem_append_right _ (List.mem_flatMap.mpr ⟨t, by simp, List.mem_cons_of_mem _ ?_⟩)
    exact (ids_of_members hms).mem_iff.mp
      (List.mem_append_left _ (List.mem_map.mpr ⟨m, h, rfl⟩))
  rcases withConstructors_eq env t ms with ⟨heq, _⟩ | ⟨_, _, heq⟩
  · rw [heq] at hm
    exact .inr (declared hm)
  · rcases List.mem_append.mp hm with hm | hm
    · exact .inr (declared (List.mem_append_left _ hm))
    · rw [heq] at hm ⊢
      obtain rfl := List.mem_singleton.mp hm
      exact .inl ⟨hnext, Nat.lt_succ_self _⟩

theorem AfterMembers.add (hp : p.WellFormed) (hnames : (p.types.map (·.name.val)).Nodup)
    (hbuiltin : ∀ x ∈ builtinExceptions, ∀ t ∈ p.types, x.1 ≠ t.name.val)
    {done todo : List TypeDecl} {t : TypeDecl} (hl : done ++ t :: todo = p.types)
    (h : AfterMembers p done (t :: todo) env) (ht : env.addMembers t = .ok env') :
    AfterMembers p (done ++ [t]) todo env' := by
  have hheader := h.headers t List.mem_cons_self
  obtain ⟨ms, hms, ⟨hnone, _⟩ | ⟨info, hinfo, rfl⟩⟩ := addMembers_eq_ok ht
  · exact absurd (hheader.symm.trans hnone) (by simp)
  obtain rfl : info = headerOf t := Option.some.inj (hinfo.symm.trans hheader)
  have hnew := newIds hp hl h.next hms
  have hk := keeps_enterMembers hnew hheader
  have hclasses : (env.withConstructors t ms).1.classes = env.classes := by
    rw [withConstructors]
    split <;> rfl
  have hclass {n : String} (hne : n ≠ t.name.val) :
      ((env.withConstructors t ms).1.enterMembers t (headerOf t) ms
        (env.withConstructors t ms).2).class? n = env.class? n := by
    rw [class?, enterMembers, hclasses]
    exact Table.get?_insert_of_ne _ hne.symm _
  rw [← hl] at hnames
  rw [List.map_append, List.map_cons] at hnames
  have hsplit := List.nodup_append.mp hnames
  have hne_done : ∀ t' ∈ done, t'.name.val ≠ t.name.val := fun t' ht' =>
    hsplit.2.2 _ (List.mem_map.mpr ⟨t', ht', rfl⟩) _ List.mem_cons_self
  have hne_todo : ∀ t' ∈ todo, t'.name.val ≠ t.name.val := fun t' ht' heq =>
    (List.nodup_cons.mp hsplit.2.1).1 (heq ▸ List.mem_map.mpr ⟨t', ht', rfl⟩)
  have ht_mem : t ∈ p.types := hl ▸ List.mem_append_right _ List.mem_cons_self
  have hexc {x : String × Option String} (hx : x ∈ builtinExceptions) {i ctor : DeclId}
      (he : env.HasException p i ctor x.1 x.2) :
      ((env.withConstructors t ms).1.enterMembers t (headerOf t) ms
        (env.withConstructors t ms).2).HasException p i ctor x.1 x.2 :=
    he.keep hk (hclass (hbuiltin x hx t ht_mem)) (h.method_cases ctor _ he.method).2.1
  have hentered {t' : TypeDecl} (ht' : t' ∈ done) {ms' : MemberList} {ctors' : List MethodInfo}
      (he : env.Entered p t' ms' ctors') :
      ((env.withConstructors t ms).1.enterMembers t (headerOf t) ms
        (env.withConstructors t ms).2).Entered p t' ms' ctors' :=
    he.keep hk (hclass (hne_done t' ht')) (fun m hm => (h.method_cases m.id m (he.method m hm)).2.1)
      (fun f hf => (h.field_cases f.id f (he.field f hf)).2.1)
  have hself := entered_enterMembers h.next hms hnew hk
  have hnext := nextDecl_enterMembers env t ms (headerOf t)
  refine ⟨Nat.le_trans h.next hnext, ?_, ?_, ?_, ?_, ?_, ?_, ?_⟩
  · intro x hx
    obtain ⟨i, ctor, he⟩ := h.exceptions x hx
    exact ⟨i, ctor, hexc hx he⟩
  · intro t' ht'
    rcases List.mem_append.mp ht' with ht' | ht'
    · obtain ⟨ms', ctors', he⟩ := h.entered t' ht'
      exact ⟨ms', ctors', hentered ht' he⟩
    · obtain rfl := List.mem_singleton.mp ht'
      exact ⟨ms, _, hself⟩
  · intro t' ht'
    rw [hclass (hne_todo t' ht')]
    exact h.headers t' (List.mem_cons_of_mem _ ht')
  · intro n info hi
    by_cases hn : n = t.name.val
    · exact .inr ⟨t, ht_mem, hn.symm⟩
    · rw [hclass hn] at hi
      exact h.class_cases n info hi
  · intro id m hm
    have hmethods : (env.withConstructors t ms).1.methods = env.methods := by
      rw [withConstructors]
      split <;> rfl
    have hget : ((env.withConstructors t ms).1.methods.insertAll
      ((ms.methods ++ (env.withConstructors t ms).2).map fun m => (m.id, m))).get? id = some m := hm
    rw [hmethods] at hget
    rcases Table.get?_insertAll_cases hget with hmem | hold
    · obtain ⟨m', hin, heq⟩ := List.mem_map.mp hmem
      cases heq
      exact ⟨rfl, taken_enterMembers h.next hms hin, .inr ⟨t, by simp, ms, _, hself, hin⟩⟩
    · obtain ⟨hid, htaken, hcases⟩ := h.method_cases id m hold
      refine ⟨hid, htaken.mono hnext, hcases.imp ?_ ?_⟩
      · rintro ⟨x, hx, i, he⟩
        exact ⟨x, hx, i, hexc hx he⟩
      · rintro ⟨t', ht', ms', ctors', he, hmem⟩
        exact ⟨t', List.mem_append_left _ ht', ms', ctors', hentered ht' he, hmem⟩
  · intro id f hf
    have hfields : (env.withConstructors t ms).1.fields = env.fields := by
      rw [withConstructors]
      split <;> rfl
    have hget : ((env.withConstructors t ms).1.fields.insertAll
      (ms.fields.map fun f => (f.id, f))).get? id = some f := hf
    rw [hfields] at hget
    rcases Table.get?_insertAll_cases hget with hmem | hold
    · obtain ⟨f', hin, heq⟩ := List.mem_map.mp hmem
      cases heq
      refine ⟨rfl, .inr ?_, t, by simp, ms, _, hself, hin⟩
      rw [List.flatMap_append]
      exact List.mem_append_right _ (List.mem_flatMap.mpr ⟨t, by simp, (hnew.field _ hin).2⟩)
    · obtain ⟨hid, htaken, t', ht', ms', ctors', he, hmem⟩ := h.field_cases id f hold
      exact ⟨hid, htaken.mono hnext, t', List.mem_append_left _ ht', ms', ctors', hentered ht' he, hmem⟩
  · show (env.withConstructors t ms).1.overrides = .empty
    rw [← h.overrides, withConstructors]
    split <;> rfl

/-! ## The whole environment -/

/-- The stages of `declare`. -/
theorem declare_stages (h : declare p = .ok env) :
    ∃ env₁ env₂, AfterTypes p p.types env₁ ∧ (∀ t ∈ p.types, env₁.checkHeader t = .ok ()) ∧
      (∀ t ∈ p.types, env₁.checkAcyclic t = .ok ()) ∧
      p.types.foldlM addMembers env₁ = .ok env₂ ∧
      (∀ info ∈ env₂.classes.values, env₂.checkHiding info = .ok ()) ∧
      env₂.classes.values.foldlM addOverrides env₂ = .ok env := by
  obtain ⟨env₁, h₁, h⟩ := bind_eq_ok.mp h
  obtain ⟨env₂, h₂, h⟩ := bind_eq_ok.mp h
  obtain ⟨_, hh, h⟩ := bind_eq_ok.mp h
  obtain ⟨env₀, h₀, h₁⟩ := bind_eq_ok.mp h₁
  obtain ⟨_, hheader, h₁⟩ := bind_eq_ok.mp h₁
  obtain ⟨_, hacyclic, h₁⟩ := bind_eq_ok.mp h₁
  cases h₁
  refine ⟨env₁, env₂, ?_, forM_ok hheader, forM_ok hacyclic, h₂, forM_ok hh, h⟩
  exact foldlM_stages (P := fun done _ env => AfterTypes p done env)
    (fun done t todo env env' _ h ht => h.add ht) (afterNoTypes p) h₀

theorem afterMembers (hp : p.WellFormed) {env₁ env₂ : Env} (h : AfterTypes p p.types env₁)
    (hfold : p.types.foldlM addMembers env₁ = .ok env₂) : AfterMembers p p.types [] env₂ := by
  have hnames := h.names
  have hbuiltin : ∀ x ∈ builtinExceptions, ∀ t ∈ p.types, x.1 ≠ t.name.val := by
    rintro x hx t ht heq
    obtain ⟨i, ctor, he, _⟩ := h.exceptions x hx
    have hinfo : exceptionInfo i ctor x.1 x.2 = headerOf t :=
      Option.some.inj (he.info.symm.trans (heq ▸ h.headers t ht))
    exact absurd (congrArg ClassInfo.isBuiltin hinfo) (by simp [exceptionInfo, headerOf])
  refine foldlM_stages (P := AfterMembers p)
    (fun done t todo env env' hl h ht => h.add hp hnames hbuiltin hl ht) ?_ hfold
  refine ⟨h.next, ?_, fun t ht => absurd ht List.not_mem_nil, h.headers, h.class_cases, ?_, ?_,
    h.overrides⟩
  · intro x hx
    obtain ⟨i, ctor, he, _⟩ := h.exceptions x hx
    exact ⟨i, ctor, he⟩
  · intro id m hm
    obtain ⟨hlt, x, hx, i, he⟩ := h.method_cases id m hm
    obtain rfl : emptyConstructor id x.1 (.point 0) = m := Option.some.inj (he.method.symm.trans hm)
    exact ⟨rfl, .inl ⟨he.fresh, hlt⟩, .inl ⟨x, hx, i, he⟩⟩
  · exact fun id f hf => absurd ((h.fields id).symm.trans hf) (by simp)

/-! ### Overrides -/

theorem visit_congr (h : env'.classes = env.classes) (n : Nat) (seen queue : List String) :
    visit env' n seen queue = visit env n seen queue := by
  induction n generalizing seen queue with
  | zero => rfl
  | succ n ih =>
      cases queue with
      | nil => rfl
      | cons name queue => simp only [visit, class?, h, ih]

theorem supertypes_congr (h : env'.classes = env.classes) (name : String) :
    env'.supertypes name = env.supertypes name := by
  rw [supertypes, supertypes, visit_congr h, edgeCount, edgeCount, h]

theorem basesOf_congr (hc : env'.classes = env.classes) (hm : env'.methods = env.methods)
    (m : MethodInfo) : env'.basesOf m = env.basesOf m := by
  have hclass : env'.class? = env.class? := by
    funext n
    rw [class?, class?, hc]
  have hmethod : env'.method? = env.method? := by
    funext id
    rw [method?, method?, hm]
  rw [basesOf, basesOf, supertypes_congr hc, hclass, hmethod]

theorem chainFrom_congr (h : env'.classes = env.classes) (n : Nat) (seen : List String)
    (name : String) : chainFrom env' n seen name = chainFrom env n seen name := by
  induction n generalizing seen name with
  | zero => rfl
  | succ n ih => simp only [chainFrom, class?, h, ih]

theorem checkHiding_congr (hc : env'.classes = env.classes) (hf : env'.fields = env.fields)
    (info : ClassInfo) : env'.checkHiding info = env.checkHiding info := by
  have hfield : env'.field? = env.field? := by
    funext id
    rw [field?, field?, hf]
  rw [checkHiding, checkHiding, classChain, classChain, chainFrom_congr hc, hc, hfield]

/-- Notes what one method overrides. -/
def noteMethod (env : Env) (m : MethodInfo) : Checked Env := do
  if m.isStatic then
    return env
  let bases ← env.basesOf m
  return if bases.isEmpty then env
    else { env with overrides := env.overrides.insert m.id bases }

theorem addOverrides_eq (env : Env) (info : ClassInfo) :
    env.addOverrides info = (info.methods.filterMap env.method?).foldlM noteMethod env := rfl

/-- What has been noted of overriding: only what methods of the environment override, and of the
methods that have been gone through all of it. -/
structure Noted (env : Env) (done : List MethodInfo) (env' : Env) : Prop where
  rest : ∃ overrides, env' = { env with overrides }
  known : ∀ m ∈ done, env.method? m.id = some m
  sound : ∀ id bases, env'.overrides.get? id = some bases →
    ∃ m, env.method? id = some m ∧ env.basesOf m = .ok bases
  complete : ∀ m ∈ done, m.isStatic = false →
    env.basesOf m = .ok ((env'.overrides.get? m.id).getD [])

theorem Noted.addMethod {env env' env'' : Env} {done : List MethodInfo} {m : MethodInfo}
    (hm : env.method? m.id = some m) (h : env.Noted done env')
    (hstep : env'.noteMethod m = .ok env'') : env.Noted (done ++ [m]) env'' := by
  obtain ⟨overrides, rfl⟩ := h.rest
  have known : ∀ m' ∈ done ++ [m], env.method? m'.id = some m' :=
    List.forall_mem_append.mpr ⟨h.known, by simpa using hm⟩
  -- It is enough to look at the method that is new, also where its number has been noted before.
  have new {env'' : Env} (hold : ∀ m' ∈ done, m' ≠ m → m'.isStatic = false →
        env.basesOf m' = .ok ((env''.overrides.get? m'.id).getD []))
      (hnew : m.isStatic = false → env.basesOf m = .ok ((env''.overrides.get? m.id).getD [])) :
      ∀ m' ∈ done ++ [m], m'.isStatic = false →
        env.basesOf m' = .ok ((env''.overrides.get? m'.id).getD []) := by
    intro m' hm' hs'
    by_cases heq : m' = m
    · exact heq ▸ hnew (heq ▸ hs')
    · exact hold m' (by simpa [heq] using hm') heq hs'
  rw [noteMethod] at hstep
  split at hstep
  · next hs =>
      cases hstep
      exact ⟨h.rest, known, h.sound, new (fun m' hm' _ => h.complete m' hm')
        (fun hs' => absurd hs (by simp [hs']))⟩
  · obtain ⟨bases, hb, hstep⟩ := bind_eq_ok.mp hstep
    replace hb := (@basesOf_congr env { env with overrides }
      rfl rfl m).symm.trans hb
    cases hstep
    split
    · next hempty =>
        obtain rfl : bases = [] := List.isEmpty_iff.mp hempty
        refine ⟨h.rest, known, h.sound, new (fun m' hm' _ => h.complete m' hm') fun _ => ?_⟩
        show env.basesOf m = .ok ((overrides.get? m.id).getD [])
        cases hget : overrides.get? m.id with
        | none => exact hb
        | some bases' =>
            obtain ⟨m', hm', hb'⟩ := h.sound m.id bases' hget
            obtain rfl : m = m' := Option.some.inj (hm.symm.trans hm')
            exact hb'
    · refine ⟨⟨_, rfl⟩, known, fun id bases' hget => ?_, new (fun m' hm' hne hs' => ?_) fun _ => ?_⟩
      · rcases Table.get?_insert_cases hget with ⟨rfl, rfl⟩ | hget
        · exact ⟨m, hm, hb⟩
        · exact h.sound id bases' hget
      · have hid : m.id ≠ m'.id := fun heq =>
          hne (Option.some.inj ((h.known m' hm').symm.trans (heq ▸ hm)))
        show env.basesOf m' = .ok (((overrides.insert m.id bases).get? m'.id).getD [])
        rw [Table.get?_insert_of_ne _ hid]
        exact h.complete m' hm' hs'
      · show env.basesOf m = .ok (((overrides.insert m.id bases).get? m.id).getD [])
        rw [Table.get?_insert_self]
        exact hb

/-- Noting what methods override changes nothing else, and misses no method that is not static. -/
theorem noted_addOverrides (hkeyed : ∀ id m, env.method? id = some m → m.id = id) (hnone : env.overrides = .empty)
    (h : env.classes.values.foldlM addOverrides env = .ok env') :
    env.Noted (env.classes.values.flatMap fun info => info.methods.filterMap env.method?) env' := by
  refine foldlM_stages (P := fun done _ e =>
    env.Noted (done.flatMap fun i => i.methods.filterMap env.method?) e) ?_ ?_ h
  · intro done info todo e e' _ he hstep
    obtain ⟨overrides, rfl⟩ := he.rest
    rw [addOverrides_eq] at hstep
    show env.Noted ((done ++ [info]).flatMap _) e'
    rw [List.flatMap_append, List.flatMap_singleton]
    refine foldlM_stages (P := fun ms _ e =>
      env.Noted (done.flatMap (fun i => i.methods.filterMap env.method?) ++ ms) e) ?_
      (by rw [List.append_nil]; exact he) hstep
    intro ms m rest e e' hl hd hm
    have hmem : m ∈ info.methods.filterMap env.method? :=
      hl ▸ List.mem_append_right _ List.mem_cons_self
    obtain ⟨id, _, hid⟩ := List.mem_filterMap.mp hmem
    show env.Noted (_ ++ (ms ++ [m])) e'
    rw [← List.append_assoc]
    exact hd.addMethod (hkeyed id m hid ▸ hid) hm
  · refine ⟨⟨env.overrides, rfl⟩, fun m hm => absurd hm List.not_mem_nil, ?_, fun m hm =>
      absurd hm List.not_mem_nil⟩
    intro id bases hget
    rw [hnone] at hget
    exact absurd hget (by simp)

/-! ## The whole environment -/

/-- The environment of a program: the built-in exceptions and the types, and nothing else. -/
structure DeclaredBy (env : Env) (p : Program) : Prop where
  wellFormed : p.WellFormed
  exceptions : ∀ x ∈ builtinExceptions, ∃ id ctor, env.HasException p id ctor x.1 x.2
  types : ∀ t ∈ p.types, ∃ ms ctors, env.Entered p t ms ctors
  class_cases : ∀ name info, env.class? name = some info →
    (∃ x ∈ builtinExceptions, x.1 = name) ∨ ∃ t ∈ p.types, t.name.val = name
  method_cases : ∀ id m, env.method? id = some m → m.id = id ∧
    ((∃ x ∈ builtinExceptions, ∃ i, env.HasException p i id x.1 x.2) ∨
      ∃ t ∈ p.types, ∃ ms ctors, env.Entered p t ms ctors ∧ m ∈ ms.methods ++ ctors)
  field_cases : ∀ id f, env.field? id = some f → f.id = id ∧
    ∃ t ∈ p.types, ∃ ms ctors, env.Entered p t ms ctors ∧ f ∈ ms.fields
  superclasses : ∀ t ∈ p.types, ∀ s, t.superclass = some s →
    ∃ info, env.class? s.val = some info ∧ info.isInterface = false
  interfaces : ∀ t ∈ p.types, ∀ i ∈ t.interfaces,
    ∃ info, env.class? i.val = some info ∧ info.isInterface = true
  acyclic : ∀ t ∈ p.types, ∀ s, env.Names t.name.val s → ¬ ReflTransGen env.Names s t.name.val
  fieldsDiffer : ∀ info ∈ env.classes.values, env.checkHiding info = .ok ()
  overrides : ∀ info ∈ env.classes.values, ∀ id ∈ info.methods, ∀ m, env.method? id = some m →
    m.isStatic = false → env.basesOf m = .ok ((env.overrides.get? m.id).getD [])

/-- Two environments have the same types, each with the same supertypes. -/
def SameHeaders (env env' : Env) : Prop :=
  ∀ name info, env.class? name = some info → ∃ info', env'.class? name = some info' ∧
    info'.isInterface = info.isInterface ∧ directSupertypes info' = directSupertypes info

theorem SameHeaders.names (h : env.SameHeaders env') {a b : String} (hn : env.Names a b) :
    env'.Names a b := by
  obtain ⟨info, hi, hb⟩ := hn
  obtain ⟨info', hi', _, hs⟩ := h a info hi
  exact ⟨info', hi', hs ▸ hb⟩

/-- Reading members changes no header. -/
theorem sameHeaders_afterMembers {env₁ env₂ : Env} (h₁ : AfterTypes p p.types env₁)
    (h₂ : AfterMembers p p.types [] env₂) : env₁.SameHeaders env₂ ∧ env₂.SameHeaders env₁ := by
  have builtin {x : String × Option String} (hx : x ∈ builtinExceptions) :
      ∃ info info', env₁.class? x.1 = some info ∧ env₂.class? x.1 = some info' ∧
        info'.isInterface = info.isInterface ∧ directSupertypes info' = directSupertypes info := by
    obtain ⟨_, _, he₁, _⟩ := h₁.exceptions x hx
    obtain ⟨_, _, he₂⟩ := h₂.exceptions x hx
    exact ⟨_, _, he₁.info, he₂.info, rfl, rfl⟩
  have type {t : TypeDecl} (ht : t ∈ p.types) :
      ∃ info info', env₁.class? t.name.val = some info ∧ env₂.class? t.name.val = some info' ∧
        info'.isInterface = info.isInterface ∧ directSupertypes info' = directSupertypes info := by
    obtain ⟨ms, ctors, he⟩ := h₂.entered t ht
    exact ⟨_, _, h₁.headers t ht, he.info, rfl, rfl⟩
  have both {name : String} (h : (∃ x ∈ builtinExceptions, x.1 = name) ∨
      ∃ t ∈ p.types, t.name.val = name) :
      ∃ info info', env₁.class? name = some info ∧ env₂.class? name = some info' ∧
        info'.isInterface = info.isInterface ∧ directSupertypes info' = directSupertypes info := by
    rcases h with ⟨x, hx, rfl⟩ | ⟨t, ht, rfl⟩
    · exact builtin hx
    · exact type ht
  constructor
  · intro name info hi
    obtain ⟨i, i', hi₁, hi₂, hint, hs⟩ := both (h₁.class_cases name info hi)
    obtain rfl : info = i := Option.some.inj (hi.symm.trans hi₁)
    exact ⟨i', hi₂, hint, hs⟩
  · intro name info hi
    obtain ⟨i, i', hi₁, hi₂, hint, hs⟩ := both (h₂.class_cases name info hi)
    obtain rfl : info = i' := Option.some.inj (hi.symm.trans hi₂)
    exact ⟨i, hi₁, hint.symm, hs.symm⟩

theorem checkHeader_ok {t : TypeDecl} (h : env.checkHeader t = .ok ()) :
    (∀ s, t.superclass = some s →
      ∃ info, env.class? s.val = some info ∧ info.isInterface = false) ∧
    ∀ i ∈ t.interfaces, ∃ info, env.class? i.val = some info ∧ info.isInterface = true := by
  have superclass {s : Located String} (hs : env.checkSuperclass s = .ok ()) :
      ∃ info, env.class? s.val = some info ∧ info.isInterface = false := by
    rw [checkSuperclass] at hs
    split at hs
    · exact absurd hs (by simp [typingFault])
    · next info hi =>
        split at hs
        · exact absurd hs (by simp [typingFault])
        · next hint => exact ⟨info, hi, by simpa using hint⟩
  have interface {i : Located String} (hi : env.checkInterface i = .ok ()) :
      ∃ info, env.class? i.val = some info ∧ info.isInterface = true := by
    rw [checkInterface] at hi
    split at hi
    · exact absurd hi (by simp [typingFault])
    · next info hinfo =>
        split at hi
        · next hint => exact ⟨info, hinfo, hint⟩
        · exact absurd hi (by simp [typingFault])
  rw [checkHeader] at h
  cases hs : t.superclass with
  | none =>
      simp only [hs] at h
      exact ⟨fun s heq => absurd heq (by simp), fun i hi => interface (forM_ok h i hi)⟩
  | some s =>
      simp only [hs] at h
      obtain ⟨_, hsuper, h⟩ := bind_eq_ok.mp h
      refine ⟨fun s' heq => ?_, fun i hi => interface (forM_ok h i hi)⟩
      cases heq
      exact superclass hsuper

theorem checkAcyclic_ok {t : TypeDecl} (h : env.checkAcyclic t = .ok ())
    {info : ClassInfo} (hi : env.class? t.name.val = some info) {s : String}
    (hs : env.Names t.name.val s) : ¬ ReflTransGen env.Names s t.name.val := by
  intro hreach
  obtain ⟨info', hi', hmem⟩ := hs
  obtain rfl : info = info' := Option.some.inj (hi.symm.trans hi')
  rw [checkAcyclic] at h
  split at h
  · exact absurd h (by simp [typingFault])
  · next hc =>
      refine hc ?_
      rw [isCyclic, hi, Option.map_some, Option.getD_some, List.any_eq_true]
      exact ⟨s, hmem, by simpa using mem_supertypes.mpr ⟨⟨info, hi⟩, hreach⟩⟩

theorem reach_mono {env env' : Env} (h : ∀ {a b}, env.Names a b → env'.Names a b) {a b : String}
    (hr : ReflTransGen env.Names a b) : ReflTransGen env'.Names a b :=
  hr.lift id fun _ _ hab => h hab

/-- What reading declarations makes of a program. -/
theorem declaredBy (hp : p.WellFormed) (h : declare p = .ok env) : env.DeclaredBy p := by
  obtain ⟨env₁, env₂, h₁, hheaders, hacyclic, hfold, hfields, hover⟩ := declare_stages h
  have h₂ := afterMembers hp h₁ hfold
  obtain ⟨hto, hback⟩ := sameHeaders_afterMembers h₁ h₂
  have hnoted := noted_addOverrides (fun id m hm => (h₂.method_cases id m hm).1) h₂.overrides hover
  obtain ⟨overrides, rfl⟩ := hnoted.rest
  -- Noting overrides leaves alone everything else.
  have hk : env₂.Keeps { env₂ with overrides } (fun _ => True) :=
    ⟨fun _ => rfl, fun _ _ => rfl, fun _ _ => rfl, fun _ _ => rfl⟩
  have hexc {x : String × Option String} {i ctor : DeclId}
      (he : env₂.HasException p i ctor x.1 x.2) :
      Env.HasException { env₂ with overrides } p i ctor x.1 x.2 := he.keep hk rfl trivial
  have hentered {t : TypeDecl} {ms : MemberList} {ctors : List MethodInfo}
      (he : env₂.Entered p t ms ctors) : Env.Entered { env₂ with overrides } p t ms ctors :=
    he.keep hk rfl (fun _ _ => trivial) (fun _ _ => trivial)
  have known {name : String} {b : Bool}
      (hi : ∃ info, env₁.class? name = some info ∧ info.isInterface = b) :
      ∃ info, env₂.class? name = some info ∧ info.isInterface = b := by
    obtain ⟨info, hi, rfl⟩ := hi
    obtain ⟨info', hi', hint, _⟩ := hto name info hi
    exact ⟨info', hi', hint⟩
  refine ⟨hp, ?_, ?_, h₂.class_cases, ?_, ?_, ?_, ?_, ?_, ?_, ?_⟩
  · intro x hx
    obtain ⟨i, ctor, he⟩ := h₂.exceptions x hx
    exact ⟨i, ctor, hexc he⟩
  · intro t ht
    obtain ⟨ms, ctors, he⟩ := h₂.entered t ht
    exact ⟨ms, ctors, hentered he⟩
  · intro id m hm
    obtain ⟨hid, _, hcases⟩ := h₂.method_cases id m hm
    refine ⟨hid, hcases.imp ?_ ?_⟩
    · rintro ⟨x, hx, i, he⟩
      exact ⟨x, hx, i, hexc he⟩
    · rintro ⟨t, ht, ms, ctors, he, hmem⟩
      exact ⟨t, ht, ms, ctors, hentered he, hmem⟩
  · intro id f hf
    obtain ⟨hid, _, t, ht, ms, ctors, he, hmem⟩ := h₂.field_cases id f hf
    exact ⟨hid, t, ht, ms, ctors, hentered he, hmem⟩
  · exact fun t ht s hs => known ((checkHeader_ok (hheaders t ht)).1 s hs)
  · exact fun t ht i hi => known ((checkHeader_ok (hheaders t ht)).2 i hi)
  · intro t ht s hs hreach
    have hnames {a b : String} (hab : Env.Names { env₂ with overrides } a b) : env₁.Names a b :=
      hback.names hab
    exact checkAcyclic_ok (hacyclic t ht) (h₁.headers t ht) (hnames hs) (reach_mono hnames hreach)
  · intro info hi
    rw [@checkHiding_congr env₂ { env₂ with overrides } rfl rfl]
    exact hfields info hi
  · intro info hi id hid m hm hs
    rw [@basesOf_congr env₂ { env₂ with overrides } rfl rfl]
    refine hnoted.complete m (List.mem_flatMap.mpr ⟨info, hi, ?_⟩) hs
    exact List.mem_filterMap.mpr ⟨id, hid, hm⟩

end Covenant.Env
