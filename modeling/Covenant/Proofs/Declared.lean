import Covenant.Env.Declare
import Covenant.Proofs.Tables

/-!
# How an environment comes about

Reading declarations is a chain of steps each of which may fail. What holds of
the empty environment and is kept by every step holds of the environment of any
program whose declarations are in order; `declare_induct` says so once, and the
facts that later modules need of tables of members are instances of it.
-/

namespace Covenant

/-! ## Steps that may fail -/

section

variable {ε α β : Type}

theorem bind_eq_ok {x : Except ε α} {f : α → Except ε β} {b : β} :
    (x >>= f) = .ok b ↔ ∃ a, x = .ok a ∧ f a = .ok b := by
  cases x with
  | error e =>
      constructor
      · intro h
        exact absurd h (by simp [bind, Except.bind])
      · rintro ⟨a, h, _⟩
        exact absurd h (by simp)
  | ok a =>
      constructor
      · intro h
        exact ⟨a, rfl, h⟩
      · rintro ⟨_, h, h'⟩
        cases h
        exact h'

theorem mapError_eq_ok {ε' : Type} {f : ε → ε'} {x : Except ε α} {a : α} :
    x.mapError f = .ok a ↔ x = .ok a := by
  cases x with
  | error e =>
      constructor
      · intro h
        cases h
      · intro h
        cases h
  | ok b =>
      show (Except.ok b : Except ε' α) = .ok a ↔ _
      rw [Except.ok.injEq, Except.ok.injEq]

theorem ok_of_toOption {x : Except ε α} {a : α} (h : x.toOption = some a) : x = .ok a := by
  cases x with
  | error e => cases h
  | ok b =>
      cases h
      rfl

/-- A step with a state that it hands on. -/
theorem stateT_bind {σ : Type} {x : StateT σ (Except ε) α} {f : α → StateT σ (Except ε) β}
    {s : σ} {r : β × σ} :
    (x >>= f) s = .ok r ↔ ∃ a s₁, x s = .ok (a, s₁) ∧ f a s₁ = .ok r := by
  show (x s >>= fun p => f p.1 p.2) = .ok r ↔ _
  rw [bind_eq_ok]
  constructor
  · rintro ⟨⟨a, s₁⟩, hx, hf⟩
    exact ⟨a, s₁, hx, hf⟩
  · rintro ⟨a, s₁, hx, hf⟩
    exact ⟨⟨a, s₁⟩, hx, hf⟩

/-- What every step of a fold keeps, the whole fold keeps. -/
theorem foldlM_induct {P : β → Prop} {f : β → α → Except ε β} {l : List α}
    (step : ∀ b, ∀ a ∈ l, ∀ b', P b → f b a = .ok b' → P b') {b b' : β}
    (hb : P b) (h : l.foldlM f b = .ok b') : P b' := by
  induction l generalizing b with
  | nil =>
      cases h
      exact hb
  | cons a l ih =>
      rw [List.foldlM_cons, bind_eq_ok] at h
      obtain ⟨b₁, h₁, h⟩ := h
      have hb₁ := step b a List.mem_cons_self b₁ hb h₁
      exact ih (fun b a ha => step b a (List.mem_cons_of_mem _ ha)) hb₁ h

/-- A check of every element that passes has passed on each of them. -/
theorem forM_ok {f : α → Except ε PUnit} {l : List α} (h : l.forM f = .ok ()) :
    ∀ a ∈ l, f a = .ok () := by
  induction l with
  | nil => exact fun a ha => absurd ha List.not_mem_nil
  | cons a l ih =>
      rw [List.forM_eq_forM, List.forM_cons, bind_eq_ok] at h
      obtain ⟨_, ha, h⟩ := h
      intro a' ha'
      rcases List.mem_cons.mp ha' with rfl | ha'
      · exact ha
      · exact ih h a' ha'

end

namespace Env

open Surface (Program TypeDecl)

/-- The information that a type starts with, before its members are read. -/
def headerOf (t : TypeDecl) : ClassInfo where
  id := t.id
  name := t.name.val
  isInterface := t.kind = .ofInterface
  isBuiltin := false
  superclass := t.superclass.map (·.val)
  interfaces := t.interfaces.map (·.val)
  fields := []
  methods := []
  ctors := []
  initOrder := []
  span := t.span

theorem addType_eq_ok {env env' : Env} {t : TypeDecl} (h : env.addType t = .ok env') :
    env.classes.contains t.name.val = false ∧
      env' = { env with
        typeDecls := env.typeDecls.insert t.id t.name.val
        classes := env.classes.insert t.name.val (headerOf t) } := by
  simp only [addType] at h
  cases hc : env.classes.contains t.name.val with
  | true =>
      simp only [hc, if_true] at h
      exact absurd h (by simp [typingFault, bind, Except.bind])
  | false =>
      simp only [hc, Bool.false_eq_true, if_false] at h
      cases h
      exact ⟨rfl, rfl⟩

/-- The constructors of a type and the environment in which its members are entered: a class that
declares no constructor has got an empty one. -/
def withConstructors (env : Env) (t : TypeDecl) (ms : MemberList) : Env × List MethodInfo :=
  if t.kind = .ofClass && ms.ctors.isEmpty then
    ({ env with nextDecl := env.nextDecl + 1, bodies := env.bodies.insert env.nextDecl [] },
      [emptyConstructor env.nextDecl t.name.val t.name.span])
  else (env, ms.ctors)

/-- The environment with the members of a type entered. -/
def enterMembers (env : Env) (t : TypeDecl) (info : ClassInfo) (ms : MemberList)
    (ctors : List MethodInfo) : Env :=
  { env with
    classes := env.classes.insert t.name.val { info with
      fields := ms.fields.map (·.id)
      methods := ms.methods.map (·.id)
      ctors := ctors.map (·.id)
      initOrder := ms.initOrder }
    fields := env.fields.insertAll (ms.fields.map fun f => (f.id, f))
    methods := env.methods.insertAll ((ms.methods ++ ctors).map fun m => (m.id, m))
    initBlocks := env.initBlocks.insertAll (ms.blocks.map fun id => (id, t.name.val)) }

theorem addMembers_eq_ok {env env' : Env} {t : TypeDecl} (h : env.addMembers t = .ok env') :
    ∃ ms, t.members.foldlM (env.addMember t.name.val) {} = .ok ms ∧
      (env.class? t.name.val = none ∧ env' = (env.withConstructors t ms).1 ∨
        ∃ info, env.class? t.name.val = some info ∧
          env' = (env.withConstructors t ms).1.enterMembers t info ms
            (env.withConstructors t ms).2) := by
  obtain ⟨ms, hms, h⟩ := bind_eq_ok.mp h
  refine ⟨ms, hms, ?_⟩
  have hclass : (env.withConstructors t ms).1.class? t.name.val = env.class? t.name.val := by
    rw [withConstructors]
    split <;> rfl
  rw [← hclass]
  cases hc : (env.withConstructors t ms).1.class? t.name.val with
  | none =>
      rw [withConstructors] at hc
      simp only [hc] at h
      cases h
      exact Or.inl ⟨rfl, rfl⟩
  | some info =>
      rw [withConstructors] at hc
      simp only [hc] at h
      cases h
      exact Or.inr ⟨info, rfl, rfl⟩

/-- What holds at first and is kept by every step holds of the whole environment. -/
theorem declare_induct {P : Env → Prop} {p : Program} {env : Env} (h : declare p = .ok env)
    (start : P (empty p.declCount))
    (exception : ∀ env name superclass, P env → P (env.addException name superclass))
    (type : ∀ env, ∀ t ∈ p.types, ∀ env', P env → env.addType t = .ok env' → P env')
    (members : ∀ env, ∀ t ∈ p.types, ∀ env', P env → env.addMembers t = .ok env' → P env')
    (overrides : ∀ env id m bases, P env → env.method? id = some m →
      env.basesOf m = .ok bases → P { env with overrides := env.overrides.insert m.id bases }) :
    P env := by
  obtain ⟨env₁, h₁, h⟩ := bind_eq_ok.mp h
  obtain ⟨env₂, h₂, h⟩ := bind_eq_ok.mp h
  obtain ⟨_, _, h⟩ := bind_eq_ok.mp h
  have builtins : P (empty p.declCount).addExceptions := by
    have (l : List (String × Option String)) (env : Env) (he : P env) :
        P (l.foldl (fun env x => env.addException x.1 x.2) env) := by
      induction l generalizing env with
      | nil => exact he
      | cons x l ih => exact ih _ (exception env x.1 x.2 he)
    exact this builtinExceptions _ start
  obtain ⟨env₀, h₀, h₁⟩ := bind_eq_ok.mp h₁
  obtain ⟨_, _, h₁⟩ := bind_eq_ok.mp h₁
  obtain ⟨_, _, h₁⟩ := bind_eq_ok.mp h₁
  cases h₁
  have types : P env₁ := foldlM_induct (fun env t ht env' => type env t ht env') builtins h₀
  have declared : P env₂ := foldlM_induct (fun env t ht env' => members env t ht env') types h₂
  refine foldlM_induct (fun env info _ env' he h' => ?_) declared h
  -- Noting overrides leaves the methods alone, so a method of the type stays one.
  have both : P env' ∧ env'.methods = env.methods := by
    refine foldlM_induct (P := fun e => P e ∧ e.methods = env.methods) ?_ ⟨he, rfl⟩ h'
    rintro e m hm e' ⟨he, hmethods⟩ h'
    obtain ⟨id, _, hid⟩ := List.mem_filterMap.mp hm
    have hid : e.method? id = some m := by
      rw [method?, hmethods]
      exact hid
    by_cases hs : m.isStatic
    · simp only [hs, if_true] at h'
      cases h'
      exact ⟨he, hmethods⟩
    · simp only [hs, Bool.false_eq_true, if_false] at h'
      obtain ⟨bases, hb, h'⟩ := bind_eq_ok.mp h'
      cases hempty : bases.isEmpty with
      | true =>
          simp only [hempty, if_true] at h'
          cases h'
          exact ⟨he, hmethods⟩
      | false =>
          simp only [hempty, Bool.false_eq_true, if_false] at h'
          cases h'
          exact ⟨overrides e id m bases he hid hb, hmethods⟩
  exact both.1

/-! ## The table of members -/

/-- The members of an environment are kept under their own numbers, each once. -/
structure MethodsKeyed (env : Env) : Prop where
  nodup : env.methods.keys.Nodup
  id_eq : ∀ {id m}, env.method? id = some m → m.id = id

theorem MethodsKeyed.insertAll {env : Env} (h : env.MethodsKeyed) {env' : Env}
    (ms : List MethodInfo)
    (he : env'.methods = env.methods.insertAll (ms.map fun m => (m.id, m))) :
    env'.MethodsKeyed where
  nodup := by
    rw [he]
    exact Table.nodup_keys_insertAll _ h.nodup
  id_eq := by
    intro id m hm
    rw [method?, he] at hm
    rcases Table.get?_insertAll_cases hm with hmem | hget
    · obtain ⟨m', _, heq⟩ := List.mem_map.mp hmem
      cases heq
      rfl
    · exact h.id_eq hget

theorem methodsKeyed {p : Program} {env : Env} (h : declare p = .ok env) :
    env.MethodsKeyed := by
  refine declare_induct h ?_ ?_ ?_ ?_ ?_
  · exact ⟨Table.nodup_keys_empty, fun hm => absurd hm (by simp [method?, empty])⟩
  · intro env name superclass he
    exact he.insertAll [emptyConstructor (env.nextDecl + 1) name (.point 0)] rfl
  · intro env t _ env' he h
    obtain ⟨_, rfl⟩ := addType_eq_ok h
    exact ⟨he.nodup, he.id_eq⟩
  · intro env t _ env' he h
    obtain ⟨ms, _, h⟩ := addMembers_eq_ok h
    have hm : (env.withConstructors t ms).1.methods = env.methods := by
      rw [withConstructors]
      split <;> rfl
    rcases h with ⟨_, rfl⟩ | ⟨info, _, rfl⟩
    · exact he.insertAll [] hm
    · refine he.insertAll (ms.methods ++ (env.withConstructors t ms).2) ?_
      rw [← hm]
      rfl
  · intro env id m bases he _ _
    exact ⟨he.nodup, he.id_eq⟩

/-- The only bodies that declaring puts in are those of constructors that no one has written. They
have new numbers. -/
theorem body_of_declare {p : Program} {env : Env} (h : declare p = .ok env) {id : DeclId}
    {body : List Typed.Stmt} (hb : env.body? id = some body) : p.declCount ≤ id ∧ body = [] := by
  suffices hall : p.declCount ≤ env.nextDecl ∧
      ∀ id body, env.body? id = some body → p.declCount ≤ id ∧ body = [] from hall.2 id body hb
  have insert {env env' : Env} {k : DeclId} (hk : p.declCount ≤ k)
      (he : env'.bodies = env.bodies.insert k [])
      (h : ∀ id body, env.body? id = some body → p.declCount ≤ id ∧ body = []) :
      ∀ id body, env'.body? id = some body → p.declCount ≤ id ∧ body = [] := by
    intro id body hb
    rw [body?, he] at hb
    rcases Table.get?_insert_cases hb with ⟨rfl, rfl⟩ | hb
    · exact ⟨hk, rfl⟩
    · exact h id body hb
  refine declare_induct (P := fun env => p.declCount ≤ env.nextDecl ∧
    ∀ id body, env.body? id = some body → p.declCount ≤ id ∧ body = []) h ?_ ?_ ?_ ?_ ?_
  · exact ⟨Nat.le_refl _, fun id body hb => absurd hb (by simp [body?, empty])⟩
  · intro env name superclass he
    exact ⟨Nat.le_add_right_of_le he.1, insert (Nat.le_succ_of_le he.1) rfl he.2⟩
  · intro env t _ env' he h
    obtain ⟨_, rfl⟩ := addType_eq_ok h
    exact he
  · intro env t _ env' he h
    obtain ⟨ms, _, h⟩ := addMembers_eq_ok h
    have hctors : p.declCount ≤ (env.withConstructors t ms).1.nextDecl ∧ ∀ id body,
        (env.withConstructors t ms).1.body? id = some body → p.declCount ≤ id ∧ body = [] := by
      rw [withConstructors]
      split
      · exact ⟨Nat.le_succ_of_le he.1, insert he.1 rfl he.2⟩
      · exact he
    rcases h with ⟨_, rfl⟩ | ⟨info, _, rfl⟩
    · exact hctors
    · exact hctors
  · intro env id m bases he _ _
    exact he

/-- Declaring puts in no first values. -/
theorem fieldInits_eq_empty {p : Program} {env : Env} (h : declare p = .ok env) :
    env.fieldInits = .empty := by
  refine declare_induct (P := fun env => env.fieldInits = .empty) h rfl
    (fun env name superclass he => he) ?_ ?_ fun env id m bases he _ _ => he
  · intro env t _ env' he h
    obtain ⟨_, rfl⟩ := addType_eq_ok h
    exact he
  · intro env t _ env' he h
    obtain ⟨ms, _, h⟩ := addMembers_eq_ok h
    have hctors : (env.withConstructors t ms).1.fieldInits = .empty := by
      rw [withConstructors]
      split <;> exact he
    rcases h with ⟨_, rfl⟩ | ⟨info, _, rfl⟩
    · exact hctors
    · exact hctors

/-! ## Members -/

/-- The field that a declaration in a class stands for. -/
def fieldOf (owner : String) (d : Surface.FieldDecl) (type : Ty) : FieldInfo :=
  { id := d.id, name := d.name.val, owner, type, isStatic := d.isStatic, span := d.name.span }

/-- What reading a member adds to the members of its type. -/
inductive Adds (env : Env) (owner : String) (ms : MemberList) : Surface.Member → MemberList → Prop
  | field {d type} (hn : ms.fields.any (·.name == d.name.val) = false)
      (ht : env.resolveType d.type = .ok type) :
      Adds env owner ms (.field d) { ms with
        fields := ms.fields ++ [fieldOf owner d type]
        initOrder := ms.initOrder ++ if !d.isStatic && d.init.isSome then [.field d.id] else [] }
  | constructor {d info} (hi : env.methodInfo owner d = .ok info)
      (hn : ms.ctors.any (·.sameSignature info) = false) :
      Adds env owner ms (.constructor d) { ms with ctors := ms.ctors ++ [info] }
  | method {d info} (hi : env.methodInfo owner d = .ok info)
      (hn : ms.methods.any (·.sameSignature info) = false)
      (hb : info.isStatic = true → info.hasBody = true) :
      Adds env owner ms (.method d) { ms with methods := ms.methods ++ [info] }
  | initializer {d} : Adds env owner ms (.initializer d) { ms with
        initOrder := ms.initOrder ++ [.block d.id]
        blocks := ms.blocks ++ [d.id] }

theorem not_typingFault {α β : Type} {fault : TypingFault} {span : Span} {f : α → Checked β}
    {b : β} : ¬ (typingFault fault span >>= f) = .ok b := by
  intro h
  obtain ⟨_, hfail, _⟩ := bind_eq_ok.mp h
  cases hfail

theorem addMember_adds {env : Env} {owner : String} {ms ms' : MemberList} {m : Surface.Member}
    (h : env.addMember owner ms m = .ok ms') : Adds env owner ms m ms' := by
  cases m with
  | field d =>
      simp only [addMember] at h
      cases hn : ms.fields.any (·.name == d.name.val) with
      | true =>
          simp only [hn, if_true] at h
          exact absurd h not_typingFault
      | false =>
          simp only [hn, Bool.false_eq_true, if_false] at h
          obtain ⟨type, ht, hend⟩ := bind_eq_ok.mp h
          cases hend
          exact .field hn ht
  | constructor d =>
      obtain ⟨info, hi, h₁⟩ := bind_eq_ok.mp h
      cases hn : ms.ctors.any (·.sameSignature info) with
      | true =>
          simp only [hn, if_true] at h₁
          exact absurd h₁ not_typingFault
      | false =>
          simp only [hn, Bool.false_eq_true, if_false] at h₁
          cases h₁
          exact .constructor hi hn
  | method d =>
      obtain ⟨info, hi, h₁⟩ := bind_eq_ok.mp h
      cases hn : ms.methods.any (·.sameSignature info) with
      | true =>
          simp only [hn, if_true] at h₁
          exact absurd h₁ not_typingFault
      | false =>
          simp only [hn, Bool.false_eq_true, if_false] at h₁
          cases hb : info.isStatic && !info.hasBody with
          | true =>
              simp only [hb, if_true] at h₁
              exact absurd h₁ not_typingFault
          | false =>
              simp only [hb, Bool.false_eq_true, if_false] at h₁
              cases h₁
              exact .method hi hn (fun hs => by simpa [hs] using hb)
  | initializer d =>
      cases h
      exact .initializer

/-- What holds of no members and is kept by every member holds of all members of a type. -/
theorem members_induct {env : Env} {owner : String} {P : MemberList → Prop}
    {ms : List Surface.Member} {list : MemberList}
    (h : ms.foldlM (env.addMember owner) {} = .ok list) (start : P {})
    (step : ∀ list, ∀ m ∈ ms, ∀ list', P list → Adds env owner list m list' → P list') : P list :=
  foldlM_induct (fun list m hm list' hl h => step list m hm list' hl (addMember_adds h)) start h

/-- The fields that were read in a type belong to it. -/
theorem owner_of_members {env : Env} {owner : String} {ms : List Surface.Member}
    {list : MemberList} (h : ms.foldlM (env.addMember owner) {} = .ok list) :
    ∀ f ∈ list.fields, f.owner = owner := by
  refine members_induct (P := fun list => ∀ f ∈ list.fields, f.owner = owner) h
    (fun f hf => absurd hf List.not_mem_nil) ?_
  intro list m _ list' hlist hm
  cases hm with
  | field =>
      intro f hf
      rcases List.mem_append.mp hf with hf | hf
      · exact hlist f hf
      · obtain rfl := List.mem_singleton.mp hf
        rfl
  | constructor | method | initializer => exact hlist

/-- Every field belongs to a type of the program; the built-in exceptions have none. -/
theorem owner_of_field {p : Program} {env : Env} (h : declare p = .ok env) :
    ∀ id f, env.field? id = some f → ∃ t ∈ p.types, f.owner = t.name.val := by
  refine declare_induct (P := fun env => ∀ id f, env.field? id = some f →
    ∃ t ∈ p.types, f.owner = t.name.val) h ?_ ?_ ?_ ?_ ?_
  · exact fun id f hf => absurd hf (by simp [field?, empty])
  · exact fun env name superclass he => he
  · intro env t _ env' he h
    obtain ⟨_, rfl⟩ := addType_eq_ok h
    exact he
  · intro env t ht env' he h
    obtain ⟨ms, hms, h⟩ := addMembers_eq_ok h
    have hf : (env.withConstructors t ms).1.fields = env.fields := by
      rw [withConstructors]
      split <;> rfl
    rcases h with ⟨_, rfl⟩ | ⟨info, _, rfl⟩
    · intro id f hget
      rw [field?, hf] at hget
      exact he id f hget
    · intro id f hget
      rw [field?, enterMembers, hf] at hget
      rcases Table.get?_insertAll_cases hget with hmem | hget
      · obtain ⟨_, hin, heq⟩ := List.mem_map.mp hmem
        cases heq
        exact ⟨t, ht, owner_of_members hms f hin⟩
      · exact he id f hget
  · exact fun env id m bases he _ _ => he

end Env

end Covenant
