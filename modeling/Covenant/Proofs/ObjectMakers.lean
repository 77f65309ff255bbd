import Covenant.Proofs.CheckedMembers
import Covenant.Proofs.CheckedScopes
import Covenant.Proofs.CountedArguments
import Covenant.Proofs.SoundBuilds
import Covenant.Proofs.SuperclassChains

/-!
# What makes objects

The code that makes the objects of a class stands in its constructors, in the first
values of its fields and in its initializer blocks. None of these declarations is a
method or a type, so whatever is called by its name, and whatever is checked of a
class, is something else. A constructor has its superclass part from a constructor of
the direct superclass: from the one that its first statement calls, or from the one
that takes nothing, which there is then. So the classes whose code makes an object are
those of the chain of superclasses, from one to the next.
-/

namespace Covenant

open Typed (Expr Stmt)
open Relation (ReflTransGen)

namespace Env

/-- A member that makes objects. -/
def Constructs (env : Env) (id : DeclId) : Prop :=
  ∃ m, env.method? id = some m ∧ m.isConstructor = true

/-- Whether a declaration has code that makes objects. -/
def builds (env : Env) (decl : DeclId) : Bool :=
  env.classes.entries.any fun e => (env.class? e.1).any fun info => info.ctors.contains decl ||
    info.initOrder.contains (.field decl) || info.initOrder.contains (.block decl)

theorem builds_eq_true {env : Env} {decl : DeclId} :
    env.builds decl = true ↔ ∃ name info, env.class? name = some info ∧
      (decl ∈ info.ctors ∨ .field decl ∈ info.initOrder ∨ .block decl ∈ info.initOrder) := by
  simp only [builds, List.any_eq_true, Option.any_eq_true, Bool.or_eq_true, List.contains_iff_mem,
    or_assoc]
  constructor
  · rintro ⟨e, _, info, hi, h⟩
    exact ⟨e.1, info, hi, h⟩
  · rintro ⟨name, info, hi, h⟩
    exact ⟨(name, info), Table.mem_of_get? hi, info, hi, h⟩

/-- Calls go to methods, whatever the class of the object is. -/
structure CallsMethods (env : Env) (P : DeclId → Task → Prop) : Prop where
  called : ∀ {decl span type site receiver method name args},
    P decl (.expr (.call span type site receiver method name args)) → ¬ env.Constructs method
  dispatched : ∀ {id} className, ¬ env.Constructs id → ¬ env.Constructs (env.dispatch className id)

/-! ## Numbers of types -/

/-- As far as it has been read, no type of a program has the number of a method. -/
structure TypesApart (p : Surface.Program) (env : Env) : Prop where
  next : p.declCount ≤ env.nextDecl
  method : ∀ id m, env.method? id = some m → id < env.nextDecl
  type : ∀ id name, env.typeDecls.get? id = some name → (∃ t ∈ p.types, t.id = id) ∨
    (p.declCount ≤ id ∧ id < env.nextDecl ∧ env.method? id = none)

section

variable {p : Surface.Program}

theorem member_lt (hp : p.WellFormed) {t : Surface.TypeDecl} (ht : t ∈ p.types)
    {m : Surface.Member} (hm : m ∈ t.members) : m.id < p.declCount :=
  (hp.ids.bounds _ (List.mem_flatMap.mpr
    ⟨t, ht, List.mem_cons_of_mem _ (List.mem_map.mpr ⟨m, hm, rfl⟩)⟩)).2

/-- A type and a member have different numbers. -/
theorem type_ne_member (hp : p.WellFormed) {t t' : Surface.TypeDecl} (ht : t ∈ p.types)
    (ht' : t' ∈ p.types) {m : Surface.Member} (hm : m ∈ t'.members) : t.id ≠ m.id := by
  intro heq
  have hnodup := (List.map_append_flatMap_perm p.types (·.id)
    fun t => t.members.map Surface.Member.id).nodup_iff.mpr hp.ids.nodup
  exact List.disjoint_of_nodup_append hnodup (List.mem_map.mpr ⟨t, ht, rfl⟩)
    (List.mem_flatMap.mpr ⟨t', ht', List.mem_map.mpr ⟨m, hm, heq.symm⟩⟩)

/-- The methods of a type have numbers of members, or new ones. -/
theorem id_of_entered (hp : p.WellFormed) {env : Env} {t : Surface.TypeDecl} (ht : t ∈ p.types)
    {ms : MemberList} (hms : t.members.foldlM (env.addMember t.name.val) {} = .ok ms)
    {m : MethodInfo} (hm : m ∈ ms.methods ++ (env.withConstructors t ms).2) :
    m.id < p.declCount ∨
      m.id = env.nextDecl ∧ (env.withConstructors t ms).1.nextDecl = env.nextDecl + 1 := by
  have hof := membersOf hms
  rcases List.mem_append.mp hm with hm | hm
  · obtain ⟨d, hd, hsig⟩ := hof.methods m hm
    exact .inl (hsig.id ▸ member_lt hp ht hd)
  · rw [withConstructors] at hm ⊢
    split at hm
    · obtain rfl := List.mem_singleton.mp hm
      exact .inr ⟨rfl, by rw [if_pos ‹_›]⟩
    · obtain ⟨d, hd, hsig⟩ := hof.ctors m hm
      exact .inl (hsig.id ▸ member_lt hp ht hd)

theorem typesApart (hp : p.WellFormed) {env : Env} (h : declare p = .ok env) :
    env.TypesApart p := by
  refine declare_induct h ?_ ?_ ?_ ?_ ?_
  · exact ⟨Nat.le_refl _, nofun, nofun⟩
  · intro env name superclass he
    refine ⟨Nat.le_add_right_of_le he.next, fun id m hm => ?_, fun id name' hid => ?_⟩
    · rcases Table.get?_insert_cases hm with ⟨rfl, _⟩ | hm
      · exact Nat.lt_succ_self _
      · exact Nat.lt_add_right 2 (he.method id m hm)
    · have hnew : env.method? env.nextDecl = none :=
        Option.eq_none_iff_forall_ne_some.mpr fun m hm => Nat.lt_irrefl _ (he.method _ m hm)
      have old {id : DeclId} (hlt : id ≠ env.nextDecl + 1) (hnone : env.method? id = none) :
          (env.addException name superclass).method? id = none := by
        refine Option.eq_none_iff_forall_ne_some.mpr fun m hm => ?_
        rcases Table.get?_insert_cases hm with ⟨rfl, _⟩ | hm
        · exact hlt rfl
        · exact absurd (hnone.symm.trans hm) (by simp)
      rcases Table.get?_insert_cases hid with ⟨rfl, _⟩ | hid
      · exact .inr ⟨he.next, Nat.lt_add_of_pos_right (by decide), old (by simp) hnew⟩
      · refine (he.type id name' hid).imp_right fun ⟨hle, hlt, hnone⟩ => ?_
        exact ⟨hle, Nat.lt_add_right 2 hlt, old (Nat.lt_succ_of_lt hlt).ne hnone⟩
  · intro env t ht env' he h
    obtain ⟨_, rfl⟩ := addType_eq_ok h
    refine ⟨he.next, he.method, fun id name hid => ?_⟩
    rcases Table.get?_insert_cases hid with ⟨rfl, _⟩ | hid
    · exact .inl ⟨t, ht, rfl⟩
    · exact he.type id name hid
  · intro env t ht env' he h
    obtain ⟨ms, hms, h⟩ := addMembers_eq_ok h
    have hctors : (env.withConstructors t ms).1.methods = env.methods ∧
        (env.withConstructors t ms).1.typeDecls = env.typeDecls ∧
        env.nextDecl ≤ (env.withConstructors t ms).1.nextDecl := by
      rw [withConstructors]
      split
      · exact ⟨rfl, rfl, Nat.le_succ _⟩
      · exact ⟨rfl, rfl, Nat.le_refl _⟩
    obtain ⟨hmethods, htypes, hnext⟩ := hctors
    have kept : (env.withConstructors t ms).1.TypesApart p := by
      refine ⟨Nat.le_trans he.next hnext, fun id m hm => ?_, fun id name hid => ?_⟩
      · rw [method?, hmethods] at hm
        exact Nat.lt_of_lt_of_le (he.method id m hm) hnext
      · rw [htypes] at hid
        refine (he.type id name hid).imp_right fun ⟨hle, hlt, hnone⟩ => ?_
        exact ⟨hle, Nat.lt_of_lt_of_le hlt hnext, by rwa [method?, hmethods]⟩
    rcases h with ⟨_, rfl⟩ | ⟨info, _, rfl⟩
    · exact kept
    · have entered {id : DeclId} {m : MethodInfo} (hm : (id, m) ∈ (ms.methods ++
          (env.withConstructors t ms).2).map fun m => (m.id, m)) :
          id < p.declCount ∨ id = env.nextDecl ∧
            (env.withConstructors t ms).1.nextDecl = env.nextDecl + 1 := by
        obtain ⟨m', hm', heq⟩ := List.mem_map.mp hm
        obtain ⟨rfl, rfl⟩ := Prod.mk.inj heq
        exact id_of_entered hp ht hms hm'
      refine ⟨kept.next, fun id m hm => ?_, fun id name hid => ?_⟩
      · show id < (env.withConstructors t ms).1.nextDecl
        rcases Table.get?_insertAll_cases hm with hm | hm
        · rcases entered hm with hlt | ⟨rfl, heq⟩
          · exact Nat.lt_of_lt_of_le hlt kept.next
          · exact heq ▸ Nat.lt_succ_self _
        · exact kept.method id m hm
      · have hid : env.typeDecls.get? id = some name := htypes ▸ hid
        refine (he.type id name hid).imp_right fun ⟨hle, hlt, hnone⟩ => ?_
        refine ⟨hle, Nat.lt_of_lt_of_le hlt hnext, ?_⟩
        refine Option.eq_none_iff_forall_ne_some.mpr fun m hm => ?_
        rcases Table.get?_insertAll_cases hm with hm | hm
        · rcases entered hm with hlt' | ⟨rfl, _⟩
          · exact absurd hlt' (Nat.not_lt.mpr hle)
          · exact Nat.lt_irrefl _ hlt
        · rw [hmethods] at hm
          exact absurd (hnone.symm.trans hm) (by simp)
  · intro env id m bases he _ _
    exact ⟨he.next, he.method, he.type⟩

end

/-! ## What makes objects is no method -/

namespace DeclaredBy

variable {p : Surface.Program} {env : Env} (h : env.DeclaredBy p)

include h

/-- The initializers of a class are members of a type of the program. -/
theorem member_of_item {name : String} {info : ClassInfo} (hi : env.class? name = some info)
    {item : InitItem} (hitem : item ∈ info.initOrder) : ∃ t ∈ p.types, t.name.val = name ∧
      ((∃ d, .field d ∈ t.members ∧ d.init.isSome = true ∧ item = .field d.id) ∨
        ∃ d, .initializer d ∈ t.members ∧ item = .block d.id) := by
  rcases h.info_cases hi with ⟨x, _, i, ctor, he, rfl, rfl⟩ | ⟨t, ht, ms, ctors, he, rfl, rfl⟩
  · exact absurd hitem List.not_mem_nil
  · refine ⟨t, ht, rfl, ?_⟩
    rcases (membersOf he.members).items item hitem with ⟨d, hd, _, hinit, rfl⟩ | ⟨d, hd, rfl⟩
    · exact .inl ⟨d, hd, hinit, rfl⟩
    · exact .inr ⟨d, hd, rfl⟩

/-- A method or constructor has the number of a member, or one that no declaration of the program
has. -/
theorem number_of_method {id : DeclId} {m : MethodInfo} (hm : env.method? id = some m) :
    (∃ t ∈ p.types, ∃ mem ∈ t.members, mem.id = id) ∨ p.declCount ≤ id := by
  obtain ⟨rfl, ⟨x, _, i, he⟩ | ⟨t, ht, ms, ctors, he, hin⟩⟩ := h.method_cases id m hm
  · exact .inr he.fresh
  · have hof := membersOf he.members
    rcases List.mem_append.mp hin with hin | hin
    · obtain ⟨d, hd, hsig⟩ := hof.methods m hin
      exact .inl ⟨t, ht, _, hd, hsig.id.symm⟩
    · cases he.constructors with
      | declared =>
          obtain ⟨d, hd, hsig⟩ := hof.ctors m hin
          exact .inl ⟨t, ht, _, hd, hsig.id.symm⟩
      | default _ _ hfresh =>
          obtain rfl := List.mem_singleton.mp hin
          exact .inr hfresh

/-- What has code that makes objects is a constructor, or another member of the program. -/
theorem builds_cases {decl : DeclId} (hb : env.builds decl = true) : env.Constructs decl ∨
    ∃ t ∈ p.types, ∃ m ∈ t.members, m.id = decl ∧
      ((∃ d, m = .field d) ∨ ∃ d, m = .initializer d) := by
  obtain ⟨name, info, hi, hb⟩ := builds_eq_true.mp hb
  rcases hb with hctor | hitem | hitem
  · obtain ⟨m, hm, _, hc, _⟩ := h.constructor_of_type hi hctor
    exact .inl ⟨m, hm, hc⟩
  · obtain ⟨t, ht, _, ⟨d, hd, _, heq⟩ | ⟨d, hd, heq⟩⟩ := h.member_of_item hi hitem
    · exact .inr ⟨t, ht, _, hd, (InitItem.field.inj heq).symm, .inl ⟨d, rfl⟩⟩
    · cases heq
  · obtain ⟨t, ht, _, ⟨d, hd, _, heq⟩ | ⟨d, hd, heq⟩⟩ := h.member_of_item hi hitem
    · cases heq
    · exact .inr ⟨t, ht, _, hd, (InitItem.block.inj heq).symm, .inr ⟨d, rfl⟩⟩

theorem builds_of_constructor {id : DeclId} (hc : env.Constructs id) : env.builds id = true := by
  obtain ⟨m, hm, hc⟩ := hc
  obtain ⟨info, hi, hid⟩ := h.type_of_constructor hm hc
  exact builds_eq_true.mpr ⟨m.owner, info, hi, .inl hid⟩

theorem builds_of_method {m : MethodInfo} (hm : env.method? m.id = some m)
    (hc : m.isConstructor = false) : env.builds m.id = false := by
  rw [← Bool.not_eq_true]
  intro hb
  rcases h.builds_cases hb with ⟨m', hm', hc'⟩ | ⟨t, ht, mem, hmem, hid, hkind⟩
  · obtain rfl := Option.some.inj (hm.symm.trans hm')
    exact absurd (hc.symm.trans hc') (by simp)
  · obtain ⟨d, hd⟩ := Typing.decl_of_method h hm ht hmem hid
    rcases hd with rfl | rfl <;> rcases hkind with ⟨_, hkind⟩ | ⟨_, hkind⟩ <;> cases hkind

/-- What is called in place of a method is one. -/
theorem not_constructs_dispatch {id : DeclId} (className : String) (hid : ¬ env.Constructs id) :
    ¬ env.Constructs (env.dispatch className id) := by
  rw [dispatch]
  split
  · exact hid
  · split
    · exact hid
    · cases hfind : List.find? _ _ with
      | none => exact hid
      | some d =>
          obtain ⟨id', hmem, hget⟩ := List.mem_filterMap.mp (List.mem_of_find?_eq_some hfind)
          obtain ⟨info, hinfo, hmem⟩ := List.mem_flatMap.mp hmem
          obtain ⟨b, hb, _⟩ := mem_classChain.mp hinfo
          obtain ⟨m, hm, _, hc, _⟩ := h.method_of_type hb hmem
          obtain rfl := Option.some.inj (hget.symm.trans hm)
          obtain rfl := h.method_id hm
          rintro ⟨m', hm', hc'⟩
          obtain rfl := Option.some.inj (hm.symm.trans hm')
          exact absurd (hc.symm.trans hc') (by simp)

theorem not_constructs_accessor {className name : String} {m : MethodInfo}
    (hm : m ∈ env.lookupMethods className name) : ¬ env.Constructs m.id := by
  obtain ⟨hget, hc, _⟩ := h.mem_lookupMethods.mp hm
  rintro ⟨m', hm', hc'⟩
  obtain rfl := Option.some.inj (hget.symm.trans hm')
  exact absurd (hc.symm.trans hc') (by simp)

end DeclaredBy

end Env

theorem Env.type_of_kind {env : Env} {id : DeclId} (h : env.declKind? id = some .ofClass) :
    ∃ name, env.typeDecls.get? id = some name := by
  rw [declKind?] at h
  split at h
  · next name ht => exact ⟨name, ht⟩
  · split at h
    · split at h <;> cases h
    · repeat' split at h
      all_goals cases h

/-- An invariant is written on a type. -/
theorem Contract.type_of_condition {env : Env} {k : SiteId} {r : ClauseRecord} {c : BoundClause}
    (htag : r.tag = .invariant) (h : ConditionOf env k r c) :
    ∃ name, env.typeDecls.get? r.owner = some name := by
  cases h with
  | mk hs =>
      simp only [scopeOf, htag] at hs
      cases hk : env.declKind? r.owner with
      | none => simp [hk, clauseFault] at hs
      | some kind =>
          cases kind <;> simp [hk, clauseFault] at hs
          exact Env.type_of_kind hk

section

variable {p : Surface.Program} (hp : p.WellFormed) {env : Env}
  (h : Typing.checkProgram p = .ok env)

include hp h

/-- A type has no code of its own. -/
theorem builds_of_type {id : DeclId} {name : String} (ht : env.typeDecls.get? id = some name) :
    env.builds id = false := by
  have hd := Env.declaredBy_of_check hp h
  obtain ⟨env₀, parts, h₀, _, _, _, rfl⟩ := Typing.checkProgram_elab hp h
  rw [← Bool.not_eq_true]
  intro hb
  rcases (Env.typesApart hp h₀).type id name ht with ⟨t, hin, rfl⟩ | ⟨hle, _, hnone⟩
  · rcases hd.builds_cases hb with ⟨m, hm, _⟩ | ⟨t', ht', mem, hmem, hid, _⟩
    · rcases hd.number_of_method hm with ⟨t', ht', mem, hmem, hid⟩ | hle
      · exact Env.type_ne_member hp hin ht' hmem hid.symm
      · exact Nat.not_lt.mpr hle
          (hp.ids.bounds _ (List.mem_flatMap.mpr ⟨t, hin, List.mem_cons_self⟩)).2
    · exact Env.type_ne_member hp hin ht' hmem hid.symm
  · rcases hd.builds_cases hb with ⟨m, hm, _⟩ | ⟨t', ht', mem, hmem, rfl, _⟩
    · exact absurd (hnone.symm.trans hm) (by simp)
    · exact absurd (Env.member_lt hp ht' hmem) (Nat.not_lt.mpr hle)

end

/-! ## Parts of objects -/

/-- What a member runs on a new object of its class. -/
def Surface.Member.initItems : Surface.Member → List InitItem
  | .field d => if !d.isStatic && d.init.isSome then [.field d.id] else []
  | .initializer d => [.block d.id]
  | .constructor _ | .method _ => []

/-- What is run on a new object stands in the order of the members. -/
theorem Env.initOrder_of_members {env : Env} {owner : String} {members : List Surface.Member}
    {ms : MemberList} (h : members.foldlM (env.addMember owner) {} = .ok ms) :
    ms.initOrder = members.flatMap Surface.Member.initItems := by
  refine foldlM_stages
    (P := fun done _ list => list.initOrder = done.flatMap Surface.Member.initItems) ?_ rfl h
  intro done m todo list list' _ hlist hm
  rw [List.flatMap_append, List.flatMap_singleton, ← hlist]
  cases addMember_adds hm with
  | field | initializer => rfl
  | constructor | method => exact (List.append_nil _).symm

theorem Env.DeclaredBy.initOrder_of_type {env : Env} {p : Surface.Program} (h : env.DeclaredBy p)
    {t : Surface.TypeDecl} (ht : t ∈ p.types) : ∃ info, env.class? t.name.val = some info ∧
      info.initOrder = t.members.flatMap Surface.Member.initItems := by
  obtain ⟨ms, ctors, he⟩ := h.types t ht
  exact ⟨_, he.info, initOrder_of_members he.members⟩

/-- Where the part of an object comes from that belongs to the superclass: there is no superclass,
or the constructor calls one of it first, or the one that takes nothing is run. -/
inductive SuperPart (env : Env) (info : ClassInfo) : List Stmt → Prop
  | root {body} (plain : ∀ span site id args rest, body ≠ .superCall span site id args :: rest)
      (superclass : info.superclass = none) : SuperPart env info body
  | explicit {span site ctor args rest s d} (superclass : info.superclass = some s)
      (method : env.method? ctor = some d) (owner : d.owner = s)
      (constructor : d.isConstructor = true) :
      SuperPart env info (.superCall span site ctor args :: rest)
  | implicit {body s d} (plain : ∀ span site id args rest, body ≠ .superCall span site id args :: rest)
      (superclass : info.superclass = some s) (default : env.defaultConstructor? s = some d) :
      SuperPart env info body

theorem SuperPart.default_of_plain {env : Env} {info : ClassInfo} {body : List Stmt}
    (h : SuperPart env info body) {name : String} (hi : env.class? name = some info)
    (hplain : ∀ span site id args rest, body ≠ .superCall span site id args :: rest) (s : String)
    (hs : (env.class? name).bind (·.superclass) = some s) :
    ∃ d, env.defaultConstructor? s = some d := by
  rw [hi] at hs
  cases h with
  | root _ hnone => exact absurd (hnone.symm.trans hs) (by simp)
  | explicit => exact absurd rfl (hplain _ _ _ _ _)
  | implicit _ hsuper hd => exact Option.some.inj (hsuper.symm.trans hs) ▸ ⟨_, hd⟩

namespace Typing

section

variable {p : Surface.Program} (hp : p.WellFormed) {env : Env} (h : checkProgram p = .ok env)

include hp h

/-- No constructor is without one of the superclass. -/
theorem superPart_of_constructor {m : MethodInfo} (hm : env.method? m.id = some m)
    (hc : m.isConstructor = true) {info : ClassInfo} (hi : env.class? m.owner = some info) :
    SuperPart env info ((env.body? m.id).getD []) := by
  have plain (hplain : ∀ span site id args rest,
      (env.body? m.id).getD [] ≠ .superCall span site id args :: rest) :
      SuperPart env info ((env.body? m.id).getD []) := by
    cases hs : info.superclass with
    | none => exact .root hplain hs
    | some s =>
        have hdefault := default_of_plain hp h hm hc hplain (s := s) (by rw [hi]; exact hs)
        obtain ⟨d, hd⟩ := Option.isSome_iff_exists.mp hdefault
        exact .implicit hplain hs hd
  cases hb : env.body? m.id with
  | none => exact hb ▸ plain (hb ▸ nofun)
  | some body =>
      rcases method_checks hp h hm hb with rfl | ⟨env₀, u, cs, h₀, hdecls, he, _⟩
      · exact hb ▸ plain (hb ▸ nofun)
      · cases he with
        | plain he =>
            refine hb ▸ plain (hb ▸ ?_)
            rintro span site id args rest rfl
            cases he with
            | cons hfirst => cases hfirst
        | super _ hclass hsuper _ hsel =>
            obtain ⟨hget, howner, hctor, _⟩ := h₀.mem_constructors (selectOverload?_ok hsel).1
            obtain rfl := Option.some.inj (hi.symm.trans ((hdecls.class? m.owner).trans hclass))
            exact .explicit hsuper ((hdecls.method? _).trans hget) howner hctor

/-- A field that is initialized has a first value. -/
theorem init_of_item {name : String} {info : ClassInfo} (hi : env.class? name = some info)
    {id : DeclId} (hitem : .field id ∈ info.initOrder) :
    ∃ f init, env.field? id = some f ∧ env.fieldInits.get? id = some init := by
  have hd := Env.declaredBy_of_check hp h
  rcases hd.item_of_type hi hitem with ⟨f, hf, _, _, heq⟩ | ⟨_, _, _, _, _, heq⟩
  · cases heq
    obtain ⟨t, ht, _, ⟨d, hmem, hinit, heq⟩ | ⟨_, _, heq⟩⟩ := hd.member_of_item hi hitem
    · obtain ⟨e, he⟩ := Option.isSome_iff_exists.mp hinit
      obtain ⟨_, v, _, _, hv⟩ := init_of_member hp h ht hmem (e := e) he
      exact ⟨f, v, hf, InitItem.field.inj heq ▸ hv⟩
    · cases heq
  · cases heq

/-- An initializer block has a body. -/
theorem body_of_item {name : String} {info : ClassInfo} (hi : env.class? name = some info)
    {id : DeclId} (hitem : .block id ∈ info.initOrder) : ∃ body, env.body? id = some body := by
  obtain ⟨t, ht, _, ⟨_, _, _, heq⟩ | ⟨d, hmem, heq⟩⟩ :=
    (Env.declaredBy_of_check hp h).member_of_item hi hitem
  · cases heq
  · obtain ⟨_, _, ts, _, _, hts⟩ := body_of_member hp h ht hmem (b := d.body) rfl
    exact ⟨ts, InitItem.block.inj heq ▸ hts⟩

end

end Typing

section

variable {source : String} {checks : Checks} {b : Build} (h : build source checks = .ok b)

include h

open Contract

/-- An expression of a body fits as it was elaborated; one of a clause fits a context. -/
theorem callsMethods_of_build : b.program.env.CallsMethods b.program.Places where
  called {decl _ _ _ _ method _ _} he := by
    obtain ⟨p, hp, hcheck⟩ := checkProgram_of_build h
    have called {m : MethodInfo} (hm : b.program.env.method? method = some m)
        (hc : m.isConstructor = false) : ¬ b.program.env.Constructs method := by
      rintro ⟨m', hm', hc'⟩
      obtain rfl := Option.some.inj (hm.symm.trans hm')
      exact absurd (hc.symm.trans hc') (by simp)
    rcases he with he | ⟨x, hx, he⟩
    · obtain ⟨m, hm, _, hc, _⟩ := Typing.method_of_part hp hcheck he
      exact called hm hc
    · obtain ⟨Γ, hfits⟩ := fits_of_evaluates h hx
      obtain ⟨Δ, _, m, hm⟩ := hfits.parts _ he
      exact called hm.method hm.isMethod
  dispatched className hid := by
    obtain ⟨p, hd⟩ := declaredBy_of_build h
    exact hd.not_constructs_dispatch className hid

/-- A creation runs a constructor of the class that it names. -/
theorem constructor_of_places {decl : DeclId} {span : Span} {site : SiteId} {className : String}
    {ctor : DeclId} {args : List Expr}
    (he : b.program.Places decl (.expr (.new span site className ctor args))) :
    ∃ m, b.program.env.method? ctor = some m ∧ m.owner = className ∧ m.isConstructor = true := by
  obtain ⟨p, hp, hcheck⟩ := checkProgram_of_build h
  rcases he with he | ⟨x, hx, he⟩
  · exact Typing.constructor_of_part hp hcheck he
  · obtain ⟨Γ, hfits⟩ := fits_of_evaluates h hx
    obtain ⟨Δ, _, m, hm⟩ := hfits.parts _ he
    exact ⟨m, hm.method, hm.owner, hm.isConstructor⟩

/-- Invariants are written on types. -/
theorem builds_of_obligation {decl : DeclId} {site : SiteId} {o : Obligation}
    (ho : o ∈ (b.program.codesAt decl (.afterCall site)).flatMap CheckCode.obligations) :
    b.program.env.builds o.clause.origin = false := by
  obtain ⟨p, _, hp, _⟩ := build_eq_ok h
  obtain ⟨hcheck, _, hprogram⟩ := analysis_of_build h hp
  obtain ⟨code, hcode, ho⟩ := List.mem_flatMap.mp ho
  obtain ⟨c, hplaced, rfl⟩ := List.mem_map.mp hcode
  have hplaced := (List.mem_filter.mp hplaced).1
  rw [hprogram] at hplaced
  rcases mem_weave hplaced with ⟨s, _, hcode⟩ | ⟨site, _, rfl⟩
  · -- The checks of a member are of other forms.
    generalize hx : (c.point, c.code) = x at hcode
    rcases mem_memberCodes hcode with ⟨_, _, _, rfl⟩ | rfl | ⟨_, rfl⟩ | rfl | rfl
    all_goals
      rw [(Prod.mk.inj hx).2] at ho
      exact absurd ho List.not_mem_nil
  · obtain ⟨_, hc⟩ := invariant_of_siteObligation h ho
    obtain ⟨_, cs, hget, hmem⟩ := Effect.mem_classInvariants hc
    obtain ⟨r, htag, _, hcondition⟩ := invariantsOf_of_build h hp hget _ hmem
    obtain ⟨name, hname⟩ := type_of_condition htag hcondition
    exact builds_of_type (Parse.program_wellFormed hp) hcheck (hcondition.origin ▸ hname)

/-- At its entry a constructor stores values first, and checks its precondition then. -/
theorem entry_of_constructor {m : MethodInfo} (hm : b.program.env.method? m.id = some m)
    (hc : m.isConstructor = true) : ∃ stored pre,
      b.program.codesAt m.id .entry = stored ++ pre ∧
      (∀ code ∈ stored, ∃ s, code = .snapshot s) ∧
      ∀ code ∈ pre, ∃ groups, code = .precondition groups := by
  have only {cond : Bool} {code code' : CheckCode} (hmem : code ∈ listIf cond code') :
      code = code' := by
    cases cond with
    | true => exact List.mem_singleton.mp hmem
    | false => exact absurd hmem List.not_mem_nil
  rw [codesAt_of_build h m.id (by simp)]
  cases b.plan.specs.get? m.id with
  | none => exact ⟨[], [], rfl, List.forall_mem_nil _, List.forall_mem_nil _⟩
  | some s =>
      rw [Option.elim, memberCodes_entry, hm, Option.any_some, hc]
      refine ⟨_, _, rfl, fun code hcode => ?_, fun code hcode => ⟨_, only hcode⟩⟩
      split at hcode
      · exact ⟨_, only hcode⟩
      · exact absurd hcode List.not_mem_nil

/-- What the making of objects relies on in a program. -/
structure WovenProgram.Constructive (p : WovenProgram) (src : Surface.Program) : Prop where
  declared : p.env.DeclaredBy src
  methods : p.env.CallsMethods p.Places
  obligations : ∀ {decl site o},
    o ∈ (p.codesAt decl (.afterCall site)).flatMap CheckCode.obligations →
      p.env.builds o.clause.origin = false
  creations : ∀ {decl span site className ctor args},
    p.Places decl (.expr (.new span site className ctor args)) →
      ∃ m, p.env.method? ctor = some m ∧ m.owner = className ∧ m.isConstructor = true
  entries : ∀ {m}, p.env.method? m.id = some m → m.isConstructor = true → ∃ stored pre,
    p.codesAt m.id .entry = stored ++ pre ∧ (∀ code ∈ stored, ∃ s, code = .snapshot s) ∧
      ∀ code ∈ pre, ∃ groups, code = .precondition groups
  supers : ∀ {m info}, p.env.method? m.id = some m → m.isConstructor = true →
    p.env.class? m.owner = some info → SuperPart p.env info ((p.env.body? m.id).getD [])
  inits : ∀ {name info id}, p.env.class? name = some info → .field id ∈ info.initOrder →
    ∃ f init, p.env.field? id = some f ∧ p.env.fieldInits.get? id = some init
  blocks : ∀ {name info id}, p.env.class? name = some info → .block id ∈ info.initOrder →
    ∃ body, p.env.body? id = some body

theorem constructive_of_build : ∃ src, b.program.Constructive src := by
  obtain ⟨src, hp, hcheck⟩ := checkProgram_of_build h
  exact ⟨src, Env.declaredBy_of_check hp hcheck, callsMethods_of_build h,
    builds_of_obligation h, constructor_of_places h, entry_of_constructor h,
    fun hm hc hi => Typing.superPart_of_constructor hp hcheck hm hc hi,
    fun hi => Typing.init_of_item hp hcheck hi, fun hi => Typing.body_of_item hp hcheck hi⟩

end

end Covenant
