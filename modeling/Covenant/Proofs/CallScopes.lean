import Covenant.Proofs.CheckedProgram
import Mathlib.Data.List.Nodup

/-!
# The scopes of calls

A call that a body writes down has its receiver and its arguments from a scope
inside the body: the scope that the body starts with, and names that were
declared on the way. No declaration takes a name that already means something,
so parameters keep their meaning throughout.
-/

namespace Covenant.Typing

/-- A scope inside another one: some more names are declared. -/
structure Scope.Within (s s' : Scope) : Prop where
  env : s'.env = s.env
  className : s'.className = s.className
  decl : s'.decl = s.decl
  isStatic : s'.isStatic = s.isStatic
  clause : s'.clause = s.clause
  locals : ∀ name type, s.local? name = some type → s'.local? name = some type

theorem Scope.Within.refl (s : Scope) : s.Within s :=
  ⟨rfl, rfl, rfl, rfl, rfl, fun _ _ h => h⟩

theorem Scope.Within.trans {s₁ s₂ s₃ : Scope} (h : s₁.Within s₂) (h' : s₂.Within s₃) :
    s₁.Within s₃ :=
  ⟨h'.env.trans h.env, h'.className.trans h.className, h'.decl.trans h.decl,
    h'.isStatic.trans h.isStatic, h'.clause.trans h.clause,
    fun name type hl => h'.locals name type (h.locals name type hl)⟩

theorem Scope.local?_add (s : Scope) (name : String) (type : Ty) (n : String) :
    (s.add name type).local? n = if n = name then some type else s.local? n := by
  by_cases h : n = name
  · simp [local?, add, h]
  · have hb : (n == name) = false := by simpa using h
    simp [local?, add, List.lookup_cons, h, hb]

theorem Scope.Within.add {s : Scope} {name : String} (type : Ty) (h : s.local? name = none) :
    s.Within (s.add name type) := by
  refine ⟨rfl, rfl, rfl, rfl, rfl, fun n t hl => ?_⟩
  rw [local?_add]
  split
  · next heq => exact absurd (heq ▸ hl) (by simp [h])
  · exact hl

/-- Where the parts of a call come from. -/
structure CallOf (s : Scope) (c : CallSite) : Prop where
  caller : c.caller = s.decl
  parts : ∃ s', s.Within s' ∧
    (c.kind = .method → ∀ e, c.receiver = some e → ∃ e₀ ds, Elab s' e₀ e ds) ∧
    ∀ a ∈ c.args, ∃ a₀ ds, Elab s' a₀ a ds

theorem CallOf.within {s s' : Scope} {c : CallSite} (h : CallOf s' c) (hs : s.Within s') :
    CallOf s c := by
  obtain ⟨hc, s'', hw, hparts⟩ := h
  exact ⟨hc.trans hs.decl, s'', hs.trans hw, hparts⟩

theorem ElabAll.typed {s : Scope} {es : List Surface.Expr} {ts : List Typed.Expr}
    {cs : List CallSite} (h : ElabAll s es ts cs) : ∀ t ∈ ts, ∃ e ds, Elab s e t ds := by
  cases h with
  | nil => exact fun t ht => absurd ht List.not_mem_nil
  | cons he hes =>
      intro t ht
      rcases List.mem_cons.mp ht with rfl | ht
      · exact ⟨_, _, he⟩
      · exact ElabAll.typed hes t ht

theorem callOf_self {s : Scope} {site : SiteId} {callee : DeclId} {kind : CallKind}
    {receiver : Option Typed.Expr} {args : List Typed.Expr} {span : Span} {es : List Surface.Expr}
    {cs : List CallSite} (ha : ElabAll s es args cs)
    (hr : kind = .method → ∀ e, receiver = some e → ∃ e₀ ds, Elab s e₀ e ds) :
    CallOf s ⟨site, s.decl, callee, kind, receiver, args, span⟩ :=
  ⟨rfl, s, .refl s, hr, ha.typed⟩

mutual

theorem Elab.calls {s : Scope} {e : Surface.Expr} {t : Typed.Expr} {cs : List CallSite}
    (h : Elab s e t cs) : ∀ c ∈ cs, CallOf s c := by
  cases h with
  | int | bool | null | this | var | param | ownStatic | ownField | classField | result =>
      exact fun c hc => absurd hc List.not_mem_nil
  | binary hl hr => exact List.forall_mem_append.mpr ⟨Elab.calls hl, Elab.calls hr⟩
  | unary he | staticField he | field he | length he | newArray _ he | old he | spread he =>
      have ih := Elab.calls he
      exact ih
  | staticCall ha =>
      refine List.forall_mem_append.mpr ⟨ElabAll.calls ha, List.forall_mem_singleton.mpr ?_⟩
      exact callOf_self ha fun _ e he => absurd he (by simp)
  | ownCall ha _ _ hi =>
      refine List.forall_mem_append.mpr ⟨ElabAll.calls ha, List.forall_mem_singleton.mpr ?_⟩
      refine callOf_self ha fun _ e he => ?_
      cases he
      exact ⟨_, _, .this hi⟩
  | classCall _ ha =>
      refine List.forall_mem_append.mpr ⟨ElabAll.calls ha, List.forall_mem_singleton.mpr ?_⟩
      exact callOf_self ha fun _ e he => absurd he (by simp)
  | droppedCall ho _ ha =>
      refine List.forall_mem_append.mpr ⟨List.forall_mem_append.mpr
        ⟨Elab.calls ho, ElabAll.calls ha⟩, List.forall_mem_singleton.mpr ?_⟩
      exact callOf_self ha fun _ e he => absurd he (by simp)
  | methodCall ho _ ha =>
      refine List.forall_mem_append.mpr ⟨List.forall_mem_append.mpr
        ⟨Elab.calls ho, ElabAll.calls ha⟩, List.forall_mem_singleton.mpr ?_⟩
      refine callOf_self ha fun _ e he => ?_
      cases he
      exact ⟨_, _, ho⟩
  | new _ _ ha =>
      refine List.forall_mem_append.mpr ⟨ElabAll.calls ha, List.forall_mem_singleton.mpr ?_⟩
      exact callOf_self ha fun hk => absurd hk (by simp)
  | index ha _ hi => exact List.forall_mem_append.mpr ⟨Elab.calls ha, Elab.calls hi⟩

theorem ElabAll.calls {s : Scope} {es : List Surface.Expr} {ts : List Typed.Expr}
    {cs : List CallSite} (h : ElabAll s es ts cs) : ∀ c ∈ cs, CallOf s c := by
  cases h with
  | nil => exact fun c hc => absurd hc List.not_mem_nil
  | cons he hes => exact List.forall_mem_append.mpr ⟨Elab.calls he, ElabAll.calls hes⟩

end

mutual

theorem ElabStmt.calls {k : BodyKind} {s s' : Scope} {c : Surface.Stmt} {t : Typed.Stmt}
    {cs : List CallSite} (h : ElabStmt k s c t s' cs) :
    s.Within s' ∧ ∀ c ∈ cs, CallOf s c := by
  cases h with
  | declare _ hf => exact ⟨.add _ hf, fun c hc => absurd hc List.not_mem_nil⟩
  | declareInit _ hv _ hf => exact ⟨.add _ hf, hv.calls⟩
  | setVar hv ht | setField hv ht | setStatic hv ht | setIndex hv ht =>
      exact ⟨.refl s, List.forall_mem_append.mpr ⟨hv.calls, ht.calls⟩⟩
  | expr he => exact ⟨.refl s, he.calls⟩
  | branch hc _ ha hb =>
      exact ⟨.refl s, List.forall_mem_append.mpr ⟨List.forall_mem_append.mpr
        ⟨hc.calls, (ElabStmt.calls ha).2⟩, ElabElse.calls hb⟩⟩
  | loop hc _ hb =>
      exact ⟨.refl s, List.forall_mem_append.mpr ⟨hc.calls, (ElabStmt.calls hb).2⟩⟩
  | retVoid => exact ⟨.refl s, fun c hc => absurd hc List.not_mem_nil⟩
  | ret _ hv => exact ⟨.refl s, hv.calls⟩
  | throw hv => exact ⟨.refl s, hv.calls⟩
  | attempt hb hh hc =>
      exact ⟨.refl s, List.forall_mem_append.mpr ⟨List.forall_mem_append.mpr
        ⟨ElabStmts.calls hb, ElabHandlers.calls hh⟩, ElabCleanup.calls hc⟩⟩
  | block hb => exact ⟨.refl s, ElabStmts.calls hb⟩

theorem ElabElse.calls {k : BodyKind} {s : Scope} {c : Option Surface.Stmt}
    {t : Option Typed.Stmt} {cs : List CallSite} (h : ElabElse k s c t cs) :
    ∀ c ∈ cs, CallOf s c := by
  cases h with
  | none => exact fun c hc => absurd hc List.not_mem_nil
  | some hb => exact (ElabStmt.calls hb).2

theorem ElabStmts.calls {k : BodyKind} {s : Scope} {cs : List Surface.Stmt}
    {ts : List Typed.Stmt} {ds : List CallSite} (h : ElabStmts k s cs ts ds) :
    ∀ c ∈ ds, CallOf s c := by
  cases h with
  | nil => exact fun c hc => absurd hc List.not_mem_nil
  | cons hc hr =>
      obtain ⟨hw, hcalls⟩ := ElabStmt.calls hc
      exact List.forall_mem_append.mpr
        ⟨hcalls, fun c hc => (ElabStmts.calls hr c hc).within hw⟩

theorem ElabCleanup.calls {k : BodyKind} {s : Scope} {b : Option Surface.Block}
    {t : Option (List Typed.Stmt)} {cs : List CallSite} (h : ElabCleanup k s b t cs) :
    ∀ c ∈ cs, CallOf s c := by
  cases h with
  | none => exact fun c hc => absurd hc List.not_mem_nil
  | some hb => exact ElabStmts.calls hb

theorem ElabHandlers.calls {k : BodyKind} {s : Scope} {hs : List Surface.Handler}
    {ts : List Typed.Handler} {cs : List CallSite} (h : ElabHandlers k s hs ts cs) :
    ∀ c ∈ cs, CallOf s c := by
  cases h with
  | nil => exact fun c hc => absurd hc List.not_mem_nil
  | cons _ hf hb hr =>
      exact List.forall_mem_append.mpr
        ⟨fun c hc => (ElabStmts.calls hb c hc).within (.add _ hf), ElabHandlers.calls hr⟩

end

theorem ElabBody.calls {k : BodyKind} {s : Scope} {stmts : List Surface.Stmt}
    {ts : List Typed.Stmt} {cs : List CallSite} (h : ElabBody k s stmts ts cs) :
    ∀ c ∈ cs, CallOf s c := by
  cases h with
  | plain hs => exact hs.calls
  | super _ _ _ ha _ hr =>
      refine List.forall_mem_append.mpr ⟨List.forall_mem_append.mpr
        ⟨ha.calls, List.forall_mem_singleton.mpr ?_⟩, hr.calls⟩
      exact callOf_self ha fun hk => absurd hk (by simp)

/-! ## Members of a program -/

open Surface (Program TypeDecl Member)

theorem mem_membersOf {ts : List TypeDecl} {x : String × Member} :
    x ∈ membersOf ts ↔ ∃ t ∈ ts, ∃ m ∈ t.members, (t.name.val, m) = x := by
  simp only [membersOf, List.mem_flatMap, List.mem_map]

theorem nodup_memberIds {p : Program} (hp : p.WellFormed) :
    ((membersOf p.types).map (·.2.id)).Nodup := by
  have hsub : ∀ ts : List TypeDecl, ((membersOf ts).map (·.2.id)).Sublist
      (ts.flatMap TypeDecl.ids) := by
    intro ts
    induction ts with
    | nil => exact .slnil
    | cons t ts ih =>
        rw [membersOf, List.flatMap_cons, List.map_append, List.flatMap_cons, List.map_map]
        exact (List.sublist_cons_self _ _).append ih
  exact hp.ids.nodup.sublist (hsub p.types)

/-- Members of one number are one member of one type. -/
theorem member_unique {p : Program} (hp : p.WellFormed) {t t' : TypeDecl} (ht : t ∈ p.types)
    (ht' : t' ∈ p.types) {m m' : Member} (hm : m ∈ t.members) (hm' : m' ∈ t'.members)
    (hid : m.id = m'.id) : t.name.val = t'.name.val ∧ m = m' :=
  Prod.mk.inj (List.inj_on_of_nodup_map (nodup_memberIds hp)
    (mem_membersOf.mpr ⟨t, ht, m, hm, rfl⟩) (mem_membersOf.mpr ⟨t', ht', m', hm', rfl⟩) hid)

/-- A number that belongs to a method or constructor belongs to no other kind of member. -/
theorem decl_of_method {p : Program} {env : Env} (h : env.DeclaredBy p) {m : MethodInfo}
    (hm : env.method? m.id = some m) {t : TypeDecl} (ht : t ∈ p.types) {mem : Member}
    (hmem : mem ∈ t.members) (hid : mem.id = m.id) :
    ∃ d, mem = .constructor d ∨ mem = .method d := by
  have hlt : mem.id < p.declCount := (h.wellFormed.ids.bounds _ (List.mem_flatMap.mpr
    ⟨t, ht, List.mem_cons_of_mem _ (List.mem_map.mpr ⟨mem, hmem, rfl⟩)⟩)).2
  rw [hid] at hlt
  obtain ⟨_, ⟨x, _, i, he⟩ | ⟨t', ht', ms, ctors, he, hin⟩⟩ := h.method_cases m.id m hm
  · exact absurd hlt (Nat.not_lt.mpr he.fresh)
  · have hof := Env.membersOf he.members
    rcases List.mem_append.mp hin with hin | hin
    · obtain ⟨d, hd, hsig⟩ := hof.methods m hin
      exact ⟨d, .inr (member_unique h.wellFormed ht ht' hmem hd (hid.trans hsig.id)).2⟩
    · have hctors := he.constructors
      cases hctors with
      | declared =>
          obtain ⟨d, hd, hsig⟩ := hof.ctors m hin
          exact ⟨d, .inl (member_unique h.wellFormed ht ht' hmem hd (hid.trans hsig.id)).2⟩
      | default _ _ hfresh =>
          obtain rfl := List.mem_singleton.mp hin
          exact absurd hlt (Nat.not_lt.mpr hfresh)

/-- What the checker made of a member of a program. -/
structure Made (p : Program) (env : Env) (t : TypeDecl) (m : Member) (part : CheckedBodies) :
    Prop where
  type : t ∈ p.types
  member : m ∈ t.members
  rules : ∃ env₀ cs, env₀.DeclaredBy p ∧ env₀.SameDecls env ∧
    ElabMember env₀ t.name.val m part cs ∧ ∀ c ∈ cs, env.callSites.get? c.id = some c

section

variable {p : Program} (hp : p.WellFormed) {env : Env} (h : checkProgram p = .ok env) {id : DeclId}

include hp h

/-- A body was made of a member of the program, or it is the empty one of a constructor that no one
has written. -/
theorem body_cases {body : List Typed.Stmt} (hb : env.body? id = some body) :
    (p.declCount ≤ id ∧ body = []) ∨
      ∃ t m, m.id = id ∧ Made p env t m ⟨[(id, body)], []⟩ := by
  obtain ⟨env₀, parts, h₀, hparts, _, hn, rfl⟩ := checkProgram_elab hp h
  rcases Table.get?_insertAll_cases hb with hmem | hold
  · obtain ⟨⟨part, sites⟩, hpart, hmem⟩ := List.mem_flatMap.mp hmem
    obtain ⟨x, hx, hm⟩ := hparts.exists_member hpart
    obtain ⟨t, ht, m, hin, rfl⟩ := mem_membersOf.mp hx
    refine .inr ⟨t, m, (Env.bodies_of_member hm _ hmem).symm, ht, hin, env₀, sites,
      Env.declaredBy hp h₀, ⟨rfl, rfl, rfl⟩, ?_, fun c hc => ?_⟩
    · cases hm with
      | init | noInit | noBody => exact absurd hmem List.not_mem_nil
      | body hd hbody hi he hr =>
          cases List.mem_singleton.mp hmem
          exact .body hd hbody hi he hr
      | block he =>
          cases List.mem_singleton.mp hmem
          exact .block he
    · exact get?_siteTable hn.nodup (List.mem_flatMap.mpr ⟨_, hpart, hc⟩)
  · exact .inl (Env.body_of_declare h₀ hold)

/-- A first value was made of a field of the program. -/
theorem init_cases {init : Typed.Expr} (hi : env.fieldInits.get? id = some init) :
    ∃ t d, d.id = id ∧ Made p env t (.field d) ⟨[], [(id, init)]⟩ := by
  obtain ⟨env₀, parts, h₀, hparts, _, hn, rfl⟩ := checkProgram_elab hp h
  rcases Table.get?_insertAll_cases hi with hmem | hold
  · obtain ⟨⟨part, sites⟩, hpart, hmem⟩ := List.mem_flatMap.mp hmem
    obtain ⟨x, hx, hm⟩ := hparts.exists_member hpart
    obtain ⟨t, ht, m, hin, rfl⟩ := mem_membersOf.mp hx
    cases hm with
    | noInit | noBody | body | block => exact absurd hmem List.not_mem_nil
    | @init d _ _ _ _ hd hf he ha =>
        cases List.mem_singleton.mp hmem
        exact ⟨t, d, rfl, ht, hin, env₀, sites, Env.declaredBy hp h₀, ⟨rfl, rfl, rfl⟩,
          .init hd hf he ha, fun c hc =>
            get?_siteTable hn.nodup (List.mem_flatMap.mpr ⟨_, hpart, hc⟩)⟩
  · rw [Env.fieldInits_eq_empty h₀] at hold
    exact absurd hold (by simp)

end

section

variable {p : Program} (hp : p.WellFormed) {env : Env} (h : checkProgram p = .ok env) {c : CallSite}

include hp h

/-- The calls that are written down came with a member of the program. -/
theorem call_cases (hc : c ∈ env.callSites.values) : ∃ (t : TypeDecl) (m : Member)
    (part : CheckedBodies) (env₀ : Env) (cs : List CallSite), t ∈ p.types ∧ m ∈ t.members ∧
      env₀.DeclaredBy p ∧ env₀.SameDecls env ∧ ElabMember env₀ t.name.val m part cs ∧
      (∀ c ∈ cs, env.callSites.get? c.id = some c) ∧ c ∈ cs := by
  obtain ⟨env₀, parts, h₀, hparts, _, hn, rfl⟩ := checkProgram_elab hp h
  obtain ⟨⟨part, cs⟩, hpart, hc⟩ := List.mem_flatMap.mp ((mem_siteTable hn.nodup).mp hc)
  obtain ⟨x, hx, hel⟩ := hparts.exists_member hpart
  obtain ⟨t, ht, m, hin, rfl⟩ := mem_membersOf.mp hx
  exact ⟨t, m, part, env₀, cs, ht, hin, Env.declaredBy hp h₀, ⟨rfl, rfl, rfl⟩, hel,
    fun c hc => get?_siteTable hn.nodup (List.mem_flatMap.mpr ⟨_, hpart, hc⟩), hc⟩

variable {m : MethodInfo} (hm : env.method? m.id = some m) (hc : c ∈ env.callSitesOf m.id)

include hm hc

/-- The calls of a method or constructor were written down together with what is made of its
body. -/
theorem body_of_call : ∃ (env₀ : Env) (b : Surface.Block) (body : List Typed.Stmt)
    (cs : List CallSite), env₀.SameDecls env ∧ b.Lexical ∧
    (∀ c ∈ cs, env.callSites.get? c.id = some c) ∧ c ∈ cs ∧
    ElabBody ⟨m.isConstructor, m.returnType⟩ (.ofMethod env₀ m) b.stmts body cs := by
  obtain ⟨hc, hcaller⟩ := List.mem_filter.mp hc
  have hcaller : c.caller = m.id := by simpa using hcaller
  obtain ⟨t, mem, part, env₀, cs, ht, hin, h₀, hdecls, hel, hcs, hc⟩ := call_cases hp h hc
  -- Initializers have numbers of their own.
  have other (hid : mem.id = m.id) : ∃ d, mem = .constructor d ∨ mem = .method d :=
    decl_of_method (Env.declaredBy_of_check hp h) hm ht hin hid
  cases hel with
  | init _ _ he =>
      have hcall := he.calls c hc
      obtain ⟨d, hd | hd⟩ := other (hcall.caller.symm.trans hcaller) <;> cases hd
  | noInit | noBody => exact absurd hc List.not_mem_nil
  | @body _ d b info _ _ hd hb hi he =>
      have hcall := he.calls c hc
      have hkey : info.id = d.id := h₀.method_cases d.id info hi |>.1
      have hid : d.id = m.id := hkey.symm.trans (hcall.caller.symm.trans hcaller)
      have hm : env₀.method? m.id = some m := (hdecls.method? m.id).symm.trans hm
      rw [← hid, hi] at hm
      cases hm
      have hl : Surface.blockLexical d.body := by
        rcases hd with rfl | rfl
        · exact ((hp.types t ht).members _ hin).2
        · exact ((hp.types t ht).members _ hin).2
      rw [hb] at hl
      exact ⟨env₀, b, _, cs, hdecls, hl, hcs, hc, he⟩
  | block he =>
      have hcall := he.calls c hc
      obtain ⟨d, hd | hd⟩ := other (hcall.caller.symm.trans hcaller) <;> cases hd

/-- The calls of a method or constructor come from scopes inside its own. -/
theorem callOf_method : ∃ env₀, CallOf (.ofMethod env₀ m) c := by
  obtain ⟨env₀, _, _, _, _, _, _, hmem, he⟩ := body_of_call hp h hm hc
  exact ⟨env₀, he.calls c hmem⟩

end

end Covenant.Typing
