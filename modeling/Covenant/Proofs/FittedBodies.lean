import Covenant.Proofs.FittedTerms
import Covenant.Proofs.SoundMembers

/-!
# Checked bodies fit

What the checker makes of the statements of a body fits the context that the scope of
the body stands for, and so do the bodies and first values of a whole program that is
checked. So the bodies of a checked program can be run without getting stuck, as far
as its methods agree on what they return.
-/

namespace Covenant

/-- A method was written in the program; only constructors can be missing there. -/
theorem Env.DeclaredBy.lt_of_method {env : Env} {p : Surface.Program} (h : env.DeclaredBy p)
    {m : MethodInfo} (hm : env.method? m.id = some m) (hc : m.isConstructor = false) :
    m.id < p.declCount := by
  obtain ⟨_, ⟨x, _, i, he⟩ | ⟨t, ht, ms, ctors, he, hin⟩⟩ := h.method_cases m.id m hm
  · have hctor := congrArg MethodInfo.isConstructor (Option.some.inj (hm.symm.trans he.method))
    exact absurd (hc.symm.trans hctor) (by simp [Env.emptyConstructor])
  · have hof := Env.membersOf he.members
    have written {mem : Surface.Member} (hmem : mem ∈ t.members) (hid : m.id = mem.id) :
        m.id < p.declCount :=
      hid ▸ (h.wellFormed.ids.bounds _ (List.mem_flatMap.mpr
        ⟨t, ht, List.mem_cons_of_mem _ (List.mem_map.mpr ⟨mem, hmem, rfl⟩)⟩)).2
    rcases List.mem_append.mp hin with hin | hin
    · obtain ⟨d, hd, hsig⟩ := hof.methods m hin
      exact written hd hsig.id
    · have hctors := he.constructors
      cases hctors with
      | declared =>
          obtain ⟨d, hd, hsig⟩ := hof.ctors m hin
          exact written hd hsig.id
      | default =>
          obtain rfl := List.mem_singleton.mp hin
          exact absurd hc (by simp [Env.emptyConstructor])

namespace Typing

open Surface (TypeDecl)
open Typed (Context)

/-! ## Statements -/

theorem Scope.In.add {s : Scope} {env : Env} {this : Option String} {locals : List (String × Ty)}
    (h : s.In env (.ofBody this locals)) (name : String) (type : Ty) :
    (s.add name type).In env (.ofBody this ((name, type) :: locals)) :=
  ⟨h.env, h.this, congrArg ((name, type) :: ·) h.locals, h.params, h.result⟩

/-- A body starts in a scope without clauses. -/
theorem Scope.In.start {env₀ env : Env} (h : env₀.SameDecls env) (c : String) (decl : DeclId)
    (isStatic : Bool) (locals : List (String × Ty)) :
    Scope.In { Scope.ofBody env₀ c decl isStatic with locals := locals } env
      (.ofBody (if isStatic then none else some c) locals) where
  env := h
  this hs := by
    rw [show isStatic = false from hs]
    rfl
  locals := rfl
  params name i type hp := absurd hp (by simp [Scope.param?, Scope.ofBody])
  result type hr := absurd hr (by simp [Scope.ofBody])

section

variable {env : Env} {p : Surface.Program} (hd : env.DeclaredBy p) {s : Scope}
  {this : Option String} {locals : List (String × Ty)} (hs : s.In env (.ofBody this locals))

include hd hs

/-- An expression of a body fits where it stands. -/
theorem Elab.fits_body {e : Surface.Expr} {t : Typed.Expr} {cs : List CallSite}
    (h : Elab s e t cs) (hl : e.Lexical .body) (hc : SitesOf env cs) :
    t.Fits env (.ofBody this locals) :=
  h.fits hd hs (Surface.Expr.formsFit_body hl) hc

theorem Elab.fitsAt_body {e : Surface.Expr} {t : Typed.Expr} {cs : List CallSite} {type : Ty}
    (h : Elab s e t cs) (ha : s.env.isAssignable t.type type = true) (hl : e.Lexical .body)
    (hc : SitesOf env cs) : t.FitsAt env (.ofBody this locals) type :=
  ⟨h.fits_body hd hs hl hc, isAssignable_in hs ha⟩

end

theorem stmtsLexical_stmts {b : Surface.Block} (h : b.Lexical) : Surface.stmtsLexical b.stmts := by
  cases b
  exact h

mutual

theorem ElabStmt.fits {env : Env} {p : Surface.Program} (hd : env.DeclaredBy p) {k : BodyKind}
    {s s' : Scope} {this : Option String} {locals : List (String × Ty)}
    (hs : s.In env (.ofBody this locals)) {c : Surface.Stmt} {t : Typed.Stmt} {cs : List CallSite}
    (h : ElabStmt k s c t s' cs) (hl : c.Lexical) (hc : SitesOf env cs) :
    t.Fits env k.returnType (.ofBody this locals) ∧
      s'.In env (.ofBody this (t.binds ++ locals)) := by
  cases h with
  | declare ht => exact ⟨⟨Env.stored_of_resolveType ht, nofun⟩, hs.add _ _⟩
  | declareInit ht hv ha =>
      refine ⟨⟨Env.stored_of_resolveType ht, ?_⟩, hs.add _ _⟩
      rintro _ ⟨⟩
      exact hv.fitsAt_body hd hs ha hl hc
  | setVar hv ht ha =>
      obtain ⟨hcv, hct⟩ := SitesOf.append.mp hc
      exact ⟨⟨_, ht.fits_body hd hs hl.1 hct, hv.fitsAt_body hd hs ha hl.2 hcv⟩, hs⟩
  | setField hv ht ha =>
      obtain ⟨hcv, hct⟩ := SitesOf.append.mp hc
      obtain ⟨ho, c, f, hoc, hf, _, rfl⟩ := ht.fits_body hd hs hl.1 hct
      exact ⟨⟨ho, c, f, hoc, hf, hv.fitsAt_body hd hs ha hl.2 hcv⟩, hs⟩
  | setStatic hv ht ha =>
      obtain ⟨hcv, hct⟩ := SitesOf.append.mp hc
      obtain ⟨f, hf, hstatic, rfl⟩ := ht.fits_body hd hs hl.1 hct
      exact ⟨⟨f, hf, hstatic, hv.fitsAt_body hd hs ha hl.2 hcv⟩, hs⟩
  | setIndex hv ht ha =>
      obtain ⟨hcv, hct⟩ := SitesOf.append.mp hc
      obtain ⟨⟨har, hta⟩, hi, hti⟩ := ht.fits_body hd hs hl.1 hct
      exact ⟨⟨⟨har, hi, hti⟩, _, hta, hv.fitsAt_body hd hs ha hl.2 hcv⟩, hs⟩
  | expr he => exact ⟨he.fits_body hd hs hl hc, hs⟩
  | branch hcond ht ha hb =>
      obtain ⟨hcab, hcb⟩ := SitesOf.append.mp hc
      obtain ⟨hcc, hca⟩ := SitesOf.append.mp hcab
      refine ⟨⟨⟨hcond.fits_body hd hs hl.1.1 hcc, Env.eq_boolean_of_isAssignable ht⟩, ?_, ?_⟩, hs⟩
      · exact (ElabStmt.fits hd hs ha hl.1.2 hca).1
      · exact ElabElse.fits hd hs hb hl.2 hcb
  | loop hcond ht hb =>
      obtain ⟨hcc, hcb⟩ := SitesOf.append.mp hc
      refine ⟨⟨⟨hcond.fits_body hd hs hl.1 hcc, Env.eq_boolean_of_isAssignable ht⟩, ?_⟩, hs⟩
      exact (ElabStmt.fits hd hs hb hl.2 hcb).1
  | retVoid hk => exact ⟨⟨fun _ => hk, nofun⟩, hs⟩
  | ret hk hv ha =>
      refine ⟨⟨nofun, ?_⟩, hs⟩
      rintro _ ⟨⟩
      exact hv.fitsAt_body hd hs ha hl hc
  | throw hv ht => exact ⟨⟨hv.fits_body hd hs hl hc, _, ht⟩, hs⟩
  | attempt hb hh hcl =>
      obtain ⟨hcbh, hcc⟩ := SitesOf.append.mp hc
      obtain ⟨hcb, hch⟩ := SitesOf.append.mp hcbh
      exact ⟨⟨ElabStmts.fits hd hs hb (stmtsLexical_stmts hl.1.1) hcb,
        ElabHandlers.fits hd hs hh hl.1.2 hch, ElabCleanup.fits hd hs hcl hl.2 hcc⟩, hs⟩
  | block hb => exact ⟨ElabStmts.fits hd hs hb (stmtsLexical_stmts hl) hc, hs⟩

theorem ElabElse.fits {env : Env} {p : Surface.Program} (hd : env.DeclaredBy p) {k : BodyKind}
    {s : Scope} {this : Option String} {locals : List (String × Ty)}
    (hs : s.In env (.ofBody this locals)) {c : Option Surface.Stmt} {t : Option Typed.Stmt}
    {cs : List CallSite} (h : ElabElse k s c t cs) (hl : Surface.elseLexical c)
    (hc : SitesOf env cs) : Typed.Stmt.elseFits env k.returnType (.ofBody this locals) t := by
  cases h with
  | none => trivial
  | some hb => exact (ElabStmt.fits hd hs hb hl hc).1

theorem ElabStmts.fits {env : Env} {p : Surface.Program} (hd : env.DeclaredBy p) {k : BodyKind}
    {s : Scope} {this : Option String} {locals : List (String × Ty)}
    (hs : s.In env (.ofBody this locals)) {cs : List Surface.Stmt} {ts : List Typed.Stmt}
    {ds : List CallSite} (h : ElabStmts k s cs ts ds) (hl : Surface.stmtsLexical cs)
    (hc : SitesOf env ds) : Typed.Stmt.allFit env k.returnType (.ofBody this locals) ts := by
  cases h with
  | nil => trivial
  | cons hfirst hrest =>
      obtain ⟨hcf, hcr⟩ := SitesOf.append.mp hc
      obtain ⟨hfit, hs'⟩ := ElabStmt.fits hd hs hfirst hl.1 hcf
      exact ⟨hfit, ElabStmts.fits hd hs' hrest hl.2 hcr⟩

theorem ElabCleanup.fits {env : Env} {p : Surface.Program} (hd : env.DeclaredBy p) {k : BodyKind}
    {s : Scope} {this : Option String} {locals : List (String × Ty)}
    (hs : s.In env (.ofBody this locals)) {b : Option Surface.Block}
    {t : Option (List Typed.Stmt)} {cs : List CallSite} (h : ElabCleanup k s b t cs)
    (hl : Surface.blockLexical b) (hc : SitesOf env cs) :
    Typed.Stmt.cleanupFits env k.returnType (.ofBody this locals) t := by
  cases h with
  | none => trivial
  | some hb => exact ElabStmts.fits hd hs hb (stmtsLexical_stmts hl) hc

theorem ElabHandlers.fits {env : Env} {p : Surface.Program} (hd : env.DeclaredBy p) {k : BodyKind}
    {s : Scope} {this : Option String} {locals : List (String × Ty)}
    (hs : s.In env (.ofBody this locals)) {hs' : List Surface.Handler} {ts : List Typed.Handler}
    {cs : List CallSite} (h : ElabHandlers k s hs' ts cs) (hl : Surface.handlersLexical hs')
    (hc : SitesOf env cs) : Typed.Stmt.handlersFit env k.returnType (.ofBody this locals) ts := by
  cases h with
  | nil => trivial
  | cons _ _ hb hr =>
      obtain ⟨hcb, hcr⟩ := SitesOf.append.mp hc
      exact ⟨ElabStmts.fits hd (hs.add _ _) hb (stmtsLexical_stmts hl.1) hcb,
        ElabHandlers.fits hd hs hr hl.2 hcr⟩

end

/-- A body that calls no constructor of the superclass. -/
theorem ElabBody.fits_plain {env : Env} {p : Surface.Program} (hd : env.DeclaredBy p)
    {k : BodyKind} (hk : k.isConstructor = false) {s : Scope} {this : Option String}
    {locals : List (String × Ty)} (hs : s.In env (.ofBody this locals))
    {stmts : List Surface.Stmt} {ts : List Typed.Stmt} {cs : List CallSite}
    (h : ElabBody k s stmts ts cs) (hl : Surface.stmtsLexical stmts) (hc : SitesOf env cs) :
    Typed.Stmt.allFit env k.returnType (.ofBody this locals) ts := by
  cases h with
  | plain h => exact h.fits hd hs hl hc
  | super hk' => exact absurd (hk.symm.trans hk') (by simp)

/-- The body of a constructor calls one of the superclass first, or none anywhere. -/
theorem ElabBody.fits_constructor {env : Env} {p : Surface.Program} (hd : env.DeclaredBy p)
    {env₀ : Env} (hdecls : env₀.SameDecls env) {m : MethodInfo} (hvoid : m.returnType = .void) {stmts : List Surface.Stmt} {ts : List Typed.Stmt}
    {cs : List CallSite} (h : ElabBody ⟨m.isConstructor, m.returnType⟩ (.ofMethod env₀ m) stmts ts cs)
    (hl : Surface.stmtsLexical stmts) (hc : SitesOf env cs)
    (hdefault : (∀ span site id args rest, ts ≠ .superCall span site id args :: rest) →
      ∀ s, (env.class? m.owner).bind (·.superclass) = some s →
        (env.defaultConstructor? s).isSome = true) :
    Typed.ConstructorFits env m (.ofMember m) ts := by
  have hs : Scope.In (.ofMethod env₀ m) env (.ofMember m) := .start hdecls _ _ _ _
  cases h with
  | plain h =>
      have hplain : ∀ span site id args rest, ts ≠ .superCall span site id args :: rest := by
        rintro span site id args rest rfl
        cases h with
        | cons hfirst => cases hfirst
      exact .implicit hplain (hdefault hplain) (hvoid ▸ h.fits hd hs hl hc)
  | @super _ _ _ _ info superclass ctor _ _ _ _ _ hclass hsuper ha hm hr =>
      obtain ⟨hca, hcr⟩ := SitesOf.append.mp hc
      obtain ⟨hca, hsite⟩ := SitesOf.append.mp hca
      have hclass : env.class? m.owner = some info := (hdecls.class? m.owner).trans hclass
      refine .explicit (ha.fits hd hs ?_ hca) (constructorTyped hd hs hm ?_) ?_ ?_
      · exact Surface.formsFitAll_body hl.1
      · exact hsite _ List.mem_cons_self
      · obtain ⟨_, _, hknown, _⟩ := hd.superclass_known hclass hsuper
        exact Env.isSubtype_of_reach hknown (.single ⟨info, hclass, by simp [Env.directSupertypes, hsuper]⟩)
      · exact hvoid ▸ hr.fits hd hs hl.2 hcr

/-! ## Members of a program -/

theorem ElabMember.bodies_sublist {env : Env} {owner : String} {m : Surface.Member}
    {part : CheckedBodies} {cs : List CallSite} (h : ElabMember env owner m part cs) :
    (part.bodies.map (·.1)).Sublist [m.id] := by
  cases h with
  | init | noInit | noBody => exact List.nil_sublist _
  | body hm => rcases hm with rfl | rfl <;> exact List.Sublist.refl _
  | block => exact List.Sublist.refl _

theorem ElabMembers.bodies_sublist {env : Env} {ms : List (String × Surface.Member)}
    {parts : List Part} (h : ElabMembers env ms parts) :
    ((parts.flatMap (·.1.bodies)).map (·.1)).Sublist (ms.map (·.2.id)) := by
  induction h with
  | nil => exact .slnil
  | cons hm _ ih =>
      rw [List.flatMap_cons, List.map_append, List.map_cons]
      exact hm.bodies_sublist.append ih

/-- The calls of what was made of a member are what is written down for their sites. -/
theorem sitesOf_written {env : Env} {cs : List CallSite}
    (h : ∀ c ∈ cs, env.callSites.get? c.id = some c) : SitesOf env cs :=
  fun c hc _ hc' => congrArg CallSite.callee (Option.some.inj (hc'.symm.trans (h c hc)))

theorem checkImplicitSuper_ok {env : Env} {bodies : List (DeclId × List Typed.Stmt)}
    {info : ClassInfo} (h : checkImplicitSuper env bodies info = .ok ()) {s : String}
    (hs : info.superclass = some s) {ctor : DeclId} (hctor : ctor ∈ info.ctors) :
    (env.defaultConstructor? s).isSome = true ∨ callsSuper bodies ctor = true := by
  simp only [checkImplicitSuper, hs] at h
  split at h
  · next hsome => exact .inl hsome
  · have hc := forM_ok h ctor hctor
    split at hc
    · next hcalls => exact .inr hcalls
    · cases hc

section

variable {p : Surface.Program} (hp : p.WellFormed) {env : Env} (h : checkProgram p = .ok env)

include hp h

/-- A constructor that does not call one of the superclass has one to run that takes nothing. -/
theorem default_of_plain {m : MethodInfo} (hm : env.method? m.id = some m)
    (hc : m.isConstructor = true)
    (hplain : ∀ span site id args rest,
      (env.body? m.id).getD [] ≠ .superCall span site id args :: rest) {s : String}
    (hs : (env.class? m.owner).bind (·.superclass) = some s) :
    (env.defaultConstructor? s).isSome = true := by
  obtain ⟨info, hi, hctor⟩ := (Env.declaredBy_of_check hp h).type_of_constructor hm hc
  rw [hi] at hs
  obtain ⟨env₀, parts, h₀, hparts, hsuper, _, rfl⟩ := checkProgram_elab hp h
  rcases checkImplicitSuper_ok (hsuper info (List.mem_map.mpr ⟨_, Table.mem_of_get? hi, rfl⟩)) hs hctor with hdef | hcalls
  · exact hdef
  · rw [callsSuper] at hcalls
    cases hfind : Table.find? m.id (parts.flatMap (·.1.bodies)) with
    | none => simp [hfind] at hcalls
    | some body =>
        have hbody := Table.get?_insertAll_of_mem (t := env₀.bodies)
          ((nodup_memberIds hp).sublist hparts.bodies_sublist) (Table.mem_of_find? hfind)
        rw [hfind] at hcalls
        -- The body that was found is that of the constructor, which starts otherwise.
        cases body with
        | nil => cases hcalls
        | cons first rest =>
            cases first with
            | superCall span site id args =>
                exact absurd (congrArg (Option.getD · []) hbody) (hplain span site id args rest)
            | _ => cases hcalls

/-- The body of a method or constructor was made in its own scope. -/
theorem method_body {m : MethodInfo} (hm : env.method? m.id = some m) {body : List Typed.Stmt}
    (hb : env.body? m.id = some body) : (p.declCount ≤ m.id ∧ body = []) ∨
      ∃ env₀ stmts cs, env₀.SameDecls env ∧ Surface.stmtsLexical stmts ∧ SitesOf env cs ∧
        ElabBody ⟨m.isConstructor, m.returnType⟩ (.ofMethod env₀ m) stmts body cs ∧
        (m.returnType = .void ∨ Typed.exitsAll body = true) := by
  have hd := Env.declaredBy_of_check hp h
  refine (body_cases hp h hb).imp id ?_
  rintro ⟨t, mem, hid, hmade⟩
  obtain ⟨d, hmem⟩ := decl_of_method hd hm hmade.type hmade.member hid
  obtain ⟨env₀, cs, _, hdecls, hrules, hcs⟩ := hmade.rules
  have hwf := (hp.types t hmade.type).members mem hmade.member
  generalize hx : m.id = x at hid hrules
  cases hrules with
  | @body _ d b info _ _ hmem hbody hi he hr =>
      obtain rfl : m = info := Option.some.inj ((hm.symm.trans (hdecls.method? m.id)).trans (hx ▸ hi))
      have hl : Surface.blockLexical d.body := by
        rcases hmem with rfl | rfl
        · exact hwf.2
        · exact hwf.2
      rw [hbody] at hl
      exact ⟨env₀, _, cs, hdecls, stmtsLexical_stmts hl, sitesOf_written hcs, he, hr⟩
  | block =>
      rcases hmem with hmem | hmem <;> cases hmem

/-- The body of an initializer block was made in the scope of its type. -/
theorem block_body {t : TypeDecl} (ht : t ∈ p.types) {d : Surface.InitBlock}
    (hdin : .initializer d ∈ t.members) {body : List Typed.Stmt} (hb : env.body? d.id = some body) :
    ∃ env₀ stmts cs, env₀.SameDecls env ∧ Surface.stmtsLexical stmts ∧ SitesOf env cs ∧
      ElabBody ⟨false, .void⟩ (.ofBody env₀ t.name.val d.id false) stmts body cs := by
  have hlt : d.id < p.declCount := (hp.ids.bounds _ (List.mem_flatMap.mpr
    ⟨t, ht, List.mem_cons_of_mem _ (List.mem_map.mpr ⟨_, hdin, rfl⟩)⟩)).2
  rcases body_cases hp h hb with ⟨hle, _⟩ | ⟨t', mem, hid, hmade⟩
  · exact absurd hlt (Nat.not_lt.mpr hle)
  · obtain ⟨hname, rfl⟩ := member_unique hp hmade.type ht hmade.member hdin hid
    obtain ⟨env₀, cs, _, hdecls, hrules, hcs⟩ := hmade.rules
    have hl := (hp.types t ht).members _ hdin
    generalize hx : d.id = x at hrules
    cases hrules with
    | body hm => rcases hm with hm | hm <;> cases hm
    | block he =>
        exact ⟨env₀, _, cs, hdecls, stmtsLexical_stmts hl, sitesOf_written hcs, hname ▸ he⟩

/-- A first value of a field was made in the scope of its type. -/
theorem field_init {f : FieldInfo} (hf : env.field? f.id = some f) {init : Typed.Expr}
    (hi : env.fieldInits.get? f.id = some init) :
    ∃ env₀ e cs, env₀.SameDecls env ∧ e.Lexical .body ∧ SitesOf env cs ∧
      Elab (.ofBody env₀ f.owner f.id f.isStatic) e init cs ∧
      env₀.isAssignable init.type f.type = true := by
  obtain ⟨t, d, hid, hmade⟩ := init_cases hp h hi
  obtain ⟨_, t', ht', ms, ctors, he, hmem⟩ := (Env.declaredBy_of_check hp h).field_cases f.id f hf
  obtain ⟨d', type, hd', _, hdecl⟩ := (Env.membersOf he.members).fields f hmem
  have hid' : f.id = d'.id := congrArg FieldInfo.id hdecl
  obtain ⟨hname, hfield⟩ := member_unique hp hmade.type ht' hmade.member hd' (hid.trans hid')
  cases hfield
  have howner : f.owner = t.name.val := (congrArg FieldInfo.owner hdecl).trans hname.symm
  have hstatic : f.isStatic = d.isStatic := congrArg FieldInfo.isStatic hdecl
  obtain ⟨env₀, cs, _, hdecls, hrules, hcs⟩ := hmade.rules
  have hl := (hp.types t hmade.type).members _ hmade.member
  generalize hx : f.id = x at hrules
  cases hrules with
  | @init _ e info _ _ hinit hinfo hrules ha =>
      have hinfo : env.field? f.id = some info :=
        (hdecls.field? f.id).trans (hid'.symm ▸ hinfo)
      obtain rfl : f = info := Option.some.inj (hf.symm.trans hinfo)
      rw [Surface.Member.WellFormed, hinit] at hl
      refine ⟨env₀, e, cs, hdecls, hl, sitesOf_written hcs, ?_, ha⟩
      rw [howner, hstatic]
      exact hrules

theorem bodiesFit : env.BodiesFit := by
  have hd := Env.declaredBy_of_check hp h
  refine ⟨?_, ?_, ?_, ?_, ?_⟩
  · intro m body hm hc hb
    rcases method_body hp h hm hb with ⟨hle, _⟩ | ⟨env₀, stmts, cs, hdecls, hl, hcs, hrules, hr⟩
    · exact absurd (hd.lt_of_method hm hc) (Nat.not_lt.mpr hle)
    · exact ⟨hrules.fits_plain hd hc (.start hdecls _ _ _ _) hl hcs, hr⟩
  · intro m hm hc
    obtain ⟨info, hi, hctor⟩ := hd.type_of_constructor hm hc
    obtain ⟨m', hm', _, _, hstatic, hvoid⟩ := hd.constructor_of_type hi hctor
    obtain rfl : m = m' := Option.some.inj (hm.symm.trans hm')
    refine ⟨⟨hstatic, hvoid⟩, ?_⟩
    have hdefault := default_of_plain hp h hm hc
    cases hb : env.body? m.id with
    | none =>
        rw [hb] at hdefault
        exact .implicit nofun (fun s => hdefault nofun) trivial
    | some body =>
        rw [hb] at hdefault
        rcases method_body hp h hm hb with ⟨_, rfl⟩ | ⟨env₀, stmts, cs, hdecls, hl, hcs, hrules, _⟩
        · exact .implicit nofun (fun s => hdefault nofun) trivial
        · exact hrules.fits_constructor hd hdecls hvoid hl hcs fun hplain s => hdefault hplain
  · intro f init hf hi
    obtain ⟨env₀, e, cs, hdecls, hl, hcs, hrules, ha⟩ := field_init hp h hf hi
    exact hrules.fitsAt_body hd (.start hdecls _ _ _ []) ha hl hcs
  · intro c info id f hi hitem hf
    rcases hd.item_of_type hi hitem with ⟨f', hf', howner, hstatic, heq⟩ | ⟨_, _, _, _, _, heq⟩
    · cases heq
      obtain rfl : f = f' := Option.some.inj (hf.symm.trans hf')
      exact ⟨rfl, howner, hstatic⟩
    · cases heq
  · intro c info id body hi hitem hb
    rcases hd.item_of_type hi hitem with ⟨_, _, _, _, heq⟩ | ⟨t, ht, rfl, d, hdin, heq⟩
    · cases heq
    · cases heq
      obtain ⟨env₀, stmts, cs, hdecls, hl, hcs, hrules⟩ := block_body hp h ht hdin hb
      exact hrules.fits_plain hd rfl (.start hdecls _ _ _ []) hl hcs

end

end Typing

end Covenant
