import Covenant.Proofs.FittedBodies

/-!
# Checked calls fit

The calls that a body writes down fit a context of the body, the calls of a receiver
that typing drops included: the receiver and the arguments fit, and they go with the
method that is called.
-/

namespace Covenant

open Typed (Context CallTyped ConstructorTyped)

/-- A call or a creation fits a body; a call where some variables are declared. -/
structure CallSite.FitsIn (env : Env) (this : Option String) (c : CallSite) : Prop where
  call : c.kind = .method → ∃ locals,
    (Typed.Expr.receiverFits env (.ofBody this locals) c.receiver ∧
      Typed.Expr.argsFit env (.ofBody this locals) c.args) ∧
    ∃ m t name, CallTyped env m t c.id c.receiver c.callee name c.args
  creation : c.kind = .new → ∃ m name, ConstructorTyped env m name c.id c.callee c.args

namespace Typing

section

variable {env : Env} {this : Option String} {locals : List (String × Ty)}

/-- The call that an expression makes itself. -/
theorem fitsIn_call {span : Span} {t : Ty} {site : SiteId} {receiver : Option Typed.Expr}
    {id caller : DeclId} {name : String} {args : List Typed.Expr}
    (h : (Typed.Expr.call span t site receiver id name args).Fits env (.ofBody this locals)) :
    CallSite.FitsIn env this ⟨site, caller, id, .method, receiver, args, span⟩ :=
  ⟨fun _ => ⟨locals, h.1, let ⟨m, hm⟩ := h.2; ⟨m, t, name, hm⟩⟩, nofun⟩

theorem fitsIn_new {span : Span} {site : SiteId} {c : String} {ctor caller : DeclId}
    {args : List Typed.Expr}
    (h : (Typed.Expr.new span site c ctor args).Fits env (.ofBody this locals)) :
    CallSite.FitsIn env this ⟨site, caller, ctor, .new, none, args, span⟩ :=
  ⟨nofun, fun _ => let ⟨m, hm⟩ := h.2; ⟨m, c, hm⟩⟩

theorem fitsIn_super {c : CallSite} (h : c.kind = .super) : c.FitsIn env this :=
  ⟨fun hk => absurd (h.symm.trans hk) (by simp), fun hk => absurd (h.symm.trans hk) (by simp)⟩

end

mutual

theorem Elab.sitesFit {env : Env} {p : Surface.Program} (hd : env.DeclaredBy p) {s : Scope}
    {this : Option String} {locals : List (String × Ty)} (hs : s.In env (.ofBody this locals))
    {e : Surface.Expr} {t : Typed.Expr} {cs : List CallSite} (h : Elab s e t cs)
    (hl : e.Lexical .body) (hc : SitesOf env cs) : ∀ c ∈ cs, c.FitsIn env this := by
  have hfits := h.fits_body hd hs hl hc
  cases h with
  | int | bool | null | this | var | param | ownStatic | ownField | classField | result =>
      exact fun c hc => absurd hc List.not_mem_nil
  | binary hl' hr =>
      obtain ⟨hcl, hcr⟩ := SitesOf.append.mp hc
      exact List.forall_mem_append.mpr
        ⟨Elab.sitesFit hd hs hl' hl.1 hcl, Elab.sitesFit hd hs hr hl.2 hcr⟩
  | unary he => exact Elab.sitesFit hd hs he hl hc
  | field ho | length ho | staticField ho => exact Elab.sitesFit hd hs ho hl.1 hc
  | newArray _ he => exact Elab.sitesFit hd hs he hl.2 hc
  | staticCall ha | ownCall ha =>
      obtain ⟨hca, _⟩ := SitesOf.append.mp hc
      exact List.forall_mem_append.mpr
        ⟨ElabAll.sitesFit hd hs ha hl.2 hca, List.forall_mem_singleton.mpr (fitsIn_call hfits)⟩
  | classCall _ ha =>
      obtain ⟨hca, _⟩ := SitesOf.append.mp hc
      exact List.forall_mem_append.mpr
        ⟨ElabAll.sitesFit hd hs ha hl.2.2 hca, List.forall_mem_singleton.mpr (fitsIn_call hfits)⟩
  | droppedCall ho _ ha | methodCall ho _ ha =>
      obtain ⟨hcs, _⟩ := SitesOf.append.mp hc
      obtain ⟨hco, hca⟩ := SitesOf.append.mp hcs
      exact List.forall_mem_append.mpr ⟨List.forall_mem_append.mpr
        ⟨Elab.sitesFit hd hs ho hl.1 hco, ElabAll.sitesFit hd hs ha hl.2.2 hca⟩,
        List.forall_mem_singleton.mpr (fitsIn_call hfits)⟩
  | new _ _ ha =>
      obtain ⟨hca, _⟩ := SitesOf.append.mp hc
      exact List.forall_mem_append.mpr
        ⟨ElabAll.sitesFit hd hs ha hl.2 hca, List.forall_mem_singleton.mpr (fitsIn_new hfits)⟩
  | index ha _ hi =>
      obtain ⟨hca, hci⟩ := SitesOf.append.mp hc
      exact List.forall_mem_append.mpr
        ⟨Elab.sitesFit hd hs ha hl.1 hca, Elab.sitesFit hd hs hi hl.2 hci⟩
  | old | spread => exact absurd hl.1 (by simp [Parse.Dialect.isClause])

theorem ElabAll.sitesFit {env : Env} {p : Surface.Program} (hd : env.DeclaredBy p) {s : Scope}
    {this : Option String} {locals : List (String × Ty)} (hs : s.In env (.ofBody this locals))
    {es : List Surface.Expr} {ts : List Typed.Expr} {cs : List CallSite} (h : ElabAll s es ts cs)
    (hl : Surface.lexicalAll .body es) (hc : SitesOf env cs) : ∀ c ∈ cs, c.FitsIn env this := by
  cases h with
  | nil => exact fun c hc => absurd hc List.not_mem_nil
  | cons he hes =>
      obtain ⟨hce, hces⟩ := SitesOf.append.mp hc
      exact List.forall_mem_append.mpr
        ⟨Elab.sitesFit hd hs he hl.1 hce, ElabAll.sitesFit hd hs hes hl.2 hces⟩

end

mutual

theorem ElabStmt.sitesFit {env : Env} {p : Surface.Program} (hd : env.DeclaredBy p) {k : BodyKind}
    {s s' : Scope} {this : Option String} {locals : List (String × Ty)}
    (hs : s.In env (.ofBody this locals)) {c : Surface.Stmt} {t : Typed.Stmt} {cs : List CallSite}
    (h : ElabStmt k s c t s' cs) (hl : c.Lexical) (hc : SitesOf env cs) :
    ∀ c ∈ cs, c.FitsIn env this := by
  cases h with
  | declare | retVoid => exact fun c hc => absurd hc List.not_mem_nil
  | declareInit _ hv | ret _ hv | throw hv | expr hv => exact hv.sitesFit hd hs hl hc
  | setVar hv ht | setField hv ht | setStatic hv ht | setIndex hv ht =>
      obtain ⟨hcv, hct⟩ := SitesOf.append.mp hc
      exact List.forall_mem_append.mpr
        ⟨hv.sitesFit hd hs hl.2 hcv, ht.sitesFit hd hs hl.1 hct⟩
  | branch hcond _ ha hb =>
      obtain ⟨hcab, hcb⟩ := SitesOf.append.mp hc
      obtain ⟨hcc, hca⟩ := SitesOf.append.mp hcab
      exact List.forall_mem_append.mpr ⟨List.forall_mem_append.mpr
        ⟨hcond.sitesFit hd hs hl.1.1 hcc, ElabStmt.sitesFit hd hs ha hl.1.2 hca⟩,
        ElabElse.sitesFit hd hs hb hl.2 hcb⟩
  | loop hcond _ hb =>
      obtain ⟨hcc, hcb⟩ := SitesOf.append.mp hc
      exact List.forall_mem_append.mpr
        ⟨hcond.sitesFit hd hs hl.1 hcc, ElabStmt.sitesFit hd hs hb hl.2 hcb⟩
  | attempt hb hh hcl =>
      obtain ⟨hcbh, hcc⟩ := SitesOf.append.mp hc
      obtain ⟨hcb, hch⟩ := SitesOf.append.mp hcbh
      exact List.forall_mem_append.mpr ⟨List.forall_mem_append.mpr
        ⟨ElabStmts.sitesFit hd hs hb (stmtsLexical_stmts hl.1.1) hcb,
          ElabHandlers.sitesFit hd hs hh hl.1.2 hch⟩, ElabCleanup.sitesFit hd hs hcl hl.2 hcc⟩
  | block hb => exact ElabStmts.sitesFit hd hs hb (stmtsLexical_stmts hl) hc

theorem ElabElse.sitesFit {env : Env} {p : Surface.Program} (hd : env.DeclaredBy p) {k : BodyKind}
    {s : Scope} {this : Option String} {locals : List (String × Ty)}
    (hs : s.In env (.ofBody this locals)) {c : Option Surface.Stmt} {t : Option Typed.Stmt}
    {cs : List CallSite} (h : ElabElse k s c t cs) (hl : Surface.elseLexical c)
    (hc : SitesOf env cs) : ∀ c ∈ cs, c.FitsIn env this := by
  cases h with
  | none => exact fun c hc => absurd hc List.not_mem_nil
  | some hb => exact ElabStmt.sitesFit hd hs hb hl hc

theorem ElabStmts.sitesFit {env : Env} {p : Surface.Program} (hd : env.DeclaredBy p)
    {k : BodyKind} {s : Scope} {this : Option String} {locals : List (String × Ty)}
    (hs : s.In env (.ofBody this locals)) {cs : List Surface.Stmt} {ts : List Typed.Stmt}
    {ds : List CallSite} (h : ElabStmts k s cs ts ds) (hl : Surface.stmtsLexical cs)
    (hc : SitesOf env ds) : ∀ c ∈ ds, c.FitsIn env this := by
  cases h with
  | nil => exact fun c hc => absurd hc List.not_mem_nil
  | cons hfirst hrest =>
      obtain ⟨hcf, hcr⟩ := SitesOf.append.mp hc
      have hs' := (ElabStmt.fits hd hs hfirst hl.1 hcf).2
      exact List.forall_mem_append.mpr
        ⟨ElabStmt.sitesFit hd hs hfirst hl.1 hcf, ElabStmts.sitesFit hd hs' hrest hl.2 hcr⟩

theorem ElabCleanup.sitesFit {env : Env} {p : Surface.Program} (hd : env.DeclaredBy p)
    {k : BodyKind} {s : Scope} {this : Option String} {locals : List (String × Ty)}
    (hs : s.In env (.ofBody this locals)) {b : Option Surface.Block}
    {t : Option (List Typed.Stmt)} {cs : List CallSite} (h : ElabCleanup k s b t cs)
    (hl : Surface.blockLexical b) (hc : SitesOf env cs) : ∀ c ∈ cs, c.FitsIn env this := by
  cases h with
  | none => exact fun c hc => absurd hc List.not_mem_nil
  | some hb => exact ElabStmts.sitesFit hd hs hb (stmtsLexical_stmts hl) hc

theorem ElabHandlers.sitesFit {env : Env} {p : Surface.Program} (hd : env.DeclaredBy p)
    {k : BodyKind} {s : Scope} {this : Option String} {locals : List (String × Ty)}
    (hs : s.In env (.ofBody this locals)) {hs' : List Surface.Handler} {ts : List Typed.Handler}
    {cs : List CallSite} (h : ElabHandlers k s hs' ts cs) (hl : Surface.handlersLexical hs')
    (hc : SitesOf env cs) : ∀ c ∈ cs, c.FitsIn env this := by
  cases h with
  | nil => exact fun c hc => absurd hc List.not_mem_nil
  | cons _ _ hb hr =>
      obtain ⟨hcb, hcr⟩ := SitesOf.append.mp hc
      exact List.forall_mem_append.mpr
        ⟨ElabStmts.sitesFit hd (hs.add _ _) hb (stmtsLexical_stmts hl.1) hcb,
          ElabHandlers.sitesFit hd hs hr hl.2 hcr⟩

end

theorem ElabBody.sitesFit {env : Env} {p : Surface.Program} (hd : env.DeclaredBy p)
    {k : BodyKind} {s : Scope} {this : Option String} {locals : List (String × Ty)}
    (hs : s.In env (.ofBody this locals)) {stmts : List Surface.Stmt} {ts : List Typed.Stmt}
    {cs : List CallSite} (h : ElabBody k s stmts ts cs) (hl : Surface.stmtsLexical stmts)
    (hc : SitesOf env cs) : ∀ c ∈ cs, c.FitsIn env this := by
  cases h with
  | plain h => exact h.sitesFit hd hs hl hc
  | super _ _ _ ha _ hr =>
      obtain ⟨hca, hcr⟩ := SitesOf.append.mp hc
      obtain ⟨hca, _⟩ := SitesOf.append.mp hca
      exact List.forall_mem_append.mpr ⟨List.forall_mem_append.mpr
        ⟨ha.sitesFit hd hs hl.1 hca, List.forall_mem_singleton.mpr (fitsIn_super rfl)⟩,
        hr.sitesFit hd hs hl.2 hcr⟩

section

variable {p : Surface.Program} (hp : p.WellFormed) {env : Env} (h : checkProgram p = .ok env)
  {c : CallSite}

include hp h

/-- The calls of a method or constructor fit its body. -/
theorem fitsIn_method {m : MethodInfo} (hm : env.method? m.id = some m)
    (hc : c ∈ env.callSitesOf m.id) :
    c.FitsIn env (if m.isStatic then none else some m.owner) := by
  obtain ⟨env₀, b, body, cs, hdecls, hl, hcs, hmem, hrules⟩ := body_of_call hp h hm hc
  exact hrules.sitesFit (Env.declaredBy_of_check hp h) (.start hdecls _ _ _ _)
    (stmtsLexical_stmts hl) (sitesOf_written hcs) c hmem

/-- All calls that are written down fit somewhere. -/
theorem exists_fitsIn (hc : c ∈ env.callSites.values) : ∃ this, c.FitsIn env this := by
  have hd := Env.declaredBy_of_check hp h
  obtain ⟨t, mem, part, env₀, cs, ht, hin, h₀, hdecls, hel, hcs, hc⟩ := call_cases hp h hc
  have hsites := sitesOf_written hcs
  have hwf := (hp.types t ht).members mem hin
  cases hel with
  | noInit | noBody => exact absurd hc List.not_mem_nil
  | init hinit _ he =>
      rw [Surface.Member.WellFormed, hinit] at hwf
      exact ⟨_, he.sitesFit hd (.start hdecls _ _ _ []) hwf hsites c hc⟩
  | @body _ d b info _ _ hmem hb _ he =>
      have hl : Surface.blockLexical d.body := by
        rcases hmem with rfl | rfl
        · exact hwf.2
        · exact hwf.2
      rw [hb] at hl
      exact ⟨_, he.sitesFit hd (.start hdecls _ _ _ _) (stmtsLexical_stmts hl) hsites c hc⟩
  | block he =>
      exact ⟨_, he.sitesFit hd (.start hdecls _ _ _ []) (stmtsLexical_stmts hwf) hsites c hc⟩

end

end Typing

end Covenant
