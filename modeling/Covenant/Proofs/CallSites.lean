import Covenant.Proofs.CallScopes

/-!
# Calls in bodies

Every call that a body or a first value contains is written down under its number,
with the declaration that it stands in, the member that it is resolved to and its
kind, and so is the call of a superclass constructor, which stands only at the head
of a body. So what is placed behind a call can be read off the call itself.
-/

namespace Covenant

namespace Typed

/-- What is written down for a call or a creation in a declaration. -/
def Expr.callSite? (caller : DeclId) : Expr → Option CallSite
  | .call span _ site receiver method _ args =>
    some ⟨site, caller, method, .method, receiver, args, span⟩
  | .new span site _ ctor args => some ⟨site, caller, ctor, .new, none, args, span⟩
  | _ => none

theorem Expr.caller_of_callSite {decl : DeclId} {e : Expr} {c : CallSite}
    (h : e.callSite? decl = some c) : c.caller = decl := by
  cases e with
  | call | new =>
      cases h
      rfl
  | _ => cases h

open Expr (partsOpt partsAll)

mutual

/-- The expressions in a statement, each with its parts. -/
def Stmt.parts : Stmt → List Expr
  | .declare _ _ _ e | .ret _ e => partsOpt e
  | .setVar _ _ e | .setStatic _ _ _ e | .expr _ e | .throw _ e => e.parts
  | .setField _ o _ e => o.parts ++ e.parts
  | .setIndex _ a i e => a.parts ++ (i.parts ++ e.parts)
  | .branch _ c a b => c.parts ++ (a.parts ++ elseParts b)
  | .loop _ c b => c.parts ++ b.parts
  | .superCall _ _ _ args => partsAll args
  | .attempt _ body handlers cleanup =>
    stmtsParts body ++ (handlersParts handlers ++ cleanupParts cleanup)
  | .block _ body => stmtsParts body

def elseParts : Option Stmt → List Expr
  | none => []
  | some s => s.parts

def stmtsParts : List Stmt → List Expr
  | [] => []
  | s :: rest => s.parts ++ stmtsParts rest

def handlersParts : List Handler → List Expr
  | [] => []
  | .mk _ _ body :: rest => stmtsParts body ++ handlersParts rest

def cleanupParts : Option (List Stmt) → List Expr
  | none => []
  | some body => stmtsParts body

end

mutual

/-- A statement and the statements in it. -/
def Stmt.inner : Stmt → List Stmt
  | s@(.branch _ _ a b) => s :: (a.inner ++ elseInner b)
  | s@(.loop _ _ b) => s :: b.inner
  | s@(.attempt _ body handlers cleanup) =>
    s :: (stmtsInner body ++ (handlersInner handlers ++ cleanupInner cleanup))
  | s@(.block _ body) => s :: stmtsInner body
  | s@(.declare ..) | s@(.setVar ..) | s@(.setField ..) | s@(.setStatic ..) | s@(.setIndex ..)
  | s@(.expr ..) | s@(.ret ..) | s@(.throw ..) | s@(.superCall ..) => [s]

def elseInner : Option Stmt → List Stmt
  | none => []
  | some s => s.inner

def stmtsInner : List Stmt → List Stmt
  | [] => []
  | s :: rest => s.inner ++ stmtsInner rest

def handlersInner : List Handler → List Stmt
  | [] => []
  | .mk _ _ body :: rest => stmtsInner body ++ handlersInner rest

def cleanupInner : Option (List Stmt) → List Stmt
  | none => []
  | some body => stmtsInner body

end

end Typed

/-- The expressions in the body of a declaration, or in its first value, each with its parts. -/
def Env.partsOf (env : Env) (decl : DeclId) : List Typed.Expr :=
  Typed.stmtsParts ((env.body? decl).getD []) ++ Typed.Expr.partsOpt (env.fieldInits.get? decl)

/-- The statements in the body of a declaration. -/
def Env.stmtsOf (env : Env) (decl : DeclId) : List Typed.Stmt :=
  Typed.stmtsInner ((env.body? decl).getD [])

/-! ## Calls are written down where they stand -/

namespace Typing

/-- All calls among some expressions of a declaration are in a list. -/
def Written (decl : DeclId) (parts : List Typed.Expr) (cs : List CallSite) : Prop :=
  ∀ e ∈ parts, ∀ c, e.callSite? decl = some c → c ∈ cs

namespace Written

variable {decl : DeclId} {parts parts' : List Typed.Expr} {cs cs' : List CallSite}

theorem nil : Written decl [] cs := fun _ he => absurd he List.not_mem_nil

theorem mono (h : Written decl parts cs) (hsub : cs ⊆ cs') : Written decl parts cs' :=
  fun e he c hc => hsub (h e he c hc)

theorem append (h : Written decl parts cs) (h' : Written decl parts' cs) :
    Written decl (parts ++ parts') cs :=
  List.forall_mem_append.mpr ⟨h, h'⟩

/-- An expression that is no call itself. -/
theorem cons {e : Typed.Expr} (he : e.callSite? decl = none) (h : Written decl parts cs) :
    Written decl (e :: parts) cs :=
  List.forall_mem_cons.mpr ⟨fun c hc => absurd (he.symm.trans hc) (by simp), h⟩

/-- An expression that is a call. -/
theorem call {e : Typed.Expr} {c : CallSite} (he : e.callSite? decl = some c) (hc : c ∈ cs)
    (h : Written decl parts cs) : Written decl (e :: parts) cs :=
  List.forall_mem_cons.mpr ⟨fun _ hc' => Option.some.inj (he.symm.trans hc') ▸ hc, h⟩

end Written

mutual

theorem Elab.writes {s : Scope} {e : Surface.Expr} {t : Typed.Expr} {cs : List CallSite}
    (h : Elab s e t cs) : Written s.decl t.parts cs := by
  cases h with
  | int | bool | null | this | var | param | ownStatic | classField | staticField | result =>
      exact .cons rfl .nil
  | ownField => exact .cons rfl (.cons rfl .nil)
  | binary hl hr =>
      exact .cons rfl ((Elab.writes hl).mono (List.subset_append_left ..) |>.append
        ((Elab.writes hr).mono (List.subset_append_right ..)))
  | index ha _ hi =>
      exact .cons rfl ((Elab.writes ha).mono (List.subset_append_left ..) |>.append
        ((Elab.writes hi).mono (List.subset_append_right ..)))
  | unary he | field he | length he | newArray _ he | old he | spread he =>
      exact .cons rfl (Elab.writes he)
  | new _ _ ha | staticCall ha | classCall _ ha =>
      exact .call rfl (List.mem_append_right _ List.mem_cons_self)
        ((ElabAll.writes ha).mono (List.subset_append_left ..))
  | droppedCall _ _ ha =>
      refine .call rfl (List.mem_append_right _ List.mem_cons_self) ((ElabAll.writes ha).mono ?_)
      exact List.Subset.trans (List.subset_append_right ..) (List.subset_append_left ..)
  | ownCall ha =>
      exact .call rfl (List.mem_append_right _ List.mem_cons_self)
        (.cons rfl ((ElabAll.writes ha).mono (List.subset_append_left ..)))
  | methodCall ho _ ha =>
      refine .call rfl (List.mem_append_right _ List.mem_cons_self)
        (((Elab.writes ho).mono ?_).append ((ElabAll.writes ha).mono ?_))
      · exact List.Subset.trans (List.subset_append_left ..) (List.subset_append_left ..)
      · exact List.Subset.trans (List.subset_append_right ..) (List.subset_append_left ..)

theorem ElabAll.writes {s : Scope} {es : List Surface.Expr} {ts : List Typed.Expr}
    {cs : List CallSite} (h : ElabAll s es ts cs) :
    Written s.decl (Typed.Expr.partsAll ts) cs := by
  cases h with
  | nil => exact .nil
  | cons he hes =>
      exact ((Elab.writes he).mono (List.subset_append_left ..)).append
        ((ElabAll.writes hes).mono (List.subset_append_right ..))

end

mutual

theorem ElabStmt.writes {k : BodyKind} {s s' : Scope} {c : Surface.Stmt} {t : Typed.Stmt}
    {cs : List CallSite} (h : ElabStmt k s c t s' cs) : Written s.decl t.parts cs := by
  cases h with
  | declare | retVoid => exact .nil
  | declareInit _ hv => exact hv.writes
  | setVar hv | setStatic hv => exact hv.writes.mono (List.subset_append_left ..)
  | setField hv ht =>
      have ho := (List.forall_mem_cons.mp ht.writes).2
      exact (Written.mono ho (List.subset_append_right ..)).append
        (hv.writes.mono (List.subset_append_left ..))
  | setIndex hv ht =>
      have hai := List.forall_mem_append.mp (List.forall_mem_cons.mp ht.writes).2
      exact (Written.mono hai.1 (List.subset_append_right ..)).append
        ((Written.mono hai.2 (List.subset_append_right ..)).append
          (hv.writes.mono (List.subset_append_left ..)))
  | expr he => exact he.writes
  | branch hc _ ha hb =>
      refine (hc.writes.mono ?_).append (((ElabStmt.writes ha).mono ?_).append
        ((ElabElse.writes hb).mono (List.subset_append_right ..)))
      · exact List.Subset.trans (List.subset_append_left ..) (List.subset_append_left ..)
      · exact List.Subset.trans (List.subset_append_right ..) (List.subset_append_left ..)
  | loop hc _ hb =>
      exact (hc.writes.mono (List.subset_append_left ..)).append
        ((ElabStmt.writes hb).mono (List.subset_append_right ..))
  | ret _ hv => exact hv.writes
  | throw hv => exact hv.writes
  | attempt hb hh hc =>
      refine ((ElabStmts.writes hb).mono ?_).append (((ElabHandlers.writes hh).mono ?_).append
        ((ElabCleanup.writes hc).mono (List.subset_append_right ..)))
      · exact List.Subset.trans (List.subset_append_left ..) (List.subset_append_left ..)
      · exact List.Subset.trans (List.subset_append_right ..) (List.subset_append_left ..)
  | block hb => exact ElabStmts.writes hb

theorem ElabElse.writes {k : BodyKind} {s : Scope} {c : Option Surface.Stmt}
    {t : Option Typed.Stmt} {cs : List CallSite} (h : ElabElse k s c t cs) :
    Written s.decl (Typed.elseParts t) cs := by
  cases h with
  | none => exact .nil
  | some hb => exact ElabStmt.writes hb

theorem ElabStmts.writes {k : BodyKind} {s : Scope} {cs : List Surface.Stmt}
    {ts : List Typed.Stmt} {ds : List CallSite} (h : ElabStmts k s cs ts ds) :
    Written s.decl (Typed.stmtsParts ts) ds := by
  cases h with
  | nil => exact .nil
  | cons hc hr =>
      -- The statements behind the first one stand in the same declaration.
      have hdecl := (ElabStmt.calls hc).1.decl
      exact ((ElabStmt.writes hc).mono (List.subset_append_left ..)).append
        ((hdecl ▸ ElabStmts.writes hr).mono (List.subset_append_right ..))

theorem ElabCleanup.writes {k : BodyKind} {s : Scope} {b : Option Surface.Block}
    {t : Option (List Typed.Stmt)} {cs : List CallSite} (h : ElabCleanup k s b t cs) :
    Written s.decl (Typed.cleanupParts t) cs := by
  cases h with
  | none => exact .nil
  | some hb => exact ElabStmts.writes hb

theorem ElabHandlers.writes {k : BodyKind} {s : Scope} {hs : List Surface.Handler}
    {ts : List Typed.Handler} {cs : List CallSite} (h : ElabHandlers k s hs ts cs) :
    Written s.decl (Typed.handlersParts ts) cs := by
  cases h with
  | nil => exact .nil
  | cons _ _ hb hr =>
      have hbody := ElabStmts.writes hb
      exact (Written.mono (show Written s.decl _ _ from hbody) (List.subset_append_left ..)).append
        ((ElabHandlers.writes hr).mono (List.subset_append_right ..))

end

theorem ElabBody.writes {k : BodyKind} {s : Scope} {stmts : List Surface.Stmt}
    {ts : List Typed.Stmt} {cs : List CallSite} (h : ElabBody k s stmts ts cs) :
    Written s.decl (Typed.stmtsParts ts) cs := by
  cases h with
  | plain hs => exact hs.writes
  | super _ _ _ ha _ hr =>
      refine (ha.writes.mono ?_).append (hr.writes.mono (List.subset_append_right ..))
      exact List.Subset.trans (List.subset_append_left ..) (List.subset_append_left ..)

/-! ## Calls of superclass constructors -/

mutual

theorem ElabStmt.noSuper {k : BodyKind} {s s' : Scope} {c : Surface.Stmt} {t : Typed.Stmt}
    {cs : List CallSite} (h : ElabStmt k s c t s' cs) : ∀ u ∈ t.inner, u.isSuperCall = false := by
  cases h with
  | declare | declareInit | setVar | setField | setStatic | setIndex | expr | retVoid | ret
  | throw => exact List.forall_mem_singleton.mpr rfl
  | branch _ _ ha hb =>
      exact List.forall_mem_cons.mpr ⟨rfl, List.forall_mem_append.mpr
        ⟨ElabStmt.noSuper ha, ElabElse.noSuper hb⟩⟩
  | loop _ _ hb => exact List.forall_mem_cons.mpr ⟨rfl, ElabStmt.noSuper hb⟩
  | attempt hb hh hc =>
      exact List.forall_mem_cons.mpr ⟨rfl, List.forall_mem_append.mpr ⟨ElabStmts.noSuper hb,
        List.forall_mem_append.mpr ⟨ElabHandlers.noSuper hh, ElabCleanup.noSuper hc⟩⟩⟩
  | block hb => exact List.forall_mem_cons.mpr ⟨rfl, ElabStmts.noSuper hb⟩

theorem ElabElse.noSuper {k : BodyKind} {s : Scope} {c : Option Surface.Stmt}
    {t : Option Typed.Stmt} {cs : List CallSite} (h : ElabElse k s c t cs) :
    ∀ u ∈ Typed.elseInner t, u.isSuperCall = false := by
  cases h with
  | none => exact fun _ hu => absurd hu List.not_mem_nil
  | some hb => exact ElabStmt.noSuper hb

theorem ElabStmts.noSuper {k : BodyKind} {s : Scope} {cs : List Surface.Stmt}
    {ts : List Typed.Stmt} {ds : List CallSite} (h : ElabStmts k s cs ts ds) :
    ∀ u ∈ Typed.stmtsInner ts, u.isSuperCall = false := by
  cases h with
  | nil => exact fun _ hu => absurd hu List.not_mem_nil
  | cons hc hr =>
      exact List.forall_mem_append.mpr ⟨ElabStmt.noSuper hc, ElabStmts.noSuper hr⟩

theorem ElabCleanup.noSuper {k : BodyKind} {s : Scope} {b : Option Surface.Block}
    {t : Option (List Typed.Stmt)} {cs : List CallSite} (h : ElabCleanup k s b t cs) :
    ∀ u ∈ Typed.cleanupInner t, u.isSuperCall = false := by
  cases h with
  | none => exact fun _ hu => absurd hu List.not_mem_nil
  | some hb => exact ElabStmts.noSuper hb

theorem ElabHandlers.noSuper {k : BodyKind} {s : Scope} {hs : List Surface.Handler}
    {ts : List Typed.Handler} {cs : List CallSite} (h : ElabHandlers k s hs ts cs) :
    ∀ u ∈ Typed.handlersInner ts, u.isSuperCall = false := by
  cases h with
  | nil => exact fun _ hu => absurd hu List.not_mem_nil
  | cons _ _ hb hr =>
      exact List.forall_mem_append.mpr ⟨ElabStmts.noSuper hb, ElabHandlers.noSuper hr⟩

end

/-- What is written down for the call of a superclass constructor anywhere in a body. -/
theorem ElabBody.writes_superCall {k : BodyKind} {s : Scope} {stmts : List Surface.Stmt}
    {ts : List Typed.Stmt} {cs : List CallSite} (h : ElabBody k s stmts ts cs) {span : Span}
    {site : SiteId} {ctor : DeclId} {args : List Typed.Expr}
    (hmem : .superCall span site ctor args ∈ Typed.stmtsInner ts) :
    ⟨site, s.decl, ctor, .super, some (s.thisExpr span), args, span⟩ ∈ cs := by
  have none {stmts : List Surface.Stmt} {ts : List Typed.Stmt} {cs : List CallSite}
      (h : ElabStmts k s stmts ts cs)
      (hmem : .superCall span site ctor args ∈ Typed.stmtsInner ts) : False :=
    absurd (h.noSuper _ hmem) (by simp [Typed.Stmt.isSuperCall])
  cases h with
  | plain hs => exact (none hs hmem).elim
  | super _ _ _ _ _ hr =>
      rcases List.mem_cons.mp hmem with heq | hmem
      · cases heq
        exact List.mem_append_left _ (List.mem_append_right _ List.mem_cons_self)
      · exact (none hr hmem).elim

/-! ## Calls of a checked program -/

section

variable {p : Surface.Program} (hp : p.WellFormed) {env : Env} (h : checkProgram p = .ok env)
  {decl : DeclId}

include hp h

/-- A body that is not empty was written in the program, with its calls. -/
theorem body_writes {body : List Typed.Stmt} (hb : env.body? decl = some body) :
    body = [] ∨ ∃ k s stmts cs, ElabBody k s stmts body cs ∧ s.decl = decl ∧
      ∀ c ∈ cs, env.callSites.get? c.id = some c := by
  rcases body_cases hp h hb with ⟨_, hnil⟩ | ⟨t, m, _, hmade⟩
  · exact .inl hnil
  · obtain ⟨env₀, cs, hd, _, hm, hcs⟩ := hmade.rules
    cases hm with
    | @body _ d _ info _ _ _ _ hi he =>
        exact .inr ⟨_, _, _, _, he, (hd.method_cases d.id info hi).1, hcs⟩
    | block he => exact .inr ⟨_, _, _, _, he, rfl, hcs⟩

theorem init_writes {init : Typed.Expr} (hi : env.fieldInits.get? decl = some init) :
    ∃ s e cs, Elab s e init cs ∧ s.decl = decl ∧
      ∀ c ∈ cs, env.callSites.get? c.id = some c := by
  obtain ⟨t, d, _, hmade⟩ := init_cases hp h hi
  obtain ⟨env₀, cs, _, _, hm, hcs⟩ := hmade.rules
  cases hm with
  | init _ _ he => exact ⟨_, _, _, he, rfl, hcs⟩

/-- What is written down for a call of a body or a first value is found under its number. -/
theorem callSite_of_part {e : Typed.Expr} (he : e ∈ env.partsOf decl) {c : CallSite}
    (hc : e.callSite? decl = some c) : env.callSites.get? c.id = some c := by
  rcases List.mem_append.mp he with hbody | hinit
  · cases hb : env.body? decl with
    | none =>
        rw [hb] at hbody
        exact absurd hbody List.not_mem_nil
    | some body =>
        rw [hb] at hbody
        rcases body_writes hp h hb with hnil | ⟨k, s, stmts, cs, hrules, hdecl, hcs⟩
        · rw [hnil] at hbody
          exact absurd hbody List.not_mem_nil
        · exact hcs c (hrules.writes e hbody c (hdecl ▸ hc))
  · cases hi : env.fieldInits.get? decl with
    | none =>
        rw [hi] at hinit
        exact absurd hinit List.not_mem_nil
    | some init =>
        rw [hi] at hinit
        obtain ⟨s, _, cs, hrules, hdecl, hcs⟩ := init_writes hp h hi
        exact hcs c (hrules.writes e hinit c (hdecl ▸ hc))

/-- What is written down for the call of a superclass constructor is found under its number. -/
theorem callSite_of_superCall {span : Span} {site : SiteId} {ctor : DeclId}
    {args : List Typed.Expr} (hmem : .superCall span site ctor args ∈ env.stmtsOf decl) :
    ∃ c, env.callSites.get? site = some ⟨site, decl, ctor, .super, some (.this span c), args, span⟩
    := by
  cases hb : env.body? decl with
  | none =>
      rw [Env.stmtsOf, hb] at hmem
      exact absurd hmem List.not_mem_nil
  | some body =>
      rw [Env.stmtsOf, hb] at hmem
      rcases body_writes hp h hb with hnil | ⟨k, s, stmts, cs, hbody, rfl, hcs⟩
      · rw [hnil] at hmem
        exact absurd hmem List.not_mem_nil
      · exact ⟨s.className, hcs _ (hbody.writes_superCall hmem)⟩

/-- Calls are kept by their numbers. -/
theorem nodup_callSites : env.callSites.keys.Nodup ∧
    ∀ x ∈ env.callSites.entries, x.1 = x.2.id := by
  obtain ⟨env₀, parts, _, _, _, hn, rfl⟩ := checkProgram_elab hp h
  have hsorted := nodup_sorted hn.nodup
  show (siteTable _).keys.Nodup ∧ ∀ x ∈ (siteTable _).entries, x.1 = x.2.id
  rw [Table.keys, siteTable, Table.entries_ofList hsorted]
  refine ⟨hsorted, fun x hx => ?_⟩
  obtain ⟨c, _, rfl⟩ := List.mem_map.mp hx
  rfl

end

end Typing

end Covenant
