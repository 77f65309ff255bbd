import Covenant.Proofs.CallSites
import Covenant.Proofs.TokenSpans

/-!
# The spans of bodies
-/

namespace Covenant.Typing

open Surface (wellSpannedAll)

variable {P : Span → Prop}

mutual

/-- What a rule makes of an expression has spans of the expression only. -/
theorem Elab.spans {s : Scope} {e : Surface.Expr} {t : Typed.Expr} {cs : List CallSite}
    (h : Elab s e t cs) (he : e.AllSpans P) : SpansIn P t := by
  obtain ⟨hspan, hparts⟩ := he
  cases h with
  | int | bool | null | var | param | ownStatic | classField | staticField | result =>
      exact spans_cons hspan spans_nil
  | this => exact thisExpr_spans hspan
  | ownField => exact spans_cons hspan (thisExpr_spans hspan)
  | binary hl hr => exact spans_cons hspan (spans_append (hl.spans hparts.1) (hr.spans hparts.2))
  | unary hx | old hx | spread hx => exact spans_cons hspan (hx.spans hparts)
  | field ho | length ho => exact spans_cons hspan (ho.spans hparts.1)
  | staticCall ha => exact spans_cons hspan (ha.spans hparts.2)
  | classCall _ ha | droppedCall _ _ ha => exact spans_cons hspan (ha.spans hparts.2.2)
  | ownCall ha =>
      exact spans_cons hspan (spans_append (thisExpr_spans hparts.1.1) (ha.spans hparts.2))
  | methodCall ho _ ha =>
      exact spans_cons hspan (spans_append (ho.spans hparts.1) (ha.spans hparts.2.2))
  | new _ _ ha => exact spans_cons hspan (ha.spans hparts.2)
  | newArray _ hl => exact spans_cons hspan (hl.spans hparts.2)
  | index ha _ hi => exact spans_cons hspan (spans_append (ha.spans hparts.1) (hi.spans hparts.2))

theorem ElabAll.spans {s : Scope} {around : Span} {es : List Surface.Expr} {ts : List Typed.Expr}
    {cs : List CallSite} (h : ElabAll s es ts cs)
    (hes : wellSpannedAll (fun s _ => P s) (fun s _ => P s) around es) : SpansInAll P ts := by
  cases h with
  | nil => exact spans_nil
  | cons he hrest => exact spans_append (he.spans hes.1) (hrest.spans hes.2)

end

mutual

theorem ElabStmt.spans {k : BodyKind} {s s₁ : Scope} {c : Surface.Stmt} {t : Typed.Stmt}
    {cs : List CallSite} (h : ElabStmt k s c t s₁ cs) (hc : c.All (·.AllSpans P)) :
    ∀ x ∈ t.parts, P x.span := by
  cases h with
  | declare | retVoid => exact spans_nil
  | declareInit _ hv | ret _ hv => exact hv.spans (hc _ rfl)
  | setVar hv | setStatic hv => exact hv.spans hc.2
  | setField hv ht => exact spans_append (List.forall_mem_cons.mp (ht.spans hc.1)).2 (hv.spans hc.2)
  | setIndex hv ht =>
      obtain ⟨ha, hi⟩ := List.forall_mem_append.mp (List.forall_mem_cons.mp (ht.spans hc.1)).2
      exact spans_append ha (spans_append hi (hv.spans hc.2))
  | expr he | throw he => exact he.spans hc
  | branch hcond _ ha hb =>
      exact spans_append (hcond.spans hc.1) (spans_append (ha.spans hc.2.1) (hb.spans hc.2.2))
  | loop hcond _ hb => exact spans_append (hcond.spans hc.1) (hb.spans hc.2)
  | attempt hb hh hcl =>
      exact spans_append (hb.spans hc.1.stmts) (spans_append (hh.spans hc.2.1) (hcl.spans hc.2.2))
  | block hb => exact hb.spans hc.stmts

theorem ElabElse.spans {k : BodyKind} {s : Scope} {c : Option Surface.Stmt} {t : Option Typed.Stmt}
    {cs : List CallSite} (h : ElabElse k s c t cs) (hc : Surface.elseAll (·.AllSpans P) c) :
    ∀ x ∈ Typed.elseParts t, P x.span := by
  cases h with
  | none => exact spans_nil
  | some hb => exact hb.spans hc

theorem ElabStmts.spans {k : BodyKind} {s : Scope} {c : List Surface.Stmt} {ts : List Typed.Stmt}
    {cs : List CallSite} (h : ElabStmts k s c ts cs) (hc : Surface.stmtsAll (·.AllSpans P) c) :
    ∀ x ∈ Typed.stmtsParts ts, P x.span := by
  cases h with
  | nil => exact spans_nil
  | cons hs hrest => exact spans_append (hs.spans hc.1) (hrest.spans hc.2)

theorem ElabCleanup.spans {k : BodyKind} {s : Scope} {b : Option Surface.Block}
    {t : Option (List Typed.Stmt)} {cs : List CallSite} (h : ElabCleanup k s b t cs)
    (hb : Surface.blockAll (·.AllSpans P) b) : ∀ x ∈ Typed.cleanupParts t, P x.span := by
  cases h with
  | none => exact spans_nil
  | some hbody => exact hbody.spans (Surface.Block.All.stmts hb)

theorem ElabHandlers.spans {k : BodyKind} {s : Scope} {hs : List Surface.Handler}
    {ts : List Typed.Handler} {cs : List CallSite} (h : ElabHandlers k s hs ts cs)
    (hc : Surface.handlersAll (·.AllSpans P) hs) : ∀ x ∈ Typed.handlersParts ts, P x.span := by
  cases h with
  | nil => exact spans_nil
  | cons _ _ hb hr => exact spans_append (hb.spans (Surface.Block.All.stmts hc.1)) (hr.spans hc.2)

end

theorem ElabBody.spans {k : BodyKind} {s : Scope} {c : List Surface.Stmt} {ts : List Typed.Stmt}
    {cs : List CallSite} (h : ElabBody k s c ts cs) (hc : Surface.stmtsAll (·.AllSpans P) c) :
    ∀ x ∈ Typed.stmtsParts ts, P x.span := by
  cases h with
  | plain hs => exact hs.spans hc
  | @super span _ args _ _ _ _ _ _ _ _ _ _ _ ha _ hr =>
      have hargs : wellSpannedAll (fun s _ => P s) (fun s _ => P s) span args :=
        Surface.wellSpannedAll_of_forall hc.1
      exact spans_append (ha.spans hargs) (hr.spans hc.2)

/-- The expressions in a body or a first value have spans of the member that they stand in. -/
theorem partsOf_spans {p : Surface.Program} (hp : p.WellFormed) {env : Env}
    (h : checkProgram p = .ok env)
    (hall : ∀ t ∈ p.types, ∀ m ∈ t.members, m.All (·.AllSpans P)) {decl : DeclId} :
    ∀ e ∈ env.partsOf decl, P e.span := by
  have hbody : ∀ e ∈ Typed.stmtsParts ((env.body? decl).getD []), P e.span := by
    cases hb : env.body? decl with
    | none => exact spans_nil
    | some body =>
        rcases body_cases hp h hb with ⟨_, rfl⟩ | ⟨t, m, _, hmade⟩
        · exact spans_nil
        · have hm := hall t hmade.type m hmade.member
          obtain ⟨env₀, cs, _, _, hrules, _⟩ := hmade.rules
          cases hrules with
          | @body _ d b _ _ _ hd hsome _ he =>
              rcases hd with rfl | rfl
              all_goals
                rw [Surface.Member.All, hsome] at hm
                exact he.spans (Surface.Block.All.stmts hm)
          | block he => exact he.spans (Surface.Block.All.stmts hm)
  have hinit : ∀ e ∈ Typed.Expr.partsOpt (env.fieldInits.get? decl), P e.span := by
    cases hi : env.fieldInits.get? decl with
    | none => exact spans_nil
    | some init =>
        obtain ⟨t, d, rfl, hmade⟩ := init_cases hp h hi
        have hm := hall t hmade.type (.field d) hmade.member
        obtain ⟨env₀, cs, _, _, hrules, _⟩ := hmade.rules
        cases hrules with
        | init hsome _ he => exact he.spans (hm _ hsome)
  exact spans_append hbody hinit

end Covenant.Typing
