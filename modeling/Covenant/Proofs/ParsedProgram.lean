import Covenant.Proofs.Parsed

/-!
# What the parser lets through: programs

In a whole program no two calls have one number and no two declarations have one
identity, no body has a form that only clauses know, the names of types are
words, and interfaces hold nothing but methods of objects without bodies.
-/

namespace Covenant

namespace Surface

mutual

/-- The numbers of the calls in a statement. -/
def Stmt.sites : Stmt → List SiteId
  | .declare _ _ _ value | .ret _ value => valueSites value
  | .assign _ target value => target.sites ++ value.sites
  | .expr _ value | .throw _ value => value.sites
  | .branch _ condition a b => condition.sites ++ a.sites ++ elseSites b
  | .loop _ condition body => condition.sites ++ body.sites
  | .superCall _ site args => site :: sitesAll args
  | .attempt _ body handlers cleanup => body.sites ++ handlersSites handlers ++ blockSites cleanup
  | .block _ body => body.sites

/-- The numbers of the calls in an expression that may be left out. -/
def valueSites : Option Expr → List SiteId
  | none => []
  | some e => e.sites

def elseSites : Option Stmt → List SiteId
  | none => []
  | some s => s.sites

def Block.sites : Block → List SiteId
  | .mk _ stmts => stmtsSites stmts

def blockSites : Option Block → List SiteId
  | none => []
  | some b => b.sites

def stmtsSites : List Stmt → List SiteId
  | [] => []
  | s :: rest => s.sites ++ stmtsSites rest

def Handler.sites : Handler → List SiteId
  | .mk _ _ body => body.sites

def handlersSites : List Handler → List SiteId
  | [] => []
  | h :: rest => h.sites ++ handlersSites rest

end

mutual

/-- Whether all expressions of a statement are those of bodies. -/
def Stmt.Lexical : Stmt → Prop
  | .declare _ _ _ value | .ret _ value => valueLexical value
  | .assign _ target value => target.Lexical .body ∧ value.Lexical .body
  | .expr _ value | .throw _ value => value.Lexical .body
  | .branch _ condition a b => (condition.Lexical .body ∧ a.Lexical) ∧ elseLexical b
  | .loop _ condition body => condition.Lexical .body ∧ body.Lexical
  | .superCall _ _ args => lexicalAll .body args
  | .attempt _ body handlers cleanup =>
    (body.Lexical ∧ handlersLexical handlers) ∧ blockLexical cleanup
  | .block _ body => body.Lexical

def valueLexical : Option Expr → Prop
  | none => True
  | some e => e.Lexical .body

def elseLexical : Option Stmt → Prop
  | none => True
  | some s => s.Lexical

def Block.Lexical : Block → Prop
  | .mk _ stmts => stmtsLexical stmts

def blockLexical : Option Block → Prop
  | none => True
  | some b => b.Lexical

def stmtsLexical : List Stmt → Prop
  | [] => True
  | s :: rest => s.Lexical ∧ stmtsLexical rest

def Handler.Lexical : Handler → Prop
  | .mk _ _ body => body.Lexical

def handlersLexical : List Handler → Prop
  | [] => True
  | h :: rest => h.Lexical ∧ handlersLexical rest

end

/-- What is known of a member: its bodies are lexical, and methods and constructors are marked as
what they are. -/
def Member.WellFormed : Member → Prop
  | .field d => valueLexical d.init
  | .constructor d =>
    (d.isConstructor = true ∧ d.isStatic = false ∧ d.returnType = none) ∧ blockLexical d.body
  | .method d => d.isConstructor = false ∧ blockLexical d.body
  | .initializer d => d.body.Lexical

def Member.sites : Member → List SiteId
  | .field d => valueSites d.init
  | .constructor d | .method d => blockSites d.body
  | .initializer d => d.body.sites

def TypeDecl.sites (t : TypeDecl) : List SiteId := t.members.flatMap Member.sites

/-- The identities of a type and its members. -/
def TypeDecl.ids (t : TypeDecl) : List DeclId := t.id :: t.members.map Member.id

end Surface

namespace Parse

open Surface (Expr TypeExpr Stmt Block Handler Member TypeDecl)

/-- What is known of a part of a body that was parsed between two states, has calls of these
numbers and is lexical, as `c` puts it. -/
structure Spans (st st' : State) (ns : List SiteId) (c : Prop) : Prop where
  advances : Advances st st'
  sites : Consecutive st.nextSite st'.nextSite ns
  lexical : c

namespace Spans

variable {st st₁ st₂ : State} {ms ns : List SiteId} {b c : Prop}

theorem of_parsed {e : Expr} (h : Parsed .body st.nextSite st st₁ e) :
    Spans st st₁ e.sites (e.Lexical .body) :=
  ⟨h.advances, h.sites, h.lexical⟩

theorem of_parsedAll {es : List Expr} (h : ParsedAll .body st.nextSite st st₁ es) :
    Spans st st₁ (Surface.sitesAll es) (Surface.lexicalAll .body es) :=
  ⟨h.advances, h.sites, h.lexical⟩

theorem of_skips (h : Skips st st₁) : Spans st st₁ [] True :=
  ⟨h.advances, h.site ▸ Consecutive.nil, trivial⟩

theorem append (h : Spans st st₁ ms b) (h' : Spans st₁ st₂ ns c) :
    Spans st st₂ (ms ++ ns) (b ∧ c) :=
  ⟨h.advances.trans h'.advances, h.sites.append h'.sites, h.lexical, h'.lexical⟩

/-- A call with its arguments. -/
theorem call (h : Spans { st with nextSite := st.nextSite + 1 } st₁ ns c) :
    Spans st st₁ (st.nextSite :: ns) c :=
  ⟨(freshSite_advances st).trans h.advances, Consecutive.singleton.append h.sites, h.lexical⟩

theorem after (h : Skips st st₁) (h' : Spans st₁ st₂ ns c) : Spans st st₂ ns c :=
  ⟨h.advances.trans h'.advances, h.site ▸ h'.sites, h'.lexical⟩

theorem before (h : Spans st st₁ ns c) (h' : Skips st₁ st₂) : Spans st st₂ ns c :=
  ⟨h.advances.trans h'.advances, h'.site ▸ h.sites, h.lexical⟩

theorem also (h : Spans st st₁ ns c) (hb : b) : Spans st st₁ ns (b ∧ c) :=
  ⟨h.advances, h.sites, hb, h.lexical⟩

theorem scanned (h : Spans st st₁ ns c) (hs : st.Scanned) : st₁.Scanned := h.advances.scanned hs

end Spans

/-! ## Statements -/

theorem arraySuffixes_skips {n : Nat} {t t' : TypeExpr} {st st' : State}
    (h : arraySuffixes n t st = .ok (t', st')) : Skips st st' := by
  induction n generalizing t st with
  | zero =>
      cases h
      exact Skips.refl _
  | succ n ih =>
      obtain ⟨a, _, ha, h₁⟩ := stateT_bind.mp h
      obtain rfl := isAhead_ok ha
      obtain ⟨b, _, hb, h₂⟩ := stateT_bind.mp h₁
      obtain rfl := isAhead_ok hb
      split at h₂
      · obtain ⟨_, _, hskip, h₃⟩ := stateT_bind.mp h₂
        obtain ⟨_, _, hclose, h₄⟩ := stateT_bind.mp h₃
        exact ((skip_ok hskip).trans (expectMark_ok hclose)).trans (ih h₄)
      · cases h₂
        exact Skips.refl _

theorem typeExpr_skips {t : TypeExpr} {st st' : State} (hs : st.Scanned)
    (h : typeExpr st = .ok (t, st')) : Skips st st' := by
  obtain ⟨base, _, hb, h₁⟩ := stateT_bind.mp h
  obtain ⟨n, _, hn, h₂⟩ := stateT_bind.mp h₁
  obtain rfl := budget_ok hn
  exact (elementType_parsed hs hb).1.trans (arraySuffixes_skips h₂)

theorem semicolon_ok {n : Nat} {st st' : State} (h : semicolon st = .ok (n, st')) :
    Skips st st' := by
  obtain ⟨_, _, hm, hend⟩ := stateT_bind.mp h
  cases hend
  exact expectMark_ok hm

theorem optionalValue_spans {v : Option Expr} {st st' : State} (hs : st.Scanned)
    (h : optionalValue st = .ok (v, st')) :
    Spans st st' (Surface.valueSites v) (Surface.valueLexical v) := by
  obtain ⟨b, st₁, hb, h₁⟩ := stateT_bind.mp h
  have k := eat_ok hb
  cases b with
  | true =>
      simp only [if_true] at h₁
      obtain ⟨e, st₂, he, hend⟩ := stateT_bind.mp h₁
      cases hend
      exact (Spans.of_parsed (expr_parsed (k.scanned hs) he)).after k
  | false =>
      simp only [Bool.false_eq_true, if_false] at h₁
      cases h₁
      exact Spans.of_skips k

theorem condition_spans {e : Expr} {st st' : State} (hs : st.Scanned)
    (h : condition st = .ok (e, st')) : Spans st st' e.sites (e.Lexical .body) := by
  obtain ⟨_, _, hopen, h₁⟩ := stateT_bind.mp h
  obtain ⟨_, _, he, h₂⟩ := stateT_bind.mp h₁
  obtain ⟨_, _, hclose, hend⟩ := stateT_bind.mp h₂
  cases hend
  have k := expectMark_ok hopen
  exact ((Spans.of_parsed (expr_parsed (k.scanned hs) he)).after k).before (expectMark_ok hclose)

theorem declaration_spans {start : Nat} {s : Stmt} {st st' : State} (hs : st.Scanned)
    (h : declaration start st = .ok (s, st')) : Spans st st' s.sites s.Lexical := by
  obtain ⟨type, _, ht, h₁⟩ := stateT_bind.mp h
  obtain ⟨name, _, hn, h₂⟩ := stateT_bind.mp h₁
  obtain ⟨value, _, hv, h₃⟩ := stateT_bind.mp h₂
  obtain ⟨stop, _, hstop, hend⟩ := stateT_bind.mp h₃
  cases hend
  have k₁ := typeExpr_skips hs ht
  have k := k₁.trans (expectName_ok hn (k₁.scanned hs)).1
  exact ((optionalValue_spans (k.scanned hs) hv).after k).before (semicolon_ok hstop)

theorem simpleStmt_spans {start : Nat} {s : Stmt} {st st' : State} (hs : st.Scanned)
    (h : simpleStmt start st = .ok (s, st')) : Spans st st' s.sites s.Lexical := by
  obtain ⟨e, st₁, he, h₁⟩ := stateT_bind.mp h
  obtain ⟨b, st₂, hb, h₂⟩ := stateT_bind.mp h₁
  have pe := (Spans.of_parsed (expr_parsed hs he)).before (eat_ok hb)
  cases b with
  | true =>
      simp only [if_true] at h₂
      split at h₂
      · obtain ⟨_, _, hf, _⟩ := stateT_bind.mp h₂
        exact absurd hf not_failAt
      · obtain ⟨value, st₃, hv, h₃⟩ := stateT_bind.mp h₂
        obtain ⟨stop, _, hstop, hend⟩ := stateT_bind.mp h₃
        cases hend
        exact (pe.append (Spans.of_parsed (expr_parsed (pe.scanned hs) hv))).before
          (semicolon_ok hstop)
  | false =>
      simp only [Bool.false_eq_true, if_false] at h₂
      obtain ⟨stop, _, hstop, hend⟩ := stateT_bind.mp h₂
      cases hend
      exact pe.before (semicolon_ok hstop)

theorem isDeclarationAhead_ok {b : Bool} {st st' : State}
    (h : isDeclarationAhead st = .ok (b, st')) : st = st' := by
  cases h
  rfl

mutual

theorem stmtWithin_spans {n : Nat} {s : Stmt} {st st' : State} (hs : st.Scanned)
    (h : stmtWithin n st = .ok (s, st')) : Spans st st' s.sites s.Lexical := by
  match n with
  | 0 => exact absurd h not_failAtEnd
  | n + 1 =>
      obtain ⟨start, _, hstart, h₁⟩ := stateT_bind.mp h
      obtain rfl := position_ok hstart
      obtain ⟨l, _, hpeek, h₂⟩ := stateT_bind.mp h₁
      obtain ⟨rfl, hl⟩ := peek_ok hpeek
      obtain ⟨y, hy, h₂⟩ := exists_rule h₂
      split at hy
      · subst hy
        exact absurd h₂ not_failAtEnd
      · split at hy <;> subst hy
        · obtain ⟨body, _, hbody, hend⟩ := stateT_bind.mp h₂
          cases hend
          exact blockWithin_spans hs hbody
        · obtain ⟨_, _, hskip, h₃⟩ := stateT_bind.mp h₂
          obtain ⟨cond, _, hcond, h₄⟩ := stateT_bind.mp h₃
          obtain ⟨yes, _, hyes, h₅⟩ := stateT_bind.mp h₄
          obtain ⟨b, _, hb, h₆⟩ := stateT_bind.mp h₅
          have k := skip_ok hskip
          have pc := (condition_spans (k.scanned hs) hcond).after k
          have py := (pc.append (stmtWithin_spans (pc.scanned hs) hyes)).before (eat_ok hb)
          cases b with
          | true =>
              simp only [if_true] at h₆
              obtain ⟨no, _, hno, hend⟩ := stateT_bind.mp h₆
              cases hend
              exact py.append (stmtWithin_spans (py.scanned hs) hno)
          | false =>
              simp only [Bool.false_eq_true, if_false] at h₆
              cases h₆
              exact py.append (Spans.of_skips (Skips.refl _))
        · obtain ⟨_, _, hskip, h₃⟩ := stateT_bind.mp h₂
          obtain ⟨cond, _, hcond, h₄⟩ := stateT_bind.mp h₃
          obtain ⟨body, _, hbody, hend⟩ := stateT_bind.mp h₄
          cases hend
          have k := skip_ok hskip
          have pc := (condition_spans (k.scanned hs) hcond).after k
          exact pc.append (stmtWithin_spans (pc.scanned hs) hbody)
        · obtain ⟨_, _, hskip, h₃⟩ := stateT_bind.mp h₂
          obtain ⟨b, _, hb, h₄⟩ := stateT_bind.mp h₃
          obtain rfl := isAhead_ok hb
          have k := skip_ok hskip
          cases b with
          | true =>
              simp only [if_true] at h₄
              obtain ⟨stop, _, hstop, hend⟩ := stateT_bind.mp h₄
              cases hend
              exact (Spans.of_skips k).before (semicolon_ok hstop)
          | false =>
              simp only [Bool.false_eq_true, if_false] at h₄
              obtain ⟨value, _, hv, h₅⟩ := stateT_bind.mp h₄
              obtain ⟨stop, _, hstop, hend⟩ := stateT_bind.mp h₅
              cases hend
              exact ((Spans.of_parsed (expr_parsed (k.scanned hs) hv)).after k).before
                (semicolon_ok hstop)
        · obtain ⟨_, _, hskip, h₃⟩ := stateT_bind.mp h₂
          obtain ⟨body, _, hbody, h₄⟩ := stateT_bind.mp h₃
          obtain ⟨handlers, _, hh, h₅⟩ := stateT_bind.mp h₄
          obtain ⟨b, _, hb, h₆⟩ := stateT_bind.mp h₅
          have k := skip_ok hskip
          have pb := (blockWithin_spans (k.scanned hs) hbody).after k
          have ph := (pb.append (handlersWithin_spans (pb.scanned hs) hh)).before (eat_ok hb)
          cases b with
          | true =>
              simp only [if_true] at h₆
              obtain ⟨cleanup, _, hc, hend⟩ := stateT_bind.mp h₆
              cases hend
              exact ph.append (blockWithin_spans (ph.scanned hs) hc)
          | false =>
              simp only [Bool.false_eq_true, if_false] at h₆
              split at h₆
              · obtain ⟨_, _, hf, _⟩ := stateT_bind.mp h₆
                exact absurd hf not_failAt
              · cases h₆
                exact ph.append (Spans.of_skips (Skips.refl _))
        · obtain ⟨_, _, hskip, h₃⟩ := stateT_bind.mp h₂
          obtain ⟨value, _, hv, h₄⟩ := stateT_bind.mp h₃
          obtain ⟨stop, _, hstop, hend⟩ := stateT_bind.mp h₄
          cases hend
          have k := skip_ok hskip
          exact ((Spans.of_parsed (expr_parsed (k.scanned hs) hv)).after k).before
            (semicolon_ok hstop)
        · obtain ⟨_, _, hskip, h₃⟩ := stateT_bind.mp h₂
          obtain ⟨site, st₃, hsite, h₄⟩ := stateT_bind.mp h₃
          obtain ⟨⟨args, _⟩, _, hargs, h₅⟩ := stateT_bind.mp h₄
          obtain ⟨stop, _, hstop, hend⟩ := stateT_bind.mp h₅
          obtain ⟨rfl, rfl⟩ := freshSite_ok hsite
          cases hend
          have k := skip_ok hskip
          have ks := (k.advances.trans (freshSite_advances _)).scanned hs
          have pa := Spans.of_parsedAll (callArguments_parsed ks hargs)
          exact (pa.call.after k).before (semicolon_ok hstop)
        · obtain ⟨b, _, hb, h₃⟩ := stateT_bind.mp h₂
          obtain rfl := isDeclarationAhead_ok hb
          cases b with
          | true => exact declaration_spans hs h₃
          | false => exact simpleStmt_spans hs h₃

theorem blockWithin_spans {n : Nat} {b : Block} {st st' : State} (hs : st.Scanned)
    (h : blockWithin n st = .ok (b, st')) : Spans st st' b.sites b.Lexical := by
  match n with
  | 0 => exact absurd h not_failExpected
  | n + 1 =>
      obtain ⟨_, _, hopen, h₁⟩ := stateT_bind.mp h
      obtain ⟨stmts, _, hstmts, h₂⟩ := stateT_bind.mp h₁
      obtain ⟨_, _, hclose, hend⟩ := stateT_bind.mp h₂
      cases hend
      have k := expectMark_ok hopen
      exact ((stmtsWithin_spans (k.scanned hs) hstmts).after k).before (expectMark_ok hclose)

theorem stmtsWithin_spans {n : Nat} {stmts : List Stmt} {st st' : State} (hs : st.Scanned)
    (h : stmtsWithin n st = .ok (stmts, st')) :
    Spans st st' (Surface.stmtsSites stmts) (Surface.stmtsLexical stmts) := by
  match n with
  | 0 =>
      cases h
      exact Spans.of_skips (Skips.refl _)
  | n + 1 =>
      obtain ⟨ended, _, hended, h₁⟩ := stateT_bind.mp h
      obtain rfl := atCloser_ok hended
      cases ended with
      | true =>
          simp only [if_true] at h₁
          cases h₁
          exact Spans.of_skips (Skips.refl _)
      | false =>
          simp only [Bool.false_eq_true, if_false] at h₁
          obtain ⟨s, _, hstmt, h₂⟩ := stateT_bind.mp h₁
          obtain ⟨rest, _, hrest, hend⟩ := stateT_bind.mp h₂
          cases hend
          have ps := stmtWithin_spans hs hstmt
          exact ps.append (stmtsWithin_spans (ps.scanned hs) hrest)

theorem handlersWithin_spans {n : Nat} {handlers : List Handler} {st st' : State}
    (hs : st.Scanned) (h : handlersWithin n st = .ok (handlers, st')) :
    Spans st st' (Surface.handlersSites handlers)
      (Surface.handlersLexical handlers) := by
  match n with
  | 0 =>
      cases h
      exact Spans.of_skips (Skips.refl _)
  | n + 1 =>
      obtain ⟨b, _, hb, h₁⟩ := stateT_bind.mp h
      have k₀ := eat_ok hb
      cases b with
      | true =>
          simp only [if_true] at h₁
          obtain ⟨_, _, hopen, h₂⟩ := stateT_bind.mp h₁
          obtain ⟨c, _, hc, h₃⟩ := stateT_bind.mp h₂
          obtain ⟨var, _, hvar, h₄⟩ := stateT_bind.mp h₃
          obtain ⟨_, _, hclose, h₅⟩ := stateT_bind.mp h₄
          obtain ⟨body, _, hbody, h₆⟩ := stateT_bind.mp h₅
          obtain ⟨rest, _, hrest, hend⟩ := stateT_bind.mp h₆
          cases hend
          have k₁ := k₀.trans (expectMark_ok hopen)
          have k₂ := k₁.trans (expectName_ok hc (k₁.scanned hs)).1
          have k₃ := k₂.trans (expectName_ok hvar (k₂.scanned hs)).1
          have k := k₃.trans (expectMark_ok hclose)
          have pb := (blockWithin_spans (k.scanned hs) hbody).after k
          exact pb.append (handlersWithin_spans (pb.scanned hs) hrest)
      | false =>
          simp only [Bool.false_eq_true, if_false] at h₁
          cases h₁
          exact Spans.of_skips k₀

end

theorem block_spans {b : Block} {st st' : State} (hs : st.Scanned)
    (h : block st = .ok (b, st')) : Spans st st' b.sites b.Lexical := by
  obtain ⟨n, _, hn, h₁⟩ := stateT_bind.mp h
  obtain rfl := budget_ok hn
  exact blockWithin_spans hs h₁

/-! ## Declarations -/

/-- What is known of declarations that were parsed between two states, with these identities and
calls of these numbers. -/
structure Declares (st st' : State) (ids : List DeclId) (ns : List SiteId) : Prop where
  rest : st'.rest <:+ st.rest
  ids : Consecutive st.nextDecl st'.nextDecl ids
  sites : Consecutive st.nextSite st'.nextSite ns

namespace Declares

variable {st st₁ st₂ : State} {is js : List DeclId} {ms ns : List SiteId}

theorem of_spans {c : Prop} (h : Spans st st₁ ns c) : Declares st st₁ [] ns :=
  ⟨h.advances.rest, h.advances.decl ▸ Consecutive.nil, h.sites⟩

theorem of_skips (h : Skips st st₁) : Declares st st₁ [] [] := of_spans (.of_skips h)

/-- The identity of one declaration. -/
theorem fresh (st : State) :
    Declares st { st with nextDecl := st.nextDecl + 1 } [st.nextDecl] [] :=
  ⟨List.suffix_refl _, Consecutive.singleton, Consecutive.nil⟩

theorem append (h : Declares st st₁ is ms) (h' : Declares st₁ st₂ js ns) :
    Declares st st₂ (is ++ js) (ms ++ ns) :=
  ⟨h'.rest.trans h.rest, h.ids.append h'.ids, h.sites.append h'.sites⟩

theorem andThen {c : Prop} (h : Declares st st₁ is []) (h' : Spans st₁ st₂ ns c) :
    Declares st st₂ is ns := by
  have := h.append (of_spans h')
  rwa [List.append_nil] at this

theorem before (h : Declares st st₁ is ns) (h' : Skips st₁ st₂) : Declares st st₂ is ns := by
  have := h.append (of_skips h')
  rwa [List.append_nil, List.append_nil] at this

theorem after (h : Skips st st₁) (h' : Declares st₁ st₂ is ns) : Declares st st₂ is ns :=
  (of_skips h).append h'

theorem scanned (h : Declares st st₁ is ns) (hs : st.Scanned) : st₁.Scanned :=
  fun l hl => hs l (h.rest.subset hl)

end Declares

/-- The comment, if there is one, was left at a token that is still to come. -/
def State.Offers (st : State) (doc : Option Surface.DocComment) : Prop :=
  ∀ d, doc = some d → ∃ l ∈ st.rest, l.doc = some d

theorem Declares.offers {st st₁ : State} {is : List DeclId} {ns : List SiteId}
    {doc : Option Surface.DocComment} (h : Declares st st₁ is ns) (hdoc : st₁.Offers doc) :
    st.Offers doc := by
  intro d hd
  obtain ⟨l, hl, heq⟩ := hdoc d hd
  exact ⟨l, h.rest.subset hl, heq⟩

theorem documentation_ok {doc : Option Surface.DocComment} {st st' : State}
    (h : documentation st = .ok (doc, st')) : st = st' ∧ st.Offers doc := by
  cases h
  refine ⟨rfl, fun d hd => ?_⟩
  obtain ⟨l, hl, hdoc⟩ := Option.bind_eq_some_iff.mp hd
  exact ⟨l, List.mem_of_mem_head? hl, hdoc⟩

theorem parameterList_skips {n : Nat} {isFirst : Bool} {ps : List Surface.Param} {st st' : State}
    (hs : st.Scanned) (h : parameterList n isFirst st = .ok (ps, st')) : Skips st st' := by
  induction n generalizing isFirst ps st with
  | zero =>
      cases h
      exact Skips.refl _
  | succ n ih =>
      obtain ⟨ended, _, hended, h₁⟩ := stateT_bind.mp h
      obtain rfl := atCloser_ok hended
      have rest {st₀ : State} (k : Skips st st₀)
          (hrest : (typeExpr >>= fun type => expectName >>= fun name =>
            parameterList n false >>= fun rest =>
              pure ((⟨name, type⟩ : Surface.Param) :: rest)) st₀ = .ok (ps, st')) :
          Skips st st' := by
        obtain ⟨_, _, ht, h₂⟩ := stateT_bind.mp hrest
        obtain ⟨_, _, hn, h₃⟩ := stateT_bind.mp h₂
        obtain ⟨_, _, hps, hend⟩ := stateT_bind.mp h₃
        cases hend
        have k₁ := k.trans (typeExpr_skips (k.scanned hs) ht)
        have k₂ := k₁.trans (expectName_ok hn (k₁.scanned hs)).1
        exact k₂.trans (ih (k₂.scanned hs) hps)
      cases ended with
      | true =>
          simp only [if_true] at h₁
          cases h₁
          exact Skips.refl _
      | false =>
          simp only [Bool.false_eq_true, if_false] at h₁
          cases isFirst with
          | true => exact rest (Skips.refl _) h₁
          | false =>
              simp only [Bool.not_false, if_true] at h₁
              obtain ⟨_, _, hcomma, h₂⟩ := stateT_bind.mp h₁
              exact rest (expectMark_ok hcomma) h₂

theorem parameters_skips {ps : List Surface.Param} {st st' : State} (hs : st.Scanned)
    (h : parameters st = .ok (ps, st')) : Skips st st' := by
  obtain ⟨_, _, hopen, h₁⟩ := stateT_bind.mp h
  obtain ⟨n, _, hn, h₂⟩ := stateT_bind.mp h₁
  obtain ⟨_, _, hps, h₃⟩ := stateT_bind.mp h₂
  obtain ⟨_, _, hclose, hend⟩ := stateT_bind.mp h₃
  cases hend
  obtain rfl := budget_ok hn
  have k := expectMark_ok hopen
  exact (k.trans (parameterList_skips (k.scanned hs) hps)).trans (expectMark_ok hclose)

theorem constructorDecl_spans {id : DeclId} {doc : Option Surface.DocComment} {start : Nat}
    {m : Member} {st st' : State} (hs : st.Scanned)
    (h : constructorDecl id doc start st = .ok (m, st')) :
    (m.id = id ∧ m.doc = doc ∧ m.span.start = start) ∧ Spans st st' m.sites m.WellFormed := by
  obtain ⟨name, _, hn, h₁⟩ := stateT_bind.mp h
  obtain ⟨ps, _, hps, h₂⟩ := stateT_bind.mp h₁
  obtain ⟨body, _, hb, hend⟩ := stateT_bind.mp h₂
  cases hend
  have k₁ := (expectName_ok hn hs).1
  have k := k₁.trans (parameters_skips (k₁.scanned hs) hps)
  exact ⟨⟨rfl, rfl, rfl⟩, ((block_spans (k.scanned hs) hb).after k).also ⟨rfl, rfl, rfl⟩⟩

/-- What follows the type of a field or a method. -/
def memberTail (id : DeclId) (doc : Option Surface.DocComment) (start : Nat) (isStatic : Bool)
    (type : Option TypeExpr) : Parser Member := do
  let name ← expectName
  if ← isNextMark .lparen then
    let params ← parameters
    let (body, stop) ←
      if ← isNextMark .semi then
        pure (none, ← semicolon)
      else do
        let body ← block
        pure (some body, body.span.stop)
    return .method {
      id, doc, isStatic, name, params, body
      isConstructor := false
      returnType := type
      span := ⟨start, stop⟩ }
  match type with
  | none => failAt .voidField name.span
  | some type =>
    let init ← optionalValue
    let stop ← semicolon
    return .field { id, doc, isStatic, type, name, init, span := ⟨start, stop⟩ }

theorem memberTail_spans {id : DeclId} {doc : Option Surface.DocComment} {start : Nat}
    {isStatic : Bool} {type : Option TypeExpr} {m : Member} {st st' : State} (hs : st.Scanned)
    (h : memberTail id doc start isStatic type st = .ok (m, st')) :
    (m.id = id ∧ m.doc = doc ∧ m.span.start = start) ∧ Spans st st' m.sites m.WellFormed := by
  obtain ⟨name, _, hn, h₁⟩ := stateT_bind.mp h
  obtain ⟨b, _, hb, h₂⟩ := stateT_bind.mp h₁
  have k := (expectName_ok hn hs).1
  obtain rfl := isAhead_ok hb
  cases b with
  | true =>
      simp only [if_true] at h₂
      obtain ⟨ps, _, hps, h₃⟩ := stateT_bind.mp h₂
      have kp := k.trans (parameters_skips (k.scanned hs) hps)
      obtain ⟨b', _, hb', h₄⟩ := stateT_bind.mp h₃
      obtain rfl := isAhead_ok hb'
      cases b' with
      | true =>
          simp only [if_true] at h₄
          obtain ⟨stop, _, hstop, hend⟩ := stateT_bind.mp h₄
          cases hend
          exact ⟨⟨rfl, rfl, rfl⟩, ((Spans.of_skips kp).before (semicolon_ok hstop)).also rfl⟩
      | false =>
          simp only [Bool.false_eq_true, if_false] at h₄
          obtain ⟨body, _, hbody, hend⟩ := stateT_bind.mp h₄
          cases hend
          exact ⟨⟨rfl, rfl, rfl⟩, ((block_spans (kp.scanned hs) hbody).after kp).also rfl⟩
  | false =>
      simp only [Bool.false_eq_true, if_false] at h₂
      cases type with
      | none => exact absurd h₂ not_failAt
      | some type =>
          obtain ⟨init, _, hinit, h₃⟩ := stateT_bind.mp h₂
          obtain ⟨stop, _, hstop, hend⟩ := stateT_bind.mp h₃
          cases hend
          exact ⟨⟨rfl, rfl, rfl⟩, ((optionalValue_spans (k.scanned hs) hinit).after k).before
            (semicolon_ok hstop)⟩

theorem typedMember_spans {id : DeclId} {doc : Option Surface.DocComment} {start : Nat}
    {isStatic : Bool} {m : Member} {st st' : State} (hs : st.Scanned)
    (h : typedMember id doc start isStatic st = .ok (m, st')) :
    (m.id = id ∧ m.doc = doc ∧ m.span.start = start) ∧ Spans st st' m.sites m.WellFormed := by
  obtain ⟨b, _, hb, h₁⟩ := stateT_bind.mp h
  have k := eat_ok hb
  cases b with
  | true =>
      simp only [if_true] at h₁
      obtain ⟨hm, ps⟩ := memberTail_spans (k.scanned hs) h₁
      exact ⟨hm, ps.after k⟩
  | false =>
      simp only [Bool.false_eq_true, if_false] at h₁
      obtain ⟨type, _, ht, h₂⟩ := stateT_bind.mp h₁
      obtain ⟨t, _, ht', heq⟩ := stateT_map ht
      cases heq
      have kt := k.trans (typeExpr_skips (k.scanned hs) ht')
      obtain ⟨hm, ps⟩ := memberTail_spans (kt.scanned hs) h₂
      exact ⟨hm, ps.after kt⟩

theorem isConstructorAhead_ok {owner : String} {b : Bool} {st st' : State}
    (h : isConstructorAhead owner st = .ok (b, st')) : st = st' := by
  cases h
  rfl

theorem member_declares {owner : String} {m : Member} {st st' : State} (hs : st.Scanned)
    (h : member owner st = .ok (m, st')) :
    Declares st st' [m.id] m.sites ∧ m.WellFormed ∧ st.Offers m.doc := by
  obtain ⟨doc, _, hdoc, h₁⟩ := stateT_bind.mp h
  obtain ⟨rfl, hread⟩ := documentation_ok hdoc
  obtain ⟨start, _, hstart, h₂⟩ := stateT_bind.mp h₁
  obtain rfl := position_ok hstart
  obtain ⟨id, st₁, hid, h₃⟩ := stateT_bind.mp h₂
  have hfresh : id = st.nextDecl ∧ st₁ = { st with nextDecl := st.nextDecl + 1 } := by
    cases hid
    exact ⟨rfl, rfl⟩
  obtain ⟨rfl, rfl⟩ := hfresh
  have d := Declares.fresh st
  obtain ⟨b, _, hb, h₄⟩ := stateT_bind.mp h₃
  obtain rfl := isAhead_ok hb
  cases b with
  | true =>
      simp only [if_true] at h₄
      obtain ⟨body, _, hbody, hend⟩ := stateT_bind.mp h₄
      cases hend
      have pb := block_spans (d.scanned hs) hbody
      exact ⟨d.andThen pb, pb.lexical, hread⟩
  | false =>
      simp only [Bool.false_eq_true, if_false] at h₄
      obtain ⟨isStatic, _, hstatic, h₅⟩ := stateT_bind.mp h₄
      have dk := d.before (eat_ok hstatic)
      obtain ⟨ahead, _, hahead, h₆⟩ := stateT_bind.mp h₅
      obtain rfl := isConstructorAhead_ok hahead
      split at h₆
      · obtain ⟨⟨hid, hm, _⟩, ps⟩ := constructorDecl_spans (dk.scanned hs) h₆
        rw [hid]
        exact ⟨dk.andThen ps, ps.lexical, hm ▸ hread⟩
      · obtain ⟨⟨hid, hm, _⟩, ps⟩ := typedMember_spans (dk.scanned hs) h₆
        rw [hid]
        exact ⟨dk.andThen ps, ps.lexical, hm ▸ hread⟩

/-- Members up to the closing brace; those of an interface are signatures. -/
theorem members_declares {owner : String} {kind : Surface.TypeKind} {n : Nat}
    {ms : List Member} {st st' : State} (hs : st.Scanned)
    (h : members owner kind n st = .ok (ms, st')) :
    Declares st st' (ms.map Member.id) (ms.flatMap Member.sites) ∧
      ∀ m ∈ ms, (m.WellFormed ∧ (kind = .ofInterface → isSignature m = true)) ∧
        st.Offers m.doc := by
  induction n generalizing ms st with
  | zero =>
      cases h
      exact ⟨Declares.of_skips (Skips.refl _), fun m hm => absurd hm List.not_mem_nil⟩
  | succ n ih =>
      obtain ⟨ended, _, hended, h₁⟩ := stateT_bind.mp h
      obtain rfl := atCloser_ok hended
      cases ended with
      | true =>
          simp only [if_true] at h₁
          cases h₁
          exact ⟨Declares.of_skips (Skips.refl _), fun m hm => absurd hm List.not_mem_nil⟩
      | false =>
          simp only [Bool.false_eq_true, if_false] at h₁
          obtain ⟨m, _, hm, h₂⟩ := stateT_bind.mp h₁
          obtain ⟨dm, wm, hdoc⟩ := member_declares hs hm
          split at h₂
          · obtain ⟨_, _, hf, _⟩ := stateT_bind.mp h₂
            exact absurd hf not_failAt
          · next hsig =>
              obtain ⟨rest, _, hrest, hend⟩ := stateT_bind.mp h₂
              cases hend
              obtain ⟨dr, hr⟩ := ih (dm.scanned hs) hrest
              refine ⟨dm.append dr, fun m' hm' => ?_⟩
              rcases List.mem_cons.mp hm' with rfl | hm'
              · exact ⟨⟨wm, fun hk => by simpa [hk] using hsig⟩, hdoc⟩
              · exact ⟨(hr m' hm').1, dm.offers (hr m' hm').2⟩

theorem nameList_skips {n : Nat} {names : List (Located String)} {st st' : State}
    (hs : st.Scanned) (h : nameList n st = .ok (names, st')) : Skips st st' := by
  induction n generalizing names st with
  | zero =>
      cases h
      exact Skips.refl _
  | succ n ih =>
      obtain ⟨name, _, hn, h₁⟩ := stateT_bind.mp h
      obtain ⟨b, _, hb, h₂⟩ := stateT_bind.mp h₁
      have k := (expectName_ok hn hs).1.trans (eat_ok hb)
      cases b with
      | true =>
          simp only [if_true] at h₂
          obtain ⟨rest, _, hrest, hend⟩ := stateT_bind.mp h₂
          cases hend
          exact k.trans (ih (k.scanned hs) hrest)
      | false =>
          simp only [Bool.false_eq_true, if_false] at h₂
          cases h₂
          exact k

theorem namesAfter_skips {word : Keyword} {names : List (Located String)} {st st' : State}
    (hs : st.Scanned) (h : namesAfter word st = .ok (names, st')) : Skips st st' := by
  obtain ⟨b, _, hb, h₁⟩ := stateT_bind.mp h
  have k := eat_ok hb
  cases b with
  | true =>
      simp only [if_true] at h₁
      obtain ⟨n, _, hn, h₂⟩ := stateT_bind.mp h₁
      obtain rfl := budget_ok hn
      exact k.trans (nameList_skips (k.scanned hs) h₂)
  | false =>
      simp only [Bool.false_eq_true, if_false] at h₁
      cases h₁
      exact k

/-- What is known of a type: its name is a word, its members are well-formed, and in an interface
there are signatures only. -/
structure WellFormed (t : TypeDecl) : Prop where
  name : IsWord t.name.val
  members : ∀ m ∈ t.members, m.WellFormed
  signatures : t.kind = .ofInterface → ∀ m ∈ t.members, isSignature m = true
  superclass : t.kind = .ofInterface → t.superclass = none

/-- The superclass that a type names, if it is a class. -/
theorem superclass_skips {kind : Surface.TypeKind}
    {α : Type} {f : Option (Located String) → Parser α} {r : α × State} {st : State}
    (hs : st.Scanned)
    (h : (do
      let superclass ← match kind with
        | .ofClass => if ← eatWord .extends_ then some <$> expectName else pure none
        | .ofInterface => pure none
      f superclass) st = .ok r) :
    ∃ s st₁, Skips st st₁ ∧ (kind = .ofInterface → s = none) ∧ f s st₁ = .ok r := by
  cases kind with
  | ofClass =>
      obtain ⟨b, _, hb, h₁⟩ := stateT_bind.mp h
      have k := eat_ok hb
      cases b with
      | true =>
          simp only [if_true] at h₁
          obtain ⟨name, _, hn, h₂⟩ := stateT_bind.mp h₁
          obtain ⟨n, _, hn', heq⟩ := stateT_map hn
          cases heq
          exact ⟨_, _, k.trans (expectName_ok hn' (k.scanned hs)).1, by simp, h₂⟩
      | false =>
          simp only [Bool.false_eq_true, if_false] at h₁
          exact ⟨_, _, k, by simp, h₁⟩
  | ofInterface => exact ⟨_, _, Skips.refl _, fun _ => rfl, h⟩

theorem interfaces_skips {kind : Surface.TypeKind} {α : Type}
    {f : List (Located String) → Parser α} {r : α × State} {st : State} (hs : st.Scanned)
    (h : (do
      let interfaces ← match kind with
        | .ofClass => namesAfter .implements_
        | .ofInterface => namesAfter .extends_
      f interfaces) st = .ok r) :
    ∃ names st₁, Skips st st₁ ∧ f names st₁ = .ok r := by
  cases kind with
  | ofClass | ofInterface =>
      obtain ⟨names, _, hn, h₁⟩ := stateT_bind.mp h
      exact ⟨names, _, namesAfter_skips hs hn, h₁⟩

theorem typeDecl_declares {kind : Surface.TypeKind} {doc : Option Surface.DocComment}
    {start : Span} {t : TypeDecl} {st st' : State} (hs : st.Scanned)
    (h : typeDecl kind doc start st = .ok (t, st')) :
    Declares st st' t.ids t.sites ∧ WellFormed t ∧ t.doc = doc ∧
      ∀ m ∈ t.members, st.Offers m.doc := by
  obtain ⟨id, st₁, hid, h₁⟩ := stateT_bind.mp h
  have hfresh : id = st.nextDecl ∧ st₁ = { st with nextDecl := st.nextDecl + 1 } := by
    cases hid
    exact ⟨rfl, rfl⟩
  obtain ⟨rfl, rfl⟩ := hfresh
  have d := Declares.fresh st
  obtain ⟨name, _, hn, h₂⟩ := stateT_bind.mp h₁
  obtain ⟨k₁, hword⟩ := expectName_ok hn (d.scanned hs)
  have d₁ := d.before k₁
  obtain ⟨superclass, _, k₂, hsuper, h₃⟩ := superclass_skips (d₁.scanned hs) h₂
  have d₂ := d₁.before k₂
  obtain ⟨interfaces, _, k₃, h₄⟩ := interfaces_skips (d₂.scanned hs) h₃
  have d₃ := d₂.before k₃
  obtain ⟨_, _, hopen, h₅⟩ := stateT_bind.mp h₄
  have d₄ := d₃.before (expectMark_ok hopen)
  obtain ⟨n, _, hn', h₆⟩ := stateT_bind.mp h₅
  obtain rfl := budget_ok hn'
  obtain ⟨ms, _, hms, h₇⟩ := stateT_bind.mp h₆
  obtain ⟨dm, hsig⟩ := members_declares (d₄.scanned hs) hms
  obtain ⟨_, _, hclose, hend⟩ := stateT_bind.mp h₇
  cases hend
  exact ⟨(d₄.append dm).before (expectMark_ok hclose),
    ⟨hword, fun m hm => (hsig m hm).1.1, fun hk m hm => (hsig m hm).1.2 hk, hsuper⟩, rfl,
    fun m hm => d₄.offers (hsig m hm).2⟩

theorem typeDecls_declares {n : Nat} {ts : List TypeDecl} {st st' : State} (hs : st.Scanned)
    (h : typeDecls n st = .ok (ts, st')) :
    Declares st st' (ts.flatMap TypeDecl.ids) (ts.flatMap TypeDecl.sites) ∧
      ∀ t ∈ ts, WellFormed t ∧ st.Offers t.doc ∧ ∀ m ∈ t.members, st.Offers m.doc := by
  induction n generalizing ts st with
  | zero =>
      cases h
      exact ⟨Declares.of_skips (Skips.refl _), fun t ht => absurd ht List.not_mem_nil⟩
  | succ n ih =>
      obtain ⟨doc, _, hdoc, h₁⟩ := stateT_bind.mp h
      obtain ⟨rfl, hread⟩ := documentation_ok hdoc
      obtain ⟨l, _, hpeek, h₂⟩ := stateT_bind.mp h₁
      obtain ⟨rfl, _⟩ := peek_ok hpeek
      have more {kind : Surface.TypeKind} {span : Span}
          (h : (skip >>= fun _ => typeDecl kind doc span >>= fun t =>
            typeDecls n >>= fun rest => pure (t :: rest)) st = .ok (ts, st')) :
          Declares st st' (ts.flatMap TypeDecl.ids) (ts.flatMap TypeDecl.sites) ∧
            ∀ t ∈ ts, WellFormed t ∧ st.Offers t.doc ∧ ∀ m ∈ t.members, st.Offers m.doc := by
        obtain ⟨_, _, hskip, h₃⟩ := stateT_bind.mp h
        obtain ⟨t, _, ht, h₄⟩ := stateT_bind.mp h₃
        obtain ⟨rest, _, hrest, hend⟩ := stateT_bind.mp h₄
        cases hend
        have k := skip_ok hskip
        obtain ⟨dt, wt, hown, hmembers⟩ := typeDecl_declares (k.scanned hs) ht
        have dk := dt.after k
        obtain ⟨dr, wr⟩ := ih (dk.scanned hs) hrest
        refine ⟨dk.append dr, fun t' ht' => ?_⟩
        rcases List.mem_cons.mp ht' with rfl | ht'
        · exact ⟨wt, hown ▸ hread, fun m hm => (Declares.of_skips k).offers (hmembers m hm)⟩
        · obtain ⟨w, hdoc, hmembers⟩ := wr t' ht'
          exact ⟨w, dk.offers hdoc, fun m hm => dk.offers (hmembers m hm)⟩
      obtain ⟨y, hy, h₂⟩ := exists_rule h₂
      split at hy <;> subst hy
      · cases h₂
        exact ⟨Declares.of_skips (Skips.refl _), fun t ht => absurd ht List.not_mem_nil⟩
      · exact more h₂
      · exact more h₂
      · exact absurd h₂ not_failExpected

end Parse

namespace Surface

/-- What is known of a program that was parsed. -/
structure Program.WellFormed (p : Program) : Prop where
  ids : Numbered 0 p.declCount (p.types.flatMap TypeDecl.ids)
  sites : Numbered 0 p.siteCount (p.types.flatMap TypeDecl.sites)
  types : ∀ t ∈ p.types, Parse.WellFormed t

end Surface

/-- A parsed program is what the parser of types makes of the tokens of its source. -/
theorem Parse.program_ok {source : String} {p : Surface.Program}
    (h : Parse.program source = .ok p) :
    ∃ ts n st, Scan.program source.toList = .ok ts ∧
      typeDecls n (.ofTokens ts 0) = .ok (p.types, st) ∧
      p.declCount = st.nextDecl ∧ p.siteCount = st.nextSite := by
  obtain ⟨ts, hts, h₁⟩ := bind_eq_ok.mp h
  cases hrun : unit.run (State.ofTokens ts 0) with
  | error fault =>
      rw [programOfTokens, hrun] at h₁
      cases h₁
  | ok r =>
      obtain ⟨p', st⟩ := r
      obtain rfl : p' = p := by
        rw [programOfTokens, hrun] at h₁
        exact Except.ok.inj h₁
      obtain ⟨n, _, hn, h₂⟩ := stateT_bind.mp hrun
      obtain rfl := budget_ok hn
      obtain ⟨types, _, htypes, h₃⟩ := stateT_bind.mp h₂
      cases h₃
      exact ⟨ts, n, _, hts, htypes, rfl, rfl⟩

/-- The declarations of a parsed program and its calls are numbered from nothing on, in the order
of its text. -/
theorem Parse.program_consecutive {source : String} {p : Surface.Program}
    (h : Parse.program source = .ok p) :
    Consecutive 0 p.declCount (p.types.flatMap Surface.TypeDecl.ids) ∧
      Consecutive 0 p.siteCount (p.types.flatMap Surface.TypeDecl.sites) := by
  obtain ⟨ts, n, st, hts, htypes, hdecls, hsites⟩ := program_ok h
  have hs := State.scanned_ofTokens (Scan.program_scanned hts) 0
  have d := (typeDecls_declares hs htypes).1
  exact ⟨hdecls ▸ d.ids, hsites ▸ d.sites⟩

theorem Parse.program_wellFormed {source : String} {p : Surface.Program}
    (h : Parse.program source = .ok p) : p.WellFormed := by
  obtain ⟨ts, n, st, hts, htypes, _⟩ := program_ok h
  obtain ⟨hids, hsites⟩ := program_consecutive h
  have hs := State.scanned_ofTokens (Scan.program_scanned hts) 0
  have w := (typeDecls_declares hs htypes).2
  exact ⟨hids.numbered, hsites.numbered, fun t ht => (w t ht).1⟩

end Covenant
