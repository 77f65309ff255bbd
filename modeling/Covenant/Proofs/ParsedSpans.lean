import Covenant.Proofs.Parsed
import Covenant.Proofs.TextParts
import Covenant.Proofs.WellSpanned

/-!
# The spans that the parser gives

The tokens that are left to the parser follow one another. A rule starts the
span of what it builds at the first token that it takes and ends it at the last
one, and the tokens that it leaves come behind. So the spans of parts lie in the
span of the whole, in their order, and a name has the span of its token.
-/

namespace Covenant

namespace Parse

open Surface (Expr TypeExpr wellSpannedAll)

/-! ## Tokens in order -/

/-- One span that is not empty in another. -/
structure PartOf (s t : Span) : Prop where
  start : t.start ≤ s.start
  ne_empty : s.start < s.stop
  stop : s.stop ≤ t.stop

/-- A word stands at a span of a text. -/
structure WordAt (text : List Char) (s : Span) (name : String) : Prop where
  stands : Text.At text s.start name.toList
  stop : s.stop = s.start + Text.width name.toList
  isWord : IsWord name

/-- Whether the tokens that are left follow one another from an offset on. -/
def Follow (text : List Char) : Nat → List Lexeme → Prop
  | _, [] => True
  | lo, l :: ls => lo ≤ l.span.start ∧ l.token.At text l.span ∧ l.token.Scanned ∧
      Follow text l.span.stop ls

section

variable {text : List Char} {lo hi : Nat}

theorem Follow.mono {ls : List Lexeme} (hle : lo ≤ hi) (h : Follow text hi ls) :
    Follow text lo ls := by
  cases ls with
  | nil => exact trivial
  | cons l ls => exact ⟨Nat.le_trans hle h.1, h.2⟩

theorem WordAt.lt {s : Span} {name : String} (h : WordAt text s name) : s.start < s.stop := by
  have := Text.width_pos h.isWord.ne_nil
  have := h.stop
  omega

/-- A name stands where its token does. -/
theorem wordAt_ident {s : Span} {name : String} (h : (Token.ident name).At text s)
    (hw : (Token.ident name).Scanned) : WordAt text s name := by
  obtain ⟨cs, _, hat, hstop, rfl⟩ := h
  exact ⟨hat, hstop, hw⟩

theorem wordAt_keyword {s : Span} {k : Keyword} (h : (Token.keyword k).At text s)
    (hw : IsWord k.text) : WordAt text s k.text := by
  obtain ⟨cs, _, hat, hstop, rfl⟩ := h
  exact ⟨hat, hstop, hw⟩

/-- The comments between tokens do not disturb their order. -/
theorem follow_lexemes {ts : List (Located Token)} (h : Scan.TokensAt text lo ts)
    (hs : ∀ t ∈ ts, t.val.Scanned) (doc : Option Surface.DocComment) :
    Follow text lo (lexemesFrom doc ts) := by
  induction ts generalizing lo doc with
  | nil => exact trivial
  | cons t ts ih =>
      obtain ⟨t, span⟩ := t
      obtain ⟨hlo, hat, hrest⟩ := h
      have hlt := hat.lt
      have hafter (doc : Option Surface.DocComment) :=
        ih hrest (fun t ht => hs t (List.mem_cons_of_mem _ ht)) doc
      have hskip : lo ≤ span.stop := by
        dsimp only at hlo hlt
        omega
      rw [lexemesFrom.eq_def]
      split
      · next heq => cases heq
      · next heq =>
          cases heq
          exact (hafter _).mono hskip
      · next heq =>
          cases heq
          exact (hafter _).mono hskip
      · next heq =>
          cases heq
          exact ⟨hlo, hat, hs _ List.mem_cons_self, hafter none⟩

/-! ## Rules -/

variable {st st' : State}

/-- The next token is behind what was read, and the others are behind it. -/
theorem follow_next {l : Lexeme} (h : Follow text lo st.rest) (hl : st.rest.head? = some l)
    (hskip : skip st = .ok ((), st')) :
    lo ≤ l.span.start ∧ l.token.At text l.span ∧ l.token.Scanned ∧
      Follow text l.span.stop st'.rest := by
  cases hskip
  obtain ⟨ls, hls⟩ := List.head?_eq_some_iff.mp hl
  rw [hls] at h
  show _ ∧ _ ∧ _ ∧ Follow text l.span.stop st.rest.tail
  rw [hls]
  exact h

theorem expect_follow {t : Token} {what : Expected} {span : Span}
    (h : Follow text lo st.rest) (hx : expect t what st = .ok (span, st')) :
    lo ≤ span.start ∧ span.start < span.stop ∧ Follow text span.stop st'.rest := by
  obtain ⟨l, _, hl, h₁⟩ := stateT_bind.mp hx
  obtain ⟨rfl, rfl⟩ := peek_ok hl
  cases hh : st.rest.head? with
  | none =>
      simp only [hh] at h₁
      exact absurd h₁ not_failExpected
  | some l =>
      simp only [hh] at h₁
      split at h₁
      · obtain ⟨_, _, hskip, hend⟩ := stateT_bind.mp h₁
        cases hend
        obtain ⟨hlo, hat, _, hrest⟩ := follow_next h hh hskip
        exact ⟨hlo, hat.lt, hrest⟩
      · exact absurd h₁ not_failExpected

theorem expectMark_follow {s : Symbol} {span : Span} (h : Follow text lo st.rest)
    (hx : expectMark s st = .ok (span, st')) :
    lo ≤ span.start ∧ span.start < span.stop ∧ Follow text span.stop st'.rest :=
  expect_follow h hx

theorem expectName_follow {name : Located String} (h : Follow text lo st.rest)
    (hx : expectName st = .ok (name, st')) :
    lo ≤ name.span.start ∧ WordAt text name.span name.val ∧
      Follow text name.span.stop st'.rest := by
  obtain ⟨l, _, hl, h₁⟩ := stateT_bind.mp hx
  obtain ⟨rfl, rfl⟩ := peek_ok hl
  obtain ⟨y, hy, h₁⟩ := exists_rule h₁
  split at hy
  · next n span doc hh =>
      subst hy
      obtain ⟨_, _, hskip, hend⟩ := stateT_bind.mp h₁
      cases hend
      obtain ⟨hlo, hat, hw, hrest⟩ := follow_next h hh hskip
      exact ⟨hlo, wordAt_ident hat hw, hrest⟩
  · subst hy
    exact absurd h₁ not_failExpected

/-- Without the next token the others still follow one another. -/
theorem skip_follow (h : Follow text lo st.rest) (hskip : skip st = .ok ((), st')) :
    Follow text lo st'.rest := by
  cases hl : st.rest.head? with
  | none =>
      cases hskip
      show Follow text lo st.rest.tail
      rw [List.head?_eq_none_iff.mp hl]
      exact trivial
  | some l =>
      obtain ⟨hlo, hat, _, hrest⟩ := follow_next h hl hskip
      exact hrest.mono (Nat.le_trans hlo (Nat.le_of_lt hat.lt))

theorem eat_follow {t : Token} {b : Bool} (h : Follow text lo st.rest)
    (hx : eat t st = .ok (b, st')) : Follow text lo st'.rest := by
  obtain ⟨ahead, _, ha, h₁⟩ := stateT_bind.mp hx
  obtain rfl := isAhead_ok ha
  cases ahead with
  | true =>
      simp only [if_true] at h₁
      obtain ⟨_, _, hskip, hend⟩ := stateT_bind.mp h₁
      cases hend
      exact skip_follow h hskip
  | false =>
      simp only [Bool.false_eq_true, if_false] at h₁
      cases h₁
      exact h

theorem elementType_follow {t : TypeExpr} (h : Follow text lo st.rest)
    (hx : elementType st = .ok (t, st')) :
    lo ≤ t.span.start ∧ t.span.start < t.span.stop ∧ t.WellSpanned (WordAt text) PartOf ∧
      Follow text t.span.stop st'.rest := by
  obtain ⟨l, _, hl, h₁⟩ := stateT_bind.mp hx
  obtain ⟨rfl, rfl⟩ := peek_ok hl
  obtain ⟨y, hy, h₁⟩ := exists_rule h₁
  split at hy
  · next hh =>
      subst hy
      obtain ⟨_, _, hskip, hend⟩ := stateT_bind.mp h₁
      cases hend
      obtain ⟨hlo, hat, _, hrest⟩ := follow_next h hh hskip
      exact ⟨hlo, hat.lt, wordAt_keyword hat ⟨by decide, List.all_eq_true.mp (by decide)⟩, hrest⟩
  · next hh =>
      subst hy
      obtain ⟨_, _, hskip, hend⟩ := stateT_bind.mp h₁
      cases hend
      obtain ⟨hlo, hat, _, hrest⟩ := follow_next h hh hskip
      exact ⟨hlo, hat.lt, wordAt_keyword hat ⟨by decide, List.all_eq_true.mp (by decide)⟩, hrest⟩
  · next hh =>
      subst hy
      obtain ⟨_, _, hskip, hend⟩ := stateT_bind.mp h₁
      cases hend
      obtain ⟨hlo, hat, hw, hrest⟩ := follow_next h hh hskip
      exact ⟨hlo, hat.lt, wordAt_ident hat hw, hrest⟩
  · subst hy
    exact absurd h₁ not_failExpected

end

/-! ## Expressions -/

/-- What is known of the spans of an expression that was parsed from an offset on, and of the tokens
behind it. -/
structure Spanned (text : List Char) (lo : Nat) (st' : State) (e : Expr) : Prop where
  start : lo ≤ e.span.start
  ne_empty : e.span.start < e.span.stop
  inner : e.WellSpanned (WordAt text) PartOf
  rest : Follow text e.span.stop st'.rest

/-- The same of arguments between two offsets. -/
structure SpannedAll (text : List Char) (lo hi : Nat) (st' : State) (es : List Expr) : Prop where
  le : lo ≤ hi
  inner : ∀ s : Span, s.start ≤ lo → hi ≤ s.stop → wellSpannedAll (WordAt text) PartOf s es
  rest : Follow text hi st'.rest

section

variable {text : List Char} {lo hi : Nat} {st st' : State} {d : Dialect} {e : Expr}
  {es : List Expr}

/-- The expression is a part of a node around it. -/
theorem Spanned.part (h : Spanned text lo st e) {s : Span} (hstart : s.start ≤ e.span.start)
    (hstop : e.span.stop ≤ s.stop) :
    PartOf e.span s ∧ e.WellSpanned (WordAt text) PartOf :=
  ⟨⟨hstart, h.ne_empty, hstop⟩, h.inner⟩

/-- What stands in front of an expression is in front of its end too. -/
theorem Spanned.lt_stop (h : Spanned text lo st e) : lo < e.span.stop :=
  Nat.lt_of_le_of_lt h.start h.ne_empty

/-- A node between two offsets. -/
theorem Spanned.node {s : Span} (hs : e.span = s) (hstart : lo ≤ s.start) (hlt : s.start < s.stop)
    (he : e.WellSpanned (WordAt text) PartOf) (hrest : Follow text s.stop st.rest) :
    Spanned text lo st e := by
  subst hs
  exact ⟨hstart, hlt, he, hrest⟩

/-- A node that goes on behind its first part. -/
theorem Spanned.extend {lhs : Expr} (hl : Spanned text lo st lhs) {stop : Nat}
    (hstop : lhs.span.stop ≤ stop) (hs : e.span = ⟨lhs.span.start, stop⟩)
    (he : PartOf lhs.span ⟨lhs.span.start, stop⟩ ∧ lhs.WellSpanned (WordAt text) PartOf →
      e.WellSpanned (WordAt text) PartOf)
    (hrest : Follow text stop st'.rest) : Spanned text lo st' e :=
  .node hs hl.start (Nat.lt_of_lt_of_le hl.ne_empty hstop)
    (he (hl.part (Nat.le_refl _) hstop)) hrest

/-- A node with something in front of its only part. -/
theorem Spanned.prefixed {x : Expr} {s : Span} (hx : Spanned text s.stop st x)
    (hs : e.span = ⟨s.start, x.span.stop⟩) (hstart : lo ≤ s.start) (hlt : s.start < s.stop)
    (he : PartOf x.span ⟨s.start, x.span.stop⟩ ∧ x.WellSpanned (WordAt text) PartOf →
      e.WellSpanned (WordAt text) PartOf) : Spanned text lo st e :=
  .node hs hstart (Nat.lt_trans hlt hx.lt_stop)
    (he (hx.part (Nat.le_trans (Nat.le_of_lt hlt) hx.start) (Nat.le_refl _))) hx.rest

theorem nameIn_of_word {s : Span} {n : Located String} (h : WordAt text n.span n.val)
    (hstart : s.start ≤ n.span.start) (hstop : n.span.stop ≤ s.stop) :
    Surface.NameIn (WordAt text) PartOf s n :=
  ⟨⟨hstart, h.lt, hstop⟩, h⟩

theorem SpannedAll.nil (h : Follow text lo st.rest) : SpannedAll text lo lo st [] :=
  ⟨Nat.le_refl _, fun _ _ _ => trivial, h⟩

theorem SpannedAll.cons {st₁ : State} (h : Spanned text lo st₁ e)
    (hs : SpannedAll text e.span.stop hi st es) : SpannedAll text lo hi st (e :: es) := by
  refine ⟨Nat.le_trans (Nat.le_of_lt h.lt_stop) hs.le, fun s hstart hstop => ?_, hs.rest⟩
  have hle : s.start ≤ e.span.start := Nat.le_trans hstart h.start
  exact ⟨h.part hle (Nat.le_trans hs.le hstop),
    hs.inner s (Nat.le_trans hle (Nat.le_of_lt h.ne_empty)) hstop⟩

mutual

theorem exprWithin_spanned {n power lo : Nat} {st st' : State} {e : Expr}
    (h : Follow text lo st.rest) (hx : exprWithin d n power st = .ok (e, st')) :
    Spanned text lo st' e := by
  match n with
  | 0 => exact absurd hx not_failAtEnd
  | n + 1 =>
      obtain ⟨lhs, st₁, hl, h₁⟩ := stateT_bind.mp hx
      exact operators_spanned (operand_spanned h hl) h₁

theorem operators_spanned {n power lo : Nat} {st st' : State} {lhs e : Expr}
    (hl : Spanned text lo st lhs) (hx : operators d n power lhs st = .ok (e, st')) :
    Spanned text lo st' e := by
  match n with
  | 0 =>
      cases hx
      exact hl
  | n + 1 =>
      obtain ⟨l, _, hpeek, h₁⟩ := stateT_bind.mp hx
      obtain ⟨rfl, rfl⟩ := peek_ok hpeek
      obtain ⟨y, hy, h₁⟩ := exists_rule h₁
      have hlt := hl.ne_empty
      split at hy
      · subst hy
        cases h₁
        exact hl
      · next hdot =>
          subst hy
          obtain ⟨_, st₁, hskip, h₂⟩ := stateT_bind.mp h₁
          obtain ⟨name, st₂, hname, h₃⟩ := stateT_bind.mp h₂
          obtain ⟨isCall, _, hcall, h₄⟩ := stateT_bind.mp h₃
          obtain ⟨hge, hat, _, hrest⟩ := follow_next hl.rest hdot hskip
          obtain ⟨hge', hword, hrest'⟩ := expectName_follow hrest hname
          obtain rfl := isAhead_ok hcall
          have hdotlt := hat.lt
          have hwordlt := hword.lt
          dsimp only at hge hdotlt hge'
          cases isCall with
          | true =>
              simp only [if_true] at h₄
              obtain ⟨site, st₃, hsite, h₅⟩ := stateT_bind.mp h₄
              obtain ⟨⟨args, stop⟩, st₄, hargs, h₆⟩ := stateT_bind.mp h₅
              obtain ⟨rfl, rfl⟩ := freshSite_ok hsite
              have pa : SpannedAll text name.span.stop stop st₄ args :=
                arguments_spanned (by exact hrest') hargs
              have hle := pa.le
              refine operators_spanned (?_ : Spanned text lo _ _) h₆
              refine hl.extend (by omega) rfl (fun hp => ⟨hp, ?_, ?_⟩) pa.rest
              · exact nameIn_of_word hword (by dsimp only; omega) hle
              · exact pa.inner _ (by dsimp only; omega) (Nat.le_refl _)
          | false =>
              simp only [Bool.false_eq_true, if_false] at h₄
              refine operators_spanned (?_ : Spanned text lo _ _) h₄
              refine hl.extend (by omega) rfl (fun hp => ⟨hp, ?_⟩) hrest'
              exact nameIn_of_word hword (by dsimp only; omega) (Nat.le_refl _)
      · next hopen =>
          subst hy
          obtain ⟨_, st₁, hskip, h₂⟩ := stateT_bind.mp h₁
          obtain ⟨index, st₂, hindex, h₃⟩ := stateT_bind.mp h₂
          obtain ⟨close, st₃, hclose, h₄⟩ := stateT_bind.mp h₃
          obtain ⟨hge, hat, _, hrest⟩ := follow_next hl.rest hopen hskip
          have pi := exprWithin_spanned hrest hindex
          obtain ⟨hge', hcloselt, hrest'⟩ := expectMark_follow pi.rest hclose
          have hopenlt := hat.lt
          have hstart := pi.start
          have hindexlt := pi.ne_empty
          dsimp only at hge hopenlt hstart
          refine operators_spanned (?_ : Spanned text lo _ _) h₄
          refine hl.extend (by omega) rfl (fun hp => ⟨hp, ?_⟩) hrest'
          exact pi.part (by dsimp only; omega) (by dsimp only; omega)
      · next l _ _ hhead =>
          subst hy
          cases hop : binaryOp? l.token with
          | none =>
              simp only [hop] at h₁
              cases h₁
              exact hl
          | some op =>
              simp only [hop] at h₁
              split at h₁
              · cases h₁
                exact hl
              · obtain ⟨_, st₁, hskip, h₂⟩ := stateT_bind.mp h₁
                obtain ⟨rhs, st₂, hrhs, h₃⟩ := stateT_bind.mp h₂
                obtain ⟨hge, hat, _, hrest⟩ := follow_next hl.rest hhead hskip
                have pr := exprWithin_spanned hrest hrhs
                have hoplt := hat.lt
                have hstart := pr.start
                have hrhslt := pr.ne_empty
                refine operators_spanned (?_ : Spanned text lo _ _) h₃
                refine hl.extend (by omega) rfl (fun hp => ⟨hp, ?_⟩) pr.rest
                exact pr.part (by dsimp only; omega) (Nat.le_refl _)

theorem operand_spanned {n lo : Nat} {st st' : State} {e : Expr}
    (h : Follow text lo st.rest) (hx : operand d n st = .ok (e, st')) :
    Spanned text lo st' e := by
  match n with
  | 0 => exact absurd hx not_failAtEnd
  | n + 1 =>
      obtain ⟨l, _, hpeek, h₁⟩ := stateT_bind.mp hx
      obtain ⟨rfl, hl⟩ := peek_ok hpeek
      obtain ⟨y, hy, h₁⟩ := exists_rule h₁
      split at hy
      · subst hy
        exact absurd h₁ not_failAtEnd
      · next token span doc =>
          subst hy
          -- What a token that is taken off says about the place behind it.
          have next {st₁ : State} (hskip : skip st = .ok ((), st₁)) :
              lo ≤ span.start ∧ token.At text span ∧ token.Scanned ∧
                Follow text span.stop st₁.rest :=
            follow_next h hl.symm hskip
          cases token with
          | int value =>
              obtain ⟨_, st₁, hskip, hend⟩ := stateT_bind.mp h₁
              cases hend
              obtain ⟨hge, hat, _, hrest⟩ := next hskip
              exact .node rfl hge hat.lt trivial hrest
          | ident name =>
              obtain ⟨_, st₁, hskip, h₂⟩ := stateT_bind.mp h₁
              obtain ⟨hge, hat, hw, hrest⟩ := next hskip
              exact named_spanned (by exact wordAt_ident hat hw) hge hrest h₂
          | keyword word =>
              cases word with
              | true_ | false_ | null_ | this_ =>
                  obtain ⟨_, st₁, hskip, hend⟩ := stateT_bind.mp h₁
                  cases hend
                  obtain ⟨hge, hat, _, hrest⟩ := next hskip
                  exact .node rfl hge hat.lt trivial hrest
              | new_ =>
                  obtain ⟨_, st₁, hskip, h₂⟩ := stateT_bind.mp h₁
                  obtain ⟨hge, hat, _, hrest⟩ := next hskip
                  exact creation_spanned hge hat.lt hrest h₂
              | _ => exact absurd h₁ not_failAt
          | symbol mark =>
              cases mark with
              | lparen =>
                  obtain ⟨_, st₁, hskip, h₂⟩ := stateT_bind.mp h₁
                  obtain ⟨inner, st₂, hinner, h₃⟩ := stateT_bind.mp h₂
                  obtain ⟨_, st₃, hclose, hend⟩ := stateT_bind.mp h₃
                  cases hend
                  obtain ⟨hge, hat, _, hrest⟩ := next hskip
                  have px := exprWithin_spanned hrest hinner
                  obtain ⟨hge', hlt, hrest'⟩ := expectMark_follow px.rest hclose
                  have hstart := px.start
                  have hopen := hat.lt
                  exact ⟨by omega, px.ne_empty, px.inner, hrest'.mono (by omega)⟩
              | minus | bang =>
                  obtain ⟨_, st₁, hskip, h₂⟩ := stateT_bind.mp h₁
                  obtain ⟨x, st₂, hx, hend⟩ := stateT_bind.mp h₂
                  cases hend
                  obtain ⟨hge, hat, _, hrest⟩ := next hskip
                  exact (exprWithin_spanned hrest hx).prefixed rfl hge hat.lt id
              | ellipsis =>
                  by_cases hd : d = .effect
                  · simp only [if_pos hd] at h₁
                    obtain ⟨_, st₁, hskip, h₂⟩ := stateT_bind.mp h₁
                    obtain ⟨x, st₂, hx, hend⟩ := stateT_bind.mp h₂
                    cases hend
                    obtain ⟨hge, hat, _, hrest⟩ := next hskip
                    exact (exprWithin_spanned hrest hx).prefixed rfl hge hat.lt id
                  · simp only [if_neg hd] at h₁
                    exact absurd h₁ not_failAt
              | _ => exact absurd h₁ not_failAt
          | _ => exact absurd h₁ not_failAt

theorem named_spanned {n lo : Nat} {name : Located String} {st st' : State} {e : Expr}
    (hw : WordAt text name.span name.val) (hge : lo ≤ name.span.start)
    (h : Follow text name.span.stop st.rest) (hx : named d n name st = .ok (e, st')) :
    Spanned text lo st' e := by
  match n with
  | 0 =>
      cases hx
      exact .node rfl hge hw.lt hw h
  | n + 1 =>
      simp only [named] at hx
      split at hx
      · next hform =>
          cases hx
          have hd : d.isClause = true ∧ name.val = "result" := by simpa using hform
          have hresult : WordAt text name.span "result" := hd.2 ▸ hw
          exact .node rfl hge hw.lt hresult h
      · obtain ⟨isCall, _, hcall, h₁⟩ := stateT_bind.mp hx
        obtain rfl := isAhead_ok hcall
        split at h₁
        · obtain ⟨_, st₁, hskip, h₂⟩ := stateT_bind.mp h₁
          obtain ⟨inner, st₂, hinner, h₃⟩ := stateT_bind.mp h₂
          obtain ⟨close, st₃, hclose, hend⟩ := stateT_bind.mp h₃
          cases hend
          have hlt := hw.lt
          have px := exprWithin_spanned (skip_follow h hskip) hinner
          obtain ⟨hge', hlt', hrest⟩ := expectMark_follow px.rest hclose
          have hstart := px.start
          have hinnerlt := px.ne_empty
          exact .node (s := ⟨name.span.start, close.stop⟩) rfl hge (by dsimp only; omega)
            (px.part (by dsimp only; omega) (by dsimp only; omega)) hrest
        · split at h₁
          · obtain ⟨site, st₁, hsite, h₂⟩ := stateT_bind.mp h₁
            obtain ⟨⟨args, stop⟩, st₂, hargs, hend⟩ := stateT_bind.mp h₂
            obtain ⟨rfl, rfl⟩ := freshSite_ok hsite
            cases hend
            have pa : SpannedAll text name.span.stop stop st' args :=
              arguments_spanned (by exact h) hargs
            have hlt := hw.lt
            have hle := pa.le
            exact .node (s := ⟨name.span.start, stop⟩) rfl hge (by dsimp only; omega)
              ⟨nameIn_of_word hw (Nat.le_refl _) hle,
                pa.inner _ (Nat.le_of_lt hlt) (Nat.le_refl _)⟩ pa.rest
          · cases h₁
            exact .node rfl hge hw.lt hw h

theorem creation_spanned {n lo : Nat} {start : Span} {st st' : State} {e : Expr}
    (hge : lo ≤ start.start) (hlt : start.start < start.stop)
    (h : Follow text start.stop st.rest) (hx : creation d n start st = .ok (e, st')) :
    Spanned text lo st' e := by
  match n with
  | 0 => exact absurd hx not_failAtEnd
  | n + 1 =>
      obtain ⟨isArray, _, harray, h₁⟩ := stateT_bind.mp hx
      obtain rfl := isArrayAhead_ok harray
      cases isArray with
      | true =>
          simp only [if_true] at h₁
          obtain ⟨elem, st₁, helem, h₂⟩ := stateT_bind.mp h₁
          obtain ⟨_, st₂, hopen, h₃⟩ := stateT_bind.mp h₂
          obtain ⟨len, st₃, hlen, h₄⟩ := stateT_bind.mp h₃
          obtain ⟨close, st₄, hclose, hend⟩ := stateT_bind.mp h₄
          cases hend
          obtain ⟨hge₁, hlt₁, hinner, hrest₁⟩ := elementType_follow h helem
          obtain ⟨hge₂, hlt₂, hrest₂⟩ := expectMark_follow hrest₁ hopen
          have px := exprWithin_spanned hrest₂ hlen
          obtain ⟨hge₃, hlt₃, hrest₃⟩ := expectMark_follow px.rest hclose
          have hge₄ := px.start
          have hlt₄ := px.ne_empty
          exact .node (s := ⟨start.start, close.stop⟩) rfl hge (by dsimp only; omega)
            ⟨⟨⟨by dsimp only; omega, hlt₁, by dsimp only; omega⟩, hinner⟩,
              px.part (by dsimp only; omega) (by dsimp only; omega)⟩ hrest₃
      | false =>
          simp only [Bool.false_eq_true, if_false] at h₁
          obtain ⟨name, st₁, hname, h₂⟩ := stateT_bind.mp h₁
          obtain ⟨site, st₂, hsite, h₃⟩ := stateT_bind.mp h₂
          obtain ⟨⟨args, stop⟩, st₃, hargs, hend⟩ := stateT_bind.mp h₃
          cases hend
          obtain ⟨hge', hw, hrest⟩ := expectName_follow h hname
          obtain ⟨rfl, rfl⟩ := freshSite_ok hsite
          have pa : SpannedAll text name.span.stop stop st' args :=
            arguments_spanned (by exact hrest) hargs
          have hlt' := hw.lt
          have hle := pa.le
          exact .node (s := ⟨start.start, stop⟩) rfl hge (by dsimp only; omega)
            ⟨nameIn_of_word hw (by dsimp only; omega) hle,
              pa.inner _ (by dsimp only; omega) (Nat.le_refl _)⟩ pa.rest

theorem arguments_spanned {n lo stop : Nat} {st st' : State} {es : List Expr}
    (h : Follow text lo st.rest) (hx : arguments d n st = .ok ((es, stop), st')) :
    SpannedAll text lo stop st' es := by
  match n with
  | 0 => exact absurd hx not_failAtEnd
  | n + 1 =>
      obtain ⟨_, st₁, hopen, h₁⟩ := stateT_bind.mp hx
      obtain ⟨args, st₂, hargs, h₂⟩ := stateT_bind.mp h₁
      obtain ⟨close, st₃, hclose, hend⟩ := stateT_bind.mp h₂
      cases hend
      obtain ⟨hge, hlt, hrest⟩ := expectMark_follow h hopen
      obtain ⟨hi, pa⟩ := argumentList_spanned hrest hargs
      obtain ⟨hge', hlt', hrest'⟩ := expectMark_follow pa.rest hclose
      have hle := pa.le
      exact ⟨by omega, fun s hstart hstop => pa.inner s (by omega) (by omega), hrest'⟩

theorem argumentList_spanned {n lo : Nat} {isFirst : Bool} {st st' : State}
    {es : List Expr} (h : Follow text lo st.rest)
    (hx : argumentList d n isFirst st = .ok (es, st')) : ∃ hi, SpannedAll text lo hi st' es := by
  match n with
  | 0 =>
      cases hx
      exact ⟨lo, .nil h⟩
  | n + 1 =>
      obtain ⟨ended, _, hended, h₁⟩ := stateT_bind.mp hx
      obtain rfl := atCloser_ok hended
      cases ended with
      | true =>
          simp only [if_true] at h₁
          cases h₁
          exact ⟨lo, .nil h⟩
      | false =>
          simp only [Bool.false_eq_true, if_false] at h₁
          have rest {st₀ : State} (h₀ : Follow text lo st₀.rest)
              (hrest : (exprWithin d n 0 >>= fun arg => argumentList d n false >>= fun rest =>
                pure (arg :: rest)) st₀ = .ok (es, st')) :
              ∃ hi, SpannedAll text lo hi st' es := by
            obtain ⟨arg, st₁, harg, h₂⟩ := stateT_bind.mp hrest
            obtain ⟨args, st₂, hargs, hend⟩ := stateT_bind.mp h₂
            cases hend
            have pa := exprWithin_spanned h₀ harg
            obtain ⟨hi, ps⟩ := argumentList_spanned pa.rest hargs
            exact ⟨hi, .cons pa ps⟩
          cases isFirst with
          | true => exact rest h h₁
          | false =>
              simp only [Bool.not_false, if_true] at h₁
              obtain ⟨_, st₁, hcomma, h₂⟩ := stateT_bind.mp h₁
              obtain ⟨hge, hlt, hrest⟩ := expectMark_follow h hcomma
              exact rest (hrest.mono (by omega)) h₂

end

theorem expr_spanned (h : Follow text lo st.rest) (hx : expr d st = .ok (e, st')) :
    Spanned text lo st' e := by
  obtain ⟨n, _, hn, h₁⟩ := stateT_bind.mp hx
  obtain rfl := budget_ok hn
  exact exprWithin_spanned h h₁

end

/-! ## Clauses -/

theorem targetList_spanned {text : List Char} {n lo : Nat} {st st' : State} {es : List Expr}
    (h : Follow text lo st.rest) (hx : targetList n st = .ok (es, st')) :
    ∀ e ∈ es, e.WellSpanned (WordAt text) PartOf := by
  induction n generalizing lo st es with
  | zero =>
      cases hx
      exact fun e he => absurd he List.not_mem_nil
  | succ n ih =>
      obtain ⟨e, st₁, he, h₁⟩ := stateT_bind.mp hx
      obtain ⟨more, st₂, hmore, h₂⟩ := stateT_bind.mp h₁
      have pe := expr_spanned h he
      have hrest := eat_follow pe.rest hmore
      cases more with
      | true =>
          simp only [if_true] at h₂
          obtain ⟨es', st₃, hes, hend⟩ := stateT_bind.mp h₂
          cases hend
          intro e' he'
          rcases List.mem_cons.mp he' with rfl | he'
          · exact pe.inner
          · exact ih hrest hes e' he'
      | false =>
          simp only [Bool.false_eq_true, if_false] at h₂
          cases h₂
          intro e' he'
          obtain rfl := List.mem_singleton.mp he'
          exact pe.inner

theorem clauseBody_spanned {text : List Char} {tag : ClauseTag} {st st' : State}
    {body : ClauseBody} (h : Follow text 0 st.rest)
    (hx : clauseBody tag st = .ok (body, st')) :
    ∀ e ∈ body.exprs, e.WellSpanned (WordAt text) PartOf := by
  have last {b : ClauseBody} {st₁ : State}
      (hb : ∀ e ∈ b.exprs, e.WellSpanned (WordAt text) PartOf)
      (hx : (clauseEnd >>= fun _ => pure b) st₁ = .ok (body, st')) :
      ∀ e ∈ body.exprs, e.WellSpanned (WordAt text) PartOf := by
    obtain ⟨_, st₂, _, hend⟩ := stateT_bind.mp hx
    cases hend
    exact hb
  simp only [clauseBody] at hx
  cases he : tag.isEffect with
  | true =>
      simp only [he, if_true] at hx
      obtain ⟨n, _, hn, h₁⟩ := stateT_bind.mp hx
      obtain rfl := budget_ok hn
      obtain ⟨b, st₁, hb, h₂⟩ := stateT_bind.mp h₁
      obtain ⟨es, st₃, hes, heq⟩ := stateT_map hb
      cases heq
      exact last (b := .targets es) (targetList_spanned h hes) h₂
  | false =>
      simp only [he, Bool.false_eq_true, if_false] at hx
      obtain ⟨b, st₁, hb, h₂⟩ := stateT_bind.mp hx
      obtain ⟨e, st₃, he, heq⟩ := stateT_map hb
      cases heq
      refine last (b := .condition e) (fun e' he' => ?_) h₂
      obtain rfl := List.mem_singleton.mp he'
      exact (expr_spanned h he).inner

/-- The expressions of a clause before their spans are moved to the source: they are spanned well in
the text that was put together. -/
theorem clause_spanned {r : ClauseRecord} {site next : SiteId} {body : ClauseBody}
    (h : clause r site = .ok (body, next)) :
    ∀ e ∈ body.exprs, ∃ e₀ : Expr,
      e = e₀.mapSpans r.sourceSpan ∧ e₀.WellSpanned (WordAt r.text) PartOf := by
  simp only [clause] at h
  split at h
  · next b st hb =>
      cases h
      obtain ⟨ts, hts, hrun⟩ := bind_eq_ok.mp hb
      have hfollow := follow_lexemes (Scan.clause_at hts) (Scan.clause_scanned hts) none
      have hspanned := clauseBody_spanned hfollow hrun
      cases b with
      | condition e₀ =>
          intro e he
          obtain rfl := List.mem_singleton.mp he
          exact ⟨e₀, rfl, hspanned e₀ List.mem_cons_self⟩
      | targets es =>
          intro e he
          obtain ⟨e₀, hmem, rfl⟩ := List.mem_map.mp he
          exact ⟨e₀, rfl, hspanned e₀ hmem⟩
  · exact absurd h (by simp)

end Parse

end Covenant
