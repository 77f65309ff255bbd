import Covenant.Proofs.Parsed
import Covenant.Proofs.TermGrammar

/-!
# What the parser reads is written

A rule that builds a tree has taken off tokens which the tree may be written as. The
loop over operators keeps two things for this: its left side is of some level, and
what comes next can go on with expressions of that level, so whatever takes the left
side over may do so. Both hold because a rule stops only in front of a token that it
leaves to the rules outside, if its budget does; that it does is counted along, with
four units for each token that is left.
-/

namespace Covenant.Parse

open Surface (Expr TypeExpr)

/-! ## Tokens that are taken off -/

/-- The tokens that are read from one state to another. -/
def Took (st : State) (ts : List Token) (st' : State) : Prop := Opens st.rest ts st'.rest

namespace Took

variable {st st₁ st₂ : State} {ts us : List Token}

theorem nil (h : st.rest = st₁.rest) : Took st [] st₁ := ⟨[], h, rfl⟩

theorem append (h : Took st ts st₁) (h' : Took st₁ us st₂) : Took st (ts ++ us) st₂ := by
  obtain ⟨xs, hxs, rfl⟩ := h
  obtain ⟨ys, hys, rfl⟩ := h'
  exact ⟨xs ++ ys, by rw [hxs, hys, List.append_assoc], List.map_append⟩

theorem cons {t : Token} (h : Took st [t] st₁) (h' : Took st₁ us st₂) : Took st (t :: us) st₂ :=
  h.append h'

theorem length (h : Took st ts st₁) : st.rest.length = ts.length + st₁.rest.length :=
  Opens.length h

end Took

section

variable {st st' : State}

theorem skip_took {l : Lexeme} (hl : st.rest.head? = some l) (h : skip st = .ok ((), st')) :
    Took st [l.token] st' := by
  cases h
  obtain ⟨ls, hls⟩ := List.head?_eq_some_iff.mp hl
  exact ⟨[l], by simp [hls], rfl⟩

theorem expect_took {t : Token} {what : Expected} {span : Span}
    (h : expect t what st = .ok (span, st')) : Took st [t] st' := by
  obtain ⟨l, _, hl, h₁⟩ := stateT_bind.mp h
  obtain ⟨rfl, rfl⟩ := peek_ok hl
  cases hh : st.rest.head? with
  | none =>
      simp only [hh] at h₁
      exact absurd h₁ not_failExpected
  | some l =>
      simp only [hh] at h₁
      split at h₁
      · next ht =>
          obtain ⟨_, _, hskip, hend⟩ := stateT_bind.mp h₁
          cases hend
          exact ht ▸ skip_took hh hskip
      · exact absurd h₁ not_failExpected

theorem expectMark_took {s : Symbol} {span : Span} (h : expectMark s st = .ok (span, st')) :
    Took st [.symbol s] st' :=
  expect_took h

theorem expectName_took {name : Located String} (h : expectName st = .ok (name, st')) :
    Took st [.ident name.val] st' := by
  obtain ⟨l, _, hl, h₁⟩ := stateT_bind.mp h
  obtain ⟨rfl, rfl⟩ := peek_ok hl
  obtain ⟨y, hy, h₁⟩ := exists_rule h₁
  split at hy
  · next hh =>
      subst hy
      obtain ⟨_, _, hskip, hend⟩ := stateT_bind.mp h₁
      cases hend
      exact skip_took hh hskip
  · subst hy
    exact absurd h₁ not_failExpected

theorem freshSite_took {n : SiteId} (h : freshSite st = .ok (n, st')) : Took st [] st' := by
  obtain ⟨_, rfl⟩ := freshSite_ok h
  exact .nil rfl

theorem elementType_took {t : TypeExpr} (h : elementType st = .ok (t, st')) :
    ∃ u, WrittenType t u ∧ Took st [u] st' := by
  obtain ⟨l, _, hl, h₁⟩ := stateT_bind.mp h
  obtain ⟨rfl, rfl⟩ := peek_ok hl
  obtain ⟨y, hy, h₁⟩ := exists_rule h₁
  split at hy
  · next hh =>
      subst hy
      obtain ⟨_, _, hskip, hend⟩ := stateT_bind.mp h₁
      cases hend
      exact ⟨_, .int, skip_took hh hskip⟩
  · next hh =>
      subst hy
      obtain ⟨_, _, hskip, hend⟩ := stateT_bind.mp h₁
      cases hend
      exact ⟨_, .boolean, skip_took hh hskip⟩
  · next hh =>
      subst hy
      obtain ⟨_, _, hskip, hend⟩ := stateT_bind.mp h₁
      cases hend
      exact ⟨_, .named, skip_took hh hskip⟩
  · subst hy
    exact absurd h₁ not_failExpected

end

/-! ## Rules -/

/-- Arguments in front of which no comma stands, or one does. -/
def WrittenList (isFirst : Bool) (args : List Expr) (ts : List Token) : Prop :=
  match isFirst with
  | true => WrittenArgs args ts
  | false => WrittenMore args ts

mutual

/-- What an expression rule takes off is written for the tree that it builds. -/
theorem exprWithin_written {n power : Nat} {st st' : State} {e : Expr}
    (hn : 4 * st.rest.length + 2 ≤ n) (hp : power / 2 ≤ prefixLevel)
    (h : exprWithin .body n power st = .ok (e, st')) :
    ∃ ts, Took st ts st' ∧ Written (power / 2) e ts ∧ Stops st'.rest (power / 2) := by
  match n with
  | 0 => exact absurd h not_failAtEnd
  | n + 1 =>
      obtain ⟨lhs, st₁, hl, h₁⟩ := stateT_bind.mp h
      obtain ⟨ls, k, htook, hlhs, hk, hnext⟩ := operand_written (by omega) hl
      have hlen := htook.length
      obtain ⟨ts, htook', he, hstops⟩ := operators_written (by omega) hp (Nat.le_trans hp hk) hlhs
        hnext h₁
      exact ⟨ls ++ ts, htook.append htook', he, hstops⟩

theorem operators_written {n power k : Nat} {st st' : State} {lhs e : Expr} {ls : List Token}
    (hn : 4 * st.rest.length + 1 ≤ n) (hp : power / 2 ≤ prefixLevel) (hk : power / 2 ≤ k)
    (hl : Written k lhs ls) (hnext : Within st.rest k)
    (h : operators .body n power lhs st = .ok (e, st')) :
    ∃ ts, Took st ts st' ∧ Written (power / 2) e (ls ++ ts) ∧ Stops st'.rest (power / 2) := by
  match n with
  | 0 => omega
  | n + 1 =>
      obtain ⟨l, _, hpeek, h₁⟩ := stateT_bind.mp h
      obtain ⟨rfl, rfl⟩ := peek_ok hpeek
      obtain ⟨y, hy, h₁⟩ := exists_rule h₁
      -- In front of a token that is left to the rules outside, the left side is all.
      have ends (hstops : Stops st.rest (power / 2)) (hend : (lhs, st) = (e, st')) :
          ∃ ts, Took st ts st' ∧ Written (power / 2) e (ls ++ ts) ∧ Stops st'.rest (power / 2) := by
        cases hend
        exact ⟨[], .nil rfl, by rw [List.append_nil]; exact hl.mono hk, hstops⟩
      -- Behind a postfix form the loop goes on with a left side of the highest level.
      have goesOn {st₁ : State} {us : List Token} {lhs' : Expr} (htook : Took st us st₁)
          (hpos : 0 < us.length) (hl' : Written postfixLevel lhs' (ls ++ us))
          (hrest : operators .body n power lhs' st₁ = .ok (e, st')) :
          ∃ ts, Took st ts st' ∧ Written (power / 2) e (ls ++ ts) ∧ Stops st'.rest (power / 2) := by
        have hlen := htook.length
        obtain ⟨ts, htook', he, hstops⟩ := operators_written (by omega) hp
          (Nat.le_trans hp (by decide)) hl' (within_postfixLevel _) hrest
        exact ⟨us ++ ts, htook.append htook', by rw [← List.append_assoc]; exact he, hstops⟩
      split at hy
      · next hh =>
          subst hy
          exact ends (stops_of_none hh) (Except.ok.inj h₁)
      · next hdot =>
          subst hy
          have hobject : Written postfixLevel lhs ls := hl.mono (hnext _ hdot _ rfl)
          obtain ⟨_, st₁, hskip, h₂⟩ := stateT_bind.mp h₁
          obtain ⟨name, st₂, hname, h₃⟩ := stateT_bind.mp h₂
          obtain ⟨isCall, _, hcall, h₄⟩ := stateT_bind.mp h₃
          obtain rfl := isAhead_ok hcall
          have htook := (skip_took hdot hskip).cons (expectName_took hname)
          cases isCall with
          | true =>
              simp only [if_true] at h₄
              obtain ⟨site, st₃, hsite, h₅⟩ := stateT_bind.mp h₄
              obtain ⟨⟨args, stop⟩, st₄, hargs, h₆⟩ := stateT_bind.mp h₅
              have htook := htook.append (freshSite_took hsite)
              have hlen := htook.length
              simp only [List.length_append, List.length_cons] at hlen
              obtain ⟨ts, htook', hinner⟩ := arguments_written (by omega) hargs
              exact goesOn (htook.append htook') (by simp) (.methodCall hobject hinner) h₆
          | false =>
              simp only [Bool.false_eq_true, if_false] at h₄
              exact goesOn htook (by simp) (.field hobject) h₄
      · next hopen =>
          subst hy
          have harray : Written postfixLevel lhs ls := hl.mono (hnext _ hopen _ rfl)
          obtain ⟨_, st₁, hskip, h₂⟩ := stateT_bind.mp h₁
          obtain ⟨index, st₂, hindex, h₃⟩ := stateT_bind.mp h₂
          obtain ⟨close, st₃, hclose, h₄⟩ := stateT_bind.mp h₃
          have htook := skip_took hopen hskip
          have hlen := htook.length
          simp only [List.length_cons] at hlen
          obtain ⟨is, htook', hinner, _⟩ := exprWithin_written (by omega) (by decide) hindex
          exact goesOn (htook.cons (htook'.append (expectMark_took hclose))) (by simp)
            (.index harray hinner) h₄
      · next l hdot hopen hhead =>
          subst hy
          cases hop : binaryOp? l.token with
          | none =>
              simp only [hop] at h₁
              refine ends (stops_of_level? hhead (level?_eq_none hop ?_ ?_)) (Except.ok.inj h₁)
              · exact fun ht => hdot l.span l.doc (by rw [← ht])
              · exact fun ht => hopen l.span l.doc (by rw [← ht])
          | some op =>
              simp only [hop] at h₁
              have hmark := eq_mark_of_binaryOp? hop
              split at h₁
              · next hlt =>
                  exact ends (stops_of_mark hhead hmark (leftPower_lt_iff.mp hlt))
                    (Except.ok.inj h₁)
              · next hge =>
                  have hle : power / 2 ≤ op.level :=
                    Nat.le_of_not_lt fun hlt => hge (leftPower_lt_iff.mpr hlt)
                  obtain ⟨_, st₁, hskip, h₂⟩ := stateT_bind.mp h₁
                  obtain ⟨rhs, st₂, hrhs, h₃⟩ := stateT_bind.mp h₂
                  have htook := skip_took hhead hskip
                  rw [hmark] at htook
                  have hlen := htook.length
                  simp only [List.length_cons] at hlen
                  obtain ⟨rs, htook', hr, hstops⟩ := exprWithin_written (by omega)
                    (by rw [rightPower_div]; exact level_lt op) hrhs
                  rw [rightPower_div] at hr hstops
                  have hleft : Written op.level lhs ls :=
                    hl.mono (hnext l hhead _ (by rw [hmark]; exact level?_mark op))
                  have htook := htook.cons htook'
                  have hlen := htook.length
                  simp only [List.length_cons] at hlen
                  obtain ⟨ts, htook'', he, hend⟩ := operators_written (by omega) hp hle
                    (.binary (Nat.le_refl _) hleft hr) hstops.within h₃
                  exact ⟨_, htook.append htook'', by simpa using he, hend⟩

theorem operand_written {n : Nat} {st st' : State} {e : Expr}
    (hn : 4 * st.rest.length + 1 ≤ n) (h : operand .body n st = .ok (e, st')) :
    ∃ ts k, Took st ts st' ∧ Written k e ts ∧ prefixLevel ≤ k ∧ Within st'.rest k := by
  match n with
  | 0 => omega
  | n + 1 =>
      obtain ⟨l, _, hpeek, h₁⟩ := stateT_bind.mp h
      obtain ⟨rfl, hl⟩ := peek_ok hpeek
      obtain ⟨y, hy, h₁⟩ := exists_rule h₁
      -- Without an operator in front there is nothing that could bind more tightly.
      have whole {ts : List Token} (htook : Took st ts st') (he : Written postfixLevel e ts) :
          ∃ ts k, Took st ts st' ∧ Written k e ts ∧ prefixLevel ≤ k ∧ Within st'.rest k :=
        ⟨ts, postfixLevel, htook, he, by decide, within_postfixLevel _⟩
      split at hy
      · subst hy
        exact absurd h₁ not_failAtEnd
      · next token span doc =>
          subst hy
          have next {st₁ : State} (hskip : skip st = .ok ((), st₁)) :
              Took st [token] st₁ ∧ st.rest.length = st₁.rest.length + 1 := by
            have htook : Took st [token] st₁ := skip_took hl.symm hskip
            have hlen := htook.length
            rw [List.length_singleton] at hlen
            exact ⟨htook, by omega⟩
          cases token with
          | int value =>
              obtain ⟨_, st₁, hskip, hend⟩ := stateT_bind.mp h₁
              cases hend
              exact whole (next hskip).1 .int
          | ident name =>
              obtain ⟨_, st₁, hskip, h₂⟩ := stateT_bind.mp h₁
              obtain ⟨htook, hlen⟩ := next hskip
              obtain ⟨ts, htook', he⟩ := named_written (by omega) h₂
              exact whole (htook.cons htook') he
          | keyword word =>
              cases word with
              | true_ =>
                  obtain ⟨_, st₁, hskip, hend⟩ := stateT_bind.mp h₁
                  cases hend
                  exact whole (next hskip).1 .true_
              | false_ =>
                  obtain ⟨_, st₁, hskip, hend⟩ := stateT_bind.mp h₁
                  cases hend
                  exact whole (next hskip).1 .false_
              | null_ =>
                  obtain ⟨_, st₁, hskip, hend⟩ := stateT_bind.mp h₁
                  cases hend
                  exact whole (next hskip).1 .null
              | this_ =>
                  obtain ⟨_, st₁, hskip, hend⟩ := stateT_bind.mp h₁
                  cases hend
                  exact whole (next hskip).1 .this
              | new_ =>
                  obtain ⟨_, st₁, hskip, h₂⟩ := stateT_bind.mp h₁
                  obtain ⟨htook, hlen⟩ := next hskip
                  obtain ⟨ts, htook', he⟩ := creation_written (by omega) h₂
                  exact whole (htook.cons htook') he
              | _ => exact absurd h₁ not_failAt
          | symbol mark =>
              -- What a prefix operator applies to ends in front of everything but postfix forms.
              have prefixed {op : UnaryOp} {x : Expr} {st₁ : State} {at_ : Span}
                  (hm : mark = op.mark) (hskip : skip st = .ok ((), st₁))
                  (hx : exprWithin .body n unaryPower st₁ = .ok (x, st'))
                  (he : e = .unary at_ op x) :
                  ∃ ts k, Took st ts st' ∧ Written k e ts ∧ prefixLevel ≤ k ∧ Within st'.rest k := by
                subst hm he
                obtain ⟨htook, hlen⟩ := next hskip
                obtain ⟨ts, htook', hw, hstops⟩ := exprWithin_written (by omega) (by decide) hx
                exact ⟨_, prefixLevel, htook.cons htook', .unary (Nat.le_refl _) hw,
                  Nat.le_refl _, fun l hl m hm => Nat.le_of_lt (hstops l hl m hm)⟩
              cases mark with
              | lparen =>
                  obtain ⟨_, st₁, hskip, h₂⟩ := stateT_bind.mp h₁
                  obtain ⟨inner, st₂, hinner, h₃⟩ := stateT_bind.mp h₂
                  obtain ⟨_, st₃, hclose, hend⟩ := stateT_bind.mp h₃
                  cases hend
                  obtain ⟨htook, hlen⟩ := next hskip
                  obtain ⟨ts, htook', hw, _⟩ := exprWithin_written (by omega) (by decide) hinner
                  exact whole (htook.cons (htook'.append (expectMark_took hclose))) (.parens hw)
              | minus =>
                  obtain ⟨_, st₁, hskip, h₂⟩ := stateT_bind.mp h₁
                  obtain ⟨x, st₂, hx, hend⟩ := stateT_bind.mp h₂
                  cases hend
                  exact prefixed (show _ = UnaryOp.neg.mark from rfl) hskip hx rfl
              | bang =>
                  obtain ⟨_, st₁, hskip, h₂⟩ := stateT_bind.mp h₁
                  obtain ⟨x, st₂, hx, hend⟩ := stateT_bind.mp h₂
                  cases hend
                  exact prefixed (show _ = UnaryOp.not.mark from rfl) hskip hx rfl
              | _ => exact absurd h₁ not_failAt
          | _ => exact absurd h₁ not_failAt

theorem named_written {n : Nat} {name : Located String} {st st' : State} {e : Expr}
    (hn : 4 * st.rest.length + 4 ≤ n) (h : named .body n name st = .ok (e, st')) :
    ∃ ts, Took st ts st' ∧ Written postfixLevel e (.ident name.val :: ts) := by
  match n with
  | 0 => omega
  | n + 1 =>
      simp only [named, Dialect.isClause, Bool.false_and, Bool.false_eq_true, if_false] at h
      obtain ⟨isCall, _, hcall, h₁⟩ := stateT_bind.mp h
      obtain rfl := isAhead_ok hcall
      split at h₁
      · obtain ⟨site, st₁, hsite, h₂⟩ := stateT_bind.mp h₁
        obtain ⟨⟨args, stop⟩, st₂, hargs, hend⟩ := stateT_bind.mp h₂
        cases hend
        have htook := freshSite_took hsite
        have hlen := htook.length
        simp only [List.length_nil] at hlen
        obtain ⟨ts, htook', hinner⟩ := arguments_written (by omega) hargs
        exact ⟨_, htook.append htook', .call hinner⟩
      · cases h₁
        exact ⟨[], .nil rfl, .name⟩

theorem creation_written {n : Nat} {start : Span} {st st' : State} {e : Expr}
    (hn : 4 * st.rest.length + 4 ≤ n) (h : creation .body n start st = .ok (e, st')) :
    ∃ ts, Took st ts st' ∧ Written postfixLevel e (.keyword .new_ :: ts) := by
  match n with
  | 0 => omega
  | n + 1 =>
      obtain ⟨isArray, _, harray, h₁⟩ := stateT_bind.mp h
      obtain rfl := isArrayAhead_ok harray
      cases isArray with
      | true =>
          simp only [if_true] at h₁
          obtain ⟨elem, st₁, helem, h₂⟩ := stateT_bind.mp h₁
          obtain ⟨_, st₂, hopen, h₃⟩ := stateT_bind.mp h₂
          obtain ⟨len, st₃, hlength, h₄⟩ := stateT_bind.mp h₃
          obtain ⟨close, st₄, hclose, hend⟩ := stateT_bind.mp h₄
          cases hend
          obtain ⟨u, helement, htook⟩ := elementType_took helem
          have htook := htook.cons (expectMark_took hopen)
          have hlen := htook.length
          simp only [List.length_cons] at hlen
          obtain ⟨ts, htook', hw, _⟩ := exprWithin_written (by omega) (by decide) hlength
          exact ⟨_, htook.append (htook'.append (expectMark_took hclose)), .newArray helement hw⟩
      | false =>
          simp only [Bool.false_eq_true, if_false] at h₁
          obtain ⟨name, st₁, hname, h₂⟩ := stateT_bind.mp h₁
          obtain ⟨site, st₂, hsite, h₃⟩ := stateT_bind.mp h₂
          obtain ⟨⟨args, stop⟩, st₃, hargs, hend⟩ := stateT_bind.mp h₃
          cases hend
          have htook := (expectName_took hname).append (freshSite_took hsite)
          have hlen := htook.length
          simp only [List.length_append, List.length_cons, List.length_nil] at hlen
          obtain ⟨ts, htook', hinner⟩ := arguments_written (by omega) hargs
          exact ⟨_, htook.append htook', .new hinner⟩

theorem arguments_written {n stop : Nat} {st st' : State} {args : List Expr}
    (hn : 4 * st.rest.length + 3 ≤ n) (h : arguments .body n st = .ok ((args, stop), st')) :
    ∃ ts, Took st (.symbol .lparen :: (ts ++ [.symbol .rparen])) st' ∧ WrittenArgs args ts := by
  match n with
  | 0 => omega
  | n + 1 =>
      obtain ⟨_, st₁, hopen, h₁⟩ := stateT_bind.mp h
      obtain ⟨args, st₂, hargs, h₂⟩ := stateT_bind.mp h₁
      obtain ⟨close, st₃, hclose, hend⟩ := stateT_bind.mp h₂
      cases hend
      have htook := expectMark_took hopen
      have hlen := htook.length
      rw [List.length_singleton] at hlen
      obtain ⟨ts, htook', hw⟩ := argumentList_written (by omega) hargs
      exact ⟨ts, htook.cons (htook'.append (expectMark_took hclose)), hw⟩

theorem argumentList_written {n : Nat} {isFirst : Bool} {st st' : State} {args : List Expr}
    (hn : 4 * st.rest.length + 3 ≤ n) (h : argumentList .body n isFirst st = .ok (args, st')) :
    ∃ ts, Took st ts st' ∧ WrittenList isFirst args ts := by
  match n with
  | 0 => omega
  | n + 1 =>
      obtain ⟨ended, _, hended, h₁⟩ := stateT_bind.mp h
      obtain rfl := atCloser_ok hended
      cases ended with
      | true =>
          simp only [if_true] at h₁
          cases h₁
          refine ⟨[], .nil rfl, ?_⟩
          cases isFirst with
          | true => exact .none
          | false => exact .nil
      | false =>
          simp only [Bool.false_eq_true, if_false] at h₁
          have rest {st₀ : State} (hn₀ : 4 * st₀.rest.length + 2 ≤ n)
              (hrest : (exprWithin .body n 0 >>= fun arg => argumentList .body n false >>=
                fun rest => pure (arg :: rest)) st₀ = .ok (args, st')) :
              ∃ e es ts us, args = e :: es ∧ Took st₀ (ts ++ us) st' ∧ Written 0 e ts ∧
                WrittenMore es us := by
            obtain ⟨arg, st₁, harg, h₂⟩ := stateT_bind.mp hrest
            obtain ⟨args, st₂, hargs, hend⟩ := stateT_bind.mp h₂
            cases hend
            obtain ⟨ts, htook, hw, _⟩ := exprWithin_written hn₀ (by decide) harg
            have hlen := htook.length
            obtain ⟨t, _, heq, _⟩ := hw.starts
            rw [heq, List.length_cons] at hlen
            obtain ⟨us, htook', hmore⟩ := argumentList_written (by omega) hargs
            exact ⟨arg, _, ts, us, rfl, htook.append htook', hw, hmore⟩
          cases isFirst with
          | true =>
              obtain ⟨e, es, ts, us, rfl, htook, hw, hmore⟩ := rest (by omega) h₁
              exact ⟨_, htook, .some hw hmore⟩
          | false =>
              simp only [Bool.not_false, if_true] at h₁
              obtain ⟨_, st₁, hcomma, h₂⟩ := stateT_bind.mp h₁
              have hcomma := expectMark_took hcomma
              have hlen := hcomma.length
              rw [List.length_singleton] at hlen
              obtain ⟨e, es, ts, us, rfl, htook, hw, hmore⟩ := rest (by omega) h₂
              exact ⟨_, hcomma.cons htook, .cons hw hmore⟩

end

end Covenant.Parse
