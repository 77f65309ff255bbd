import Covenant.Parse.Program
import Covenant.Parse.Clause
import Covenant.Proofs.Scanned

/-!
# What the parser lets through

Two things are known of every tree that the parser builds. Its names are words
and its numbers are not negative, because they stood in tokens. And its calls
have numbers of their own: a rule takes the next number for each call that it
meets, so the calls of a tree, in the order of its text, have all the numbers
from what was next before it up to what is next behind it, and no number twice.
The second is what makes the number of a call a name for it.
-/

namespace Covenant

/-- Numbers from `lo` on and below `hi`, none of them twice. -/
structure Numbered (lo hi : Nat) (ns : List Nat) : Prop where
  nodup : ns.Nodup
  bounds : ∀ n ∈ ns, lo ≤ n ∧ n < hi

namespace Numbered

variable {lo hi : Nat} {ms ns : List Nat}

/-- The order of the numbers does not matter. -/
theorem perm (h : Numbered lo hi ns) (hp : ns.Perm ms) : Numbered lo hi ms :=
  ⟨hp.nodup_iff.mp h.nodup, fun n hn => h.bounds n (hp.mem_iff.mpr hn)⟩

end Numbered

/-- All numbers from `lo` on and below `hi`, in this order. -/
structure Consecutive (lo hi : Nat) (ns : List Nat) : Prop where
  le : lo ≤ hi
  eq : ns = List.range' lo (hi - lo)

namespace Consecutive

variable {lo mid hi : Nat} {ms ns : List Nat}

theorem nil : Consecutive lo lo [] := ⟨Nat.le_refl _, by simp⟩

theorem singleton : Consecutive lo (lo + 1) [lo] := ⟨Nat.le_succ _, by simp⟩

theorem append (hm : Consecutive lo mid ms) (hn : Consecutive mid hi ns) :
    Consecutive lo hi (ms ++ ns) := by
  have hle := hm.le
  have hle' := hn.le
  refine ⟨Nat.le_trans hle hle', ?_⟩
  calc ms ++ ns
      = List.range' lo (mid - lo) ++ List.range' (lo + (mid - lo)) (hi - mid) := by
        rw [hm.eq, hn.eq, Nat.add_sub_of_le hle]
    _ = List.range' lo (hi - lo) := by
        rw [List.range'_append_1]
        congr 1
        omega

theorem numbered (h : Consecutive lo hi ns) : Numbered lo hi ns := by
  have hle := h.le
  refine h.eq ▸ ⟨List.nodup_range', fun n hn => ?_⟩
  have := List.mem_range'_1.mp hn
  omega

/-- What is numbered from the start on is a range. -/
theorem eq_range (h : Consecutive 0 hi ns) : ns = List.range hi :=
  h.eq.trans List.range_eq_range'.symm

end Consecutive

namespace Surface

mutual

/-- The numbers of the calls in an expression. -/
def Expr.sites : Expr → List SiteId
  | .int .. | .bool .. | .null .. | .this .. | .name .. | .result .. => []
  | .binary _ _ l r => l.sites ++ r.sites
  | .unary _ _ e | .field _ e _ | .newArray _ _ e | .old _ e | .spread _ e => e.sites
  | .index _ a i => a.sites ++ i.sites
  | .call _ site _ args | .new _ site _ args => site :: sitesAll args
  | .methodCall _ site o _ args => o.sites ++ site :: sitesAll args

def sitesAll : List Expr → List SiteId
  | [] => []
  | e :: es => e.sites ++ sitesAll es

end

/-- The type of the elements of a new array: a plain type that is written as a word. -/
def TypeExpr.Plain : TypeExpr → Prop
  | .int _ | .boolean _ => True
  | .named _ name => IsWord name
  | .array _ _ => False

mutual

/-- Whether the names of an expression are words, its numbers are not negative, and the forms that
only clauses know stand where the dialect has them. -/
def Expr.Lexical (d : Parse.Dialect) : Expr → Prop
  | .int _ n => 0 ≤ n.toInt
  | .bool .. | .null .. | .this .. => True
  | .result .. => d.isClause = true
  | .name _ name => IsWord name
  | .binary _ _ l r => l.Lexical d ∧ r.Lexical d
  | .unary _ _ e => e.Lexical d
  | .old _ e => d.isClause = true ∧ e.Lexical d
  | .spread _ e => d = .effect ∧ e.Lexical d
  | .field _ o name => o.Lexical d ∧ IsWord name.val
  | .call _ _ name args | .new _ _ name args => IsWord name.val ∧ lexicalAll d args
  | .methodCall _ _ o name args => o.Lexical d ∧ IsWord name.val ∧ lexicalAll d args
  | .newArray _ elem len => elem.Plain ∧ len.Lexical d
  | .index _ a i => a.Lexical d ∧ i.Lexical d

def lexicalAll (d : Parse.Dialect) : List Expr → Prop
  | [] => True
  | e :: es => e.Lexical d ∧ lexicalAll d es

end

end Surface

namespace Parse

open Surface (Expr TypeExpr)

/-- Whether the tokens that are left came out of the scanner. -/
def State.Scanned (st : State) : Prop := ∀ l ∈ st.rest, l.token.Scanned

/-- What any rule does to the state: it takes tokens off and numbers calls, in this order. -/
structure Advances (st st' : State) : Prop where
  rest : st'.rest <:+ st.rest
  site : st.nextSite ≤ st'.nextSite
  decl : st'.nextDecl = st.nextDecl

/-- What a rule does that meets no call. -/
structure Skips (st st' : State) : Prop where
  rest : st'.rest <:+ st.rest
  site : st'.nextSite = st.nextSite
  decl : st'.nextDecl = st.nextDecl

namespace Skips

variable {st st₁ st₂ : State}

theorem refl (st : State) : Skips st st := ⟨List.suffix_refl _, rfl, rfl⟩

theorem trans (h : Skips st st₁) (h' : Skips st₁ st₂) : Skips st st₂ :=
  ⟨h'.rest.trans h.rest, h'.site.trans h.site, h'.decl.trans h.decl⟩

theorem advances (h : Skips st st₁) : Advances st st₁ := ⟨h.rest, Nat.le_of_eq h.site.symm, h.decl⟩

theorem scanned (h : Skips st st₁) (hs : st.Scanned) : st₁.Scanned :=
  fun l hl => hs l (h.rest.subset hl)

end Skips

namespace Advances

variable {st st₁ st₂ : State}

theorem refl (st : State) : Advances st st := (Skips.refl st).advances

theorem trans (h : Advances st st₁) (h' : Advances st₁ st₂) : Advances st st₂ :=
  ⟨h'.rest.trans h.rest, Nat.le_trans h.site h'.site, h'.decl.trans h.decl⟩

theorem scanned (h : Advances st st₁) (hs : st.Scanned) : st₁.Scanned :=
  fun l hl => hs l (h.rest.subset hl)

end Advances

/-! ## The primitives -/

section

variable {α : Type} {st st' : State}

/-- Names a rule, so that the cases of its definition can be told apart. -/
theorem exists_rule {x : Parser α} {r : α × State} (h : x st = .ok r) :
    ∃ y, x = y ∧ y st = .ok r :=
  ⟨x, rfl, h⟩

theorem not_failAt {fault : GrammarFault} {span : Span} {r : α × State} :
    ¬ (failAt fault span : Parser α) st = .ok r := by
  intro h
  cases h

theorem not_failAtEnd {fault : GrammarFault} {r : α × State} :
    ¬ (failAtEnd fault : Parser α) st = .ok r := by
  intro h
  cases h

theorem not_failExpected {what : Expected} {r : α × State} :
    ¬ (failExpected what : Parser α) st = .ok r := by
  intro h
  obtain ⟨l, _, _, h⟩ := stateT_bind.mp h
  cases l with
  | none => exact not_failAtEnd h
  | some l => exact not_failAt h

theorem peek_ok {l : Option Lexeme} (h : peek st = .ok (l, st')) :
    st = st' ∧ l = st.rest.head? := by
  cases h
  exact ⟨rfl, rfl⟩

theorem skip_ok (h : skip st = .ok ((), st')) : Skips st st' := by
  cases h
  exact ⟨List.tail_suffix _, rfl, rfl⟩

theorem isAhead_ok {n : Nat} {t : Token} {b : Bool} (h : isAhead n t st = .ok (b, st')) :
    st = st' := by
  cases h
  rfl

theorem atCloser_ok {c : Symbol} {b : Bool} (h : atCloser c st = .ok (b, st')) : st = st' := by
  cases h
  rfl

theorem budget_ok {n : Nat} (h : budget st = .ok (n, st')) : st = st' := by
  cases h
  rfl

theorem position_ok {n : Nat} (h : position st = .ok (n, st')) : st = st' := by
  cases h
  rfl

theorem freshSite_ok {n : SiteId} (h : freshSite st = .ok (n, st')) :
    n = st.nextSite ∧ st' = { st with nextSite := st.nextSite + 1 } := by
  cases h
  exact ⟨rfl, rfl⟩

theorem freshSite_advances (st : State) :
    Advances st { st with nextSite := st.nextSite + 1 } :=
  ⟨List.suffix_refl _, Nat.le_succ _, rfl⟩

theorem expect_ok {t : Token} {what : Expected} {span : Span}
    (h : expect t what st = .ok (span, st')) : Skips st st' := by
  obtain ⟨l, _, hl, h₁⟩ := stateT_bind.mp h
  obtain ⟨rfl, rfl⟩ := peek_ok hl
  cases hh : st.rest.head? with
  | none =>
      simp only [hh] at h₁
      exact absurd h₁ not_failExpected
  | some l =>
      simp only [hh] at h₁
      by_cases ht : l.token = t
      · simp only [ht, if_true] at h₁
        obtain ⟨_, _, hs, hend⟩ := stateT_bind.mp h₁
        cases hend
        exact skip_ok hs
      · simp only [ht, if_false] at h₁
        exact absurd h₁ not_failExpected

theorem expectMark_ok {s : Symbol} {span : Span} (h : expectMark s st = .ok (span, st')) :
    Skips st st' :=
  expect_ok h

theorem eat_ok {t : Token} {b : Bool} (h : eat t st = .ok (b, st')) : Skips st st' := by
  obtain ⟨ahead, _, ha, h₁⟩ := stateT_bind.mp h
  obtain rfl := isAhead_ok ha
  cases ahead with
  | true =>
      simp only [if_true] at h₁
      obtain ⟨_, _, hs, hend⟩ := stateT_bind.mp h₁
      cases hend
      exact skip_ok hs
  | false =>
      simp only [Bool.false_eq_true, if_false] at h₁
      cases h₁
      exact Skips.refl _

theorem expectName_ok {name : Located String} (h : expectName st = .ok (name, st'))
    (hs : st.Scanned) : Skips st st' ∧ IsWord name.val := by
  obtain ⟨l, _, hl, h₁⟩ := stateT_bind.mp h
  obtain ⟨rfl, rfl⟩ := peek_ok hl
  obtain ⟨y, hy, h₁⟩ := exists_rule h₁
  split at hy
  · next n span doc hh =>
      subst hy
      obtain ⟨_, _, hskip, hend⟩ := stateT_bind.mp h₁
      cases hend
      exact ⟨skip_ok hskip, hs _ (List.mem_of_mem_head? hh)⟩
  · subst hy
    exact absurd h₁ not_failExpected

end

/-! ## Expressions -/

/-- What is known of an expression that was parsed between two states, where it started when `lo`
was the next number of a call. -/
structure Parsed (d : Dialect) (lo : Nat) (st st' : State) (e : Expr) : Prop where
  advances : Advances st st'
  lexical : e.Lexical d
  sites : Consecutive lo st'.nextSite e.sites

/-- The same of arguments. -/
structure ParsedAll (d : Dialect) (lo : Nat) (st st' : State) (es : List Expr) : Prop where
  advances : Advances st st'
  lexical : Surface.lexicalAll d es
  sites : Consecutive lo st'.nextSite (Surface.sitesAll es)

section

variable {d : Dialect} {lo : Nat} {st st₁ st₂ : State} {e : Expr} {es : List Expr}

/-- An expression without names, numbers and calls. -/
theorem Parsed.leaf (h : Skips st st₁) (hl : e.Lexical d) (hs : e.sites = []) :
    Parsed d st.nextSite st st₁ e :=
  ⟨h.advances, hl, hs ▸ h.site ▸ Consecutive.nil⟩

theorem Parsed.after (h : Skips st st₁) (hp : Parsed d st₁.nextSite st₁ st₂ e) :
    Parsed d st.nextSite st st₂ e :=
  ⟨h.advances.trans hp.advances, hp.lexical, h.site ▸ hp.sites⟩

theorem Parsed.before (hp : Parsed d lo st st₁ e) (h : Skips st₁ st₂) : Parsed d lo st st₂ e :=
  ⟨hp.advances.trans h.advances, hp.lexical, h.site ▸ hp.sites⟩

theorem Parsed.single (hp : Parsed d lo st st₁ e) : ParsedAll d lo st st₁ [e] := by
  refine ⟨hp.advances, ⟨hp.lexical, trivial⟩, ?_⟩
  show Consecutive _ _ (e.sites ++ [])
  rw [List.append_nil]
  exact hp.sites

theorem ParsedAll.after (h : Skips st st₁) (hp : ParsedAll d st₁.nextSite st₁ st₂ es) :
    ParsedAll d st.nextSite st st₂ es :=
  ⟨h.advances.trans hp.advances, hp.lexical, h.site ▸ hp.sites⟩

theorem ParsedAll.before (hp : ParsedAll d lo st st₁ es) (h : Skips st₁ st₂) :
    ParsedAll d lo st st₂ es :=
  ⟨hp.advances.trans h.advances, hp.lexical, h.site ▸ hp.sites⟩

end

theorem elementType_parsed {st st' : State} {t : TypeExpr} (hs : st.Scanned)
    (h : elementType st = .ok (t, st')) : Skips st st' ∧ t.Plain := by
  obtain ⟨l, _, hl, h₁⟩ := stateT_bind.mp h
  obtain ⟨rfl, rfl⟩ := peek_ok hl
  obtain ⟨y, hy, h₁⟩ := exists_rule h₁
  split at hy
  · subst hy
    obtain ⟨_, _, hskip, hend⟩ := stateT_bind.mp h₁
    cases hend
    exact ⟨skip_ok hskip, trivial⟩
  · subst hy
    obtain ⟨_, _, hskip, hend⟩ := stateT_bind.mp h₁
    cases hend
    exact ⟨skip_ok hskip, trivial⟩
  · next name span doc hh =>
      subst hy
      obtain ⟨_, _, hskip, hend⟩ := stateT_bind.mp h₁
      cases hend
      exact ⟨skip_ok hskip, hs _ (List.mem_of_mem_head? hh)⟩
  · subst hy
    exact absurd h₁ not_failExpected

theorem isArrayAhead_ok {st st' : State} {b : Bool} (h : isArrayAhead st = .ok (b, st')) :
    st = st' := by
  cases h
  rfl

mutual

theorem exprWithin_parsed {d : Dialect} {n power : Nat} {st st' : State} {e : Expr}
    (hs : st.Scanned) (h : exprWithin d n power st = .ok (e, st')) :
    Parsed d st.nextSite st st' e := by
  match n with
  | 0 => exact absurd h not_failAtEnd
  | n + 1 =>
      obtain ⟨lhs, st₁, hl, h₁⟩ := stateT_bind.mp h
      have pl := operand_parsed hs hl
      have pe := operators_parsed (pl.advances.scanned hs) pl.lexical pl.sites h₁
      exact ⟨pl.advances.trans pe.advances, pe.lexical, pe.sites⟩

theorem operators_parsed {d : Dialect} {n power lo : Nat} {st st' : State} {lhs e : Expr}
    (hs : st.Scanned) (hl : lhs.Lexical d)
    (hn : Consecutive lo st.nextSite lhs.sites)
    (h : operators d n power lhs st = .ok (e, st')) : Parsed d lo st st' e := by
  match n with
  | 0 =>
      cases h
      exact ⟨Advances.refl _, hl, hn⟩
  | n + 1 =>
      obtain ⟨l, _, hpeek, h₁⟩ := stateT_bind.mp h
      obtain ⟨rfl, rfl⟩ := peek_ok hpeek
      obtain ⟨y, hy, h₁⟩ := exists_rule h₁
      split at hy
      · subst hy
        cases h₁
        exact ⟨Advances.refl _, hl, hn⟩
      · subst hy
        obtain ⟨_, st₁, hskip, h₂⟩ := stateT_bind.mp h₁
        obtain ⟨name, st₂, hname, h₃⟩ := stateT_bind.mp h₂
        obtain ⟨isCall, _, hcall, h₄⟩ := stateT_bind.mp h₃
        have k₁ := skip_ok hskip
        obtain ⟨k₂, hword⟩ := expectName_ok hname (k₁.scanned hs)
        obtain rfl := isAhead_ok hcall
        have k := k₁.trans k₂
        cases isCall with
        | true =>
            simp only [if_true] at h₄
            obtain ⟨site, st₃, hsite, h₅⟩ := stateT_bind.mp h₄
            obtain ⟨⟨args, stop⟩, st₄, hargs, h₆⟩ := stateT_bind.mp h₅
            obtain ⟨rfl, rfl⟩ := freshSite_ok hsite
            have ks : Advances st { st₂ with nextSite := st₂.nextSite + 1 } :=
              k.advances.trans (freshSite_advances st₂)
            have pa := arguments_parsed (ks.scanned hs) hargs
            have hall : Consecutive lo st₄.nextSite
                (lhs.sites ++ st₂.nextSite :: Surface.sitesAll args) := by
              refine hn.append ?_
              rw [← k.site]
              exact Consecutive.singleton.append pa.sites
            have hlex : (Expr.methodCall ⟨lhs.span.start, stop⟩ st₂.nextSite lhs name args).Lexical d :=
              ⟨hl, hword, pa.lexical⟩
            have kall := ks.trans pa.advances
            have po := operators_parsed (kall.scanned hs) hlex hall h₆
            exact ⟨kall.trans po.advances, po.lexical, po.sites⟩
        | false =>
            simp only [Bool.false_eq_true, if_false] at h₄
            have hlex : (Expr.field ⟨lhs.span.start, name.span.stop⟩ lhs name).Lexical d :=
              ⟨hl, hword⟩
            have po := operators_parsed (k.scanned hs) hlex (k.site ▸ hn) h₄
            exact ⟨k.advances.trans po.advances, po.lexical, po.sites⟩
      · subst hy
        obtain ⟨_, st₁, hskip, h₂⟩ := stateT_bind.mp h₁
        obtain ⟨index, st₂, hindex, h₃⟩ := stateT_bind.mp h₂
        obtain ⟨close, st₃, hclose, h₄⟩ := stateT_bind.mp h₃
        have k₁ := skip_ok hskip
        have pi := (exprWithin_parsed (k₁.scanned hs) hindex).after k₁
        have k₃ := expectMark_ok hclose
        have k := pi.advances.trans k₃.advances
        have hall : Consecutive lo st₃.nextSite (lhs.sites ++ index.sites) :=
          k₃.site ▸ hn.append pi.sites
        have hlex : (Expr.index ⟨lhs.span.start, close.stop⟩ lhs index).Lexical d :=
          ⟨hl, pi.lexical⟩
        have po := operators_parsed (k.scanned hs) hlex hall h₄
        exact ⟨k.trans po.advances, po.lexical, po.sites⟩
      · next l _ _ _ =>
          subst hy
          cases hop : binaryOp? l.token with
          | none =>
              simp only [hop] at h₁
              cases h₁
              exact ⟨Advances.refl _, hl, hn⟩
          | some op =>
              simp only [hop] at h₁
              split at h₁
              · cases h₁
                exact ⟨Advances.refl _, hl, hn⟩
              · obtain ⟨_, st₁, hskip, h₂⟩ := stateT_bind.mp h₁
                obtain ⟨rhs, st₂, hrhs, h₃⟩ := stateT_bind.mp h₂
                have k₁ := skip_ok hskip
                have pr := (exprWithin_parsed (k₁.scanned hs) hrhs).after k₁
                have hall := hn.append pr.sites
                have hlex : (Expr.binary ⟨lhs.span.start, rhs.span.stop⟩ op lhs rhs).Lexical d :=
                  ⟨hl, pr.lexical⟩
                have po := operators_parsed (pr.advances.scanned hs) hlex hall h₃
                exact ⟨pr.advances.trans po.advances, po.lexical, po.sites⟩

theorem operand_parsed {d : Dialect} {n : Nat} {st st' : State} {e : Expr} (hs : st.Scanned)
    (h : operand d n st = .ok (e, st')) : Parsed d st.nextSite st st' e := by
  match n with
  | 0 => exact absurd h not_failAtEnd
  | n + 1 =>
      obtain ⟨l, _, hpeek, h₁⟩ := stateT_bind.mp h
      obtain ⟨rfl, hl⟩ := peek_ok hpeek
      obtain ⟨y, hy, h₁⟩ := exists_rule h₁
      split at hy
      · subst hy
        exact absurd h₁ not_failAtEnd
      · next token span doc =>
          have htoken : token.Scanned := hs _ (List.mem_of_mem_head? hl.symm)
          subst hy
          cases token with
          | int value =>
              obtain ⟨_, st₁, hskip, hend⟩ := stateT_bind.mp h₁
              cases hend
              exact .leaf (skip_ok hskip) htoken rfl
          | ident name =>
              obtain ⟨_, st₁, hskip, h₂⟩ := stateT_bind.mp h₁
              have k := skip_ok hskip
              have hw : IsWord _ := htoken
              exact (named_parsed (k.scanned hs) hw h₂).after k
          | keyword word =>
              cases word with
              | true_ | false_ | null_ | this_ =>
                  obtain ⟨_, st₁, hskip, hend⟩ := stateT_bind.mp h₁
                  cases hend
                  exact .leaf (skip_ok hskip) trivial rfl
              | new_ =>
                  obtain ⟨_, st₁, hskip, h₂⟩ := stateT_bind.mp h₁
                  have k := skip_ok hskip
                  exact (creation_parsed (k.scanned hs) h₂).after k
              | _ => exact absurd h₁ not_failAt
          | symbol mark =>
              cases mark with
              | lparen =>
                  obtain ⟨_, st₁, hskip, h₂⟩ := stateT_bind.mp h₁
                  obtain ⟨inner, st₂, hinner, h₃⟩ := stateT_bind.mp h₂
                  obtain ⟨_, st₃, hclose, hend⟩ := stateT_bind.mp h₃
                  cases hend
                  have k := skip_ok hskip
                  have px := (exprWithin_parsed (k.scanned hs) hinner).after k
                  exact px.before (expectMark_ok hclose)
              | minus | bang =>
                  obtain ⟨_, st₁, hskip, h₂⟩ := stateT_bind.mp h₁
                  obtain ⟨x, st₂, hx, hend⟩ := stateT_bind.mp h₂
                  cases hend
                  have k := skip_ok hskip
                  have px := (exprWithin_parsed (k.scanned hs) hx).after k
                  exact ⟨px.advances, px.lexical, px.sites⟩
              | ellipsis =>
                  by_cases hd : d = .effect
                  · simp only [hd, if_true] at h₁
                    obtain ⟨_, st₁, hskip, h₂⟩ := stateT_bind.mp h₁
                    obtain ⟨x, st₂, hx, hend⟩ := stateT_bind.mp h₂
                    cases hend
                    have k := skip_ok hskip
                    have px := (exprWithin_parsed (k.scanned hs) hx).after k
                    exact ⟨px.advances, ⟨hd, hd ▸ px.lexical⟩, px.sites⟩
                  · simp only [hd, if_false] at h₁
                    exact absurd h₁ not_failAt
              | _ => exact absurd h₁ not_failAt
          | _ => exact absurd h₁ not_failAt

theorem named_parsed {d : Dialect} {n : Nat} {name : Located String} {st st' : State} {e : Expr}
    (hs : st.Scanned) (hw : IsWord name.val) (h : named d n name st = .ok (e, st')) :
    Parsed d st.nextSite st st' e := by
  match n with
  | 0 =>
      cases h
      exact .leaf (Skips.refl _) hw rfl
  | n + 1 =>
      simp only [named] at h
      split at h
      · next hform =>
          cases h
          have hd : d.isClause = true ∧ name.val = "result" := by simpa using hform
          exact .leaf (Skips.refl _) hd.1 rfl
      · obtain ⟨isCall, _, hcall, h₁⟩ := stateT_bind.mp h
        obtain rfl := isAhead_ok hcall
        split at h₁
        · next hform =>
            obtain ⟨_, st₁, hskip, h₂⟩ := stateT_bind.mp h₁
            obtain ⟨inner, st₂, hinner, h₃⟩ := stateT_bind.mp h₂
            obtain ⟨close, st₃, hclose, hend⟩ := stateT_bind.mp h₃
            cases hend
            have k := skip_ok hskip
            have px := ((exprWithin_parsed (k.scanned hs) hinner).after k).before
              (expectMark_ok hclose)
            have hd : (d.isClause = true ∧ name.val = "old") ∧ isCall = true := by
              simpa using hform
            exact ⟨px.advances, ⟨hd.1.1, px.lexical⟩, px.sites⟩
        · split at h₁
          · obtain ⟨site, st₁, hsite, h₂⟩ := stateT_bind.mp h₁
            obtain ⟨⟨args, stop⟩, st₂, hargs, hend⟩ := stateT_bind.mp h₂
            obtain ⟨rfl, rfl⟩ := freshSite_ok hsite
            cases hend
            have ks := freshSite_advances st
            have pa := arguments_parsed (ks.scanned hs) hargs
            exact ⟨ks.trans pa.advances, ⟨hw, pa.lexical⟩,
              Consecutive.singleton.append pa.sites⟩
          · cases h₁
            exact .leaf (Skips.refl _) hw rfl

theorem creation_parsed {d : Dialect} {n : Nat} {start : Span} {st st' : State} {e : Expr}
    (hs : st.Scanned) (h : creation d n start st = .ok (e, st')) :
    Parsed d st.nextSite st st' e := by
  match n with
  | 0 => exact absurd h not_failAtEnd
  | n + 1 =>
      obtain ⟨isArray, _, harray, h₁⟩ := stateT_bind.mp h
      obtain rfl := isArrayAhead_ok harray
      cases isArray with
      | true =>
          simp only [if_true] at h₁
          obtain ⟨elem, st₁, helem, h₂⟩ := stateT_bind.mp h₁
          obtain ⟨_, st₂, hopen, h₃⟩ := stateT_bind.mp h₂
          obtain ⟨len, st₃, hlen, h₄⟩ := stateT_bind.mp h₃
          obtain ⟨close, st₄, hclose, hend⟩ := stateT_bind.mp h₄
          cases hend
          obtain ⟨k₁, hplain⟩ := elementType_parsed hs helem
          have k := k₁.trans (expectMark_ok hopen)
          have px := ((exprWithin_parsed (k.scanned hs) hlen).after k).before
            (expectMark_ok hclose)
          exact ⟨px.advances, ⟨hplain, px.lexical⟩, px.sites⟩
      | false =>
          simp only [Bool.false_eq_true, if_false] at h₁
          obtain ⟨name, st₁, hname, h₂⟩ := stateT_bind.mp h₁
          obtain ⟨site, st₂, hsite, h₃⟩ := stateT_bind.mp h₂
          obtain ⟨⟨args, stop⟩, st₃, hargs, hend⟩ := stateT_bind.mp h₃
          cases hend
          obtain ⟨k, hw⟩ := expectName_ok hname hs
          obtain ⟨rfl, rfl⟩ := freshSite_ok hsite
          have ks := k.advances.trans (freshSite_advances st₁)
          have pa := arguments_parsed (ks.scanned hs) hargs
          refine ⟨ks.trans pa.advances, ⟨hw, pa.lexical⟩, ?_⟩
          rw [← k.site]
          exact Consecutive.singleton.append pa.sites

theorem arguments_parsed {d : Dialect} {n stop : Nat} {st st' : State} {es : List Expr}
    (hs : st.Scanned) (h : arguments d n st = .ok ((es, stop), st')) :
    ParsedAll d st.nextSite st st' es := by
  match n with
  | 0 => exact absurd h not_failAtEnd
  | n + 1 =>
      obtain ⟨_, st₁, hopen, h₁⟩ := stateT_bind.mp h
      obtain ⟨args, st₂, hargs, h₂⟩ := stateT_bind.mp h₁
      obtain ⟨close, st₃, hclose, hend⟩ := stateT_bind.mp h₂
      cases hend
      have k := expectMark_ok hopen
      exact ((argumentList_parsed (k.scanned hs) hargs).after k).before (expectMark_ok hclose)

theorem argumentList_parsed {d : Dialect} {n : Nat} {isFirst : Bool} {st st' : State}
    {es : List Expr} (hs : st.Scanned) (h : argumentList d n isFirst st = .ok (es, st')) :
    ParsedAll d st.nextSite st st' es := by
  match n with
  | 0 =>
      cases h
      exact ⟨Advances.refl _, trivial, Consecutive.nil⟩
  | n + 1 =>
      obtain ⟨ended, _, hended, h₁⟩ := stateT_bind.mp h
      obtain rfl := atCloser_ok hended
      cases ended with
      | true =>
          simp only [if_true] at h₁
          cases h₁
          exact ⟨Advances.refl _, trivial, Consecutive.nil⟩
      | false =>
          simp only [Bool.false_eq_true, if_false] at h₁
          have rest {st₀ : State} (k : Skips st st₀)
              (hrest : (exprWithin d n 0 >>= fun arg => argumentList d n false >>= fun rest =>
                pure (arg :: rest)) st₀ = .ok (es, st')) : ParsedAll d st.nextSite st st' es := by
            obtain ⟨arg, st₁, harg, h₂⟩ := stateT_bind.mp hrest
            obtain ⟨args, st₂, hargs, hend⟩ := stateT_bind.mp h₂
            cases hend
            have pa := (exprWithin_parsed (k.scanned hs) harg).after k
            have ps := argumentList_parsed (pa.advances.scanned hs) hargs
            exact ⟨pa.advances.trans ps.advances, ⟨pa.lexical, ps.lexical⟩,
              pa.sites.append ps.sites⟩
          cases isFirst with
          | true => exact rest (Skips.refl _) h₁
          | false =>
              simp only [Bool.not_false, if_true] at h₁
              obtain ⟨_, st₁, hcomma, h₂⟩ := stateT_bind.mp h₁
              exact rest (expectMark_ok hcomma) h₂

end

theorem exprAbove_parsed {d : Dialect} {power : Nat} {st st' : State} {e : Expr}
    (hs : st.Scanned) (h : exprAbove d power st = .ok (e, st')) :
    Parsed d st.nextSite st st' e := by
  obtain ⟨n, _, hn, h₁⟩ := stateT_bind.mp h
  obtain rfl := budget_ok hn
  exact exprWithin_parsed hs h₁

theorem expr_parsed {d : Dialect} {st st' : State} {e : Expr} (hs : st.Scanned)
    (h : expr d st = .ok (e, st')) : Parsed d st.nextSite st st' e :=
  exprAbove_parsed hs h

theorem callArguments_parsed {d : Dialect} {stop : Nat} {st st' : State} {es : List Expr}
    (hs : st.Scanned) (h : callArguments d st = .ok ((es, stop), st')) :
    ParsedAll d st.nextSite st st' es := by
  obtain ⟨n, _, hn, h₁⟩ := stateT_bind.mp h
  obtain rfl := budget_ok hn
  exact arguments_parsed hs h₁

end Parse

/-! ## Clauses

The spans of a clause are moved to where its text stands in the source, which
changes neither its words nor the numbers of its calls. -/

namespace Surface

theorem TypeExpr.plain_mapSpans (f : Span → Span) {t : TypeExpr} (h : t.Plain) :
    (t.mapSpans f).Plain := by
  cases t with
  | int | boolean | named => exact h
  | array => exact h.elim

mutual

@[simp] theorem Expr.sites_mapSpans (f : Span → Span) (e : Expr) :
    (e.mapSpans f).sites = e.sites := by
  match e with
  | .int .. | .bool .. | .null .. | .this .. | .name .. | .result .. => rfl
  | .binary _ _ l r => simp [Expr.mapSpans, Expr.sites, Expr.sites_mapSpans f l,
      Expr.sites_mapSpans f r]
  | .unary _ _ x | .field _ x _ | .newArray _ _ x | .old _ x | .spread _ x =>
      simp [Expr.mapSpans, Expr.sites, Expr.sites_mapSpans f x]
  | .index _ a i => simp [Expr.mapSpans, Expr.sites, Expr.sites_mapSpans f a,
      Expr.sites_mapSpans f i]
  | .call _ _ _ args | .new _ _ _ args =>
      simp [Expr.mapSpans, Expr.sites, sitesAll_mapSpans f args]
  | .methodCall _ _ o _ args =>
      simp [Expr.mapSpans, Expr.sites, Expr.sites_mapSpans f o, sitesAll_mapSpans f args]

theorem sitesAll_mapSpans (f : Span → Span) (es : List Expr) :
    sitesAll (Expr.mapSpansAll f es) = sitesAll es := by
  match es with
  | [] => rfl
  | e :: es => simp [Expr.mapSpansAll, sitesAll, Expr.sites_mapSpans f e, sitesAll_mapSpans f es]

end

mutual

theorem Expr.lexical_mapSpans {d : Parse.Dialect} (f : Span → Span) {e : Expr}
    (h : e.Lexical d) : (e.mapSpans f).Lexical d := by
  match e with
  | .int .. | .bool .. | .null .. | .this .. | .name .. | .result .. => exact h
  | .binary _ _ l r => exact ⟨Expr.lexical_mapSpans f h.1, Expr.lexical_mapSpans f h.2⟩
  | .unary _ _ x => exact Expr.lexical_mapSpans f (e := x) h
  | .old _ x | .spread _ x => exact ⟨h.1, Expr.lexical_mapSpans f h.2⟩
  | .field _ x _ => exact ⟨Expr.lexical_mapSpans f h.1, h.2⟩
  | .newArray _ _ x => exact ⟨TypeExpr.plain_mapSpans f h.1, Expr.lexical_mapSpans f h.2⟩
  | .index _ a i => exact ⟨Expr.lexical_mapSpans f h.1, Expr.lexical_mapSpans f h.2⟩
  | .call _ _ _ args | .new _ _ _ args => exact ⟨h.1, lexicalAll_mapSpans f h.2⟩
  | .methodCall _ _ o _ args =>
      exact ⟨Expr.lexical_mapSpans f h.1, h.2.1, lexicalAll_mapSpans f h.2.2⟩

theorem lexicalAll_mapSpans {d : Parse.Dialect} (f : Span → Span) {es : List Expr}
    (h : lexicalAll d es) : lexicalAll d (Expr.mapSpansAll f es) := by
  match es with
  | [] => exact trivial
  | e :: es => exact ⟨Expr.lexical_mapSpans f h.1, lexicalAll_mapSpans f h.2⟩

end

end Surface

namespace Parse

open Surface (Expr)

theorem State.scanned_ofTokens {ts : List (Located Token)} (h : ∀ t ∈ ts, t.val.Scanned)
    (firstSite : SiteId) : (State.ofTokens ts firstSite).Scanned := by
  have (doc : Option Surface.DocComment) : ∀ l ∈ lexemesFrom doc ts, l.token.Scanned := by
    induction ts generalizing doc with
    | nil => exact fun l hl => absurd hl List.not_mem_nil
    | cons t ts ih =>
        obtain ⟨t, span⟩ := t
        have ih := ih fun t ht => h t (List.mem_cons_of_mem _ ht)
        intro l hl
        rw [lexemesFrom.eq_def] at hl
        split at hl
        · next heq => cases heq
        · next heq =>
            cases heq
            exact ih _ l hl
        · next heq =>
            cases heq
            exact ih _ l hl
        · next heq =>
            cases heq
            rcases List.mem_cons.mp hl with rfl | hl
            · exact h _ List.mem_cons_self
            · exact ih _ l hl
  exact this none

theorem mapSpansAll_eq (f : Span → Span) (es : List Expr) :
    Expr.mapSpansAll f es = es.map (·.mapSpans f) := by
  induction es with
  | nil => rfl
  | cons e es ih => rw [Expr.mapSpansAll, ih, List.map_cons]

/-- The expressions that a clause is made of. -/
def ClauseBody.exprs : ClauseBody → List Expr
  | .condition e => [e]
  | .targets es => es

/-- What a clause is written in. -/
def ClauseBody.dialect : ClauseBody → Dialect
  | .condition _ => .condition
  | .targets _ => .effect

theorem targetList_parsed {n : Nat} {st st' : State} {es : List Expr} (hs : st.Scanned)
    (h : targetList n st = .ok (es, st')) : ParsedAll .effect st.nextSite st st' es := by
  induction n generalizing st es with
  | zero =>
      cases h
      exact ⟨Advances.refl _, trivial, Consecutive.nil⟩
  | succ n ih =>
      obtain ⟨e, st₁, he, h₁⟩ := stateT_bind.mp h
      obtain ⟨more, st₂, hmore, h₂⟩ := stateT_bind.mp h₁
      have pe := (expr_parsed hs he).before (eat_ok hmore)
      cases more with
      | true =>
          simp only [if_true] at h₂
          obtain ⟨es', st₃, hes, hend⟩ := stateT_bind.mp h₂
          cases hend
          have ps := ih (pe.advances.scanned hs) hes
          exact ⟨pe.advances.trans ps.advances, ⟨pe.lexical, ps.lexical⟩,
            pe.sites.append ps.sites⟩
      | false =>
          simp only [Bool.false_eq_true, if_false] at h₂
          cases h₂
          exact pe.single

theorem stateT_map {σ ε α β : Type} {f : α → β} {x : StateT σ (Except ε) α} {s : σ}
    {r : β × σ} (h : (f <$> x) s = .ok r) : ∃ a s₁, x s = .ok (a, s₁) ∧ r = (f a, s₁) := by
  have h : (x >>= fun a => pure (f a)) s = .ok r := h
  obtain ⟨a, s₁, hx, hend⟩ := stateT_bind.mp h
  cases hend
  exact ⟨a, s₁, hx, rfl⟩

theorem clauseEnd_ok {st st' : State} (h : clauseEnd st = .ok ((), st')) : Skips st st' := by
  obtain ⟨l, _, hl, h₁⟩ := stateT_bind.mp h
  obtain ⟨rfl, rfl⟩ := peek_ok hl
  cases hh : st.rest.head? with
  | none =>
      simp only [hh] at h₁
      cases h₁
      exact Skips.refl _
  | some l =>
      simp only [hh] at h₁
      exact absurd h₁ not_failAt

theorem clauseBody_parsed {tag : ClauseTag} {st st' : State} {body : ClauseBody}
    (hs : st.Scanned) (h : clauseBody tag st = .ok (body, st')) :
    ParsedAll body.dialect st.nextSite st st' body.exprs := by
  have last {b : ClauseBody} {st₁ : State} (hb : ParsedAll b.dialect st.nextSite st st₁ b.exprs)
      (h : (clauseEnd >>= fun _ => pure b) st₁ = .ok (body, st')) :
      ParsedAll body.dialect st.nextSite st st' body.exprs := by
    obtain ⟨_, st₂, hclose, hend⟩ := stateT_bind.mp h
    cases hend
    exact hb.before (clauseEnd_ok hclose)
  simp only [clauseBody] at h
  cases he : tag.isEffect with
  | true =>
      simp only [he, if_true] at h
      obtain ⟨n, _, hn, h₁⟩ := stateT_bind.mp h
      obtain rfl := budget_ok hn
      obtain ⟨b, st₁, hb, h₂⟩ := stateT_bind.mp h₁
      obtain ⟨es, st₃, hes, heq⟩ := stateT_map hb
      cases heq
      exact last (b := .targets es) (targetList_parsed hs hes) h₂
  | false =>
      simp only [he, Bool.false_eq_true, if_false] at h
      obtain ⟨b, st₁, hb, h₂⟩ := stateT_bind.mp h
      obtain ⟨e, st₃, he, heq⟩ := stateT_map hb
      cases heq
      have pe := expr_parsed hs he
      exact last (b := .condition e) pe.single h₂

/-- The expressions of a clause are made of words, and its calls have, in the order of its text, the
numbers from the first on that it was given. -/
theorem clause_parsed {r : ClauseRecord} {site next : SiteId} {body : ClauseBody}
    (h : clause r site = .ok (body, next)) :
    Surface.lexicalAll body.dialect body.exprs ∧
      Consecutive site next (Surface.sitesAll body.exprs) := by
  simp only [clause] at h
  split at h
  · next b st hb =>
      cases h
      obtain ⟨ts, hts, hrun⟩ := bind_eq_ok.mp hb
      have hs := State.scanned_ofTokens (Scan.clause_scanned hts) site
      have p : ParsedAll b.dialect site (State.ofTokens ts site) st b.exprs := clauseBody_parsed hs hrun
      refine ⟨?_, ?_⟩
      · cases b with
        | condition e => exact ⟨Surface.Expr.lexical_mapSpans _ p.lexical.1, trivial⟩
        | targets es =>
            show Surface.lexicalAll .effect (es.map _)
            rw [← mapSpansAll_eq]
            exact Surface.lexicalAll_mapSpans _ p.lexical
      · cases b with
        | condition e =>
            show Consecutive _ _ ((e.mapSpans _).sites ++ [])
            rw [Surface.Expr.sites_mapSpans]
            exact p.sites
        | targets es =>
            show Consecutive _ _ (Surface.sitesAll (es.map _))
            rw [← mapSpansAll_eq, Surface.sitesAll_mapSpans]
            exact p.sites
  · exact absurd h (by simp)

end Parse

end Covenant
