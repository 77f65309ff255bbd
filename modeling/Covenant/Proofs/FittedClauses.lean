import Covenant.Proofs.BoundClauses
import Covenant.Proofs.CallSites
import Covenant.Proofs.FittedBodies
import Covenant.Proofs.OldTerms

/-!
# Bound clauses fit

What binding makes of a clause fits the place where the clause stands. The calls in
clauses have numbers behind those of the program, so nothing is written down for
their sites.
-/

namespace Covenant

open Typed (Context)
open Typing (Elab SitesOf)

namespace Contract

/-- What a clause may refer to where it stands. -/
def ClauseScope.context (s : ClauseScope) (hasOld hasSpread : Bool) : Context where
  this := if s.isStatic then none else some s.className
  locals := []
  params := s.frame.params.map (·.2)
  result := s.frame.result
  slots := []
  hasOld
  hasSpread

theorem ClauseScope.typing_in (env : Env) (s : ClauseScope) (hasOld hasSpread : Bool) :
    (s.typing env).In env (s.context hasOld hasSpread) where
  env := ⟨rfl, rfl, rfl⟩
  this hs := by
    simp only [ClauseScope.context]
    rw [if_neg (by rw [show s.isStatic = false from hs]; simp)]
    rfl
  locals := rfl
  params name i type h := by
    obtain ⟨frame, hframe, _, ht⟩ := Typing.Scope.param?_eq_some h
    cases hframe
    exact ht
  result type h := h

section

variable {isPost hasResult : Bool} {d : Parse.Dialect}

mutual

/-- Where no form is misplaced, all forms fit. -/
theorem formsFit_of_placed : ∀ {e : Surface.Expr} {inOld : Bool},
    misplaced? isPost hasResult inOld e = none → e.Lexical d →
    e.FormsFit (isPost && !inOld) (decide (d = .effect))
  | .int .., _, _, _ | .bool .., _, _, _ | .null .., _, _, _ | .this .., _, _, _
  | .name .., _, _, _ | .result .., _, _, _ => trivial
  | .binary .., _, h, hl | .index .., _, h, hl => by
      obtain ⟨_, ha, hb⟩ := Typing.misplaced?_none h
      exact ⟨formsFit_of_placed ha hl.1, formsFit_of_placed hb hl.2⟩
  | .unary _ _ x, _, h, hl => by
      have hx := formsFit_of_placed (e := x) (Typing.misplaced?_none h).2 hl
      exact hx
  | .field _ x _, _, h, hl => by
      have hx := formsFit_of_placed (e := x) (Typing.misplaced?_none h).2 hl.1
      exact hx
  | .newArray _ _ x, _, h, hl => by
      have hx := formsFit_of_placed (e := x) (Typing.misplaced?_none h).2 hl.2
      exact hx
  | .spread _ x, _, h, hl =>
      ⟨decide_eq_true hl.1, formsFit_of_placed (e := x) (Typing.misplaced?_none h).2 hl.2⟩
  | .call _ _ _ args, _, h, hl | .new _ _ _ args, _, h, hl => by
      obtain ⟨_, ha⟩ := Typing.misplaced?_none h
      exact formsFitAll_of_placed ha hl.2
  | .methodCall .., _, h, hl => by
      obtain ⟨_, ho, ha⟩ := Typing.misplaced?_none h
      exact ⟨formsFit_of_placed ho hl.1, formsFitAll_of_placed ha hl.2.2⟩
  | .old _ x, inOld, h, hl => by
      obtain ⟨hform, hx⟩ := Typing.misplaced?_none h
      have hx := formsFit_of_placed (e := x) hx hl.2
      rw [Bool.not_true, Bool.and_false] at hx
      refine ⟨?_, hx⟩
      cases isPost <;> cases inOld <;> simp [misplacedForm?] at hform ⊢

theorem formsFitAll_of_placed : ∀ {es : List Surface.Expr} {inOld : Bool},
    misplacedAny? isPost hasResult inOld es = none → Surface.lexicalAll d es →
    Surface.formsFitAll (isPost && !inOld) (decide (d = .effect)) es
  | [], _, _, _ => trivial
  | _ :: _, _, h, hl => by
      obtain ⟨he, hes⟩ := Typing.misplacedAny?_none h
      exact ⟨formsFit_of_placed he hl.1, formsFitAll_of_placed hes hl.2⟩

end

end

section

variable {p : Surface.Program} (hp : p.WellFormed) {env : Env}
  (h : Typing.checkProgram p = .ok env) {r : ClauseRecord} {c : BoundClause}

include hp h

/-- Nothing is written down for calls with numbers behind those of the program. -/
theorem sitesOf_fresh {s : Typing.Scope} {e : Surface.Expr} {t : Typed.Expr} {cs : List CallSite}
    (he : Elab s e t cs) (hn : ∀ i ∈ e.sites, p.siteCount ≤ i) : SitesOf env cs := by
  intro c hc d hd
  have hsite : c.id ∈ e.sites := (he.sites_perm.mem_iff).mp (List.mem_map.mpr ⟨c, hc, rfl⟩)
  have hkey : c.id = d.id := (Typing.nodup_callSites hp h).2 _ (Table.mem_of_get? hd)
  have hlt := Typing.callSites_lt hp h (List.mem_map.mpr ⟨_, Table.mem_of_get? hd, rfl⟩)
  exact absurd (hn _ hsite) (Nat.not_le.mpr (hkey ▸ hlt))

/-- A condition fits the place where it stands. -/
theorem ConditionOf.fits (hc : ConditionOf env p.siteCount r c) : ∃ s, scopeOf env r = .ok s ∧
    c.expr.Fits env (s.context (decide (r.tag = .post)) false) ∧ c.expr.type = .boolean := by
  cases hc with
  | @mk s e t cs hs hsub he hl hn hf ht =>
      have hforms := formsFit_of_placed hf hl
      rw [Bool.not_false, Bool.and_true] at hforms
      exact ⟨s, hs, he.fits (Env.declaredBy_of_check hp h) (s.typing_in env _ _) hforms
        (sitesOf_fresh hp h he hn), ht⟩

/-- A target fits the place where it stands, and it spreads only collections. -/
theorem TargetOf.fits (hc : TargetOf env p.siteCount r c) : ∃ s, scopeOf env r = .ok s ∧
    c.expr.Fits env (s.context (decide (r.tag = .post)) true) ∧
    c.expr.parts.findSome? badSpread? = none := by
  cases hc with
  | @mk s e t cs hs he hl hn hf hb hpath =>
      have hforms := formsFit_of_placed hf hl
      rw [Bool.not_false, Bool.and_true] at hforms
      exact ⟨s, hs, he.fits (Env.declaredBy_of_check hp h) (s.typing_in env _ _) hforms
        (sitesOf_fresh hp h he hn), hb⟩

end

end Contract

end Covenant
