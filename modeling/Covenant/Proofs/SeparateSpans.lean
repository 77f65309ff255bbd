import Covenant.Proofs.ClauseTerms
import Covenant.Proofs.ExtractedClauses
import Covenant.Proofs.SourceOrder
import Covenant.Proofs.SpannedBodies

/-!
# Clauses and bodies apart

A clause lies in a comment, and a span from token to token does not: comments and
tokens stand one behind the other. So what a body or a first value evaluates is told
from what is evaluated of clauses by its span.
-/

namespace Covenant

namespace Parse

open Surface (DocComment)

variable {src : List Char} {ts : List (Located Token)} {doc doc' : Option DocComment} {l : Lexeme}

/-- Tokens end before the next ones begin. -/
theorem apart_tokens {lo : Nat} (h : Scan.TokensAt src lo ts) :
    ts.Pairwise fun t u => t.span.stop ≤ u.span.start := by
  induction ts generalizing lo with
  | nil => exact .nil
  | cons t ts ih => exact .cons (ascending_tokens h.2.2).1 (ih h.2.2)

/-- What the parser reads is a token and no comment, and what it finds with it is a comment that
stands among the tokens. -/
structure FoundIn (doc : Option DocComment) (ts : List (Located Token)) (l : Lexeme) : Prop where
  token : ∃ t ∈ ts, t.span = l.span ∧ ∀ kind text, t.val ≠ .comment kind text
  comment : ∀ d, l.doc = some d →
    doc = some d ∨ ∃ t ∈ ts, t.span = d.span ∧ t.val = .comment .doc d.text

theorem FoundIn.cons {t : Located Token} (h : FoundIn doc' ts l)
    (hdoc : ∀ d, doc' = some d → doc = some d ∨ t.span = d.span ∧ t.val = .comment .doc d.text) :
    FoundIn doc (t :: ts) l := by
  obtain ⟨u, hu, hspan⟩ := h.token
  refine ⟨⟨u, List.mem_cons_of_mem _ hu, hspan⟩, fun d hd => ?_⟩
  rcases h.comment d hd with hd | ⟨u, hu, hspan⟩
  · exact (hdoc d hd).imp_right fun ht => ⟨t, List.mem_cons_self, ht⟩
  · exact .inr ⟨u, List.mem_cons_of_mem _ hu, hspan⟩

theorem foundIn_of_mem (hl : l ∈ lexemesFrom doc ts) : FoundIn doc ts l := by
  induction ts generalizing doc with
  | nil => exact absurd hl List.not_mem_nil
  | cons t ts ih =>
      obtain ⟨t, span⟩ := t
      rw [lexemesFrom.eq_def] at hl
      split at hl
      · next heq => cases heq
      · next heq =>
          cases heq
          exact (ih hl).cons fun d hd => .inr (by cases hd; exact ⟨rfl, rfl⟩)
      · next heq =>
          cases heq
          exact (ih hl).cons fun d hd => .inl hd
      · next hno heq =>
          cases heq
          rcases List.mem_cons.mp hl with rfl | hl
          · exact ⟨⟨_, List.mem_cons_self, rfl, hno⟩, fun d hd => .inl hd⟩
          · exact (ih hl).cons nofun

/-- A span from token to token does not lie in a comment. -/
theorem FromTokens.not_inside (hts : Scan.program src = .ok ts) {s : Span}
    (hs : FromTokens (lexemesFrom none ts) s) {d : DocComment}
    (hd : (State.ofTokens ts 0).Offers (some d)) : ¬ s.Inside d.span := by
  obtain ⟨all, hall, hend⟩ := bind_eq_ok.mp hts
  have hpairs : ts.Pairwise fun t u =>
      t.span.stop ≤ u.span.start ∨ u.span.stop ≤ t.span.start := by
    cases hend
    exact ((apart_tokens (Scan.tokens_at hall)).sublist List.filter_sublist).imp .inl
  have hsymm : Std.Symm fun t u : Located Token =>
      t.span.stop ≤ u.span.start ∨ u.span.stop ≤ t.span.start := ⟨fun _ _ => Or.symm⟩
  have hlt : ∀ t ∈ ts, t.span.start < t.span.stop := fun t ht => (Scan.program_at hts t ht).lt
  obtain ⟨l, hl, hdoc⟩ := hd d rfl
  obtain hnone | ⟨c, hc, hcspan, hcomment⟩ := (foundIn_of_mem hl).comment d hdoc
  · cases hnone
  -- A token ends before the comment or begins behind it.
  have apart {l : Lexeme} (hl : l ∈ lexemesFrom none ts) : l.span.start < l.span.stop ∧
      (l.span.stop ≤ d.span.start ∨ d.span.stop ≤ l.span.start) := by
    obtain ⟨t, ht, hspan, hno⟩ := (foundIn_of_mem hl).token
    have hne : t ≠ c := fun heq => hno _ _ (heq ▸ hcomment)
    rw [← hspan, ← hcspan]
    exact ⟨hlt t ht, hpairs.forall ht hc hne⟩
  have hdlt := hlt c hc
  obtain ⟨⟨first, hfirst, hstart⟩, last, hlast, hstop⟩ := hs
  obtain ⟨hfirstlt, hfirst⟩ := apart hfirst
  obtain ⟨hlastlt, hlast⟩ := apart hlast
  rintro ⟨hlo, hle, hhi⟩
  rw [hcspan] at hdlt
  omega

end Parse

/-- Whatever is parsed of a clause has its span in the comment. -/
theorem Clause.sourceSpan_inside_comment {src : List Char} {doc : Surface.DocComment}
    (hdoc : doc.Stands src) {owner : DeclId} {r : ClauseRecord} (hr : r ∈ Clause.ofComment doc owner)
    (s : Span) : (r.sourceSpan s).Inside doc.span := by
  obtain ⟨⟨before, after, _, hbefore⟩, hstop⟩ := hdoc
  have hat : Text.At (before ++ doc.text.toList) doc.span.start doc.text.toList :=
    ⟨before, [], by rw [List.append_nil], hbefore⟩
  obtain ⟨hex, hne⟩ := Clause.ofComment_extracted hat r hr
  obtain ⟨mid, _, hpieces⟩ := hex.pieces
  have hle := hpieces.le_width hne
  rw [Text.width_append, hbefore] at hle
  obtain ⟨hlo, hmid, hhi⟩ := hex.sourceSpan_inside hne s
  exact ⟨Nat.le_trans hex.start hlo, hmid, by omega⟩

section

variable {source : String} {checks : Checks} {b : Build} (h : build source checks = .ok b)
  {p : Surface.Program} (hp : Parse.program source = .ok p)

include h hp

/-- Nothing that is evaluated of clauses stands in a body or in a first value. -/
theorem not_mem_evaluates {decl decl' : DeclId} {e x : Typed.Expr}
    (he : e ∈ b.program.env.partsOf decl) (hx : b.program.Evaluates decl' x) : e ∉ x.parts := by
  obtain ⟨ts, hts, htokened⟩ := Parse.program_tokened hp
  obtain ⟨hcheck, _, _⟩ := analysis_of_build h hp
  have hspan : Parse.FromTokens (Parse.lexemesFrom none ts) e.span :=
    Typing.partsOf_spans (Parse.program_wellFormed hp) hcheck htokened e he
  have hclauses : ∀ r ∈ Clause.ofProgram p, ∀ t, Contract.TermOf p.siteCount r t →
      Typed.Expr.Marked (fun s _ =>
        ∃ d, (Parse.State.ofTokens ts 0).Offers (some d) ∧ s.Inside d.span) t.parts := by
    rintro r hr t ⟨_, hparsed, hchecked⟩
    obtain ⟨ts', doc, owner, hts', hoffers, hr⟩ := Parse.offers_of_mem hp hr
    obtain rfl := Except.ok.inj (hts.symm.trans hts')
    have hstands := (Parse.State.documented_ofTokens (Scan.program_at hts) 0).stands hoffers doc rfl
    have hin := Clause.sourceSpan_inside_comment hstands hr
    have hall := Contract.clause_allSpans (P := (·.Inside doc.span)) hin hparsed _ List.mem_cons_self
    exact fun y hy => ⟨doc, hoffers, hchecked.spans hall y hy⟩
  intro hmem
  obtain ⟨d, hd, hinside⟩ := evaluates_marked h hp hclauses hx e hmem
  exact hspan.not_inside hts hd hinside

end

end Covenant
