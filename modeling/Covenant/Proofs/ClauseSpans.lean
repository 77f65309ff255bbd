import Covenant.Proofs.Built
import Covenant.Proofs.ExtractedClauses
import Covenant.Proofs.FaultPlaces
import Covenant.Proofs.ProgramComments

/-!
# What the spans of clauses point at

From the source and back: a comment of a program stands in its source, the pieces
of a clause stand in the comment, and a word of the clause is in one piece. So
the spans of a clause, of its tree and of what is wrong with it point at the text
that they are about.
-/

namespace Covenant

theorem IsWord.no_blank {w : String} (h : IsWord w) : ' ' ∉ w.toList :=
  fun hmem => absurd (h.chars _ hmem) (by decide)

/-- The spans of a clause point at its source, and the spans of what is wrong with it lie in it. A
clause lies in the comment that it is found in. If it parses, each name of its tree is what the
source says at the span of the name, and each node has its parts in its span. And whatever is wrong
with it is reported at a span in the clause. -/
theorem clause_spans {source : String} {p : Surface.Program} (hp : Parse.program source = .ok p)
    {r : ClauseRecord} (hr : r ∈ Clause.ofProgram p) (site : SiteId) :
    (∃ doc owner, r ∈ Clause.ofComment doc owner ∧
      Text.slice source.toList doc.span.start doc.span.stop = doc.text.toList ∧
      r.span.Inside doc.span) ∧
    (∀ body next, Parse.clause r site = .ok (body, next) → ∀ e ∈ body.exprs,
      e.span.Inside r.span ∧
      e.WellSpanned (fun s name => Text.slice source.toList s.start s.stop = name.toList)
        Span.Inside) ∧
    ∀ env fault, (Contract.bindRecord env r site).1 = .error fault →
      fault.span.Inside r.span := by
  obtain ⟨doc, owner, ⟨hstart, hstop⟩, hmem⟩ := Parse.mem_ofProgram hp hr
  have hslice := hstart.slice_eq
  obtain ⟨before, after, hsource, hbefore⟩ := hstart
  -- The source up to the end of the comment bounds what is found in it.
  have hat : Text.At (before ++ doc.text.toList) doc.span.start doc.text.toList :=
    ⟨before, [], by rw [List.append_nil], hbefore⟩
  obtain ⟨hex, hne⟩ := Clause.ofComment_extracted hat r hmem
  have hend : r.span.stop ≤ doc.span.stop := by
    obtain ⟨mid, _, hpieces⟩ := hex.pieces
    have hle := hpieces.le_width hne
    rw [Text.width_append, hbefore] at hle
    omega
  have hself : r.span.Inside r.span := ⟨Nat.le_refl _, hex.ordered, Nat.le_refl _⟩
  refine ⟨⟨doc, owner, hmem, hstop ▸ hslice, hex.start, hex.ordered, hend⟩, ?_, ?_⟩
  · intro body next hparse e he
    obtain ⟨e₀, rfl, hspanned⟩ := Parse.clause_spanned hparse e he
    refine ⟨e₀.span_mapSpans _ ▸ hex.sourceSpan_inside hne _, hspanned.mapSpans ⟨?_, ?_⟩⟩
    · intro s name hword
      obtain ⟨hword, hstop⟩ := hex.sourceSpan_word hword.stands hword.stop hword.isWord.ne_nil
        hword.isWord.no_blank
      rw [hstop, hsource]
      exact (hword.append after).slice_eq
    · exact fun s t hpart => hex.sourceSpan_mono hne hpart.ne_empty hpart.start hpart.stop
  · exact fun env => Contract.bindRecord_faults (P := (·.Inside r.span)) hself hex.subject
      (hex.sourceSpan_inside hne)

/-- A clause that goes on in the next line, among words of more bytes than letters, and one that
makes no sense. -/
def accountSource : String :=
  "class Account \x7b
    int balance;
    /** Überweist – gedeckt:
      * @pre | n > 0 &&
      *  ¶ und
      *      | this.balance >= n
      * @post | result + 1 */
    int pay(int n) \x7b return n; \x7d
  \x7d"

/-- Evaluates what is said of `accountSource`. -/
def accountCheck : Option Bool := do
  let p ← (Parse.program accountSource).toOption
  let env ← (Typing.checkProgram p).toOption
  let [r, q] := Clause.ofProgram p | none
  let (.condition (.binary _ .and _ _), _) ← (Parse.clause r 0).toOption | none
  let .error _ := (Contract.bindRecord env q 0).1 | none
  return r.segments.length == 2

/-- The names of the first clause are found in the source, and the fault of the second one is in
it. -/
theorem clause_spans_account :
    ∃ p env r q e fault next, Parse.program accountSource = .ok p ∧
      r ∈ Clause.ofProgram p ∧ q ∈ Clause.ofProgram p ∧ r.segments.length = 2 ∧
      Parse.clause r 0 = .ok (.condition e, next) ∧
      e.WellSpanned (fun s name =>
        Text.slice accountSource.toList s.start s.stop = name.toList) Span.Inside ∧
      (Contract.bindRecord env q 0).1 = .error fault ∧ fault.span.Inside q.span := by
  have h : accountCheck = some true := by
    set_option maxRecDepth 20000 in
    rw [accountCheck, show accountSource = String.ofList _ from rfl, Parse.program_ofList]
    decide +kernel
  rw [accountCheck] at h
  obtain ⟨p, hp, h⟩ := Option.bind_eq_some_iff.mp h
  obtain ⟨env, _, h⟩ := Option.bind_eq_some_iff.mp h
  split at h
  · next r q hrecords =>
      obtain ⟨⟨body, next⟩, hclause, h⟩ := Option.bind_eq_some_iff.mp h
      split at h
      · next hbody =>
          obtain ⟨rfl, rfl⟩ := Prod.mk.inj hbody
          split at h
          · next fault hfault =>
              have hr : r ∈ Clause.ofProgram p := hrecords ▸ List.mem_cons_self
              have hq : q ∈ Clause.ofProgram p :=
                hrecords ▸ List.mem_cons_of_mem _ List.mem_cons_self
              have hparsed := (clause_spans (ok_of_toOption hp) hr 0).2.1 _ _
                (ok_of_toOption hclause) _ List.mem_cons_self
              exact ⟨p, env, r, q, _, fault, _, ok_of_toOption hp, hr, hq, by simpa using h,
                ok_of_toOption hclause, hparsed.2, hfault,
                (clause_spans (ok_of_toOption hp) hq 0).2.2 env fault hfault⟩
          · cases h
      · cases h
  · cases h

end Covenant
