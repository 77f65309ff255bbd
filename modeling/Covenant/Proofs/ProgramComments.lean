import Covenant.Clause.Extract
import Covenant.Proofs.ParsedProgram
import Covenant.Proofs.TextParts

/-!
# The comments of a program

The parser finds the documentation of a declaration at its first token, where the
scanner left it. It hands it on as it is, so every comment of a program stands in
the source where its span says.
-/

namespace Covenant

/-- A comment stands at its span of a text. -/
structure Surface.DocComment.Stands (src : List Char) (d : Surface.DocComment) : Prop where
  start : Text.At src d.span.start d.text.toList
  stop : d.span.stop = d.span.start + Text.width d.text.toList

namespace Parse

open Surface (DocComment)

/-- All comments that are left to the parser stand where they say. -/
def State.Documented (src : List Char) (st : State) : Prop :=
  ∀ l ∈ st.rest, ∀ d, l.doc = some d → d.Stands src

variable {src : List Char} {st st' : State}

theorem State.documented_ofTokens {ts : List (Located Token)}
    (h : ∀ t ∈ ts, t.val.At src t.span) (firstSite : SiteId) :
    (State.ofTokens ts firstSite).Documented src := by
  have (doc : Option DocComment) (hdoc : ∀ d, doc = some d → d.Stands src) :
      ∀ l ∈ lexemesFrom doc ts, ∀ d, l.doc = some d → d.Stands src := by
    induction ts generalizing doc with
    | nil => exact fun l hl => absurd hl List.not_mem_nil
    | cons t ts ih =>
        obtain ⟨t, span⟩ := t
        have ih := ih fun t ht => h t (List.mem_cons_of_mem _ ht)
        intro l hl
        rw [lexemesFrom.eq_def] at hl
        split at hl
        · next heq => cases heq
        · next heq =>
            cases heq
            refine ih _ ?_ l hl
            rintro _ ⟨⟩
            obtain ⟨cs, _, hat, hstop, rfl⟩ := h _ List.mem_cons_self
            exact ⟨hat, hstop⟩
        · next heq =>
            cases heq
            exact ih _ hdoc l hl
        · next heq =>
            cases heq
            rcases List.mem_cons.mp hl with rfl | hl
            · exact hdoc
            · exact ih none (fun d h => by cases h) l hl
  exact this none fun d h => by cases h

theorem State.Documented.stands (hd : st.Documented src) {doc : Option DocComment}
    (h : st.Offers doc) : ∀ d, doc = some d → d.Stands src := by
  intro d hdoc
  obtain ⟨l, hl, heq⟩ := h d hdoc
  exact hd l hl d heq

/-- Every clause of a program is found in a comment among its tokens. -/
theorem offers_of_mem {source : String} {p : Surface.Program} (h : Parse.program source = .ok p)
    {r : ClauseRecord} (hr : r ∈ Clause.ofProgram p) :
    ∃ ts doc owner, Scan.program source.toList = .ok ts ∧
      (State.ofTokens ts 0).Offers (some doc) ∧ r ∈ Clause.ofComment doc owner := by
  obtain ⟨ts, n, st, hts, htypes, _⟩ := program_ok h
  have hs := State.scanned_ofTokens (Scan.program_scanned hts) 0
  have found {doc : Option DocComment} {owner : DeclId} (hdoc : (State.ofTokens ts 0).Offers doc)
      (hr : r ∈ Clause.ofComment? doc owner) :
      ∃ ts doc owner, Scan.program source.toList = .ok ts ∧
        (State.ofTokens ts 0).Offers (some doc) ∧ r ∈ Clause.ofComment doc owner := by
    cases doc with
    | none => exact absurd hr List.not_mem_nil
    | some d => exact ⟨ts, d, owner, hts, hdoc, hr⟩
  obtain ⟨t, ht, hr⟩ := List.mem_flatMap.mp hr
  obtain ⟨_, htype, hmembers⟩ := (typeDecls_declares hs htypes).2 t ht
  rcases List.mem_append.mp hr with hr | hr
  · exact found htype hr
  · obtain ⟨m, hm, hr⟩ := List.mem_flatMap.mp hr
    exact found (hmembers m hm) hr

/-- The comment stands in the source. -/
theorem mem_ofProgram {source : String} {p : Surface.Program} (h : Parse.program source = .ok p)
    {r : ClauseRecord} (hr : r ∈ Clause.ofProgram p) :
    ∃ doc owner, doc.Stands source.toList ∧ r ∈ Clause.ofComment doc owner := by
  obtain ⟨ts, doc, owner, hts, hoffers, hmem⟩ := offers_of_mem h hr
  have hd := State.documented_ofTokens (Scan.program_at hts) 0
  exact ⟨doc, owner, hd.stands hoffers doc rfl, hmem⟩

end Parse

end Covenant
