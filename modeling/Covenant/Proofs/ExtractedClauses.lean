import Covenant.Clause.Extract
import Covenant.Proofs.ClausePieces

/-!
# The clauses of a comment

A comment is read line by line, and each line from its front: the margin, the
first word, the subject, the bar and what follows it. At any point there is a
text that is left and the offset where it stands. So a piece that is added to a
clause stands in the comment, behind the pieces of the lines above.
-/

namespace Covenant.Clause

/-! ## From the front on -/

/-- What is left of a text at an offset, and where it stands. -/
def GoesOn (a b : Nat × List Char) : Prop :=
  ∃ front, a.2 = front ++ b.2 ∧ b.1 = a.1 + Text.width front

namespace GoesOn

variable {a b c : Nat × List Char}

theorem refl (a : Nat × List Char) : GoesOn a a := ⟨[], rfl, rfl⟩

theorem trans (h : GoesOn a b) (h' : GoesOn b c) : GoesOn a c := by
  obtain ⟨front, ha, hb⟩ := h
  obtain ⟨front', hb', hc⟩ := h'
  refine ⟨front ++ front', by rw [ha, hb', List.append_assoc], ?_⟩
  rw [hc, hb, Text.width_append, Nat.add_assoc]

/-- One character is taken off. -/
theorem tail {pos : Nat} {x : Char} {cs : List Char} :
    GoesOn (pos, x :: cs) (pos + x.utf8Size, cs) :=
  ⟨[x], rfl, rfl⟩

theorem stands {src : List Char} (h : GoesOn a b) (ha : Text.At src a.1 a.2) :
    Text.At src b.1 b.2 := by
  obtain ⟨front, hfront, hpos⟩ := h
  rw [hfront] at ha
  exact hpos ▸ ha.right

theorem le (h : GoesOn a b) : a.1 ≤ b.1 := by
  obtain ⟨_, _, hpos⟩ := h
  omega

/-- The end stays where it is. -/
theorem stop (h : GoesOn a b) : b.1 + Text.width b.2 = a.1 + Text.width a.2 := by
  obtain ⟨front, hfront, hpos⟩ := h
  rw [hfront, hpos, Text.width_append]
  omega

end GoesOn

theorem skipBlanks_goesOn (pos : Nat) (cs : List Char) : GoesOn (pos, cs) (skipBlanks pos cs) :=
  ⟨cs.takeWhile Text.isBlank, List.takeWhile_append_dropWhile.symm, rfl⟩

theorem skipMargin_goesOn (pos : Nat) (cs : List Char) : GoesOn (pos, cs) (skipMargin pos cs) := by
  have hblanks := skipBlanks_goesOn pos cs
  rw [skipMargin]
  split
  · next heq =>
      rw [heq] at hblanks
      exact (hblanks.trans .tail).trans (skipBlanks_goesOn _ _)
  · next heq =>
      rw [heq] at hblanks
      exact hblanks

theorem firstWord_goesOn (pos : Nat) (cs : List Char) :
    GoesOn (pos, cs) (pos + Text.width (firstWord cs).1, (firstWord cs).2) :=
  ⟨(firstWord cs).1, List.takeWhile_append_dropWhile.symm, rfl⟩

/-- The subject of a clause is in front of what follows it. -/
theorem subject_goesOn (pos : Nat) (cs : List Char) :
    GoesOn (pos, cs) (subject pos cs).2 ∧
      ∀ n, (subject pos cs).1 = some n → n.span.Inside ⟨pos, (subject pos cs).2.1⟩ := by
  have hblanks := skipBlanks_goesOn pos cs
  have hword := firstWord_goesOn (skipBlanks pos cs).1 (skipBlanks pos cs).2
  rw [subject]
  dsimp only
  split
  · next hempty =>
      refine ⟨?_, fun n hn => by cases hn⟩
      rw [List.isEmpty_iff.mp hempty] at hword
      exact hblanks.trans hword
  · refine ⟨hblanks.trans hword, ?_⟩
    rintro _ ⟨⟩
    exact ⟨hblanks.le, Nat.le_add_right .., Nat.le_refl _⟩

/-- The subject of a clause stands where its span says. -/
theorem subject_named {src cs : List Char} {pos : Nat} (h : Text.At src pos cs) :
    ∀ n, (subject pos cs).1 = some n → NameAt src n := by
  have hword := (skipBlanks_goesOn pos cs).stands h
  rw [← List.takeWhile_append_dropWhile (p := (!isWordEnd ·)) (l := (skipBlanks pos cs).2)] at hword
  rw [subject]
  dsimp only
  split
  · exact fun n hn => by cases hn
  · rintro _ ⟨⟩
    rw [NameAt, String.toList_ofList]
    exact ⟨hword.left, rfl⟩

section

variable {src : List Char} {lo : Nat}

/-- A piece that stands behind a clause goes on with it. -/
theorem addPiece_extracted {r : ClauseRecord} {pos : Nat} {cs : List Char}
    (h : Extracted src lo r) (hpos : r.span.stop ≤ pos) (hcs : Text.At src pos cs) :
    Extracted src lo (addPiece r pos cs) ∧
      (addPiece r pos cs).span.stop ≤ pos + Text.width cs := by
  have hblanks := skipBlanks_goesOn pos cs
  obtain ⟨rest, hrest⟩ := Text.trimBack_prefix (skipBlanks pos cs).2
  have hstands := hblanks.stands hcs
  have hstart := hblanks.le
  have hstop := hblanks.stop
  rw [← hrest] at hstands hstop
  rw [Text.width_append] at hstop
  dsimp only at hstart hstop
  rw [addPiece]
  dsimp only
  split
  · exact ⟨h, by omega⟩
  · next hne =>
      obtain ⟨mid, hmid, hpieces⟩ := h.pieces
      have hle : r.span.stop ≤ (skipBlanks pos cs).1 := Nat.le_trans hpos hstart
      refine ⟨⟨h.start, fun n hn => ?_, h.named, mid, hmid,
        hpieces.snoc hle hstands.left (by simpa using hne) (Text.trim_trim cs)⟩,
        by dsimp only; omega⟩
      have hin := h.subject n hn
      exact ⟨hin.start, hin.ordered, by have := hin.stop; dsimp only; omega⟩

omit src lo in
/-- What a clause starts with: its subject, if its tag has one, is between the tag and what
follows. -/
theorem tagSubject_goesOn (tag : ClauseTag) (pos : Nat) (cs : List Char) :
    ∃ subj p rest,
      (if tag.hasSubject then subject pos cs else (none, pos, cs)) = (subj, p, rest) ∧
      GoesOn (pos, cs) (p, rest) ∧ (∀ n, subj = some n → n.span.Inside ⟨pos, p⟩) ∧
      ∀ {src : List Char}, Text.At src pos cs → ∀ n, subj = some n → NameAt src n := by
  obtain ⟨hgoes, hsubj⟩ := subject_goesOn pos cs
  split
  · exact ⟨_, _, _, rfl, hgoes, hsubj, subject_named⟩
  · exact ⟨none, pos, cs, rfl, .refl _, fun n hn => (by cases hn), fun _ n hn => (by cases hn)⟩

omit src lo in
theorem bar_goesOn (pos : Nat) {cs bar : List Char} {x : Char}
    (h : cs.dropWhile (· ≠ '|') = x :: bar) :
    GoesOn (pos, cs) (pos + Text.width (cs.takeWhile (· ≠ '|')) + 1, bar) := by
  obtain rfl : x = '|' := by
    have hhead := List.head?_dropWhile_not (fun c => decide (c ≠ '|')) cs
    rw [h] at hhead
    simpa using hhead
  refine ⟨cs.takeWhile (· ≠ '|') ++ ['|'], ?_, ?_⟩
  · rw [List.append_assoc, List.singleton_append, ← h, List.takeWhile_append_dropWhile]
  · rw [Text.width_append]
    rfl

theorem startClause_extracted (owner : DeclId) (tag : ClauseTag) {pos : Nat}
    {word cs : List Char} (hlo : lo ≤ pos) (hcs : Text.At src (pos + Text.width word) cs) :
    Extracted src lo (startClause owner tag pos word cs) ∧
      (startClause owner tag pos word cs).span.stop ≤ pos + Text.width word + Text.width cs := by
  obtain ⟨subj, p, rest, heq, hgoes, hsubj, hnamed⟩ :=
    tagSubject_goesOn tag (pos + Text.width word) cs
  rw [startClause, heq]
  dsimp only
  -- Before there are pieces, the clause ends behind its tag or its subject.
  generalize hstop : (subj.map (·.span.stop)).getD (pos + Text.width word) = stop
  have hbounds : pos + Text.width word ≤ stop ∧ stop ≤ p := by
    subst hstop
    cases subj with
    | none => exact ⟨Nat.le_refl _, hgoes.le⟩
    | some n => exact ⟨Nat.le_trans (hsubj n rfl).start (hsubj n rfl).ordered, (hsubj n rfl).stop⟩
  have hfresh : Extracted src lo ⟨tag, owner, [], subj, ⟨pos, stop⟩, []⟩ := by
    refine ⟨hlo, ?_, hnamed hcs, stop, Nat.le_trans (Nat.le_add_right ..) hbounds.1, .nil⟩
    rintro n rfl
    have hin := hsubj n rfl
    exact ⟨Nat.le_trans (Nat.le_add_right ..) hin.start, hin.ordered, Nat.le_of_eq hstop⟩
  have hend := hgoes.stop
  split
  · next x bar hbar =>
      have hbehind := bar_goesOn p hbar
      obtain ⟨hex, hle⟩ := addPiece_extracted hfresh (Nat.le_trans hbounds.2 hbehind.le)
        ((hgoes.trans hbehind).stands hcs)
      exact ⟨hex, Nat.le_trans hle (Nat.le_of_eq (hgoes.trans hbehind).stop)⟩
  · exact ⟨hfresh, by dsimp only at hend ⊢; omega⟩

/-! ## Lines -/

/-- What a line gives is in the line. -/
theorem readLine_extracted (owner : DeclId) {pos : Nat} {line : List Char} (hlo : lo ≤ pos)
    (hline : Text.At src pos line) :
    (∀ r, readLine owner pos line = .tag r →
      Extracted src lo r ∧ r.span.stop ≤ pos + Text.width line) ∧
    ∀ p cs, readLine owner pos line = .continuation p cs → GoesOn (pos, line) (p, cs) := by
  have hmargin := skipMargin_goesOn pos line
  rw [readLine]
  split
  · next start cs heq =>
      rw [heq] at hmargin
      have hrest := hmargin.trans (firstWord_goesOn start ('@' :: cs))
      dsimp only
      split
      · next tag _ =>
          refine ⟨fun r hr => ?_, fun p cs h => by cases h⟩
          cases hr
          obtain ⟨hex, hle⟩ := startClause_extracted owner tag
            (Nat.le_trans hlo hmargin.le) (hrest.stands hline)
          exact ⟨hex, Nat.le_trans hle (Nat.le_of_eq hrest.stop)⟩
      · exact ⟨fun r h => (by cases h), fun p cs h => (by cases h)⟩
  · next start cs heq =>
      rw [heq] at hmargin
      refine ⟨fun r h => (by cases h), fun p cs h => ?_⟩
      cases h
      exact hmargin.trans .tail
  · exact ⟨fun r h => (by cases h), fun p cs h => (by cases h)⟩

/-- Lines that follow one another, with a line feed between any two. -/
def LinesAt (src : List Char) : Nat → List (List Char) → Prop
  | _, [] => True
  | pos, line :: lines => Text.At src pos line ∧ LinesAt src (pos + Text.width line + 1) lines

theorem close_extracted {current : Option ClauseRecord}
    (h : ∀ r, current = some r → Extracted src lo r) :
    ∀ r ∈ close current, Extracted src lo r ∧ r.text ≠ [] := by
  intro r hr
  cases current with
  | none => exact absurd hr List.not_mem_nil
  | some c =>
      rw [close] at hr
      split at hr
      · exact absurd hr List.not_mem_nil
      · next hne =>
          obtain rfl := List.mem_singleton.mp hr
          exact ⟨h r rfl, by simpa using hne⟩

theorem clausesOfLines_extracted {owner : DeclId} {lines : List (List Char)} :
    ∀ {current : Option ClauseRecord} {pos : Nat}, lo ≤ pos → LinesAt src pos lines →
      (∀ r, current = some r → Extracted src lo r ∧ r.span.stop ≤ pos) →
      ∀ r ∈ clausesOfLines owner current pos lines, Extracted src lo r ∧ r.text ≠ [] := by
  induction lines with
  | nil => exact fun _ _ hcurrent => close_extracted fun r hr => (hcurrent r hr).1
  | cons line lines ih =>
      intro current pos hlo hlines hcurrent r hr
      have hnext : lo ≤ pos + Text.width line + 1 := by omega
      have hclosed := close_extracted fun r hr => (hcurrent r hr).1
      obtain ⟨htag, hmore⟩ := readLine_extracted owner hlo hlines.1
      rw [clausesOfLines] at hr
      split at hr
      · rcases List.mem_append.mp hr with hr | hr
        · exact hclosed r hr
        · exact ih hnext hlines.2 (fun r h => by cases h) r hr
      · next started heq =>
          rcases List.mem_append.mp hr with hr | hr
          · exact hclosed r hr
          · refine ih hnext hlines.2 ?_ r hr
            rintro _ ⟨⟩
            obtain ⟨hex, hle⟩ := htag started heq
            exact ⟨hex, by omega⟩
      · next p cs heq =>
          have hgoes := hmore p cs heq
          refine ih hnext hlines.2 (fun grown hgrown => ?_) r hr
          obtain ⟨c, hc, rfl⟩ := Option.map_eq_some_iff.mp hgrown
          obtain ⟨hex, hle⟩ := hcurrent c hc
          obtain ⟨hex', hle'⟩ := addPiece_extracted hex (Nat.le_trans hle hgoes.le)
            (hgoes.stands hlines.1)
          have hstop := hgoes.stop
          exact ⟨hex', by dsimp only at hstop hle' ⊢; omega⟩
      · refine ih hnext hlines.2 (fun r h => ?_) r hr
        obtain ⟨hex, hle⟩ := hcurrent r h
        exact ⟨hex, by omega⟩

theorem lines_ne_nil (cs : List Char) : Text.lines cs ≠ [] := by
  cases cs with
  | nil => simp [Text.lines]
  | cons c cs =>
      rw [Text.lines]
      split
      · simp
      · split <;> simp

/-- The lines of a text stand where it is cut. -/
theorem lines_at {cs : List Char} {pos : Nat} (h : Text.At src pos cs) :
    LinesAt src pos (Text.lines cs) := by
  -- The first line is a prefix, which a character in front makes longer.
  have cut : ∀ (cs : List Char) {pos : Nat} {line : List Char} {rest : List (List Char)},
      Text.At src pos cs → Text.lines cs = line :: rest →
      (∃ tail, cs = line ++ tail) ∧ LinesAt src (pos + Text.width line + 1) rest := by
    intro cs
    induction cs with
    | nil =>
        rintro pos line rest - ⟨⟩
        exact ⟨⟨[], rfl⟩, trivial⟩
    | cons c cs ih =>
        intro pos line rest hcs heq
        rw [Text.lines] at heq
        have htail : Text.At src (pos + c.utf8Size) cs := GoesOn.tail.stands hcs
        split at heq
        · next hc =>
            cases heq
            subst hc
            refine ⟨⟨_, rfl⟩, ?_⟩
            obtain ⟨line, rest, hl⟩ := List.exists_cons_of_ne_nil (lines_ne_nil cs)
            obtain ⟨⟨tail, rfl⟩, hrest⟩ := ih htail hl
            rw [hl]
            exact ⟨htail.left, hrest⟩
        · split at heq
          · next hnil => exact absurd hnil (lines_ne_nil cs)
          · next hl =>
              cases heq
              obtain ⟨⟨tail, htext⟩, hrest⟩ := ih htail hl
              refine ⟨⟨tail, by rw [htext, List.cons_append]⟩, ?_⟩
              rw [Text.width_cons, ← Nat.add_assoc]
              exact hrest
  obtain ⟨line, rest, hl⟩ := List.exists_cons_of_ne_nil (lines_ne_nil cs)
  obtain ⟨⟨tail, htext⟩, hrest⟩ := cut cs h hl
  rw [hl]
  exact ⟨(htext ▸ h).left, hrest⟩

/-- Without its delimiters a comment is still where it was. -/
theorem commentBody_at {cs : List Char} {pos : Nat} (h : Text.At src pos cs) :
    Text.At src (pos + (commentBody cs).1) (commentBody cs).2 := by
  have closed {body : List Char} {p : Nat} (hbody : Text.At src p body) :
      Text.At src p (if ['*', '/'].isSuffixOf body then body.dropLast.dropLast else body) := by
    split
    · have hprefix : body.dropLast.dropLast <+: body :=
        (List.dropLast_prefix _).trans (List.dropLast_prefix body)
      obtain ⟨tail, htail⟩ := hprefix
      exact (htail.symm ▸ hbody).left
    · exact hbody
  by_cases hopen : ['/', '*', '*'].isPrefixOf cs = true
  · obtain ⟨rest, rfl⟩ := List.isPrefixOf_iff_prefix.mp hopen
    rw [commentBody, if_pos hopen]
    exact closed h.right
  · rw [commentBody, if_neg hopen]
    exact closed h

/-- The clauses of a comment are in it, each with some text. -/
theorem ofComment_extracted {doc : Surface.DocComment} {owner : DeclId}
    (h : Text.At src doc.span.start doc.text.toList) :
    ∀ r ∈ ofComment doc owner, Extracted src doc.span.start r ∧ r.text ≠ [] :=
  clausesOfLines_extracted (Nat.le_add_right ..) (lines_at (commentBody_at h))
    fun r hr => by cases hr

end

end Covenant.Clause
