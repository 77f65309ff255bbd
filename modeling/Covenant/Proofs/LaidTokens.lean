import Covenant.Proofs.CutTokens

/-!
# Texts laid out in tokens

Scanning a program takes nothing away from its text and makes nothing up: the tokens stand
one behind the other at their spans, and all that is between them is blanks and comments
that document nothing. `Laid` says this of a text from an offset on, and holds of what is
left of a text whenever the scanner has cut off the next piece; what is known of each token
(`Stands`) and of the gap behind any number of tokens is read off it.
-/

namespace Covenant.Scan

open Text (width)

variable {c : Char} {cs gap gap' text after : List Char} {t : Located Token}
  {ts front back : List (Located Token)} {pos n : Nat}

/-! ## Gaps -/

/-- What the scanner skips in front of a text: blanks, line comments, and block comments that
document nothing. -/
inductive Skipped : List Char → List Char → Prop
  | nil {after : List Char} : Skipped [] after
  | blank {c : Char} {gap after : List Char} (hc : isSpace c = true) (behind : Skipped gap after) :
    Skipped (c :: gap) after
  | comment {kind : CommentKind} {body : String} {text gap after : List Char} (hkind : kind ≠ .doc)
    (cut : (Token.comment kind body).CutFrom text (gap ++ after)) (behind : Skipped gap after) :
    Skipped (text ++ gap) after

theorem Skipped.append (h : Skipped gap (gap' ++ after)) (h' : Skipped gap' after) :
    Skipped (gap ++ gap') after := by
  generalize hafter : gap' ++ after = after' at h
  induction h with
  | nil => exact h'
  | blank hc _ ih => exact .blank hc (ih hafter)
  | comment hkind cut _ ih =>
      subst hafter
      rw [List.append_assoc]
      exact .comment hkind (by rwa [List.append_assoc]) (ih rfl)

theorem Skipped.blanks (h : ∀ d ∈ gap, isSpace d = true) : Skipped gap after := by
  induction gap with
  | nil => exact .nil
  | cons d ds ih =>
      obtain ⟨hd, hds⟩ := List.forall_mem_cons.mp h
      exact .blank hd (ih hds)

/-- The tokens that stay in a program. -/
def isKept : Token → Bool
  | .comment kind _ => kind == .doc
  | _ => true

/-- A text, from an offset on, as tokens with gaps between them. -/
inductive Laid : Nat → List Char → List (Located Token) → Prop
  | done {pos : Nat} {gap : List Char} (skipped : Skipped gap []) : Laid pos gap []
  | token {pos : Nat} {gap text after : List Char} {t : Located Token} {ts : List (Located Token)}
    (skipped : Skipped gap (text ++ after)) (start : t.span.start = pos + width gap)
    (stop : t.span.stop = t.span.start + width text) (off : CutOff t.val text after)
    (kept : isKept t.val = true) (behind : Laid t.span.stop after ts) :
    Laid pos (gap ++ (text ++ after)) (t :: ts)

theorem Laid.skip (h : Laid (pos + width gap) cs ts) (hgap : Skipped gap cs) :
    Laid pos (gap ++ cs) ts := by
  cases h with
  | done skipped => exact .done (.append (by rwa [List.append_nil]) skipped)
  | @token _ gap' text after t ts skipped start stop off kept behind =>
      rw [← List.append_assoc]
      refine .token (hgap.append skipped) ?_ stop off kept behind
      rw [start, Text.width_append, Nat.add_assoc]

theorem program_of_tokens (h : tokens cs = .ok ts) :
    program cs = .ok (ts.filter (isKept ·.val)) := by
  rw [program, h]
  rfl

/-- Where the last of some tokens ends, or an offset if there are none. -/
def endOf (pos : Nat) (front : List (Located Token)) : Nat :=
  (front.getLast?.map (·.span.stop)).getD pos

/-- Where the first of some tokens begins, or an offset if there are none. -/
def startOf (stop : Nat) (back : List (Located Token)) : Nat :=
  (back.head?.map (·.span.start)).getD stop

theorem endOf_cons : endOf pos (t :: front) = endOf t.span.stop front := by
  rw [endOf, endOf, List.getLast?_cons]
  cases front.getLast? <;> rfl

/-- Behind some of its tokens a layout goes on where the last of them ends. -/
theorem Laid.split (h : Laid pos cs (front ++ back)) :
    ∃ read rest, cs = read ++ rest ∧ pos + width read = endOf pos front ∧
      Laid (pos + width read) rest back := by
  induction front generalizing pos cs with
  | nil => exact ⟨[], cs, rfl, rfl, h⟩
  | cons t front ih =>
      rw [List.cons_append] at h
      cases h with
      | @token _ gap text after _ _ _ start stop _ _ behind =>
          obtain ⟨read, rest, rfl, hend, hlaid⟩ := ih behind
          have hwidth : pos + width (gap ++ (text ++ read)) = t.span.stop + width read := by
            rw [stop, start, Text.width_append, Text.width_append, Nat.add_assoc, Nat.add_assoc]
          refine ⟨gap ++ (text ++ read), rest, by simp, ?_, ?_⟩
          · rw [hwidth, hend, endOf_cons]
          · rw [hwidth]
            exact hlaid

/-- The tokens of a layout follow one another. -/
theorem Laid.ordered (h : Laid pos cs ts) :
    (∀ t ∈ ts, pos ≤ t.span.start) ∧ ts.Pairwise fun t u => t.span.stop ≤ u.span.start := by
  induction h with
  | done => exact ⟨fun t ht => absurd ht List.not_mem_nil, .nil⟩
  | @token pos gap text _ t ts _ start stop _ _ _ ih =>
      obtain ⟨hle, hpairs⟩ := ih
      refine ⟨List.forall_mem_cons.mpr ⟨?_, fun u hu => ?_⟩, .cons hle hpairs⟩
      · rw [start]
        exact Nat.le_add_right ..
      · have hu := hle u hu
        omega

/-- A word is a name if it is not reserved. -/
theorem ident_iff {t : Token} (h : t.ReadFrom text) (hword : Runs isWordStart isWordTail text) :
    (∃ name, t = .ident name) ↔ isKeyword (String.ofList text) = false := by
  obtain ⟨c, rest, htext, hc, _⟩ := hword
  cases t with
  | keyword k =>
      have hk : isKeyword (String.ofList text) = true := isKeyword_iff.mpr ⟨k, by
        rw [← show k.text.toList = text from h, String.ofList_toList]⟩
      simp [hk]
  | ident name =>
      obtain ⟨_, hno, rfl⟩ := h
      simp [hno]
  | int n =>
      obtain ⟨⟨d, _, hd, hdigit, _⟩, _⟩ := h
      cases htext.symm.trans hd
      exact absurd hdigit (by simp [not_digit_of_wordStart hc])
  | symbol s =>
      have hs : s.chars = text := h
      exact absurd (isWordTail_of_start hc) (by simp [head_mark (hs.trans htext)])
  | comment kind body =>
      have hslash : ∃ rest, text = '/' :: rest := by
        cases kind with
        | line =>
            obtain ⟨⟨_, hrest, _⟩, _⟩ := h
            exact ⟨_, hrest⟩
        | block | doc =>
            obtain ⟨⟨_, hrest, _⟩, _⟩ := h
            exact ⟨_, hrest⟩
      obtain ⟨_, hrest⟩ := hslash
      cases htext.symm.trans hrest
      exact absurd hc (by decide)

/-- A token at its place in a program, given the text in front of it, its own text and the text
behind it. -/
structure Stands (cs before text after : List Char) (t : Located Token) : Prop where
  splits : cs = before ++ text ++ after
  span : t.span = ⟨width before, width before + width text⟩
  nonempty : t.span.start < t.span.stop
  cut : t.val.CutFrom text after
  word : Runs isWordStart isWordTail text →
    ((∃ name, t.val = .ident name) ↔ isKeyword (String.ofList text) = false)
  documents : ∀ kind body, t.val = .comment kind body → kind = .doc
  alone : program text = .ok [⟨t.val, 0, width text⟩]

theorem Laid.stands (h : Laid 0 cs ts) (ht : t ∈ ts) :
    ∃ before text after, Stands cs before text after t := by
  obtain ⟨front, back, rfl⟩ := List.append_of_mem ht
  obtain ⟨read, rest, rfl, _, hlaid⟩ := h.split
  cases hlaid with
  | @token _ gap text after _ _ _ start stop off kept _ =>
      rw [Nat.zero_add, ← Text.width_append] at start
      obtain ⟨c, cs, htext, _⟩ := off.cut_alone
      have hpos := Text.width_pos (htext ▸ List.cons_ne_nil c cs)
      refine ⟨read ++ gap, text, after, by simp, ?_, by omega, off.cutFrom, ident_iff off.read,
        fun kind body heq => ?_, ?_⟩
      · rw [← start, ← stop]
      · rw [heq] at kept
        exact beq_iff_eq.mp kept
      · rw [program_of_tokens off.tokens_alone, List.filter_cons]
        exact congrArg Except.ok (if_pos kept)

end Covenant.Scan
