import Covenant.Clause.Record
import Covenant.Proofs.TextParts

/-!
# The pieces of a clause

The text of a clause is put together from pieces of a comment, with a blank
between any two. The pieces stand in the source in their order, and the clause
remembers where. So what leads from its text to the source keeps the order of
offsets and stays in the clause, and it leads from a word to the same word: a
word has no blank in it, so it is in one piece.
-/

namespace Covenant

/-- One span lies in another, and its ends are not crossed. -/
structure Span.Inside (s t : Span) : Prop where
  start : t.start ≤ s.start
  ordered : s.start ≤ s.stop
  stop : s.stop ≤ t.stop

namespace Clause

/-! ## Pieces -/

/-- What stands in front of a new piece: the text so far, and a blank if there is any. -/
def joint (text : List Char) : List Char := if text.isEmpty then [] else text ++ [' ']

/-- A text that is put together from pieces of the source between two offsets, with a segment for
each. -/
inductive Pieced (src : List Char) (lo : Nat) : List Char → List Segment → Nat → Prop
  | nil : Pieced src lo [] [] lo
  | snoc {text segments hi piece start} (front : Pieced src lo text segments hi)
      (le : hi ≤ start) (stands : Text.At src start piece) (ne_nil : piece ≠ [])
      (trimmed : Text.trim piece = piece) :
      Pieced src lo (joint text ++ piece)
        (segments ++ [⟨Text.width (joint text), start, Text.width piece⟩])
        (start + Text.width piece)

/-- Where the byte at `x` of the text stands in the source, by the last segment that starts at `k`
or in front of it. -/
def offsetBy (segments : List Segment) (k x : Nat) : Option Nat :=
  (segments.reverse.find? fun s => s.textStart ≤ k).map fun s =>
    s.sourceStart + min (x - s.textStart) s.size

theorem offsetBy_snoc (segments : List Segment) (s : Segment) (k x : Nat) :
    offsetBy (segments ++ [s]) k x =
      if s.textStart ≤ k then some (s.sourceStart + min (x - s.textStart) s.size)
      else offsetBy segments k x := by
  rw [offsetBy, List.reverse_append, List.reverse_singleton, List.singleton_append,
    List.find?_cons]
  by_cases h : s.textStart ≤ k <;> simp [h, offsetBy]

theorem joint_of_ne_nil {text : List Char} (h : text ≠ []) : joint text = text ++ [' '] := by
  rw [joint, if_neg (by simpa using h)]

/-- A part without a blank of a text with a blank is on one side of it. -/
theorem word_split {u v a t b : List Char} (h : u ++ ' ' :: v = a ++ t ++ b) (hne : t ≠ [])
    (hblank : ' ' ∉ t) :
    (∃ c, u = a ++ t ++ c) ∨ ∃ c, a = u ++ ' ' :: c ∧ v = c ++ t ++ b := by
  rcases List.append_eq_append_iff.mp h with ⟨c, hc, hv⟩ | ⟨c, hc, _⟩
  · rcases List.append_eq_append_iff.mp hc with ⟨d, hd, ht⟩ | ⟨d, hd, ht⟩
    · -- The text on the left ends in the part.
      cases c with
      | nil => exact .inl ⟨[], by rw [hd, ht]; simp⟩
      | cons x c =>
          obtain ⟨rfl, _⟩ := List.cons.inj hv
          exact absurd (ht ▸ List.mem_append_right d List.mem_cons_self) hblank
    · -- The blank is in front of the part.
      rw [ht] at hv
      cases d with
      | nil =>
          cases t with
          | nil => exact absurd rfl hne
          | cons x t =>
              obtain ⟨rfl, _⟩ := List.cons.inj hv
              exact absurd List.mem_cons_self hblank
      | cons x d =>
          obtain ⟨rfl, hrest⟩ := List.cons.inj hv
          exact .inr ⟨d, hd, hrest⟩
  · exact .inl ⟨c, hc⟩

namespace Pieced

variable {src text : List Char} {lo hi : Nat} {segments : List Segment}

theorem le (h : Pieced src lo text segments hi) : lo ≤ hi := by
  induction h with
  | nil => exact Nat.le_refl _
  | snoc _ hle _ _ _ ih => omega

/-- What is put together from pieces ends in the text that they stand in. -/
theorem le_width (h : Pieced src lo text segments hi) (hne : text ≠ []) :
    hi ≤ Text.width src := by
  cases h with
  | nil => exact absurd rfl hne
  | snoc _ _ hstands => exact hstands.le_width

/-- A text that is not empty has a piece at its front. -/
theorem exists_offset (h : Pieced src lo text segments hi) (hne : text ≠ []) (k x : Nat) :
    ∃ y, offsetBy segments k x = some y ∧ lo ≤ y ∧ y ≤ hi := by
  induction h with
  | nil => exact absurd rfl hne
  | @snoc text segments hi piece start front hle _ _ _ ih =>
      have := front.le
      rw [offsetBy_snoc]
      split
      · exact ⟨_, rfl, by dsimp only; omega, by dsimp only; omega⟩
      · next hk =>
          have htext : text ≠ [] := by
            rintro rfl
            exact hk (Nat.zero_le _)
          obtain ⟨y, hy, hlo, hhi⟩ := ih htext
          exact ⟨y, hy, hlo, by omega⟩

/-- Further on in the text is further on in the source. -/
theorem offset_mono (h : Pieced src lo text segments hi) {k k' x x' y y' : Nat} (hk : k ≤ k')
    (hx : x ≤ x') (hy : offsetBy segments k x = some y) (hy' : offsetBy segments k' x' = some y') :
    y ≤ y' := by
  induction h with
  | nil => cases hy
  | @snoc text segments hi piece start front hle _ _ _ ih =>
      rw [offsetBy_snoc] at hy hy'
      dsimp only at hy hy'
      split at hy
      · next hs =>
          rw [if_pos (Nat.le_trans hs hk)] at hy'
          cases hy
          cases hy'
          omega
      · split at hy'
        · have htext : text ≠ [] := by
            rintro rfl
            next hs _ => exact hs (Nat.zero_le _)
          obtain ⟨z, hz, _, hhi⟩ := front.exists_offset htext k x
          obtain rfl := Option.some.inj (hz.symm.trans hy)
          cases hy'
          omega
        · exact ih hy hy'

/-- A word of the text is a word of the source. -/
theorem word (h : Pieced src lo text segments hi) {a t b : List Char} (htext : text = a ++ t ++ b)
    (hne : t ≠ []) (hblank : ' ' ∉ t) :
    ∃ y, offsetBy segments (Text.width a) (Text.width a) = some y ∧
      offsetBy segments (Text.width a + Text.width t - 1) (Text.width a + Text.width t) =
        some (y + Text.width t) ∧
      Text.At src y t := by
  have hpos := Text.width_pos hne
  induction h generalizing b with
  | nil => exact absurd htext.symm (by simp [hne])
  | @snoc text segments hi piece start front _ hstands _ _ ih =>
      -- The word is in the last piece, of which it leaves out what is in front.
      have last {c : List Char} (ha : a = joint text ++ c) (hpiece : piece = c ++ t ++ b) :
          ∃ y, offsetBy (segments ++ [⟨Text.width (joint text), start, Text.width piece⟩])
              (Text.width a) (Text.width a) = some y ∧
            offsetBy (segments ++ [⟨Text.width (joint text), start, Text.width piece⟩])
              (Text.width a + Text.width t - 1) (Text.width a + Text.width t) =
                some (y + Text.width t) ∧
            Text.At src y t := by
        have hwidth : Text.width piece = Text.width c + Text.width t + Text.width b := by
          rw [hpiece, Text.width_append, Text.width_append]
        have hfront : Text.width a = Text.width (joint text) + Text.width c := by
          rw [ha, Text.width_append]
        refine ⟨start + Text.width c, ?_, ?_, ?_⟩
        · rw [offsetBy_snoc, if_pos (by dsimp only; omega)]
          exact congrArg some (by dsimp only; omega)
        · rw [offsetBy_snoc, if_pos (by dsimp only; omega)]
          exact congrArg some (by dsimp only; omega)
        · rw [hpiece, List.append_assoc] at hstands
          exact hstands.right.left
      by_cases hfirst : text = []
      · subst hfirst
        exact last (c := a) rfl htext
      · rw [joint_of_ne_nil hfirst] at last htext ⊢
        rw [List.append_assoc, List.singleton_append] at htext
        rcases word_split htext hne hblank with ⟨c, hc⟩ | ⟨c, ha, hpiece⟩
        · obtain ⟨y, hstart, hstop, hat⟩ := ih hc
          have hwidth : Text.width text = Text.width a + Text.width t + Text.width c := by
            rw [hc, Text.width_append, Text.width_append]
          have hblanked : Text.width (text ++ [' ']) = Text.width text + 1 :=
            Text.width_append text [' ']
          refine ⟨y, ?_, ?_, hat⟩
          · rw [offsetBy_snoc, if_neg (by dsimp only; omega)]
            exact hstart
          · rw [offsetBy_snoc, if_neg (by dsimp only; omega)]
            exact hstop
        · exact last (by rw [ha, List.append_assoc, List.singleton_append]) hpiece

end Pieced

/-! ## From the text to the source -/

/-- A name stands in a text where its span says. -/
def NameAt (src : List Char) (n : Located String) : Prop :=
  Text.At src n.span.start n.val.toList ∧
    n.span.stop = n.span.start + Text.width n.val.toList

/-- A clause of a comment: its subject and its pieces are in the span of it, which starts at an
offset or behind. -/
structure Extracted (src : List Char) (lo : Nat) (r : ClauseRecord) : Prop where
  start : lo ≤ r.span.start
  subject : ∀ n, r.subject = some n → n.span.Inside r.span
  named : ∀ n, r.subject = some n → NameAt src n
  pieces : ∃ mid, r.span.start ≤ mid ∧ Pieced src mid r.text r.segments r.span.stop

theorem sourceOffset_eq {r : ClauseRecord} {x y : Nat}
    (h : offsetBy r.segments x x = some y) : r.sourceOffset x = y := by
  obtain ⟨s, hs, rfl⟩ := Option.map_eq_some_iff.mp h
  rw [ClauseRecord.sourceOffset, hs]
  rfl

theorem sourceSpan_eq {r : ClauseRecord} {s : Span} {y z : Nat}
    (hy : offsetBy r.segments s.start s.start = some y)
    (hz : offsetBy r.segments (s.stop - 1) s.stop = some z) (hs : 0 < s.stop) :
    r.sourceSpan s = ⟨y, max z y⟩ := by
  have hlt : (fun g : Segment => decide (g.textStart < s.stop)) =
      fun g => decide (g.textStart ≤ s.stop - 1) :=
    funext fun g => decide_eq_decide.mpr (by omega)
  obtain ⟨g, hg, rfl⟩ := Option.map_eq_some_iff.mp hz
  rw [ClauseRecord.sourceSpan, sourceOffset_eq hy, hlt, hg]

namespace Extracted

variable {src : List Char} {lo : Nat} {r : ClauseRecord}

theorem ordered (h : Extracted src lo r) : r.span.start ≤ r.span.stop := by
  obtain ⟨mid, hmid, hpieces⟩ := h.pieces
  exact Nat.le_trans hmid hpieces.le

variable (h : Extracted src lo r) (hne : r.text ≠ [])

include h hne

/-- Whatever span of the text is asked for, the answer is in the clause. -/
theorem sourceSpan_inside (s : Span) : (r.sourceSpan s).Inside r.span := by
  obtain ⟨mid, hmid, hpieces⟩ := h.pieces
  obtain ⟨y, hy, hlo, hhi⟩ := hpieces.exists_offset hne s.start s.start
  by_cases hs : 0 < s.stop
  · obtain ⟨z, hz, _, hhi'⟩ := hpieces.exists_offset hne (s.stop - 1) s.stop
    rw [sourceSpan_eq hy hz hs]
    exact ⟨Nat.le_trans hmid hlo, Nat.le_max_right z y, Nat.max_le.mpr ⟨hhi', hhi⟩⟩
  · have hnone : (r.segments.reverse.find? fun g => decide (g.textStart < s.stop)) = none :=
      List.find?_eq_none.mpr fun g _ => by
        simpa using Nat.le_trans (Nat.not_lt.mp hs) g.textStart.zero_le
    rw [ClauseRecord.sourceSpan, sourceOffset_eq hy, hnone]
    exact ⟨Nat.le_trans hmid hlo, Nat.le_max_right y y, Nat.max_le.mpr ⟨hhi, hhi⟩⟩

/-- A span in another one leads to a span in the one that the other leads to. -/
theorem sourceSpan_mono {s t : Span} (hs : s.start < s.stop) (hstart : t.start ≤ s.start)
    (hstop : s.stop ≤ t.stop) : (r.sourceSpan s).Inside (r.sourceSpan t) := by
  obtain ⟨mid, _, hpieces⟩ := h.pieces
  obtain ⟨y, hy, _⟩ := hpieces.exists_offset hne s.start s.start
  obtain ⟨z, hz, _⟩ := hpieces.exists_offset hne (s.stop - 1) s.stop
  obtain ⟨y', hy', _⟩ := hpieces.exists_offset hne t.start t.start
  obtain ⟨z', hz', _⟩ := hpieces.exists_offset hne (t.stop - 1) t.stop
  have hlast : s.start ≤ s.stop - 1 ∧ s.stop - 1 ≤ t.stop - 1 := by omega
  have hyz := hpieces.offset_mono hlast.1 (Nat.le_of_lt hs) hy hz
  have hstarts := hpieces.offset_mono hstart hstart hy' hy
  have hstops := hpieces.offset_mono hlast.2 hstop hz hz'
  rw [sourceSpan_eq hy hz (by omega), sourceSpan_eq hy' hz' (by omega)]
  exact ⟨hstarts, Nat.le_max_right z y, by dsimp only; omega⟩

omit hne in
/-- The span of a word of the text leads to the same word in the source. -/
theorem sourceSpan_word {s : Span} {t : List Char} (hat : Text.At r.text s.start t)
    (hstop : s.stop = s.start + Text.width t) (ht : t ≠ []) (hblank : ' ' ∉ t) :
    Text.At src (r.sourceSpan s).start t ∧
      (r.sourceSpan s).stop = (r.sourceSpan s).start + Text.width t := by
  obtain ⟨mid, _, hpieces⟩ := h.pieces
  obtain ⟨a, b, htext, ha⟩ := hat
  obtain ⟨y, hy, hz, hword⟩ := hpieces.word htext ht hblank
  have := Text.width_pos ht
  rw [ha] at hy hz
  rw [← hstop] at hz
  rw [sourceSpan_eq hy hz (by omega)]
  exact ⟨hword, Nat.max_eq_left (Nat.le_add_right ..)⟩

end Extracted

end Clause

end Covenant
