import Covenant.Proofs.CutComments
import Mathlib.Data.List.Forall2

/-!
# Clauses are faithful to their comment

A clause is what its comment says, and it knows where the comment says it. Its text
is made of trimmed copies of runs of the comment, in their order, with a single blank
between any two; the segments say where each copy is on either side. So a span of the
text that stays in one copy leads to the same bytes in the comment. This holds of any
comment at all, whichever characters it is made of and however it starts or ends.
-/

namespace Covenant

/-- A segment says where a text has a copy of a piece of the comment that starts at `base`. -/
structure Segment.Copies (base : Nat) (comment text : List Char) (s : Segment)
    (piece : List Char) : Prop where
  base_le : base ≤ s.sourceStart
  comment : Text.cut? comment (s.sourceStart - base) (s.sourceStart - base + s.size) = some piece
  text : Text.cut? text s.textStart (s.textStart + s.size) = some piece
  ne_nil : piece ≠ []
  trimmed : Text.trim piece = piece

/-- One segment ends where another one starts or in front of it, in the text and in the source. -/
structure Segment.Before (s t : Segment) : Prop where
  pos : 0 < s.size ∧ 0 < t.size
  text : s.textStart + s.size ≤ t.textStart
  source : s.sourceStart + s.size ≤ t.sourceStart

/-- Where a segment is in the source. -/
def Segment.span (s : Segment) : Span := ⟨s.sourceStart, s.sourceStart + s.size⟩

/-- A clause says what the comment that starts at `base` says, and where. -/
structure ClauseRecord.Faithful (base : Nat) (comment : List Char) (r : ClauseRecord) : Prop where
  ne_nil : r.text ≠ []
  pieces : ∃ pieces, List.Forall₂ (Segment.Copies base comment r.text) r.segments pieces ∧
    r.text = [' '].intercalate pieces
  ordered : r.segments.Pairwise Segment.Before
  segment_inside : ∀ s ∈ r.segments, s.span.Inside r.span
  span_inside : r.span.Inside ⟨base, base + Text.width comment⟩
  subject : ∀ n, r.subject = some n → n.span.Inside r.span ∧
    Text.cut? comment (n.span.start - base) (n.span.stop - base) = some n.val.toList
  mono : ∀ x y, x ≤ y → r.sourceOffset x ≤ r.sourceOffset y
  /-- The bytes that a span in a segment leads to are the bytes of the span, and they are
  characters if these are. -/
  reads : ∀ s ∈ r.segments, ∀ a b, s.textStart ≤ a → a < b → b ≤ s.textStart + s.size →
    let t := r.sourceSpan ⟨a, b⟩
    base ≤ t.start ∧ t.stop = t.start + (b - a) ∧
      Text.bytesAt comment (t.start - base) (b - a) = Text.bytesAt r.text a (b - a) ∧
      Text.cut? comment (t.start - base) (t.stop - base) = Text.cut? r.text a b

namespace Clause

/-! ## Pieces and their segments -/

/-- What is known of a piece and its segment when the text ends at `hi` in the source. -/
structure Stands (src text : List Char) (lo hi : Nat) (s : Segment) (piece : List Char) :
    Prop where
  source : Text.At src s.sourceStart piece
  text : Text.At text s.textStart piece
  size : s.size = Text.width piece
  ne_nil : piece ≠ []
  trimmed : Text.trim piece = piece
  lo_le : lo ≤ s.sourceStart
  le_hi : s.sourceStart + s.size ≤ hi

theorem Stands.pos {src text piece : List Char} {lo hi : Nat} {s : Segment}
    (h : Stands src text lo hi s piece) : 0 < s.size :=
  h.size ▸ Text.width_pos h.ne_nil

theorem joint_prefix (text : List Char) : ∃ rest, joint text = text ++ rest := by
  rw [joint]
  split
  · next hempty => exact ⟨[], by rw [List.isEmpty_iff.mp hempty]; rfl⟩
  · exact ⟨[' '], rfl⟩

theorem intercalate_snoc {pieces : List (List Char)} (h : pieces ≠ []) (sep piece : List Char) :
    sep.intercalate (pieces ++ [piece]) = sep.intercalate pieces ++ sep ++ piece := by
  induction pieces with
  | nil => exact absurd rfl h
  | cons p pieces ih =>
      by_cases hne : pieces = []
      · subst hne
        simp
      · rw [List.cons_append, List.intercalate_cons_of_ne_nil (by simp),
          List.intercalate_cons_of_ne_nil hne, ih hne]
        simp only [List.append_assoc]

namespace Pieced

variable {src text : List Char} {lo hi : Nat} {segments : List Segment}

/-- The segments tell the pieces that the text is made of. -/
theorem stands (h : Pieced src lo text segments hi) :
    ∃ pieces, List.Forall₂ (Stands src text lo hi) segments pieces ∧
      text = [' '].intercalate pieces := by
  induction h with
  | nil => exact ⟨[], .nil, rfl⟩
  | @snoc text segments hi piece start front hle hstands hne htrimmed ih =>
      obtain ⟨pieces, hpieces, htext⟩ := ih
      have hlo := front.le
      obtain ⟨rest, hrest⟩ := joint_prefix text
      refine ⟨pieces ++ [piece], List.rel_append (hpieces.imp fun s p hp => ?_) (.cons ?_ .nil), ?_⟩
      · rw [hrest, List.append_assoc]
        have := hp.le_hi
        exact { hp with text := hp.text.append _, le_hi := by omega }
      · exact ⟨hstands, ⟨joint text, [], by simp, rfl⟩, rfl, hne, htrimmed,
          Nat.le_trans hlo hle, Nat.le_refl _⟩
      · cases hpieces with
        | nil =>
            rw [htext]
            simp [joint]
        | cons hp _ =>
            have hpos := Text.width_pos hp.ne_nil
            have hwidth := hp.text.le_width
            rw [intercalate_snoc (List.cons_ne_nil _ _), ← htext, joint_of_ne_nil]
            rintro rfl
            rw [Text.width_nil] at hwidth
            omega

theorem stands_of_mem (h : Pieced src lo text segments hi) {s : Segment} (hs : s ∈ segments) :
    ∃ piece, Stands src text lo hi s piece := by
  obtain ⟨pieces, hpieces, _⟩ := h.stands
  obtain ⟨i, hi, rfl⟩ := List.mem_iff_getElem.mp hs
  exact ⟨_, hpieces.get hi (hpieces.length_eq ▸ hi)⟩

/-- The segments follow one another. -/
theorem ordered (h : Pieced src lo text segments hi) : segments.Pairwise Segment.Before := by
  induction h with
  | nil => exact .nil
  | @snoc text segments hi piece start front hle _ hne _ ih =>
      refine List.pairwise_append.mpr ⟨ih, List.pairwise_singleton .., fun s hs t ht => ?_⟩
      obtain rfl := List.mem_singleton.mp ht
      obtain ⟨p, hp⟩ := front.stands_of_mem hs
      obtain ⟨rest, hrest⟩ := joint_prefix text
      have hwidth := hp.text.le_width
      rw [← hp.size] at hwidth
      refine ⟨⟨hp.pos, Text.width_pos hne⟩, ?_, Nat.le_trans hp.le_hi hle⟩
      rw [hrest, Text.width_append]
      exact Nat.le_trans hwidth (Nat.le_add_right ..)

/-- An offset in a segment is looked up in that segment. -/
theorem offset_of_mem (h : Pieced src lo text segments hi) {s : Segment} (hs : s ∈ segments)
    {k : Nat} (hk : s.textStart ≤ k) (hlt : k < s.textStart + s.size) (x : Nat) :
    offsetBy segments k x = some (s.sourceStart + min (x - s.textStart) s.size) := by
  induction h with
  | nil => exact absurd hs List.not_mem_nil
  | @snoc text segments hi piece start front hle hstands hne htrimmed ih =>
      have hordered := (front.snoc hle hstands hne htrimmed).ordered
      rw [offsetBy_snoc]
      rcases List.mem_append.mp hs with hs | hs
      · have hbefore := (List.pairwise_append.mp hordered).2.2 s hs _ List.mem_cons_self
        rw [if_neg (by have := hbefore.text; omega)]
        exact ih hs
      · obtain rfl := List.mem_singleton.mp hs
        rw [if_pos hk]

end Pieced

namespace Extracted

variable {src : List Char} {lo : Nat} {r : ClauseRecord}

theorem sourceOffset_mono (h : Extracted src lo r) (hne : r.text ≠ []) {x y : Nat} (hxy : x ≤ y) :
    r.sourceOffset x ≤ r.sourceOffset y := by
  obtain ⟨mid, _, hpieces⟩ := h.pieces
  obtain ⟨u, hu, _⟩ := hpieces.exists_offset hne x x
  obtain ⟨v, hv, _⟩ := hpieces.exists_offset hne y y
  rw [sourceOffset_eq hu, sourceOffset_eq hv]
  exact hpieces.offset_mono hxy hxy hu hv

/-- A span in a segment is as far from its start in the source as in the text. -/
theorem sourceSpan_of_mem (h : Extracted src lo r) {s : Segment} (hs : s ∈ r.segments) {a b : Nat}
    (ha : s.textStart ≤ a) (hab : a < b) (hb : b ≤ s.textStart + s.size) :
    r.sourceSpan ⟨a, b⟩ =
      ⟨s.sourceStart + (a - s.textStart), s.sourceStart + (b - s.textStart)⟩ := by
  obtain ⟨mid, _, hpieces⟩ := h.pieces
  have hstart := hpieces.offset_of_mem hs ha (Nat.lt_of_lt_of_le hab hb) a
  have hstop := hpieces.offset_of_mem hs (k := b - 1) (by omega) (by omega) b
  rw [sourceSpan_eq hstart hstop (by dsimp only; omega), Nat.min_eq_left (by omega),
    Nat.min_eq_left (by omega), Nat.max_eq_left (by omega)]

end Extracted

/-! ## A comment behind so many blanks -/

theorem width_blanks (n : Nat) : Text.width (List.replicate n ' ') = n := by
  induction n with
  | zero => rfl
  | succ n ih =>
      rw [List.replicate_succ, Text.width_cons, ih]
      exact Nat.add_comm 1 n

section

variable {base lo : Nat} {comment : List Char}

/-- What stands behind the blanks stands in the comment. -/
theorem at_behind {pos : Nat} {t : List Char}
    (h : Text.At (List.replicate base ' ' ++ comment) pos t) (hpos : base ≤ pos) :
    Text.At comment (pos - base) t := by
  refine Text.At.of_append (List.replicate base ' ') ?_
  rwa [width_blanks, Nat.add_sub_cancel' hpos]

/-- A segment of a clause is a copy of what the comment has there. -/
theorem Stands.copies {hi : Nat} {text piece : List Char} {s : Segment}
    (h : Stands (List.replicate base ' ' ++ comment) text lo hi s piece) (hlo : base ≤ lo) :
    s.Copies base comment text piece := by
  have hbase := Nat.le_trans hlo h.lo_le
  refine ⟨hbase, ?_, ?_, h.ne_nil, h.trimmed⟩
  · rw [h.size]
    exact (at_behind h.source hbase).cut?_self
  · rw [h.size]
    exact h.text.cut?_self

theorem Extracted.faithful {r : ClauseRecord}
    (h : Extracted (List.replicate base ' ' ++ comment) base r) (hne : r.text ≠ []) :
    r.Faithful base comment := by
  obtain ⟨mid, hmid, hpieces⟩ := h.pieces
  have hlo : base ≤ mid := Nat.le_trans h.start hmid
  have hwidth := hpieces.le_width hne
  rw [Text.width_append, width_blanks] at hwidth
  refine ⟨hne, ?_, hpieces.ordered, fun s hs => ?_, ⟨h.start, h.ordered, hwidth⟩, fun n hn => ?_,
    fun x y => h.sourceOffset_mono hne, fun s hs a b ha hab hb => ?_⟩
  · obtain ⟨pieces, hstands, htext⟩ := hpieces.stands
    exact ⟨pieces, hstands.imp fun s p hp => hp.copies hlo, htext⟩
  · obtain ⟨piece, hp⟩ := hpieces.stands_of_mem hs
    exact ⟨Nat.le_trans hmid hp.lo_le, Nat.le_add_right .., hp.le_hi⟩
  · obtain ⟨hat, hstop⟩ := h.named n hn
    have hinside := h.subject n hn
    have hbase := Nat.le_trans h.start hinside.start
    refine ⟨hinside, ?_⟩
    rw [hstop, Nat.sub_add_comm hbase]
    exact (at_behind hat hbase).cut?_self
  · obtain ⟨piece, hp⟩ := hpieces.stands_of_mem hs
    have hbase := Nat.le_trans hlo hp.lo_le
    have hcomment := at_behind hp.source hbase
    have hsize := hp.size
    -- Both are what the piece has at the same offsets.
    rw [h.sourceSpan_of_mem hs ha hab hb]
    dsimp only
    have hstart : s.sourceStart + (a - s.textStart) - base =
        s.sourceStart - base + (a - s.textStart) := Nat.sub_add_comm hbase
    have hstop : s.sourceStart + (b - s.textStart) - base =
        s.sourceStart - base + (b - s.textStart) := Nat.sub_add_comm hbase
    rw [hstart, hstop]
    refine ⟨by omega, by omega, ?_, ?_⟩
    · have htext := hp.text.bytesAt_eq (x := a - s.textStart) (n := b - a) (by omega)
      rw [Nat.add_sub_cancel' ha] at htext
      rw [hcomment.bytesAt_eq (by omega), htext]
    · have htext := hp.text.cut?_eq (x := a - s.textStart) (y := b - s.textStart) (by omega)
      rw [Nat.add_sub_cancel' ha, Nat.add_sub_cancel' (Nat.le_trans ha (Nat.le_of_lt hab))] at htext
      rw [hcomment.cut?_eq (by omega), htext]

end

/-- The reader that cuts a comment at byte offsets has an answer for every comment, which are its
clauses, and each of them is faithful to the comment. -/
theorem ofComment_faithful (doc : Surface.DocComment) (owner : DeclId) :
    cutComment? doc owner = some (ofComment doc owner) ∧
      ∀ r ∈ ofComment doc owner, r.Faithful doc.span.start doc.text.toList := by
  have hat : Text.At (List.replicate doc.span.start ' ' ++ doc.text.toList) doc.span.start
      doc.text.toList := ⟨_, [], (List.append_nil _).symm, width_blanks _⟩
  exact ⟨cutComment?_eq doc owner, fun r hr =>
    let ⟨hex, hne⟩ := ofComment_extracted hat r hr
    hex.faithful hne⟩

/-- A comment with a clause in two lines, among blanks and letters of more than one byte. -/
def wideText : List Char := "/** @throws Überzug|\u3000n > grün\r\n\u2003*| &&  ja*/".toList

example : (ofComment ⟨String.ofList wideText, 7, 56⟩ 0).map (·.segments) =
    [[⟨0, 31, 9⟩, ⟨10, 48, 6⟩]] := by
  simp only [ofComment, String.toList_ofList]
  decide +kernel

end Clause

end Covenant
