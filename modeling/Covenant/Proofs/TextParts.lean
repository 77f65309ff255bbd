import Covenant.Proofs.Scanned
import Covenant.Parse.Stream

/-!
# Where parts of a text stand

A part of a text stands at a byte offset, and what stands at an offset of a part
stands further on in the whole. The scanner is the first that makes offsets:
every token stands where its span says, spelled out in full, and the tokens
follow one another. Taking comments out of their order leaves the others in it.
-/

namespace Covenant

namespace Text

/-- A part of a text stands at a byte offset. -/
def At (src : List Char) (pos : Nat) (t : List Char) : Prop :=
  ∃ before after, src = before ++ t ++ after ∧ width before = pos

theorem width_pos {t : List Char} (h : t ≠ []) : 0 < width t := by
  cases t with
  | nil => exact absurd rfl h
  | cons c cs =>
      have := c.utf8Size_pos
      rw [width_cons]
      omega

namespace At

variable {src t u : List Char} {pos : Nat}

theorem self (t : List Char) : At t 0 t := ⟨[], [], by simp, rfl⟩

theorem slice_eq (h : At src pos t) : slice src pos (pos + width t) = t := by
  obtain ⟨before, after, rfl, rfl⟩ := h
  exact slice_append before t after

theorem left (h : At src pos (t ++ u)) : At src pos t := by
  obtain ⟨before, after, rfl, rfl⟩ := h
  exact ⟨before, u ++ after, by simp, rfl⟩

theorem right (h : At src pos (t ++ u)) : At src (pos + width t) u := by
  obtain ⟨before, after, rfl, rfl⟩ := h
  exact ⟨before ++ t, after, by simp, width_append before t⟩

theorem append (h : At src pos t) (after : List Char) : At (src ++ after) pos t := by
  obtain ⟨before, rest, rfl, rfl⟩ := h
  exact ⟨before, rest ++ after, by simp, rfl⟩

/-- What stands in a text ends before the text does. -/
theorem le_width (h : At src pos t) : pos + width t ≤ width src := by
  obtain ⟨before, after, rfl, rfl⟩ := h
  rw [width_append, width_append]
  omega

end At

/-! ## Blanks at the ends -/

theorem trimFront_of_head {cs : List Char} (h : ∀ c, cs.head? = some c → isBlank c = false) :
    trimFront cs = cs := by
  cases cs with
  | nil => rfl
  | cons c cs => rw [trimFront, List.dropWhile_cons, h c rfl, if_neg Bool.false_ne_true]

theorem head_trimFront {cs : List Char} {c : Char} (h : (trimFront cs).head? = some c) :
    isBlank c = false := by
  have hhead := List.head?_dropWhile_not isBlank cs
  rw [trimFront] at h
  rw [h] at hhead
  simpa using hhead

theorem trimFront_trimFront (cs : List Char) : trimFront (trimFront cs) = trimFront cs :=
  trimFront_of_head fun _ => head_trimFront

theorem trimBack_prefix (cs : List Char) : trimBack cs <+: cs :=
  ⟨(cs.reverse.takeWhile isBlank).reverse, by
    rw [trimBack, ← List.reverse_append, List.takeWhile_append_dropWhile, List.reverse_reverse]⟩

theorem trimBack_trimBack (cs : List Char) : trimBack (trimBack cs) = trimBack cs := by
  rw [trimBack, trimBack, List.reverse_reverse]
  exact congrArg List.reverse (trimFront_trimFront cs.reverse)

/-- What is trimmed has no more blanks to trim. -/
theorem trim_trim (cs : List Char) : trim (trim cs) = trim cs := by
  have hfront : trimFront (trim cs) = trim cs := by
    refine trimFront_of_head fun c hc => ?_
    obtain ⟨rest, hrest⟩ := trimBack_prefix (trimFront cs)
    have hhead : (trimFront cs).head? = some c := by
      rw [← hrest, List.head?_append, show (trimBack (trimFront cs)).head? = some c from hc]
      rfl
    exact head_trimFront hhead
  rw [trim, hfront, trim, trimBack_trimBack]

end Text

/-! ## Tokens -/

namespace Token

/-- The characters that a token was read from; of a number only its value is kept. -/
def Spelled : Token → List Char → Prop
  | keyword k, cs => k.text.toList = cs
  | symbol s, cs => s.chars = cs
  | int _, _ => True
  | ident name, cs => name.toList = cs
  | comment _ text, cs => text.toList = cs

/-- A token stands at a span of a text. -/
def At (src : List Char) (s : Span) (t : Token) : Prop :=
  ∃ cs, cs ≠ [] ∧ Text.At src s.start cs ∧ s.stop = s.start + Text.width cs ∧ t.Spelled cs

theorem At.lt {src : List Char} {s : Span} {t : Token} (h : t.At src s) : s.start < s.stop := by
  obtain ⟨cs, hne, _, hstop, _⟩ := h
  have := Text.width_pos hne
  omega

end Token

namespace Scan

variable {src : List Char}

theorem word_spelled {cs : List Char} {t : Token} (h : word cs = .token t) : t.Spelled cs := by
  rw [word] at h
  split at h
  · next k hk =>
      cases h
      have htext : k.text = String.ofList cs := by simpa using List.find?_some hk
      show k.text.toList = cs
      rw [htext, String.toList_ofList]
  · cases h
    exact String.toList_ofList

theorem cut_spelled {c : Char} {cs : List Char} {t : Token} (h : (cut c cs).1 = .token t) :
    t.Spelled (cut c cs).2.1 := by
  unfold cut at h ⊢
  split at h
  · cases h
  next hspace =>
  rw [if_neg hspace]
  split at h
  · next hdigit =>
      rw [if_pos hdigit]
      rw [number] at h
      split at h <;> cases h
      exact trivial
  next hdigit =>
  rw [if_neg hdigit]
  split at h
  · next hstart =>
      rw [if_pos hstart]
      exact word_spelled h
  next hstart =>
  rw [if_neg hstart]
  split at h
  · cases h
    exact String.toList_ofList
  · split at h
    · next hclose =>
        cases h
        dsimp only
        exact String.toList_ofList
    · cases h
  · split at h
    · next hmark =>
        cases h
        dsimp only
        rfl
    · cases h

/-- Tokens that follow one another from an offset on, each at its place. -/
def TokensAt (src : List Char) : Nat → List (Located Token) → Prop
  | _, [] => True
  | lo, t :: ts => lo ≤ t.span.start ∧ t.val.At src t.span ∧ TokensAt src t.span.stop ts

theorem TokensAt.mono {lo hi : Nat} {ts : List (Located Token)} (hle : lo ≤ hi)
    (h : TokensAt src hi ts) : TokensAt src lo ts := by
  cases ts with
  | nil => exact trivial
  | cons t ts => exact ⟨Nat.le_trans hle h.1, h.2⟩

theorem TokensAt.at_of_mem {lo : Nat} {ts : List (Located Token)} (h : TokensAt src lo ts) :
    ∀ t ∈ ts, t.val.At src t.span := by
  induction ts generalizing lo with
  | nil => exact fun t ht => absurd ht List.not_mem_nil
  | cons t ts ih =>
      intro t' ht'
      rcases List.mem_cons.mp ht' with rfl | ht'
      · exact h.2.1
      · exact ih h.2.2 t' ht'

theorem tokensFrom_at {n pos : Nat} {cs : List Char} {ts : List (Located Token)}
    (hcs : Text.At src pos cs) (h : tokensFrom n pos cs = .ok ts) : TokensAt src pos ts := by
  induction n generalizing pos cs ts with
  | zero => cases cs <;> cases h <;> exact trivial
  | succ n ih =>
      cases cs with
      | nil =>
          cases h
          exact trivial
      | cons c cs =>
          rw [← cut_eq c cs] at hcs
          simp only [tokensFrom] at h
          split at h
          · exact (ih hcs.right h).mono (Nat.le_add_right ..)
          · cases h
          · next t ht =>
              obtain ⟨rest, hrest, hend⟩ := bind_eq_ok.mp h
              cases hend
              exact ⟨Nat.le_refl _, ⟨_, cut_ne_nil c cs, hcs.left, rfl, cut_spelled ht⟩,
                ih hcs.right hrest⟩

theorem tokens_at {cs : List Char} {ts : List (Located Token)} (h : tokens cs = .ok ts) :
    TokensAt cs 0 ts :=
  tokensFrom_at (.self cs) h

/-- The tokens of a clause stand where their spans say. -/
theorem clause_at {cs : List Char} {ts : List (Located Token)} (h : clause cs = .ok ts) :
    TokensAt cs 0 ts := by
  obtain ⟨all, hall, hend⟩ := bind_eq_ok.mp h
  split at hend
  · cases hend
  · cases hend
    exact tokens_at hall

/-- So do those of a program. -/
theorem program_at {cs : List Char} {ts : List (Located Token)} (h : program cs = .ok ts) :
    ∀ t ∈ ts, t.val.At cs t.span := by
  obtain ⟨all, hall, hend⟩ := bind_eq_ok.mp h
  cases hend
  exact fun t ht => (tokens_at hall).at_of_mem t (List.mem_filter.mp ht).1

end Scan

end Covenant
