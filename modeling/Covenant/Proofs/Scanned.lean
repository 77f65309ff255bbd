import Covenant.Token.Scan
import Covenant.Proofs.Declared

/-!
# What the scanner lets through

A name that comes out of the scanner is a run of letters, digits, underscores
and dollar signs, and a number is not negative. Nothing behind the scanner makes
up names or numbers, so the same holds of everything that is parsed.
-/

namespace Covenant

/-- A text that is a word: not empty, and without blanks and marks. -/
structure IsWord (w : String) : Prop where
  ne_nil : w.toList ≠ []
  chars : ∀ c ∈ w.toList, Scan.isWordTail c = true

/-- What is known of the content of a token. -/
def Token.Scanned : Token → Prop
  | .ident name => IsWord name
  | .int n => 0 ≤ n.toInt
  | _ => True

namespace Scan

theorem isWordTail_of_start {c : Char} (h : isWordStart c = true) : isWordTail c = true := by
  simp [isWordTail, h]

theorem number_scanned {cs : List Char} {t : Token} (h : number cs = .token t) : t.Scanned := by
  rw [number] at h
  split at h
  · next hlt =>
      cases h
      show 0 ≤ (Int64.ofNat (digitsValue cs)).toInt
      rw [Int64.toInt_ofNat_of_lt (by simpa using hlt)]
      exact Int.natCast_nonneg _
  · exact absurd h (by simp)

theorem word_scanned {cs : List Char} {t : Token} (hne : cs ≠ [])
    (hcs : ∀ c ∈ cs, isWordTail c = true) (h : word cs = .token t) : t.Scanned := by
  rw [word] at h
  split at h
  · cases h
    exact trivial
  · cases h
    exact ⟨by simpa using hne, by simpa using hcs⟩

theorem cut_scanned {c : Char} {cs : List Char} {t : Token} (h : (cut c cs).1 = .token t) :
    t.Scanned := by
  unfold cut at h
  split at h
  · exact absurd h (by simp)
  split at h
  · exact number_scanned h
  split at h
  · next hc =>
      refine word_scanned (by simp) ?_ h
      intro d hd
      rcases List.mem_cons.mp hd with rfl | hd
      · exact isWordTail_of_start hc
      · exact List.all_eq_true.mp List.all_takeWhile d hd
  split at h
  · cases h
    exact trivial
  · split at h
    · cases h
      exact trivial
    · exact absurd h (by simp)
  · split at h
    · cases h
      exact trivial
    · exact absurd h (by simp)

theorem tokensFrom_scanned {n pos : Nat} {cs : List Char} {ts : List (Located Token)}
    (h : tokensFrom n pos cs = .ok ts) : ∀ t ∈ ts, t.val.Scanned := by
  induction n generalizing pos cs ts with
  | zero =>
      cases cs <;> cases h <;> exact fun t ht => absurd ht List.not_mem_nil
  | succ n ih =>
      cases cs with
      | nil =>
          cases h
          exact fun t ht => absurd ht List.not_mem_nil
      | cons c cs =>
          simp only [tokensFrom] at h
          split at h
          · exact ih h
          · exact absurd h (by simp)
          · next tok hp =>
              obtain ⟨rest, hrest, hend⟩ := bind_eq_ok.mp h
              cases hend
              intro t ht
              rcases List.mem_cons.mp ht with rfl | ht
              · exact cut_scanned hp
              · exact ih hrest t ht

theorem program_scanned {cs : List Char} {ts : List (Located Token)} (h : program cs = .ok ts) :
    ∀ t ∈ ts, t.val.Scanned := by
  obtain ⟨all, hall, hend⟩ := bind_eq_ok.mp h
  cases hend
  intro t ht
  exact tokensFrom_scanned hall t (List.mem_filter.mp ht).1

theorem clause_scanned {cs : List Char} {ts : List (Located Token)} (h : clause cs = .ok ts) :
    ∀ t ∈ ts, t.val.Scanned := by
  obtain ⟨all, hall, hend⟩ := bind_eq_ok.mp h
  split at hend
  · exact absurd hend (by simp)
  · cases hend
    exact tokensFrom_scanned hall

end Scan

end Covenant
