import Covenant.Proofs.TextParts

/-!
# The longest token in front

The scanner cuts tokens off the front of a text. There are five ways to do so, and
`CutOff` lists them. Whichever it is, the text of the token is what its pattern says, no
longer piece in front of the text matches any pattern, and the same token would have been
cut off if the text had ended there.
-/

namespace Covenant

namespace Scan

/-! ## Patterns -/

/-- A first character of one class, and then only characters of another. -/
def Runs (first tail : Char → Bool) (cs : List Char) : Prop :=
  ∃ c rest, cs = c :: rest ∧ first c = true ∧ ∀ d ∈ rest, tail d = true

/-- The text behind the opening of a block comment, up to where it is closed first. -/
def Closed (body : List Char) : Prop :=
  ∃ inner, body = inner ++ ['*', '/'] ∧ ¬ ['*', '/'] <:+: inner ++ ['*']

/-- The texts of which the scanner takes the longest that it finds. A block comment counts from its
opening on, be it closed or not. -/
inductive Pattern : List Char → Prop
  | number {cs} (h : Runs isDigit isNumberTail cs) : Pattern cs
  | word {cs} (h : Runs isWordStart isWordTail cs) : Pattern cs
  | mark (s : Symbol) : Pattern s.chars
  | line {body} (h : '\n' ∉ body) : Pattern ('/' :: '/' :: body)
  | opening : Pattern ['/', '*']
  | block {body} (h : Closed body) : Pattern ('/' :: '*' :: body)

/-- No longer piece in front of a text matches a pattern. -/
def Longest (text after : List Char) : Prop :=
  ∀ more, more <+: text ++ after → Pattern more → more.length ≤ text.length

/-- Whether a block comment documents what follows it. -/
def IsDoc (text : List Char) : Prop := ['/', '*', '*'] <+: text ∧ text ≠ ['/', '*', '*', '/']

/-- The value of the digits of a number without its underscores. -/
def decimal (cs : List Char) : Nat := Nat.ofDigitChars 10 (cs.filter (· ≠ '_')) 0

end Scan

/-- The texts that a token is read from. -/
def Token.ReadFrom (text : List Char) : Token → Prop
  | keyword k => k.text.toList = text
  | ident name => Scan.Runs Scan.isWordStart Scan.isWordTail text ∧ isKeyword name = false ∧
      name.toList = text
  | int n => Scan.Runs Scan.isDigit Scan.isNumberTail text ∧
      Scan.decimal text < 0x8000000000000000 ∧ n.toInt = Scan.decimal text
  | symbol s => s.chars = text
  | comment .line body => (∃ rest, text = '/' :: '/' :: rest ∧ '\n' ∉ rest) ∧ body.toList = text
  | comment .block body => (∃ rest, text = '/' :: '*' :: rest ∧ Scan.Closed rest) ∧
      ¬ Scan.IsDoc text ∧ body.toList = text
  | comment .doc body => (∃ rest, text = '/' :: '*' :: rest ∧ Scan.Closed rest) ∧
      Scan.IsDoc text ∧ body.toList = text

/-- Text in front of another, of which a token was read and nothing longer could have been. -/
structure Token.CutFrom (text after : List Char) (t : Token) : Prop where
  read : t.ReadFrom text
  longest : Scan.Longest text after

namespace Scan

/-! ## Characters -/

variable {c : Char} {cs text after more : List Char} {t : Token}

theorem not_space_of_wordTail (h : isWordTail c = true) : isSpace c = false := by
  rw [Bool.eq_false_iff]
  intro hs
  simp only [isSpace, Bool.or_eq_true, beq_iff_eq] at hs
  rcases hs with (((rfl | rfl) | rfl) | rfl) | rfl <;> exact absurd h (by decide)

theorem isWordTail_of_digit (h : isDigit c = true) : isWordTail c = true := by
  rw [isWordTail, h, Bool.or_true]

theorem not_digit_of_wordStart (h : isWordStart c = true) : isDigit c = false := by
  rw [Bool.eq_false_iff]
  intro hd
  simp only [isDigit, isWordStart, Bool.and_eq_true, Bool.or_eq_true, decide_eq_true_eq,
    beq_iff_eq, Char.le_def, UInt32.le_iff_toNat_le] at h hd
  rcases h with ((h | h) | rfl) | rfl
  · exact absurd (Nat.le_trans h.1 hd.2) (by decide)
  · exact absurd (Nat.le_trans h.1 hd.2) (by decide)
  · exact absurd hd (by decide)
  · exact absurd hd (by decide)

/-- What stands first in a mark begins no word and no number. -/
theorem head_mark {s : Symbol} (h : s.chars = c :: cs) : isWordTail c = false := by
  cases s <;> cases h <;> decide

/-- Only one mark begins like a comment. -/
theorem mark_slash {s : Symbol} (h : s.chars = '/' :: cs) : s.chars = ['/'] := by
  cases s <;> first | rfl | cases h

/-! ## Ways to cut -/

/-- The ways to cut a token off the front of a text: the token, its text, and what is left. -/
inductive CutOff : Token → List Char → List Char → Prop
  | number {c : Char} {cs : List Char} {t : Token} (hc : isDigit c = true)
    (ht : number (c :: cs.takeWhile isNumberTail) = .token t) :
    CutOff t (c :: cs.takeWhile isNumberTail) (cs.dropWhile isNumberTail)
  | word {c : Char} {cs : List Char} {t : Token} (hc : isWordStart c = true)
    (ht : word (c :: cs.takeWhile isWordTail) = .token t) :
    CutOff t (c :: cs.takeWhile isWordTail) (cs.dropWhile isWordTail)
  | line {cs : List Char} :
    CutOff (.comment .line (String.ofList ('/' :: '/' :: cs.takeWhile (· ≠ '\n'))))
      ('/' :: '/' :: cs.takeWhile (· ≠ '\n')) (cs.dropWhile (· ≠ '\n'))
  | block {cs body rest : List Char} (h : closeComment? cs = some (body, rest)) :
    CutOff (.comment (blockKind ('/' :: '*' :: body)) (String.ofList ('/' :: '*' :: body)))
      ('/' :: '*' :: body) rest
  | mark {cs rest : List Char} {s : Symbol} (hline : ∀ cs', cs ≠ '/' :: '/' :: cs')
    (hblock : ∀ cs', cs ≠ '/' :: '*' :: cs') (h : Symbol.longest? cs = some (s, rest)) :
    CutOff (.symbol s) s.chars rest

/-- A comment is closed where it can be closed first. -/
theorem closed_of_closeComment? {body rest : List Char} (h : closeComment? cs = some (body, rest)) :
    Closed body := by
  fun_induction closeComment? cs generalizing body with
  | case1 => cases h
  | case2 cs =>
      cases h
      refine ⟨[], rfl, fun hinfix => ?_⟩
      exact absurd hinfix.length_le (by decide)
  | case3 c cs hne ih =>
      obtain ⟨⟨body', rest'⟩, hclose, heq⟩ := Option.map_eq_some_iff.mp h
      cases heq
      obtain ⟨inner, rfl, hinner⟩ := ih hclose
      refine ⟨c :: inner, rfl, fun hinfix => ?_⟩
      rcases List.infix_cons_iff.mp hinfix with hfirst | hlater
      · obtain ⟨rfl, hslash⟩ := List.cons_prefix_cons.mp hfirst
        have hcs := closeComment?_eq hclose
        cases inner with
        | nil => exact absurd (List.cons_prefix_cons.mp hslash).1 (by decide)
        | cons d inner =>
            obtain ⟨rfl, _⟩ := List.cons_prefix_cons.mp hslash
            exact hne _ rfl hcs
      · exact hinner hlater

/-- Of two closed comments with one beginning neither is longer. -/
theorem Closed.length_le {body body' : List Char} (h : Closed body) (h' : Closed body')
    (hfront : body <+: body') : body'.length ≤ body.length := by
  obtain ⟨inner, rfl, _⟩ := h
  obtain ⟨inner', rfl, hinner'⟩ := h'
  have hend : ['*', '/'] <:+: inner ++ ['*', '/'] := (List.suffix_append inner _).isInfix
  refine Nat.le_of_not_lt fun hlt => hinner' (hend.trans ?_)
  have hlen : (inner ++ ['*', '/']).length ≤ (inner' ++ ['*']).length := by
    simp only [List.length_append, List.length_cons, List.length_nil] at hlt ⊢
    omega
  refine (List.prefix_of_prefix_length_le hfront ⟨['/'], ?_⟩ hlen).isInfix
  rw [List.append_assoc]
  rfl

/-! ## What may stand in front -/

/-- A run that stands in front is no longer than what is taken of its class. -/
theorem length_le_takeWhile {p : Char → Bool} {rest : List Char} (h : rest <+: cs)
    (hrest : ∀ d ∈ rest, p d = true) : rest.length ≤ (cs.takeWhile p).length := by
  obtain ⟨after, rfl⟩ := h
  rw [List.takeWhile_append_of_pos hrest, List.length_append]
  exact Nat.le_add_right ..

namespace Pattern

variable {rest : List Char}

theorem ne_nil (h : Pattern more) : more ≠ [] := by
  cases h with
  | number h | word h =>
      obtain ⟨c, rest, rfl, _⟩ := h
      exact List.cons_ne_nil c rest
  | mark s => exact s.chars_ne_nil
  | line | opening | block => exact List.cons_ne_nil _ _

theorem eq_cons (h : Pattern more) (hpre : more <+: c :: cs) :
    ∃ rest, more = c :: rest ∧ rest <+: cs :=
  (List.prefix_cons_iff.mp hpre).resolve_left h.ne_nil

theorem of_digit (h : Pattern more) (heq : more = c :: rest) (hc : isDigit c = true) :
    ∀ d ∈ rest, isNumberTail d = true := by
  cases h with
  | number h =>
      obtain ⟨_, _, hmore, _, hrest⟩ := h
      cases heq.symm.trans hmore
      exact hrest
  | word h =>
      obtain ⟨_, _, hmore, hstart, _⟩ := h
      cases heq.symm.trans hmore
      rw [not_digit_of_wordStart hstart] at hc
      cases hc
  | mark s => exact absurd (isWordTail_of_digit hc) (by simp [head_mark heq])
  | line | opening | block =>
      cases heq
      exact absurd hc (by decide)

theorem of_wordStart (h : Pattern more) (heq : more = c :: rest) (hc : isWordStart c = true) :
    ∀ d ∈ rest, isWordTail d = true := by
  cases h with
  | number h =>
      obtain ⟨_, _, hmore, hdigit, _⟩ := h
      cases heq.symm.trans hmore
      rw [not_digit_of_wordStart hc] at hdigit
      cases hdigit
  | word h =>
      obtain ⟨_, _, hmore, _, hrest⟩ := h
      cases heq.symm.trans hmore
      exact hrest
  | mark s => exact absurd (isWordTail_of_start hc) (by simp [head_mark heq])
  | line | opening | block =>
      cases heq
      exact absurd hc (by decide)

/-- What begins with a slash is a slash or a comment. -/
theorem of_slash (h : Pattern more) (heq : more = '/' :: rest) :
    rest = [] ∨ (∃ body, rest = '/' :: body ∧ '\n' ∉ body) ∨ rest = ['*'] ∨
      ∃ body, rest = '*' :: body ∧ Closed body := by
  cases h with
  | number h | word h =>
      obtain ⟨_, _, hmore, hc, _⟩ := h
      cases heq.symm.trans hmore
      exact absurd hc (by decide)
  | mark s => exact .inl (List.cons.inj (heq.symm.trans (mark_slash heq))).2
  | line hbody =>
      cases heq
      exact .inr (.inl ⟨_, rfl, hbody⟩)
  | opening =>
      cases heq
      exact .inr (.inr (.inl rfl))
  | block hbody =>
      cases heq
      exact .inr (.inr (.inr ⟨_, rfl, hbody⟩))

/-- What begins otherwise is a mark. -/
theorem of_mark (h : Pattern more) (heq : more = c :: rest) (hc : isWordTail c = false)
    (hslash : c ≠ '/') : ∃ s : Symbol, s.chars = more := by
  cases h with
  | number h =>
      obtain ⟨_, _, hmore, hdigit, _⟩ := h
      cases heq.symm.trans hmore
      exact absurd (isWordTail_of_digit hdigit) (by simp [hc])
  | word h =>
      obtain ⟨_, _, hmore, hstart, _⟩ := h
      cases heq.symm.trans hmore
      exact absurd (isWordTail_of_start hstart) (by simp [hc])
  | mark s => exact ⟨s, rfl⟩
  | line | opening | block =>
      cases heq
      exact absurd rfl hslash

end Pattern

theorem longest?_longest {rest : List Char} {s s' : Symbol}
    (h : Symbol.longest? cs = some (s, rest)) (h' : s'.chars <+: cs) :
    s'.chars.length ≤ s.chars.length := by
  obtain ⟨found, hfind, heq⟩ := Option.map_eq_some_iff.mp h
  cases heq
  obtain ⟨_, before, behind, hall, hbefore⟩ := List.find?_eq_some_iff_append.mp hfind
  have hsorted : Symbol.byLength.Pairwise fun a b => b.chars.length ≤ a.chars.length := by decide
  rw [hall] at hsorted
  have hmem := Symbol.mem_byLength s'
  rw [hall] at hmem
  rcases List.mem_append.mp hmem with hmem | hmem
  · have hno := hbefore s' hmem
    rw [List.isPrefixOf_iff_prefix.mpr h'] at hno
    cases hno
  · rcases List.mem_cons.mp hmem with rfl | hmem
    · exact Nat.le_refl _
    · exact (List.pairwise_cons.mp (List.pairwise_append.mp hsorted).2.1).1 s' hmem

/-! ## What is cut off -/

/-- The digits of a number are what is left of it without its underscores. -/
theorem decimal_eq (h : Runs isDigit isNumberTail cs) : decimal cs = digitsValue cs := by
  have htail : ∀ d ∈ cs, isNumberTail d = true := by
    obtain ⟨c, rest, rfl, hc, hrest⟩ := h
    refine List.forall_mem_cons.mpr ⟨?_, hrest⟩
    rw [isNumberTail, hc, Bool.true_or]
  have hfilter : cs.filter (· ≠ '_') = cs.filter isDigit := by
    refine List.filter_congr fun d hd => ?_
    have hd := htail d hd
    rw [isNumberTail, Bool.or_eq_true, beq_iff_eq] at hd
    rcases hd with hd | rfl
    · rw [hd, decide_eq_true_eq]
      rintro rfl
      cases hd
    · decide
  rw [decimal, hfilter, Nat.ofDigitChars_eq_foldl, digitsValue]

theorem isKeyword_iff {w : String} : isKeyword w = true ↔ ∃ k : Keyword, k.text = w := by
  rw [isKeyword, Keyword.ofText?, List.find?_isSome]
  constructor
  · rintro ⟨k, _, hk⟩
    exact ⟨k, beq_iff_eq.mp hk⟩
  · rintro ⟨k, hk⟩
    exact ⟨k, k.mem_all, beq_iff_eq.mpr hk⟩

theorem isDoc_iff : IsDoc text ↔ blockKind text = .doc := by
  rw [blockKind, IsDoc, ← List.isPrefixOf_iff_prefix]
  split
  · next h => simpa using h
  · next h => simpa using h

/-- A token is cut off with a text that it is read from. -/
theorem CutOff.read (h : CutOff t text after) : t.ReadFrom text := by
  cases h with
  | @number c cs _ hc ht =>
      have hruns : Runs isDigit isNumberTail (c :: cs.takeWhile isNumberTail) :=
        ⟨c, _, rfl, hc, List.all_eq_true.mp List.all_takeWhile⟩
      rw [Scan.number, ← decimal_eq hruns] at ht
      split at ht
      · next hlt =>
          cases ht
          exact ⟨hruns, hlt, Int64.toInt_ofNat_of_lt hlt⟩
      · cases ht
  | @word c cs _ hc ht =>
      have hruns : Runs isWordStart isWordTail (c :: cs.takeWhile isWordTail) :=
        ⟨c, _, rfl, hc, List.all_eq_true.mp List.all_takeWhile⟩
      have hspelled := word_spelled ht
      rw [Scan.word] at ht
      split at ht
      · cases ht
        exact hspelled
      · next hno =>
          cases ht
          refine ⟨hruns, ?_, hspelled⟩
          rw [isKeyword, hno, Option.isSome_none]
  | line =>
      refine ⟨⟨_, rfl, fun hmem => ?_⟩, String.toList_ofList⟩
      simpa using List.all_eq_true.mp List.all_takeWhile _ hmem
  | @block cs body rest hclose =>
      have hclosed := closed_of_closeComment? hclose
      have hdoc := @isDoc_iff ('/' :: '*' :: body)
      cases hkind : blockKind ('/' :: '*' :: body) with
      | doc => exact ⟨⟨body, rfl, hclosed⟩, hdoc.mpr hkind, String.toList_ofList⟩
      | block =>
          refine ⟨⟨body, rfl, hclosed⟩, fun h => ?_, String.toList_ofList⟩
          exact absurd (hkind.symm.trans (hdoc.mp h)) (by decide)
      | line =>
          rw [blockKind] at hkind
          split at hkind <;> cases hkind
  | mark => rfl

/-- No longer piece was to be had. -/
theorem CutOff.longest (h : CutOff t text after) : Longest text after := by
  intro more hpre hmore
  cases h with
  | @number c cs _ hc =>
      rw [List.cons_append, List.takeWhile_append_dropWhile] at hpre
      obtain ⟨rest, rfl, hrest⟩ := hmore.eq_cons hpre
      exact Nat.succ_le_succ (length_le_takeWhile hrest (hmore.of_digit rfl hc))
  | @word c cs _ hc =>
      rw [List.cons_append, List.takeWhile_append_dropWhile] at hpre
      obtain ⟨rest, rfl, hrest⟩ := hmore.eq_cons hpre
      exact Nat.succ_le_succ (length_le_takeWhile hrest (hmore.of_wordStart rfl hc))
  | @line cs =>
      rw [List.cons_append, List.cons_append, List.takeWhile_append_dropWhile] at hpre
      obtain ⟨rest, rfl, hrest⟩ := hmore.eq_cons hpre
      rcases hmore.of_slash rfl with rfl | ⟨body, rfl, hbody⟩ | rfl | ⟨body, rfl, _⟩
      · exact Nat.succ_le_succ (Nat.zero_le _)
      · refine Nat.succ_le_succ (Nat.succ_le_succ (length_le_takeWhile
          (List.cons_prefix_cons.mp hrest).2 fun d hd => ?_))
        rw [decide_eq_true_eq]
        rintro rfl
        exact hbody hd
      · exact absurd (List.cons_prefix_cons.mp hrest).1 (by decide)
      · exact absurd (List.cons_prefix_cons.mp hrest).1 (by decide)
  | @block cs body _ hclose =>
      rw [List.cons_append, List.cons_append] at hpre
      obtain ⟨rest', rfl, hrest⟩ := hmore.eq_cons hpre
      rcases hmore.of_slash rfl with rfl | ⟨body', rfl, _⟩ | rfl | ⟨body', rfl, hbody'⟩
      · exact Nat.succ_le_succ (Nat.zero_le _)
      · exact absurd (List.cons_prefix_cons.mp hrest).1 (by decide)
      · exact Nat.succ_le_succ (Nat.succ_le_succ (Nat.zero_le _))
      · refine Nat.succ_le_succ (Nat.succ_le_succ ?_)
        have hbody := closed_of_closeComment? hclose
        rcases List.prefix_or_prefix_of_prefix (List.cons_prefix_cons.mp hrest).2
          (List.prefix_append body after) with hle | hle
        · exact hle.length_le
        · exact hbody.length_le hbody' hle
  | @mark cs _ s hline hblock hs =>
      rw [← Symbol.longest?_eq hs] at hpre
      obtain ⟨c, chars, hchars⟩ := List.exists_cons_of_ne_nil s.chars_ne_nil
      have hcs : cs = c :: (chars ++ after) := by
        rw [Symbol.longest?_eq hs, hchars, List.cons_append]
      obtain ⟨rest', rfl, hrest⟩ := hmore.eq_cons (hcs ▸ hpre)
      by_cases hslash : c = '/'
      · subst hslash
        rcases hmore.of_slash rfl with rfl | ⟨body, rfl, _⟩ | rfl | ⟨body, rfl, _⟩
        · rw [hchars]
          exact Nat.succ_le_succ (Nat.zero_le _)
        · obtain ⟨behind, heq⟩ := hrest
          exact absurd (hcs.trans (congrArg _ heq.symm)) (hline _)
        · obtain ⟨behind, heq⟩ := hrest
          exact absurd (hcs.trans (congrArg _ heq.symm)) (hblock _)
        · obtain ⟨behind, heq⟩ := hrest
          exact absurd (hcs.trans (congrArg _ heq.symm)) (hblock _)
      · obtain ⟨s', hs'⟩ := hmore.of_mark rfl (head_mark hchars) hslash
        rw [← hs'] at hpre ⊢
        exact longest?_longest hs hpre

theorem CutOff.cutFrom (h : CutOff t text after) : t.CutFrom text after := ⟨h.read, h.longest⟩

/-! ## Tokens alone -/

theorem dropWhile_takeWhile (p : Char → Bool) (cs : List Char) :
    (cs.takeWhile p).takeWhile p = cs.takeWhile p ∧ (cs.takeWhile p).dropWhile p = [] := by
  have hall := List.all_eq_true.mp (List.all_takeWhile (p := p) (l := cs))
  have htake := @List.takeWhile_append_of_pos _ p _ [] hall
  have hdrop := @List.dropWhile_append_of_pos _ p _ [] hall
  rw [List.append_nil] at htake hdrop
  exact ⟨by rw [htake, List.takeWhile_nil, List.append_nil], hdrop⟩

/-- A comment is closed at the same place if nothing follows. -/
theorem closeComment?_alone {body rest : List Char} (h : closeComment? cs = some (body, rest)) :
    closeComment? body = some (body, []) := by
  fun_induction closeComment? cs generalizing body with
  | case1 => cases h
  | case2 cs =>
      cases h
      rfl
  | case3 c cs hne ih =>
      obtain ⟨⟨body', rest'⟩, hclose, heq⟩ := Option.map_eq_some_iff.mp h
      cases heq
      rw [closeComment?, ih hclose]
      · rfl
      · rintro cs' rfl rfl
        exact hne _ rfl (closeComment?_eq hclose)

theorem cut_digit (hc : isDigit c = true) : cut c cs =
    (number (c :: cs.takeWhile isNumberTail), c :: cs.takeWhile isNumberTail,
      cs.dropWhile isNumberTail) := by
  have hspace := not_space_of_wordTail (isWordTail_of_digit hc)
  unfold cut
  rw [if_neg (by simp [hspace]), if_pos hc]

theorem cut_wordStart (hc : isWordStart c = true) : cut c cs =
    (word (c :: cs.takeWhile isWordTail), c :: cs.takeWhile isWordTail,
      cs.dropWhile isWordTail) := by
  have hspace := not_space_of_wordTail (isWordTail_of_start hc)
  have hdigit := not_digit_of_wordStart hc
  unfold cut
  rw [if_neg (by simp [hspace]), if_neg (by simp [hdigit]), if_pos hc]

theorem cut_block {body rest : List Char} (h : closeComment? cs = some (body, rest)) :
    cut '/' ('*' :: cs) = (.token (.comment (blockKind ('/' :: '*' :: body))
      (String.ofList ('/' :: '*' :: body))), '/' :: '*' :: body, rest) := by
  unfold cut
  rw [if_neg (by decide), if_neg (by decide), if_neg (by decide)]
  simp only [h]

/-- What was cut off a text is cut off its own text too, and nothing is left. -/
theorem CutOff.cut_alone (h : CutOff t text after) :
    ∃ c cs, text = c :: cs ∧ cut c cs = (.token t, text, []) := by
  cases h with
  | @number c cs _ hc ht =>
      obtain ⟨htake, hdrop⟩ := dropWhile_takeWhile isNumberTail cs
      exact ⟨c, _, rfl, by rw [cut_digit hc, htake, hdrop, ht]⟩
  | @word c cs _ hc ht =>
      obtain ⟨htake, hdrop⟩ := dropWhile_takeWhile isWordTail cs
      exact ⟨c, _, rfl, by rw [cut_wordStart hc, htake, hdrop, ht]⟩
  | @line cs =>
      obtain ⟨htake, hdrop⟩ := dropWhile_takeWhile (· ≠ '\n') cs
      refine ⟨'/', _, rfl, ?_⟩
      show ((_, _, _) : Piece × List Char × List Char) = _
      rw [htake, hdrop]
  | block hclose => exact ⟨'/', _, rfl, cut_block (closeComment?_alone hclose)⟩
  | @mark cs _ s => cases s <;> exact ⟨_, _, rfl, rfl⟩

/-- The text of a token is read as that token alone. -/
theorem CutOff.tokens_alone (h : CutOff t text after) :
    tokens text = .ok [⟨t, 0, Text.width text⟩] := by
  obtain ⟨c, cs, rfl, hcut⟩ := h.cut_alone
  have hnil (n pos : Nat) : tokensFrom n pos [] = .ok [] := by cases n <;> rfl
  rw [tokens, List.length_cons, tokensFrom, hcut]
  dsimp only
  rw [hnil, Nat.zero_add]
  rfl

end Scan

end Covenant
