import Covenant.Proofs.ExtractedClauses
import Covenant.Proofs.TextCuts

/-!
# Reading a comment by byte offsets

A reader of comments that keeps one byte offset into each line and takes whatever
it looks at out of the line by cuts. It has no answer if one of the cuts falls
inside a character or behind the end of the line. `cutComment?_eq` says that none
ever does, whatever the comment: the reader finds the clauses that are found by
going through the characters from the front.
-/

namespace Covenant

namespace Text

/-- Where the first character is that has a property. -/
def find? (p : Char → Bool) : List Char → Option Nat
  | [] => none
  | c :: cs => if p c then some 0 else (find? p cs).map (c.utf8Size + ·)

theorem find?_eq (p : Char → Bool) (cs : List Char) :
    find? p cs = if (cs.dropWhile (!p ·)).isEmpty then none
      else some (width (cs.takeWhile (!p ·))) := by
  induction cs with
  | nil => rfl
  | cons c cs ih =>
      rw [find?]
      cases hc : p c with
      | true => simp [hc]
      | false =>
          simp only [ih, List.dropWhile_cons, List.takeWhile_cons, hc, Bool.not_false, if_true,
            width_cons, Bool.false_eq_true, if_false]
          split <;> rfl

end Text

namespace Clause

open Surface (DocComment)

/-! ## The reader -/

/-- How many bytes the blanks in front of a text have. -/
def indent (cs : List Char) : Nat := Text.width cs - Text.width (Text.trimFront cs)

/-- Where the first word of a text ends. -/
def wordEnd (cs : List Char) : Nat := (Text.find? isWordEnd cs).getD (Text.width cs)

/-- The offset in a line behind its margin, and what is there. -/
def cutMargin? (line : List Char) : Option (Nat × List Char) := do
  let rest ← Text.from? (indent line) line
  let star := if rest.head? = some '*' then indent line + 1 else indent line
  let rest ← Text.from? star line
  let content ← Text.from? (star + indent rest) line
  return (star + indent rest, content)

/-- The exception name that follows `pos` in the line at `offset`, and where it ends in the line. -/
def cutSubject? (offset : Nat) (line : List Char) (pos : Nat) :
    Option (Option (Located String) × Nat) := do
  let after ← Text.from? pos line
  let word ← Text.from? (indent after) after
  let name ← Text.upTo? (wordEnd word) word
  let start := pos + indent after
  let stop := start + wordEnd word
  return (if wordEnd word = 0 then none
    else some ⟨String.ofList name, offset + start, offset + stop⟩, stop)

/-- The name behind `pos` if one follows the tag, and where the line goes on. -/
def cutTagSubject? (tag : ClauseTag) (offset : Nat) (line : List Char) (pos : Nat) :
    Option (Option (Located String) × Nat) :=
  if tag.hasSubject then cutSubject? offset line pos else some (none, pos)

/-- The clause that starts at `col` in the line at `offset`, with a tag of `size` bytes. -/
def cutClause? (owner : DeclId) (tag : ClauseTag) (offset : Nat) (line : List Char)
    (col size : Nat) : Option ClauseRecord := do
  let (subject, pos) ← cutTagSubject? tag offset line (col + size)
  let stop := (subject.map (·.span.stop)).getD (offset + (col + size))
  let clause : ClauseRecord :=
    { tag, owner, text := [], subject, span := ⟨offset + col, stop⟩, segments := [] }
  let after ← Text.from? pos line
  match Text.find? (· == '|') after with
  | some bar =>
    let text ← Text.from? (pos + bar + 1) line
    return addPiece clause (offset + (pos + bar + 1)) text
  | none => return clause

def cutLine? (owner : DeclId) (offset : Nat) (line : List Char) : Option Line := do
  let (col, content) ← cutMargin? line
  match content with
  | '@' :: _ =>
    let word ← Text.upTo? (wordEnd content) content
    match ClauseTag.ofWord? (String.ofList word) with
    | some tag => return .tag (← cutClause? owner tag offset line col (wordEnd content))
    | none => return .unknownTag
  | '|' :: _ => return .continuation (offset + col + 1) (← Text.from? 1 content)
  | _ => return .prose

def cutLines? (owner : DeclId) (current : Option ClauseRecord) (offset : Nat) :
    List (List Char) → Option (List ClauseRecord)
  | [] => return close current
  | line :: rest => do
    let next := offset + Text.width line + 1
    match ← cutLine? owner offset line with
    | .unknownTag => return close current ++ (← cutLines? owner none next rest)
    | .tag r => return close current ++ (← cutLines? owner (some r) next rest)
    | .continuation pos text =>
      cutLines? owner (current.map fun r => addPiece r pos text) next rest
    | .prose => cutLines? owner current next rest

/-- Where the text of a comment starts, and the text. The end of `/**/` is no closing delimiter,
since its star belongs to the opening one. -/
def cutBody? (cs : List Char) : Option (Nat × List Char) :=
  let start := if ['/', '*', '*'].isPrefixOf cs then 3 else 0
  let stop := if start + 2 ≤ Text.width cs ∧ ['*', '/'].isSuffixOf cs then Text.width cs - 2
    else Text.width cs
  (Text.cut? cs start stop).map (start, ·)

/-- The clauses of a comment. -/
def cutComment? (doc : DocComment) (owner : DeclId) : Option (List ClauseRecord) := do
  let (start, body) ← cutBody? doc.text.toList
  cutLines? owner none (doc.span.start + start) (Text.lines body)

/-! ## No cut fails -/

/-- From what is left of a text, and where, it can be cut out. -/
theorem GoesOn.from? {pos n : Nat} {cs rest : List Char} (h : GoesOn (pos, cs) (pos + n, rest)) :
    Text.from? n cs = some rest := by
  obtain ⟨front, rfl, hn⟩ := h
  obtain rfl : n = Text.width front := Nat.add_left_cancel hn
  exact Text.from?_append front rest

theorem indent_eq (cs : List Char) : indent cs = Text.width (cs.takeWhile Text.isBlank) := by
  have h := congrArg Text.width (List.takeWhile_append_dropWhile (p := Text.isBlank) (l := cs))
  rw [Text.width_append] at h
  rw [indent, Text.trimFront]
  omega

theorem skipBlanks_eq (pos : Nat) (cs : List Char) :
    skipBlanks pos cs = (pos + indent cs, Text.trimFront cs) := by
  rw [indent_eq]
  rfl

theorem from?_indent (cs : List Char) : Text.from? (indent cs) cs = some (Text.trimFront cs) :=
  (skipBlanks_eq 0 cs ▸ skipBlanks_goesOn 0 cs).from?

theorem indent_trimFront (cs : List Char) : indent (Text.trimFront cs) = 0 := by
  have hhead := List.head?_dropWhile_not Text.isBlank cs
  rw [indent_eq, Text.trimFront]
  cases hcs : cs.dropWhile Text.isBlank with
  | nil => rfl
  | cons c rest =>
      rw [hcs] at hhead
      have hc : Text.isBlank c = false := by simpa using hhead
      rw [List.takeWhile_cons, hc]
      rfl

theorem wordEnd_eq (cs : List Char) : wordEnd cs = Text.width (firstWord cs).1 := by
  have h := congrArg Text.width (List.takeWhile_append_dropWhile (p := (!isWordEnd ·)) (l := cs))
  rw [wordEnd, Text.find?_eq, firstWord]
  split
  · next hempty =>
      rw [List.isEmpty_iff.mp hempty, List.append_nil] at h
      exact h.symm
  · rfl

theorem upTo?_wordEnd (cs : List Char) : Text.upTo? (wordEnd cs) cs = some (firstWord cs).1 := by
  have h := Text.upTo?_append (firstWord cs).1 (firstWord cs).2
  rw [show (firstWord cs).1 ++ (firstWord cs).2 = cs from List.takeWhile_append_dropWhile] at h
  rw [wordEnd_eq, h]

theorem cutMargin?_eq (offset : Nat) (line : List Char) :
    ∃ col content, cutMargin? line = some (col, content) ∧
      skipMargin offset line = (offset + col, content) := by
  rw [cutMargin?, from?_indent, skipMargin, skipBlanks_eq]
  simp only [Option.bind_eq_bind, Option.bind_some]
  by_cases hstar : (Text.trimFront line).head? = some '*'
  · obtain ⟨cs, hcs⟩ := List.head?_eq_some_iff.mp hstar
    -- Behind the star there may be more blanks.
    have hbehind : GoesOn (0, line) (0 + (indent line + 1), cs) := by
      have h := skipBlanks_goesOn 0 line
      rw [skipBlanks_eq, hcs] at h
      exact h.trans .tail
    have hcontent : GoesOn (0, line) (0 + (indent line + 1 + indent cs), Text.trimFront cs) := by
      have h := skipBlanks_goesOn (0 + (indent line + 1)) cs
      rw [skipBlanks_eq, Nat.add_assoc] at h
      exact hbehind.trans h
    rw [if_pos hstar, hbehind.from?, Option.bind_some, hcontent.from?, hcs]
    refine ⟨_, _, rfl, ?_⟩
    show skipBlanks (offset + indent line + 1) cs = _
    rw [skipBlanks_eq]
    simp only [Nat.add_assoc]
  · rw [if_neg hstar, from?_indent, Option.bind_some, indent_trimFront, Nat.add_zero,
      from?_indent]
    refine ⟨_, _, rfl, ?_⟩
    split
    · next heq =>
        obtain ⟨_, hcs⟩ := Prod.mk.inj heq
        rw [hcs] at hstar
        exact absurd rfl hstar
    · next heq => exact heq.symm

/-- No bytes are no characters. -/
theorem width_eq_zero {cs : List Char} : Text.width cs = 0 ↔ cs = [] :=
  ⟨fun h => Classical.byContradiction fun hne => absurd h (Nat.ne_of_gt (Text.width_pos hne)),
    fun h => h ▸ rfl⟩

/-- A subject is found where it is in what is left of the line. -/
theorem cutSubject?_eq {offset pos : Nat} {line cs : List Char}
    (h : GoesOn (offset, line) (offset + pos, cs)) :
    ∃ stop rest, cutSubject? offset line pos = some ((subject (offset + pos) cs).1, stop) ∧
      (subject (offset + pos) cs).2 = (offset + stop, rest) := by
  refine ⟨pos + indent cs + wordEnd (Text.trimFront cs), (firstWord (Text.trimFront cs)).2, ?_, ?_⟩
  · rw [cutSubject?, h.from?]
    simp only [Option.bind_eq_bind, Option.bind_some, from?_indent, upTo?_wordEnd]
    rw [subject, skipBlanks_eq]
    simp only [wordEnd_eq, width_eq_zero, List.isEmpty_iff]
    split
    · rfl
    · simp only [Nat.add_assoc]
      rfl
  · rw [subject, skipBlanks_eq]
    simp only [wordEnd_eq, List.isEmpty_iff]
    split
    · next hempty => rw [hempty, Text.width_nil, Nat.add_assoc, Nat.add_zero]
    · simp only [Nat.add_assoc]

theorem cutTagSubject?_eq (tag : ClauseTag) {offset pos : Nat} {line cs : List Char}
    (h : GoesOn (offset, line) (offset + pos, cs)) :
    ∃ subj stop rest, cutTagSubject? tag offset line pos = some (subj, stop) ∧
      (if tag.hasSubject then subject (offset + pos) cs else (none, offset + pos, cs)) =
        (subj, offset + stop, rest) ∧
      GoesOn (offset, line) (offset + stop, rest) := by
  rw [cutTagSubject?]
  split
  · obtain ⟨stop, rest, hcut, hsubject⟩ := cutSubject?_eq h
    have hgoes := (subject_goesOn (offset + pos) cs).1
    rw [hsubject] at hgoes
    exact ⟨_, stop, rest, hcut, Prod.ext rfl hsubject, h.trans hgoes⟩
  · exact ⟨none, pos, cs, rfl, rfl, h⟩

theorem find?_bar (cs : List Char) :
    Text.find? (· == '|') cs = if (cs.dropWhile (· ≠ '|')).isEmpty then none
      else some (Text.width (cs.takeWhile (· ≠ '|'))) := by
  have hbar : (fun c : Char => !(c == '|')) = fun c => decide (c ≠ '|') := by
    funext c
    by_cases hc : c = '|' <;> simp [hc]
  rw [Text.find?_eq, hbar]

theorem cutClause?_eq (owner : DeclId) (tag : ClauseTag) {offset col : Nat}
    {line word cs : List Char} (h : GoesOn (offset, line) (offset + (col + Text.width word), cs)) :
    cutClause? owner tag offset line col (Text.width word) =
      some (startClause owner tag (offset + col) word cs) := by
  obtain ⟨subj, stop, rest, hcut, hsubject, hgoes⟩ := cutTagSubject?_eq tag h
  rw [← Nat.add_assoc] at hsubject
  rw [cutClause?, startClause, hsubject]
  simp only [hcut, Option.bind_eq_bind, Option.bind_some, hgoes.from?, Nat.add_assoc]
  rw [find?_bar]
  cases hbar : rest.dropWhile (· ≠ '|') with
  | nil => rfl
  | cons bar behind =>
      have hbehind := hgoes.trans (bar_goesOn (offset + stop) hbar)
      rw [Nat.add_assoc, Nat.add_assoc] at hbehind
      simp only [List.isEmpty_cons, Bool.false_eq_true, if_false]
      rw [hbehind.from?]
      rfl

theorem cutLine?_eq (owner : DeclId) (offset : Nat) (line : List Char) :
    cutLine? owner offset line = some (readLine owner offset line) := by
  obtain ⟨col, content, hcut, hskip⟩ := cutMargin?_eq offset line
  have hgoes := skipMargin_goesOn offset line
  rw [hskip] at hgoes
  rw [cutLine?, readLine, hcut, hskip]
  simp only [Option.bind_eq_bind, Option.bind_some]
  split
  · next cs =>
      have hrest := hgoes.trans (firstWord_goesOn (offset + col) ('@' :: cs))
      rw [Nat.add_assoc] at hrest
      rw [upTo?_wordEnd, Option.bind_some, wordEnd_eq]
      split
      · next tag htag =>
          rw [cutClause?_eq owner tag hrest]
          simp only [htag]
          rfl
      · next htag =>
          simp only [htag]
          rfl
  · next cs =>
      have hbar : GoesOn (0, '|' :: cs) (0 + 1, cs) := .tail
      rw [hbar.from?]
      rfl
  · next hat hbar =>
      split
      · next heq => exact absurd (Prod.mk.inj heq).2 (hat _)
      · next heq => exact absurd (Prod.mk.inj heq).2 (hbar _)
      · rfl

theorem cutLines?_eq (owner : DeclId) (lines : List (List Char)) :
    ∀ (current : Option ClauseRecord) (offset : Nat),
      cutLines? owner current offset lines = some (clausesOfLines owner current offset lines) := by
  induction lines with
  | nil => exact fun _ _ => rfl
  | cons line rest ih =>
      intro current offset
      rw [cutLines?, clausesOfLines, cutLine?_eq]
      simp only [Option.bind_eq_bind, Option.bind_some, ih]
      cases readLine owner offset line <;> rfl

/-- With two bytes or more behind the front, a closing delimiter is behind it as well. -/
theorem closes_iff {front rest : List Char} :
    2 ≤ Text.width rest ∧ ['*', '/'] <:+ front ++ rest ↔ ['*', '/'] <:+ rest := by
  constructor
  · rintro ⟨hwidth, hsuffix⟩
    by_cases hlong : 2 ≤ rest.length
    · exact List.suffix_of_suffix_length_le hsuffix (List.suffix_append front rest) hlong
    · -- One character is at most the slash, which has one byte.
      match rest, hwidth, hsuffix, hlong with
      | [], hwidth, _, _ => exact absurd hwidth (by decide)
      | [c], hwidth, hsuffix, _ =>
          obtain ⟨before, heq⟩ := hsuffix
          have hlast := congrArg List.getLast? heq
          obtain rfl : '/' = c := by simpa using hlast
          exact absurd hwidth (by decide)
      | _ :: _ :: _, _, _, hlong => exact absurd (Nat.le_add_left 2 _) hlong
  · intro hsuffix
    refine ⟨?_, hsuffix.trans (List.suffix_append front rest)⟩
    obtain ⟨mid, rfl⟩ := hsuffix
    rw [Text.width_append]
    exact Nat.le_add_left 2 _

/-- What is between the delimiters is cut out behind what is in front. -/
theorem cut?_open (front rest : List Char) :
    Text.cut? (front ++ rest) (Text.width front)
        (if Text.width front + 2 ≤ Text.width (front ++ rest) ∧
            ['*', '/'].isSuffixOf (front ++ rest)
          then Text.width (front ++ rest) - 2 else Text.width (front ++ rest)) =
      some (if ['*', '/'].isSuffixOf rest then rest.dropLast.dropLast else rest) := by
  rw [Text.width_append]
  simp only [Nat.add_le_add_iff_left, List.isSuffixOf_iff_suffix, closes_iff]
  split
  · next hsuffix =>
      obtain ⟨mid, rfl⟩ := hsuffix
      have hat : Text.At (front ++ (mid ++ ['*', '/'])) (Text.width front) mid :=
        ⟨front, ['*', '/'], by simp, rfl⟩
      have hstop : Text.width front + Text.width (mid ++ ['*', '/']) - 2 =
          Text.width front + Text.width mid := by
        rw [Text.width_append]
        exact Nat.add_sub_cancel (Text.width front + Text.width mid) 2
      rw [hstop, hat.cut?_self]
      simp
  · have hat : Text.At (front ++ rest) (Text.width front) rest := ⟨front, [], by simp, rfl⟩
    rw [hat.cut?_self]

theorem cutBody?_eq (cs : List Char) : cutBody? cs = some (commentBody cs) := by
  rw [cutBody?, commentBody]
  by_cases hopen : ['/', '*', '*'].isPrefixOf cs = true
  · obtain ⟨rest, rfl⟩ := List.isPrefixOf_iff_prefix.mp hopen
    rw [if_pos hopen, if_pos hopen]
    exact congrArg (Option.map (3, ·)) (cut?_open ['/', '*', '*'] rest)
  · rw [if_neg hopen, if_neg hopen]
    exact congrArg (Option.map (0, ·)) (cut?_open [] cs)

/-- Whatever text a comment has, no cut of it fails, and the clauses that are found are those of the
comment. -/
theorem cutComment?_eq (doc : DocComment) (owner : DeclId) :
    cutComment? doc owner = some (ofComment doc owner) := by
  rw [cutComment?, cutBody?_eq, ofComment]
  simp only [Option.bind_eq_bind, Option.bind_some]
  exact cutLines?_eq owner _ none _

end Clause

end Covenant
