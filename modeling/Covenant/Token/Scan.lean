import Covenant.Source.Text
import Covenant.Fault.Grammar

/-!
# From characters to tokens

`cut` takes the longest piece off the front of a text: a run of blanks, a
number, a word, a comment or a mark. What it takes and what it leaves make up
the text again (`cut_eq`), and it always takes something, so `tokens` ends. The
blanks of the language are the ASCII ones.
-/

namespace Covenant.Scan

/-- What a piece of text stands for. -/
inductive Piece
  | blank
  | token (t : Token)
  | bad (fault : GrammarFault)

def isSpace (c : Char) : Bool := c == ' ' || c == '\t' || c == '\r' || c == '\n' || c == '\x0c'

def isDigit (c : Char) : Bool := '0' ≤ c && c ≤ '9'

/-- Digits may be grouped by underscores after the first one. -/
def isNumberTail (c : Char) : Bool := isDigit c || c == '_'

def isWordStart (c : Char) : Bool :=
  ('a' ≤ c && c ≤ 'z') || ('A' ≤ c && c ≤ 'Z') || c == '_' || c == '$'

def isWordTail (c : Char) : Bool := isWordStart c || isDigit c

/-- The value of the digits of a number, most significant first. -/
def digitsValue (cs : List Char) : Nat :=
  (cs.filter isDigit).foldl (fun n c => 10 * n + (c.toNat - '0'.toNat)) 0

/-- A number is a token if its value fits in a signed 64-bit integer. -/
def number (cs : List Char) : Piece :=
  if digitsValue cs < 0x8000000000000000 then .token (.int (Int64.ofNat (digitsValue cs)))
  else .bad (.strayText (String.ofList cs))

def word (cs : List Char) : Piece :=
  match Keyword.ofText? (String.ofList cs) with
  | some k => .token (.keyword k)
  | none => .token (.ident (String.ofList cs))

/-- The text up to and with the end mark of a block comment, and what follows it. -/
def closeComment? : List Char → Option (List Char × List Char)
  | [] => none
  | '*' :: '/' :: cs => some (['*', '/'], cs)
  | c :: cs => (closeComment? cs).map fun (body, rest) => (c :: body, rest)

/-- The kind of the block comment that has this text. -/
def blockKind (cs : List Char) : CommentKind :=
  if ['/', '*', '*'].isPrefixOf cs && cs != ['/', '*', '*', '/'] then .doc else .block

/-- The longest piece at the front of `c :: cs`: its meaning, its text and the text behind it. -/
def cut (c : Char) (cs : List Char) : Piece × List Char × List Char :=
  if isSpace c then
    (.blank, c :: cs.takeWhile isSpace, cs.dropWhile isSpace)
  else if isDigit c then
    (number (c :: cs.takeWhile isNumberTail), c :: cs.takeWhile isNumberTail,
      cs.dropWhile isNumberTail)
  else if isWordStart c then
    (word (c :: cs.takeWhile isWordTail), c :: cs.takeWhile isWordTail, cs.dropWhile isWordTail)
  else match c, cs with
    | '/', '/' :: cs =>
      let body := '/' :: '/' :: cs.takeWhile (· ≠ '\n')
      (.token (.comment .line (String.ofList body)), body, cs.dropWhile (· ≠ '\n'))
    | '/', '*' :: cs =>
      match closeComment? cs with
      | some (body, rest) =>
        let text := '/' :: '*' :: body
        (.token (.comment (blockKind text) (String.ofList text)), text, rest)
      | none => (.bad .unterminatedComment, ['/', '*'], cs)
    | c, cs =>
      match Symbol.longest? (c :: cs) with
      | some (s, rest) => (.token (.symbol s), s.chars, rest)
      | none => (.bad (.strayText (String.singleton c)), [c], cs)

theorem closeComment?_eq {cs body rest : List Char} (h : closeComment? cs = some (body, rest)) :
    cs = body ++ rest := by
  fun_induction closeComment? cs generalizing body with
  | case1 => simp at h
  | case2 cs => simp only [Option.some.injEq, Prod.mk.injEq] at h; simp [← h.1, ← h.2]
  | case3 c cs hne ih =>
    obtain ⟨⟨b, r⟩, hbr, he⟩ := Option.map_eq_some_iff.1 h
    simp only [Prod.mk.injEq] at he
    obtain ⟨rfl, rfl⟩ := he
    rw [ih hbr, List.cons_append]

/-- Nothing is lost: the piece and the text behind it make up the text. -/
theorem cut_eq (c : Char) (cs : List Char) : (cut c cs).2.1 ++ (cut c cs).2.2 = c :: cs := by
  unfold cut
  split
  · simp [List.takeWhile_append_dropWhile]
  split
  · simp [List.takeWhile_append_dropWhile]
  split
  · simp [List.takeWhile_append_dropWhile]
  split
  · simp [List.takeWhile_append_dropWhile]
  · split
    · next h => simp [closeComment?_eq h]
    · simp
  · split
    · next h => exact (Symbol.longest?_eq h).symm
    · simp

/-- A piece is never empty. -/
theorem cut_ne_nil (c : Char) (cs : List Char) : (cut c cs).2.1 ≠ [] := by
  unfold cut
  split
  · simp
  split
  · simp
  split
  · simp
  split
  · simp
  · split <;> simp
  · split
    · next s _ _ => exact Symbol.chars_ne_nil s
    · simp

/-- A fault and the text that it is about. -/
abbrev Outcome (α : Type) := Except (Located GrammarFault) α

/-- The tokens of `cs`, comments among them, where `pos` is the offset of its first byte.
The budget is the number of pieces that may be cut. -/
def tokensFrom : Nat → Nat → List Char → Outcome (List (Located Token))
  | _, _, [] => .ok []
  | 0, _, _ :: _ => .ok []
  | n + 1, pos, c :: cs =>
    let (piece, taken, rest) := cut c cs
    let stop := pos + Text.width taken
    match piece with
    | .blank => tokensFrom n stop rest
    | .bad fault => .error ⟨fault, ⟨pos, stop⟩⟩
    | .token t => do
      let ts ← tokensFrom n stop rest
      return ⟨t, pos, stop⟩ :: ts

/-- All tokens of a text. Each piece takes a character, so the length is budget enough. -/
def tokens (cs : List Char) : Outcome (List (Located Token)) := tokensFrom cs.length 0 cs

/-- The tokens of a program: of the comments only documentation stays. -/
def program (cs : List Char) : Outcome (List (Located Token)) := do
  let ts ← tokens cs
  return ts.filter fun t => match t.val with
    | .comment kind _ => kind == .doc
    | _ => true

/-- The tokens of a clause, which holds no comment. -/
def clause (cs : List Char) : Outcome (List (Located Token)) := do
  let ts ← tokens cs
  match ts.find? (·.val.isComment) with
  | some t => .error ⟨.commentInClause, t.span⟩
  | none => return ts

end Covenant.Scan
