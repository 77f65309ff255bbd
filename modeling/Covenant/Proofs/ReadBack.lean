import Covenant.Proofs.Scanned
import Covenant.Typed.Expr
import Std.Data.String.ToNat

/-!
# Reading an expression back from its text

The text of an expression leaves out what its words stand for: whether a name is
a parameter, a class or a field, and which method a call goes to. That is all it
leaves out. `readOperand` is a reader that is told the meaning of each word, and
`read_text` says that it gets back the whole expression, up to spans, types and
the numbers of calls. So two expressions that read the same and whose words have
the same meanings are the same, which is what `bare_eq_of_text` is for.
-/

namespace Covenant.Typed

/-- What a word in the text of an expression stands for. A name behind the name of a class, and
the name behind `new`, have no meaning of their own. -/
inductive Meaning
  /-- A literal, `this` or `result`. -/
  | literal
  | param (index : Nat)
  | ofClass
  | field
  | length
  | method (id : DeclId)
  | creation (ctor : DeclId)
  | array (elem : Ty)
  deriving DecidableEq, Repr

namespace Expr

attribute [simp] text receiverText textAll

mutual

/-- The meanings of the words in the text of an expression, in their order. -/
@[simp] def meanings : Expr → List Meaning
  | int .. | bool .. | null .. | this .. | result .. => [.literal]
  | param _ _ i _ => [.param i]
  | staticField .. => [.ofClass]
  | field _ _ o _ => o.meanings ++ [.field]
  | length _ a => a.meanings ++ [.length]
  | index _ _ a i => a.meanings ++ i.meanings
  | binary _ _ l r => l.meanings ++ r.meanings
  | unary _ _ e => e.meanings
  | call _ _ _ receiver m _ args => receiverMeanings receiver ++ .method m :: meaningsAll args
  | new _ _ _ ctor args => .creation ctor :: meaningsAll args
  | newArray _ elem len => .array elem :: len.meanings
  | var .. | slot .. => []
  | old _ e | spread _ e => e.meanings

@[simp] def receiverMeanings : Option Expr → List Meaning
  | none => []
  | some e => e.meanings

@[simp] def meaningsAll : List Expr → List Meaning
  | [] => []
  | e :: es => e.meanings ++ meaningsAll es

end

mutual

/-- The expression with nothing but what its text and the meanings of its words tell: without spans
and types, and with one number for all calls. -/
@[simp] def bare (site : SiteId) : Expr → Expr
  | int _ n => int (.point 0) n
  | bool _ b => bool (.point 0) b
  | null _ => null (.point 0)
  | this _ _ => this (.point 0) ""
  | var _ _ name => var (.point 0) .void name
  | param _ _ i name => param (.point 0) .void i name
  | field _ _ o name => field (.point 0) .void (o.bare site) name
  | staticField _ _ c name => staticField (.point 0) .void c name
  | length _ a => length (.point 0) (a.bare site)
  | index _ _ a i => index (.point 0) .void (a.bare site) (i.bare site)
  | binary _ op l r => binary (.point 0) op (l.bare site) (r.bare site)
  | unary _ op e => unary (.point 0) op (e.bare site)
  | call _ _ _ receiver m name args =>
    call (.point 0) .void site (bareReceiver site receiver) m name (bareAll site args)
  | new _ _ c ctor args => new (.point 0) site c ctor (bareAll site args)
  | newArray _ elem len => newArray (.point 0) elem (len.bare site)
  | old _ e => old (.point 0) (e.bare site)
  | result _ _ => result (.point 0) .void
  | spread _ e => spread (.point 0) (e.bare site)
  | slot _ _ n => slot (.point 0) .void n

@[simp] def bareReceiver (site : SiteId) : Option Expr → Option Expr
  | none => none
  | some e => some (e.bare site)

@[simp] def bareAll (site : SiteId) : List Expr → List Expr
  | [] => []
  | e :: es => e.bare site :: bareAll site es

end

def isUnary : Expr → Bool
  | unary .. => true
  | _ => false

mutual

/-- Whether an expression is one whose text can be read back: its names are words, its numbers are
not negative, and no part is selected from a prefix operator, which the text would read as a prefix
operator applied to the part. -/
@[simp] def Printable : Expr → Prop
  | int _ n => 0 ≤ n.toInt
  | bool .. | null .. | this .. | result .. => True
  | param _ _ _ name => IsWord name
  | staticField _ _ c name => IsWord c ∧ IsWord name
  | field _ _ o name => o.Printable ∧ o.isUnary = false ∧ IsWord name
  | length _ a => a.Printable ∧ a.isUnary = false
  | index _ _ a i => a.Printable ∧ a.isUnary = false ∧ i.Printable
  | binary _ _ l r => l.Printable ∧ r.Printable
  | unary _ _ e => e.Printable
  | call _ _ _ receiver _ name args => PrintableReceiver receiver ∧ IsWord name ∧ PrintableAll args
  | new _ _ c _ args => IsWord c ∧ PrintableAll args
  | newArray _ elem len => IsWord elem.text ∧ len.Printable
  | var .. | old .. | spread .. | slot .. => False

@[simp] def PrintableReceiver : Option Expr → Prop
  | none => True
  | some e => e.Printable ∧ e.isUnary = false

@[simp] def PrintableAll : List Expr → Prop
  | [] => True
  | e :: es => e.Printable ∧ PrintableAll es

end

end Expr

/-! ## The reader -/

namespace ReadBack

/-- The word at the front of a text. -/
def wordOf (cs : List Char) : List Char := cs.takeWhile Scan.isWordTail

def afterWord (cs : List Char) : List Char := cs.dropWhile Scan.isWordTail

/-- The literal that a word is. -/
def literal (w : List Char) : Expr :=
  match String.ofList w with
  | "true" => .bool (.point 0) true
  | "false" => .bool (.point 0) false
  | "null" => .null (.point 0)
  | "this" => .this (.point 0) ""
  | "result" => .result (.point 0) .void
  | digits => .int (.point 0) (Int64.ofNat (digits.toNat?.getD 0))

/-- All operators, each with a blank on both sides. -/
def operators : List BinaryOp :=
  [.add, .sub, .mul, .div, .mod, .eq, .neq, .ltEq, .gtEq, .lt, .gt, .and, .or]

/-- The operator between two operands, and the text behind it. -/
def operator (cs : List Char) : Option (BinaryOp × List Char) :=
  (operators.find? fun op => (' ' :: op.text.toList ++ [' ']).isPrefixOf cs).map fun op =>
    (op, cs.drop (op.text.toList.length + 2))

mutual

/-- Reads an expression with everything that is selected from it. The first number bounds how deep
the reader goes. -/
@[simp] def readOperand (site : SiteId) : Nat → List Char → List Meaning →
    Option (Expr × List Char × List Meaning)
  | 0, _, _ => none
  | n + 1, '(' :: cs, ms => do
    let (l, cs, ms) ← readOperand site n cs ms
    let (op, cs) ← operator cs
    let (r, cs, ms) ← readOperand site n cs ms
    readRest site n (.binary (.point 0) op l r) cs.tail ms
  | n + 1, '-' :: cs, ms => do
    let (e, cs, ms) ← readOperand site n cs ms
    readRest site n (.unary (.point 0) .neg e) cs ms
  | n + 1, '!' :: cs, ms => do
    let (e, cs, ms) ← readOperand site n cs ms
    readRest site n (.unary (.point 0) .not e) cs ms
  | n + 1, cs, .literal :: ms => readRest site n (literal (wordOf cs)) (afterWord cs) ms
  | n + 1, cs, .param i :: ms =>
    readRest site n (.param (.point 0) .void i (String.ofList (wordOf cs))) (afterWord cs) ms
  | n + 1, cs, .ofClass :: ms =>
    let name := (afterWord cs).tail
    readRest site n (.staticField (.point 0) .void (String.ofList (wordOf cs))
      (String.ofList (wordOf name))) (afterWord name) ms
  | n + 1, cs, .method m :: ms => do
    let (args, rest, ms) ← readArgs site n (afterWord cs).tail ms
    readRest site n (.call (.point 0) .void site none m (String.ofList (wordOf cs)) args) rest ms
  | n + 1, cs, .creation ctor :: ms => do
    let name := (afterWord cs).tail
    let (args, rest, ms) ← readArgs site n (afterWord name).tail ms
    readRest site n (.new (.point 0) site (String.ofList (wordOf name)) ctor args) rest ms
  | n + 1, cs, .array elem :: ms => do
    let name := (afterWord cs).tail
    let (len, rest, ms) ← readOperand site n (afterWord name).tail ms
    readRest site n (.newArray (.point 0) elem len) rest.tail ms
  | _ + 1, _, _ => none

/-- Reads what is selected from an expression. -/
@[simp] def readRest (site : SiteId) : Nat → Expr → List Char → List Meaning →
    Option (Expr × List Char × List Meaning)
  | 0, _, _, _ => none
  | n + 1, e, '.' :: cs, .field :: ms =>
    readRest site n (.field (.point 0) .void e (String.ofList (wordOf cs))) (afterWord cs) ms
  | n + 1, e, '.' :: cs, .length :: ms => readRest site n (.length (.point 0) e) (afterWord cs) ms
  | n + 1, e, '.' :: cs, .method m :: ms => do
    let (args, rest, ms) ← readArgs site n (afterWord cs).tail ms
    readRest site n (.call (.point 0) .void site (some e) m (String.ofList (wordOf cs)) args) rest
      ms
  | n + 1, e, '[' :: cs, ms => do
    let (i, cs, ms) ← readOperand site n cs ms
    readRest site n (.index (.point 0) .void e i) cs.tail ms
  | _ + 1, e, cs, ms => some (e, cs, ms)

/-- Reads arguments up to and with the closing parenthesis. -/
@[simp] def readArgs (site : SiteId) : Nat → List Char → List Meaning →
    Option (List Expr × List Char × List Meaning)
  | 0, _, _ => none
  | _ + 1, ')' :: cs, ms => some ([], cs, ms)
  | n + 1, cs, ms => do
    let (e, cs, ms) ← readOperand site n cs ms
    match cs with
    | ',' :: ' ' :: cs => do
      let (es, cs, ms) ← readArgs site n cs ms
      return (e :: es, cs, ms)
    | _ => return ([e], cs.tail, ms)

end

/-! ## Words and marks -/

/-- A text that does not go on with a word. -/
def NoWord (cs : List Char) : Prop := ∀ c ∈ cs.head?, Scan.isWordTail c = false

/-- A text that starts with a mark or a blank that ends an operand. -/
def Stops (cs : List Char) : Prop := ∀ c ∈ cs.head?, c ∈ [')', ']', ',', ' ']

theorem Stops.noWord {cs : List Char} (h : Stops cs) : NoWord cs := by
  intro c hc
  have := h c hc
  simp only [List.mem_cons, List.not_mem_nil, or_false] at this
  rcases this with rfl | rfl | rfl | rfl <;> decide

theorem noWord_cons {c : Char} {cs : List Char} (h : Scan.isWordTail c = false) :
    NoWord (c :: cs) := by
  intro d hd
  obtain rfl := Option.some.inj hd
  exact h

theorem stops_cons {c : Char} {cs : List Char} (h : c ∈ [')', ']', ',', ' ']) :
    Stops (c :: cs) := by
  intro d hd
  obtain rfl := Option.some.inj hd
  exact h

theorem wordOf_append {w r : List Char} (hw : ∀ c ∈ w, Scan.isWordTail c = true) (hr : NoWord r) :
    wordOf (w ++ r) = w := by
  rw [wordOf, List.takeWhile_append_of_pos hw]
  cases r with
  | nil => simp
  | cons c r => simp [hr c rfl]

theorem afterWord_append {w r : List Char} (hw : ∀ c ∈ w, Scan.isWordTail c = true)
    (hr : NoWord r) : afterWord (w ++ r) = r := by
  rw [afterWord, List.dropWhile_append_of_pos hw]
  cases r with
  | nil => rfl
  | cons c r => simp [hr c rfl]

theorem operator_append (op : BinaryOp) (r : List Char) :
    operator (' ' :: op.text.toList ++ ' ' :: r) = some (op, r) := by
  cases op <;> rfl

/-! ## Numbers -/

theorem isDigit_of_mem_repr {k : Nat} {c : Char} (hc : c ∈ (Nat.repr k).toList) :
    c.isDigit = true := by
  rw [Nat.toList_repr] at hc
  exact Nat.isDigit_of_mem_toDigits (by decide) (by decide) hc

theorem isWord_repr (k : Nat) : IsWord (Nat.repr k) where
  ne_nil := by
    rw [Nat.toList_repr]
    exact Nat.toDigits_ne_nil
  chars := by
    intro c hc
    have h : Scan.isDigit c = true := isDigit_of_mem_repr hc
    simp [Scan.isWordTail, h]

theorem repr_ne {k : Nat} {w : String} {c : Char} (hc : c ∈ w.toList)
    (hd : c.isDigit = false) : Nat.repr k ≠ w := by
  rintro rfl
  simp [isDigit_of_mem_repr hc] at hd

theorem isWord_keyword {w : String}
    (hw : w ∈ ["true", "false", "null", "this", "result", "new"]) : IsWord w := by
  simp only [List.mem_cons, List.not_mem_nil, or_false] at hw
  rcases hw with rfl | rfl | rfl | rfl | rfl | rfl <;>
    exact ⟨by decide, List.all_eq_true.mp (by decide)⟩

theorem isWord_new : IsWord "new" := isWord_keyword (by decide)

theorem isWord_number {n : Int64} (hn : 0 ≤ n.toInt) : IsWord (toString n.toInt) := by
  obtain ⟨k, hk⟩ := Int.eq_ofNat_of_zero_le hn
  rw [hk]
  exact isWord_repr k

theorem literal_number {n : Int64} (hn : 0 ≤ n.toInt) :
    literal (toString n.toInt).toList = .int (.point 0) n := by
  obtain ⟨k, hk⟩ := Int.eq_ofNat_of_zero_le hn
  have hrepr : toString n.toInt = Nat.repr k := by rw [hk]; rfl
  have hn' : Int64.ofNat k = n := by
    rw [← Int64.ofInt_toInt n, hk]; rfl
  rw [hrepr, literal, String.ofList_toList]
  -- No word that is a literal of another kind is written with digits.
  split
  · next h => exact absurd h (repr_ne (c := 't') (by decide) (by decide))
  · next h => exact absurd h (repr_ne (c := 'f') (by decide) (by decide))
  · next h => exact absurd h (repr_ne (c := 'n') (by decide) (by decide))
  · next h => exact absurd h (repr_ne (c := 't') (by decide) (by decide))
  · next h => exact absurd h (repr_ne (c := 'r') (by decide) (by decide))
  · rw [Nat.toNat?_repr, Option.getD_some, hn']

/-! ## Reading one form

`ReadsBack` is what the reader does with the text of an expression, whatever
stands behind it: it comes to the expression itself and goes on with the rest.
The parts of an expression need less depth than it does, so each rule takes what
its parts need and adds the steps of its own. -/

section

variable {site : SiteId}

def ReadsBack (site : SiteId) (e : Expr) : Prop :=
  ∃ k, ∀ n r d, NoWord r → (e.isUnary = true → Stops r) →
    ∃ n' ≥ n, readOperand site (n + k) (e.text.toList ++ r) (e.meanings ++ d) =
      readRest site n' (e.bare site) r d

def ReadBackAll (site : SiteId) (es : List Expr) : Prop :=
  ∃ k, ∀ n r d, readArgs site (n + k) ((Expr.textAll es).toList ++ ')' :: r)
    (Expr.meaningsAll es ++ d) = some (Expr.bareAll site es, r, d)

theorem ne_of_isWordTail {c : Char} (h : Scan.isWordTail c = true) :
    c ≠ '(' ∧ c ≠ ')' ∧ c ≠ '-' ∧ c ≠ '!' := by
  refine ⟨?_, ?_, ?_, ?_⟩ <;> rintro rfl <;> exact absurd h (by decide)

/-- A word that is read for what it means, not for the mark at its front. -/
theorem readOperand_word {n : Nat} {w : String} {r : List Char} {ms : List Meaning}
    (hw : IsWord w) :
    readOperand site (n + 1) (w.toList ++ r) ms =
      match ms with
      | .literal :: ms =>
        readRest site n (literal (wordOf (w.toList ++ r))) (afterWord (w.toList ++ r)) ms
      | .param i :: ms =>
        readRest site n (.param (.point 0) .void i (String.ofList (wordOf (w.toList ++ r))))
          (afterWord (w.toList ++ r)) ms
      | .ofClass :: ms =>
        readRest site n (.staticField (.point 0) .void (String.ofList (wordOf (w.toList ++ r)))
          (String.ofList (wordOf (afterWord (w.toList ++ r)).tail)))
          (afterWord (afterWord (w.toList ++ r)).tail) ms
      | .method m :: ms => do
        let (args, rest, ms) ← readArgs site n (afterWord (w.toList ++ r)).tail ms
        readRest site n (.call (.point 0) .void site none m
          (String.ofList (wordOf (w.toList ++ r))) args) rest ms
      | .creation ctor :: ms => do
        let name := (afterWord (w.toList ++ r)).tail
        let (args, rest, ms) ← readArgs site n (afterWord name).tail ms
        readRest site n (.new (.point 0) site (String.ofList (wordOf name)) ctor args) rest ms
      | .array elem :: ms => do
        let name := (afterWord (w.toList ++ r)).tail
        let (len, rest, ms) ← readOperand site n (afterWord name).tail ms
        readRest site n (.newArray (.point 0) elem len) rest.tail ms
      | _ => none := by
  obtain ⟨c, cs, hcs⟩ := List.exists_cons_of_ne_nil hw.ne_nil
  have hc := ne_of_isWordTail (hw.chars c (by rw [hcs]; exact List.mem_cons_self))
  rw [hcs, List.cons_append]
  cases ms with
  | nil => simp [readOperand, hc]
  | cons m ms => cases m <;> simp [readOperand, hc]

theorem readRest_stops {n : Nat} {e : Expr} {r : List Char} {d : List Meaning} (hr : Stops r) :
    readRest site (n + 1) e r d = some (e, r, d) := by
  cases r with
  | nil => simp [readRest]
  | cons c r =>
      have hc := hr c rfl
      simp only [List.mem_cons, List.not_mem_nil, or_false] at hc
      rcases hc with rfl | rfl | rfl | rfl <;> simp [readRest]

/-- Reading an expression that ends where it stops. -/
theorem ReadsBack.stops {e : Expr} (h : ReadsBack site e) :
    ∃ k, ∀ n r d, Stops r →
      readOperand site (n + k) (e.text.toList ++ r) (e.meanings ++ d) =
        some (e.bare site, r, d) := by
  obtain ⟨k, hk⟩ := h
  refine ⟨k + 1, fun n r d hr => ?_⟩
  obtain ⟨n', hn', hread⟩ := hk (n + 1) r d hr.noWord fun _ => hr
  obtain ⟨m, rfl⟩ : ∃ m, n' = m + 1 := ⟨n' - 1, by omega⟩
  rw [show n + (k + 1) = n + 1 + k by omega, hread, readRest_stops hr]

theorem readsBack_literal {e : Expr} (hw : IsWord e.text) (hm : e.meanings = [.literal])
    (hl : literal e.text.toList = e.bare site) : ReadsBack site e := by
  refine ⟨1, fun n r d hr _ => ⟨n, Nat.le_refl n, ?_⟩⟩
  rw [hm, readOperand_word hw]
  simp only [List.singleton_append]
  rw [wordOf_append hw.chars hr, afterWord_append hw.chars hr, hl]

theorem readsBack_param {s : Span} {t : Ty} {i : Nat} {name : String} (hw : IsWord name) :
    ReadsBack site (.param s t i name) := by
  refine ⟨1, fun n r d hr _ => ⟨n, Nat.le_refl n, ?_⟩⟩
  rw [Expr.text, Expr.meanings, readOperand_word hw]
  simp only [List.singleton_append, Expr.bare]
  rw [wordOf_append hw.chars hr, afterWord_append hw.chars hr, String.ofList_toList]

theorem readsBack_staticField {s : Span} {t : Ty} {c name : String} (hc : IsWord c)
    (hw : IsWord name) : ReadsBack site (.staticField s t c name) := by
  refine ⟨1, fun n r d hr _ => ⟨n, Nat.le_refl n, ?_⟩⟩
  have htext : (c ++ "." ++ name).toList ++ r = c.toList ++ ('.' :: (name.toList ++ r)) := by simp
  have hdot : NoWord ('.' :: (name.toList ++ r)) := noWord_cons (by decide)
  rw [Expr.text, Expr.meanings, htext, readOperand_word hc]
  simp only [List.singleton_append, Expr.bare]
  rw [wordOf_append hc.chars hdot, afterWord_append hc.chars hdot, List.tail_cons,
    wordOf_append hw.chars hr, afterWord_append hw.chars hr]
  simp only [String.ofList_toList]

theorem readsBack_field {s : Span} {t : Ty} {o : Expr} {name : String} (ho : ReadsBack site o)
    (hu : o.isUnary = false) (hw : IsWord name) : ReadsBack site (.field s t o name) := by
  obtain ⟨k, hk⟩ := ho
  refine ⟨k + 1, fun n r d hr _ => ?_⟩
  obtain ⟨m, hm, hread⟩ := hk (n + 1) ('.' :: (name.toList ++ r)) (.field :: d)
    (noWord_cons (by decide)) (by simp [hu])
  obtain ⟨m, rfl⟩ : ∃ m', m = m' + 1 := ⟨m - 1, by omega⟩
  refine ⟨m, by omega, ?_⟩
  have htext : (o.text ++ "." ++ name).toList ++ r =
      o.text.toList ++ ('.' :: (name.toList ++ r)) := by simp
  rw [Expr.text, Expr.meanings, htext, List.append_assoc, List.singleton_append,
    show n + (k + 1) = n + 1 + k by omega, hread, readRest, wordOf_append hw.chars hr,
    afterWord_append hw.chars hr, String.ofList_toList, Expr.bare]

theorem readsBack_length {s : Span} {a : Expr} (ha : ReadsBack site a) (hu : a.isUnary = false) :
    ReadsBack site (.length s a) := by
  obtain ⟨k, hk⟩ := ha
  refine ⟨k + 1, fun n r d hr _ => ?_⟩
  obtain ⟨m, hm, hread⟩ := hk (n + 1) ('.' :: ("length".toList ++ r)) (.length :: d)
    (noWord_cons (by decide)) (by simp [hu])
  obtain ⟨m, rfl⟩ : ∃ m', m = m' + 1 := ⟨m - 1, by omega⟩
  refine ⟨m, by omega, ?_⟩
  have htext : (a.text ++ ".length").toList ++ r =
      a.text.toList ++ ('.' :: ("length".toList ++ r)) := by simp
  rw [Expr.text, Expr.meanings, htext, List.append_assoc, List.singleton_append,
    show n + (k + 1) = n + 1 + k by omega, hread, readRest,
    afterWord_append (List.all_eq_true.mp (by decide)) hr, Expr.bare]

theorem readsBack_index {s : Span} {t : Ty} {a i : Expr} (ha : ReadsBack site a)
    (hu : a.isUnary = false) (hi : ReadsBack site i) : ReadsBack site (.index s t a i) := by
  obtain ⟨k, hk⟩ := ha
  obtain ⟨l, hl⟩ := hi.stops
  refine ⟨k + l + 1, fun n r d hr _ => ?_⟩
  obtain ⟨m, hm, hread⟩ := hk (n + l + 1) ('[' :: (i.text.toList ++ (']' :: r))) (i.meanings ++ d)
    (noWord_cons (by decide)) (by simp [hu])
  obtain ⟨m, rfl⟩ : ∃ m', m = m' + l + 1 := ⟨m - l - 1, by omega⟩
  refine ⟨m + l, by omega, ?_⟩
  have htext : (a.text ++ "[" ++ i.text ++ "]").toList ++ r =
      a.text.toList ++ ('[' :: (i.text.toList ++ (']' :: r))) := by simp
  rw [Expr.text, Expr.meanings, htext, List.append_assoc,
    show n + (k + l + 1) = n + l + 1 + k by omega, hread, readRest,
    hl m (']' :: r) d (stops_cons (by decide)), Expr.bare]
  rfl

theorem readsBack_binary {s : Span} {op : BinaryOp} {a b : Expr} (ha : ReadsBack site a)
    (hb : ReadsBack site b) : ReadsBack site (.binary s op a b) := by
  obtain ⟨k, hk⟩ := ha.stops
  obtain ⟨l, hl⟩ := hb.stops
  refine ⟨k + l + 1, fun n r d hr _ => ⟨n + k + l, by omega, ?_⟩⟩
  have htext : ("(" ++ a.text ++ " " ++ op.text ++ " " ++ b.text ++ ")").toList ++ r =
      '(' :: (a.text.toList ++ (' ' :: op.text.toList ++ ' ' :: (b.text.toList ++ (')' :: r)))) := by
    simp
  rw [Expr.text, Expr.meanings, htext, List.append_assoc,
    show n + (k + l + 1) = n + l + k + 1 by omega, readOperand,
    hk (n + l) (' ' :: op.text.toList ++ ' ' :: (b.text.toList ++ (')' :: r))) (b.meanings ++ d)
      (stops_cons (by decide))]
  simp only [Option.bind_eq_bind, Option.bind_some]
  rw [operator_append]
  simp only [Option.bind_some]
  rw [show n + l + k = n + k + l by omega, hl (n + k) (')' :: r) d (stops_cons (by decide)),
    Expr.bare]
  rfl

theorem readsBack_unary {s : Span} {op : UnaryOp} {e : Expr} (he : ReadsBack site e) :
    ReadsBack site (.unary s op e) := by
  obtain ⟨k, hk⟩ := he.stops
  refine ⟨k + 1, fun n r d hr hu => ⟨n + k, by omega, ?_⟩⟩
  have hread := hk n r d (hu rfl)
  cases op with
  | neg =>
      have htext : (UnaryOp.text .neg ++ e.text).toList ++ r = '-' :: (e.text.toList ++ r) := by
        simp [UnaryOp.text]
      rw [Expr.text, Expr.meanings, htext, ← Nat.add_assoc, readOperand, hread, Expr.bare]
      rfl
  | not =>
      have htext : (UnaryOp.text .not ++ e.text).toList ++ r = '!' :: (e.text.toList ++ r) := by
        simp [UnaryOp.text]
      rw [Expr.text, Expr.meanings, htext, ← Nat.add_assoc, readOperand, hread, Expr.bare]
      rfl

theorem readBackAll_nil : ReadBackAll site [] :=
  ⟨1, fun n r d => by simp [Expr.textAll, Expr.meaningsAll, Expr.bareAll, readArgs]⟩

theorem readsBack_call_static {s : Span} {t : Ty} {i : SiteId} {m : DeclId} {name : String}
    {args : List Expr} (hw : IsWord name) (hargs : ReadBackAll site args) :
    ReadsBack site (.call s t i none m name args) := by
  obtain ⟨k, hk⟩ := hargs
  refine ⟨k + 1, fun n r d _ _ => ⟨n + k, by omega, ?_⟩⟩
  have htext : (Expr.receiverText none ++ name ++ "(" ++ Expr.textAll args ++ ")").toList ++ r =
      name.toList ++ ('(' :: ((Expr.textAll args).toList ++ ')' :: r)) := by
    simp [Expr.receiverText]
  have hparen : NoWord ('(' :: ((Expr.textAll args).toList ++ ')' :: r)) :=
    noWord_cons (by decide)
  rw [Expr.text, Expr.meanings, htext, ← Nat.add_assoc, readOperand_word hw]
  simp only [Expr.receiverMeanings, List.nil_append, List.cons_append]
  rw [wordOf_append hw.chars hparen, afterWord_append hw.chars hparen, List.tail_cons, hk,
    String.ofList_toList, Expr.bare]
  rfl

theorem readsBack_call {s : Span} {t : Ty} {i : SiteId} {o : Expr} {m : DeclId} {name : String}
    {args : List Expr} (ho : ReadsBack site o) (hu : o.isUnary = false) (hw : IsWord name)
    (hargs : ReadBackAll site args) : ReadsBack site (.call s t i (some o) m name args) := by
  obtain ⟨k, hk⟩ := ho
  obtain ⟨l, hl⟩ := hargs
  refine ⟨k + l + 1, fun n r d _ _ => ?_⟩
  obtain ⟨n', hn', hread⟩ := hk (n + l + 1)
    ('.' :: (name.toList ++ ('(' :: ((Expr.textAll args).toList ++ ')' :: r))))
    (.method m :: (Expr.meaningsAll args ++ d)) (noWord_cons (by decide)) (by simp [hu])
  obtain ⟨n', rfl⟩ : ∃ m', n' = m' + l + 1 := ⟨n' - l - 1, by omega⟩
  refine ⟨n' + l, by omega, ?_⟩
  have htext : (Expr.receiverText (some o) ++ name ++ "(" ++ Expr.textAll args ++ ")").toList ++ r =
      o.text.toList ++ ('.' :: (name.toList ++ ('(' :: ((Expr.textAll args).toList ++ ')' :: r)))) := by
    simp [Expr.receiverText]
  have hparen : NoWord ('(' :: ((Expr.textAll args).toList ++ ')' :: r)) :=
    noWord_cons (by decide)
  rw [Expr.text, Expr.meanings, htext, Expr.receiverMeanings, List.append_assoc, List.cons_append,
    show n + (k + l + 1) = n + l + 1 + k by omega, hread, readRest, wordOf_append hw.chars hparen,
    afterWord_append hw.chars hparen, List.tail_cons, hl, String.ofList_toList, Expr.bare]
  rfl

theorem readsBack_new {s : Span} {i : SiteId} {c : String} {ctor : DeclId} {args : List Expr}
    (hw : IsWord c) (hargs : ReadBackAll site args) : ReadsBack site (.new s i c ctor args) := by
  obtain ⟨k, hk⟩ := hargs
  refine ⟨k + 1, fun n r d _ _ => ⟨n + k, by omega, ?_⟩⟩
  have htext : ("new " ++ c ++ "(" ++ Expr.textAll args ++ ")").toList ++ r =
      "new".toList ++ (' ' :: (c.toList ++ ('(' :: ((Expr.textAll args).toList ++ ')' :: r)))) := by
    simp
  have hblank : NoWord (' ' :: (c.toList ++ ('(' :: ((Expr.textAll args).toList ++ ')' :: r)))) :=
    noWord_cons (by decide)
  have hparen : NoWord ('(' :: ((Expr.textAll args).toList ++ ')' :: r)) :=
    noWord_cons (by decide)
  rw [Expr.text, Expr.meanings, htext, ← Nat.add_assoc, readOperand_word isWord_new]
  simp only [List.cons_append]
  rw [afterWord_append isWord_new.chars hblank, List.tail_cons, wordOf_append hw.chars hparen,
    afterWord_append hw.chars hparen, List.tail_cons, hk, String.ofList_toList, Expr.bare]
  rfl

theorem readsBack_newArray {s : Span} {elem : Ty} {len : Expr} (hw : IsWord elem.text)
    (hlen : ReadsBack site len) : ReadsBack site (.newArray s elem len) := by
  obtain ⟨k, hk⟩ := hlen.stops
  refine ⟨k + 1, fun n r d _ _ => ⟨n + k, by omega, ?_⟩⟩
  have htext : ("new " ++ elem.text ++ "[" ++ len.text ++ "]").toList ++ r =
      "new".toList ++ (' ' :: (elem.text.toList ++ ('[' :: (len.text.toList ++ (']' :: r))))) := by
    simp
  have hblank : NoWord (' ' :: (elem.text.toList ++ ('[' :: (len.text.toList ++ (']' :: r))))) :=
    noWord_cons (by decide)
  have hbracket : NoWord ('[' :: (len.text.toList ++ (']' :: r))) := noWord_cons (by decide)
  rw [Expr.text, Expr.meanings, htext, ← Nat.add_assoc, readOperand_word isWord_new]
  simp only [List.cons_append]
  rw [afterWord_append isWord_new.chars hblank, List.tail_cons,
    afterWord_append hw.chars hbracket, List.tail_cons,
    hk n (']' :: r) d (stops_cons (by decide)), Expr.bare]
  rfl

/-- A text that an argument can start with. -/
def Opens (w : String) : Prop := ∃ c cs, w.toList = c :: cs ∧ c ≠ ')'

theorem Opens.append {w : String} (h : Opens w) (v : String) : Opens (w ++ v) := by
  obtain ⟨c, cs, hw, hc⟩ := h
  exact ⟨c, cs ++ v.toList, by simp [hw], hc⟩

theorem opens_word {w : String} (hw : IsWord w) : Opens w := by
  obtain ⟨c, cs, hcs⟩ := List.exists_cons_of_ne_nil hw.ne_nil
  exact ⟨c, cs, hcs, (ne_of_isWordTail (hw.chars c (by rw [hcs]; exact List.mem_cons_self))).2.1⟩

theorem opens_mark {c : Char} {cs : List Char} (hc : c ≠ ')') : Opens (String.ofList (c :: cs)) :=
  ⟨c, cs, String.toList_ofList, hc⟩

mutual

theorem opens_text : ∀ e : Expr, e.Printable → Opens e.text
  | .int _ n, he => opens_word (isWord_number he)
  | .bool _ true, _ => opens_mark (by decide)
  | .bool _ false, _ => opens_mark (by decide)
  | .null _, _ => opens_mark (by decide)
  | .this _ _, _ => opens_mark (by decide)
  | .result _ _, _ => opens_mark (by decide)
  | .param _ _ _ _, he => opens_word he
  | .staticField _ _ _ _, he => ((opens_word he.1).append _).append _
  | .field _ _ o _, he => ((opens_text o he.1).append _).append _
  | .length _ a, he => (opens_text a he.1).append _
  | .index _ _ a _, he => (((opens_text a he.1).append _).append _).append _
  | .binary .., _ =>
    (((((opens_mark (c := '(') (by decide)).append _).append _).append _).append _).append _
      |>.append _
  | .unary _ .neg _, _ => (opens_mark (c := '-') (by decide)).append _
  | .unary _ .not _, _ => (opens_mark (c := '!') (by decide)).append _
  | .call _ _ _ none _ _ _, he => by
    rw [Expr.text, Expr.receiverText, String.empty_append]
    exact (((opens_word he.2.1).append _).append _).append _
  | .call _ _ _ (some o) _ _ _, he =>
    (((((opens_text o he.1.1).append _).append _).append _).append _).append _
  | .new .., _ => ((((opens_mark (c := 'n') (by decide)).append _).append _).append _).append _
  | .newArray .., _ =>
    ((((opens_mark (c := 'n') (by decide)).append _).append _).append _).append _

end

theorem readBackAll_cons {e : Expr} {es : List Expr} (ho : Opens e.text) (he : ReadsBack site e)
    (hes : ReadBackAll site es) : ReadBackAll site (e :: es) := by
  obtain ⟨k, hk⟩ := he.stops
  obtain ⟨l, hl⟩ := hes
  obtain ⟨c, cs, hcs, hc⟩ := ho
  refine ⟨k + l + 1, fun n r d => ?_⟩
  -- The reader looks for a closing parenthesis before it reads an argument.
  have hargs : ∀ n tail ms, readArgs site (n + 1) (e.text.toList ++ tail) ms = (do
      let (e, cs, ms) ← readOperand site n (e.text.toList ++ tail) ms
      match cs with
      | ',' :: ' ' :: cs => do
        let (es, cs, ms) ← readArgs site n cs ms
        return (e :: es, cs, ms)
      | _ => return ([e], cs.tail, ms)) := by
    intro n tail ms
    rw [hcs, List.cons_append]
    simp [readArgs, hc]
  cases es with
  | nil =>
      rw [Expr.textAll, Expr.meaningsAll, Expr.meaningsAll, List.append_nil,
        show n + (k + l + 1) = n + l + k + 1 by omega, hargs,
        hk (n + l) (')' :: r) d (stops_cons (by decide)), Expr.bareAll, Expr.bareAll]
      rfl
  | cons e' es =>
      have htext : (Expr.textAll (e :: e' :: es)).toList ++ ')' :: r =
          e.text.toList ++ (',' :: ' ' :: ((Expr.textAll (e' :: es)).toList ++ ')' :: r)) := by
        simp [Expr.textAll]
      rw [htext, Expr.meaningsAll, List.append_assoc,
        show n + (k + l + 1) = n + l + k + 1 by omega, hargs,
        hk (n + l) _ _ (stops_cons (by decide))]
      simp only [Option.bind_eq_bind, Option.bind_some]
      rw [show n + l + k = n + k + l by omega, hl, Expr.bareAll]
      rfl

mutual

/-- The reader gets an expression back from its text. -/
theorem read_text : ∀ e : Expr, e.Printable → ReadsBack site e
  | .int _ _, he => readsBack_literal (isWord_number he) rfl (literal_number he)
  | .bool _ true, _ =>
    readsBack_literal (isWord_keyword (by simp [Expr.text])) rfl
      (by simp [literal, Expr.text, Expr.bare])
  | .bool _ false, _ =>
    readsBack_literal (isWord_keyword (by simp [Expr.text])) rfl
      (by simp [literal, Expr.text, Expr.bare])
  | .null _, _ =>
    readsBack_literal (isWord_keyword (by simp [Expr.text])) rfl
      (by simp [literal, Expr.text, Expr.bare])
  | .this _ _, _ =>
    readsBack_literal (isWord_keyword (by simp [Expr.text])) rfl
      (by simp [literal, Expr.text, Expr.bare])
  | .result _ _, _ =>
    readsBack_literal (isWord_keyword (by simp [Expr.text])) rfl
      (by simp [literal, Expr.text, Expr.bare])
  | .param _ _ _ _, he => readsBack_param he
  | .staticField _ _ _ _, he => readsBack_staticField he.1 he.2
  | .field _ _ o _, he => readsBack_field (read_text o he.1) he.2.1 he.2.2
  | .length _ a, he => readsBack_length (read_text a he.1) he.2
  | .index _ _ a i, he => readsBack_index (read_text a he.1) he.2.1 (read_text i he.2.2)
  | .binary _ _ l r, he => readsBack_binary (read_text l he.1) (read_text r he.2)
  | .unary _ _ e, he => readsBack_unary (read_text e he)
  | .call _ _ _ none _ _ args, he => readsBack_call_static he.2.1 (read_textAll args he.2.2)
  | .call _ _ _ (some o) _ _ args, he =>
    readsBack_call (read_text o he.1.1) he.1.2 he.2.1 (read_textAll args he.2.2)
  | .new _ _ _ _ args, he => readsBack_new he.1 (read_textAll args he.2)
  | .newArray _ _ len, he => readsBack_newArray he.1 (read_text len he.2)

theorem read_textAll : ∀ es : List Expr, Expr.PrintableAll es → ReadBackAll site es
  | [], _ => readBackAll_nil
  | e :: es, hes => readBackAll_cons (opens_text e hes.1) (read_text e hes.1) (read_textAll es hes.2)

end

end

end ReadBack

/-- Two expressions that read the same and whose words mean the same are the same, up to what
neither of them shows. -/
theorem Expr.bare_eq_of_text {a b : Expr} (site : SiteId) (ha : a.Printable) (hb : b.Printable)
    (htext : a.text = b.text) (hmeanings : a.meanings = b.meanings) :
    a.bare site = b.bare site := by
  have hreada : ReadBack.ReadsBack site a := ReadBack.read_text a ha
  have hreadb : ReadBack.ReadsBack site b := ReadBack.read_text b hb
  obtain ⟨k, hk⟩ := hreada.stops
  obtain ⟨l, hl⟩ := hreadb.stops
  have hread := hk l [] [] (by intro c hc; cases hc)
  rw [htext, hmeanings, Nat.add_comm, hl k [] [] (by intro c hc; cases hc)] at hread
  simp only [Option.some.injEq, Prod.mk.injEq] at hread
  exact hread.1.symm

end Covenant.Typed
