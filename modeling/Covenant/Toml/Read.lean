import Covenant.Toml.Node

/-!
# Reading TOML values

A reader takes something off the front of a text, or finds that it is not there,
which is always the end of the matter: nothing is tried twice. Numbers, dates and
names are cut out first, as runs of the characters that they are made of, and
then told apart.
-/

namespace Covenant.Toml

/-- A computation that reads a text from the front. -/
abbrev Reader := StateT (List Char) Option

namespace Reader

/-- The next character, which stays where it is. -/
def peek : Reader (Option Char) := return (← get).head?

def run (p : Char → Bool) : Reader (List Char) :=
  modifyGet fun cs => (cs.takeWhile p, cs.dropWhile p)

/-- Takes some characters, which have to be there. -/
def expect : List Char → Reader Unit
  | [] => return
  | c :: cs => do
    match ← get with
    | d :: rest =>
      if d = c then
        set rest
        expect cs
      else failure
    | [] => failure

/-- Takes a character, and says whether it was there. -/
def accept (c : Char) : Reader Bool := do
  if (← peek) = some c then
    expect [c]
    return true
  else return false

/-- Reads until the reader says that it is done, at most `n` times. -/
def untilDone {α : Type} (p : Reader (Option α)) : Nat → Reader (List α)
  | 0 => failure
  | n + 1 => do
    match ← p with
    | none => return []
    | some x => return x :: (← untilDone p n)

/-- Reads until the reader says that it is done. It has to take something each time. -/
def repeated {α : Type} (p : Reader (Option α)) : Reader (List α) := do
  untilDone p ((← get).length + 1)

end Reader

def isBlank (c : Char) : Bool := c == ' ' || c == '\t'

def isDigit (c : Char) : Bool := '0' ≤ c && c ≤ '9'

def isLetter (c : Char) : Bool := ('a' ≤ c && c ≤ 'z') || ('A' ≤ c && c ≤ 'Z')

/-- Characters that may stand in a comment: everything but controls, tabs excepted. -/
def isPlain (c : Char) : Bool := c == '\t' || (' ' ≤ c && c != '\x7f')

def isBareKey (c : Char) : Bool := isLetter c || isDigit c || c == '-' || c == '_'

/-- Characters of numbers, dates and names. -/
def isScalar (c : Char) : Bool := isBareKey c || c == '+' || c == '.' || c == ':'

def blanks : Reader Unit := do
  let _ ← Reader.run isBlank

/-- Takes a line break, and says whether it was there. -/
def lineBreak : Reader Bool := do
  match ← get with
  | '\n' :: rest => set rest; return true
  | '\r' :: '\n' :: rest => set rest; return true
  | _ => return false

/-- Takes a comment up to the end of its line, if one starts here. -/
def comment : Reader Unit := do
  if ← Reader.accept '#' then
    let _ ← Reader.run isPlain

/-- The rest of a line in which nothing more is said. -/
def lineEnd : Reader Unit := do
  blanks
  comment
  if ← lineBreak then return
  if (← get).isEmpty then return
  failure

/-- Takes blanks, comments and line breaks. -/
def gap : Reader Unit := do
  let _ ← Reader.repeated (α := Unit) do
    blanks
    comment
    if ← lineBreak then return some () else return none

/-! ## Texts -/

/-- The value of a digit of any base. -/
def digitValue (c : Char) : Nat :=
  if isDigit c then c.toNat - '0'.toNat
  else if 'a' ≤ c && c ≤ 'z' then c.toNat - 'a'.toNat + 10
  else if 'A' ≤ c && c ≤ 'Z' then c.toNat - 'A'.toNat + 10
  else 36

def isHexDigit (c : Char) : Bool := digitValue c < 16

/-- The number that digits stand for, most significant first. -/
def valueOf (base : Nat) (cs : List Char) : Nat :=
  cs.foldl (fun n c => base * n + digitValue c) 0

/-- The character with the number that `n` hexadecimal digits stand for. -/
def charByNumber (n : Nat) : Reader Char := do
  let cs := (← get).take n
  Reader.expect cs
  let v := valueOf 16 cs
  if cs.length = n && cs.all isHexDigit && v.isValidChar then return Char.ofNat v
  failure

/-- What a backslash stands for together with what follows it. -/
def escape : Reader Char := do
  match ← get with
  | c :: rest =>
    set rest
    match c with
    | 'b' => return '\x08'
    | 't' => return '\t'
    | 'n' => return '\n'
    | 'f' => return '\x0c'
    | 'r' => return '\r'
    | '"' => return '"'
    | '\\' => return '\\'
    | 'u' => charByNumber 4
    | 'U' => charByNumber 8
    | _ => failure
  | [] => failure

/-- The next character of a text between quotes, or its end. -/
def quotedChar : Reader (Option Char) := do
  match ← get with
  | '"' :: rest => set rest; return none
  | '\\' :: rest => set rest; return some (← escape)
  | c :: rest => if isPlain c then set rest; return some c else failure
  | [] => failure

/-- The next character of a text between apostrophes, in which nothing is escaped. -/
def literalChar : Reader (Option Char) := do
  match ← get with
  | '\'' :: rest => set rest; return none
  | c :: rest => if isPlain c then set rest; return some c else failure
  | [] => failure

/-- Up to two marks may stand in front of the three that end a text of several lines. -/
def closing (mark : Char) : Reader (Option (List Char)) := do
  let marks ← Reader.run (· == mark)
  match marks.length with
  | 1 | 2 => return some marks
  | 3 | 4 | 5 =>
    set (List.replicate 3 mark ++ (← get))
    return some (marks.drop 3)
  | _ => failure

/-- Takes the three marks that end a text of several lines, and says whether they were there. -/
def closed (mark : Char) : Reader Bool := do
  let cs ← get
  if (cs.takeWhile (· == mark)).length = 3 then
    set (cs.drop 3)
    return true
  else return false

/-- Whether a backslash stands in front of the end of a line. Then all blanks and line breaks behind
it are left out. -/
def isContinuation (rest : List Char) : Bool :=
  match rest.dropWhile isBlank with
  | '\n' :: _ => true
  | '\r' :: '\n' :: _ => true
  | _ => false

/-- The next piece of a text of several lines, or its end. -/
def longPiece (mark : Char) (escapes : Bool) : Reader (Option (List Char)) := do
  if ← closed mark then return none
  if ← lineBreak then return some ['\n']
  match ← get with
  | c :: rest =>
    if c = mark then closing mark
    else if escapes && c = '\\' then
      set rest
      if isContinuation rest then
        let _ ← Reader.repeated (α := Unit) do
          blanks
          if ← lineBreak then return some () else return none
        return some []
      else return some [← escape]
    else if isPlain c then
      set rest
      return some [c]
    else failure
  | [] => failure

/-- A text of several lines behind its opening marks. A line break right at the start is not part of
it. -/
def longText (mark : Char) (escapes : Bool) : Reader String := do
  let _ ← lineBreak
  return String.ofList (← Reader.repeated (longPiece mark escapes)).flatten

def text : Reader String := do
  match ← get with
  | '"' :: '"' :: '"' :: rest => set rest; longText '"' true
  | '\'' :: '\'' :: '\'' :: rest => set rest; longText '\'' false
  | '"' :: rest => set rest; return String.ofList (← Reader.repeated quotedChar)
  | '\'' :: rest => set rest; return String.ofList (← Reader.repeated literalChar)
  | _ => failure

/-! ## Keys -/

/-- How many keys may follow one another, and how deep brackets may nest, is less than this. -/
def nesting : Nat := 80

def simpleKey : Reader String := do
  match ← get with
  | '"' :: rest => set rest; return String.ofList (← Reader.repeated quotedChar)
  | '\'' :: rest => set rest; return String.ofList (← Reader.repeated literalChar)
  | _ =>
    match ← Reader.run isBareKey with
    | [] => failure
    | cs => return String.ofList cs

/-- A key of keys with dots between them: those in front, and the last one. -/
def key : Reader (List String × String) := do
  let piece : Reader String := do
    blanks
    let k ← simpleKey
    blanks
    return k
  let first ← piece
  let rest ← Reader.repeated do
    if ← Reader.accept '.' then return some (← piece) else return none
  if rest.length + 1 < nesting then return ((first :: rest).dropLast, rest.getLastD first)
  failure

/-! ## Numbers and dates -/

/-- Whether a text consists of digits, with single underscores between some of them. -/
def isGrouped (p : Char → Bool) : List Char → Bool
  | [] => false
  | [c] => p c
  | c :: '_' :: cs => p c && isGrouped p cs
  | c :: cs => p c && isGrouped p cs

/-- Digits that do not start with a zero, unless that is all. -/
def isDecimal (cs : List Char) : Bool :=
  isGrouped isDigit cs && (cs == ['0'] || cs.head? != some '0')

def unsigned : List Char → List Char
  | '+' :: cs => cs
  | '-' :: cs => cs
  | cs => cs

/-- The value of grouped digits, if it fits in a signed 64-bit integer. -/
def grouped? (base : Nat) (negative : Bool) (cs : List Char) : Option Int :=
  let n := valueOf base (cs.filter (· != '_'))
  if negative then if n ≤ 0x8000000000000000 then some (-n) else none
  else if n < 0x8000000000000000 then some n else none

def inBase? (base : Nat) (cs : List Char) : Option Int :=
  if isGrouped (digitValue · < base) cs then grouped? base false cs else none

def integer? : List Char → Option Int
  | '0' :: 'x' :: cs => inBase? 16 cs
  | '0' :: 'o' :: cs => inBase? 8 cs
  | '0' :: 'b' :: cs => inBase? 2 cs
  | cs => if isDecimal (unsigned cs) then grouped? 10 (cs.head? == some '-') (unsigned cs) else none

def isExponent : List Char → Bool
  | 'e' :: cs => isGrouped isDigit (unsigned cs)
  | 'E' :: cs => isGrouped isDigit (unsigned cs)
  | _ => false

/-- What follows the whole part of a number with a fraction or an exponent. -/
def isFloatTail : List Char → Bool
  | '.' :: cs =>
    let fraction := cs.takeWhile fun c => isDigit c || c == '_'
    let rest := cs.drop fraction.length
    isGrouped isDigit fraction && (rest.isEmpty || isExponent rest)
  | cs => isExponent cs

def isFloat (cs : List Char) : Bool :=
  let body := unsigned cs
  let whole := body.takeWhile fun c => isDigit c || c == '_'
  body == ['i', 'n', 'f'] || body == ['n', 'a', 'n']
    || (isDecimal whole && isFloatTail (body.drop whole.length))

/-- Takes digits, as many as asked for, whose value is in a range. -/
def digits (count low high : Nat) : Reader Nat := do
  let cs := (← get).take count
  Reader.expect cs
  let v := valueOf 10 cs
  if cs.length = count && cs.all isDigit && low ≤ v && v ≤ high then return v
  failure

def daysIn (year month : Nat) : Nat :=
  if month = 2 then
    if year % 4 = 0 && (year % 100 != 0 || year % 400 = 0) then 29 else 28
  else if [4, 6, 9, 11].contains month then 30
  else 31

def date : Reader Unit := do
  let year ← digits 4 0 9999
  Reader.expect ['-']
  let month ← digits 2 1 12
  Reader.expect ['-']
  let _ ← digits 2 1 (daysIn year month)

def time : Reader Unit := do
  let _ ← digits 2 0 23
  Reader.expect [':']
  let _ ← digits 2 0 59
  Reader.expect [':']
  let _ ← digits 2 0 60
  if ← Reader.accept '.' then
    if (← Reader.run isDigit).isEmpty then failure

/-- The distance from universal time, if it is given. -/
def offset : Reader Unit := do
  match ← get with
  | [] => return
  | c :: rest =>
    set rest
    if c = 'Z' || c = 'z' then return
    if c = '+' || c = '-' then
      let _ ← digits 2 0 23
      Reader.expect [':']
      let _ ← digits 2 0 59
    else failure

/-- Whether a reader takes all of a text. -/
def takesAll (p : Reader Unit) (cs : List Char) : Bool :=
  match p cs with
  | some ((), []) => true
  | _ => false

def isDate (cs : List Char) : Bool := takesAll date cs

def isTimeWithOffset (cs : List Char) : Bool :=
  takesAll (do
    time
    offset) cs

def isMoment (cs : List Char) : Bool :=
  isDate cs || takesAll time cs ||
    takesAll (do
      date
      if !(← Reader.accept 'T') then Reader.expect ['t']
      time
      offset) cs

/-- The node that a run of characters without blanks stands for. -/
def scalarOf? (cs : List Char) : Option Node :=
  if cs == ['t', 'r', 'u', 'e'] then some (.boolean true)
  else if cs == ['f', 'a', 'l', 's', 'e'] then some (.boolean false)
  else match integer? cs with
    | some n => some (.integer n)
    | none =>
      if isFloat cs then some .float
      else if isMoment cs then some .moment
      else none

/-- A number, a date or a name. A date may be followed by a blank and a time. -/
def scalar : Reader Node := do
  let cs ← Reader.run isScalar
  let node ← scalarOf? cs
  match ← get with
  | ' ' :: c :: rest =>
    if isDate cs && isDigit c then
      set (c :: rest)
      if isTimeWithOffset (← Reader.run isScalar) then return .moment
      failure
    else return node
  | _ => return node

/-! ## Values -/

/-- The items of an array behind its opening bracket. A comma may follow the last one. -/
def items (value : Reader Node) : Reader (List Node) :=
  Reader.repeated do
    gap
    if ← Reader.accept ']' then return none
    let v ← value
    gap
    if !(← Reader.accept ',') && (← Reader.peek) != some ']' then failure
    return some v

/-- A key with its value. -/
structure Assignment where
  path : List String
  name : String
  value : Node

/-- What an assignment makes of a table. -/
def Assignment.applyTo (a : Assignment) (t : Node) : Option Node := t.assign a.path a.name a.value

def assignment (value : Reader Node) : Reader Assignment := do
  let (path, name) ← key
  Reader.expect ['=']
  blanks
  let v ← value
  blanks
  return ⟨path, name, v⟩

/-- The assignments of an inline table behind its opening brace, with commas between them. -/
def assignments (value : Reader Node) : Reader (List Assignment) := do
  blanks
  if ← Reader.accept '\x7d' then return []
  let first ← assignment value
  let rest ← Reader.repeated do
    if ← Reader.accept ',' then return some (← assignment value)
    Reader.expect ['\x7d']
    return none
  return first :: rest

/-- A table that assignments make in their order, if none of them stands in the way of another. -/
def tableOf (origin : Origin) (as : List Assignment) : Option Node :=
  as.foldlM (fun t a => a.applyTo t) (.table origin [])

/-- A value without brackets. -/
def leaf : Reader Node := do
  match ← Reader.peek with
  | some '"' => return .text (← text)
  | some '\'' => return .text (← text)
  | _ => scalar

/-- A value in which brackets nest at most `n` deep. -/
def value : Nat → Reader Node
  | 0 => leaf
  | n + 1 => do
    if ← Reader.accept '[' then return .array (← items (value n))
    else if ← Reader.accept '\x7b' then tableOf .inline (← assignments (value n))
    else leaf

end Covenant.Toml
