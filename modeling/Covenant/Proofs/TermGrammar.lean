import Covenant.Parse.Expr

/-!
# How expressions are written

The grammar of expressions, apart from any way to read them. Operators have levels,
and a level says how loosely what stands there may bind: the left operand of an
operator binds at least as tightly as the operator, the right one more tightly, what
a prefix operator applies to is of the level above all infix operators, and what a
postfix form goes on from is of the highest one. Parentheses may stand around any
expression, needed or not. The spans of a tree and the numbers of its calls are not
written; `Expr.shape` is a tree without them.
-/

namespace Covenant

/-! ## Trees -/

namespace Surface

mutual

/-- The tree alone, with the same span everywhere and without numbers of calls. -/
def Expr.shape : Expr → Expr
  | .int _ n => .int (.point 0) n
  | .bool _ b => .bool (.point 0) b
  | .null _ => .null (.point 0)
  | .this _ => .this (.point 0)
  | .name _ x => .name (.point 0) x
  | .binary _ op l r => .binary (.point 0) op l.shape r.shape
  | .unary _ op e => .unary (.point 0) op e.shape
  | .field _ o x => .field (.point 0) o.shape ⟨x.val, .point 0⟩
  | .call _ _ m args => .call (.point 0) 0 ⟨m.val, .point 0⟩ (shapeAll args)
  | .methodCall _ _ o m args =>
    .methodCall (.point 0) 0 o.shape ⟨m.val, .point 0⟩ (shapeAll args)
  | .new _ _ c args => .new (.point 0) 0 ⟨c.val, .point 0⟩ (shapeAll args)
  | .newArray _ t len => .newArray (.point 0) (t.mapSpans fun _ => .point 0) len.shape
  | .index _ a i => .index (.point 0) a.shape i.shape
  | .old _ e => .old (.point 0) e.shape
  | .result _ => .result (.point 0)
  | .spread _ e => .spread (.point 0) e.shape

def shapeAll : List Expr → List Expr
  | [] => []
  | e :: es => e.shape :: shapeAll es

end

/-- A type of elements that is no array. -/
def TypeExpr.IsElement : TypeExpr → Prop
  | .int _ | .boolean _ | .named .. => True
  | .array .. => False

mutual

/-- Whether an expression may stand in a program: it has no form that only clauses know, and the
arrays that it makes have elements that are none. -/
def Expr.Host : Expr → Prop
  | .int .. | .bool .. | .null .. | .this .. | .name .. => True
  | .binary _ _ l r => l.Host ∧ r.Host
  | .unary _ _ e => e.Host
  | .field _ o _ => o.Host
  | .call _ _ _ args | .new _ _ _ args => hostAll args
  | .methodCall _ _ o _ args => o.Host ∧ hostAll args
  | .newArray _ t len => t.IsElement ∧ len.Host
  | .index _ a i => a.Host ∧ i.Host
  | .old .. | .result .. | .spread .. => False

def hostAll : List Expr → Prop
  | [] => True
  | e :: es => e.Host ∧ hostAll es

end

end Surface

/-! ## Marks and levels -/

namespace BinaryOp

def mark : BinaryOp → Symbol
  | add => .plus
  | sub => .minus
  | mul => .star
  | div => .slash
  | mod => .percent
  | eq => .eqEq
  | neq => .bangEq
  | lt => .lt
  | gt => .gt
  | ltEq => .ltEq
  | gtEq => .gtEq
  | and => .andAnd
  | or => .orOr

/-- How tightly the operator binds. Operators of one level associate to the left. -/
def level : BinaryOp → Nat
  | or => 0
  | and => 1
  | eq | neq => 2
  | lt | gt | ltEq | gtEq => 3
  | add | sub => 4
  | mul | div | mod => 5

end BinaryOp

def UnaryOp.mark : UnaryOp → Symbol
  | neg => .minus
  | not => .bang

namespace Parse

open Surface (Expr TypeExpr shapeAll hostAll)

/-- The level of prefix operators. -/
def prefixLevel : Nat := 6

/-- The level of postfix forms and of everything that has no operator outside. -/
def postfixLevel : Nat := 7

/-- The type of the elements of a new array is a word. -/
inductive WrittenType : TypeExpr → Token → Prop
  | int {span} : WrittenType (.int span) (.keyword .int_)
  | boolean {span} : WrittenType (.boolean span) (.keyword .boolean_)
  | named {span name} : WrittenType (.named span name) (.ident name)

mutual

/-- What an expression may be written as where operators outside of all brackets have to be of a
level or above it. -/
inductive Written : Nat → Expr → List Token → Prop
  | int {k span n} : Written k (.int span n) [.int n]
  | true_ {k span} : Written k (.bool span true) [.keyword .true_]
  | false_ {k span} : Written k (.bool span false) [.keyword .false_]
  | null {k span} : Written k (.null span) [.keyword .null_]
  | this {k span} : Written k (.this span) [.keyword .this_]
  | name {k span x} : Written k (.name span x) [.ident x]
  | parens {k e ts} (inner : Written 0 e ts) :
      Written k e (.symbol .lparen :: (ts ++ [.symbol .rparen]))
  | binary {k span op l r ls rs} (le : k ≤ op.level) (left : Written op.level l ls)
      (right : Written (op.level + 1) r rs) :
      Written k (.binary span op l r) (ls ++ .symbol op.mark :: rs)
  | unary {k span op e ts} (le : k ≤ prefixLevel) (operand : Written prefixLevel e ts) :
      Written k (.unary span op e) (.symbol op.mark :: ts)
  | field {k span o x os} (object : Written postfixLevel o os) :
      Written k (.field span o x) (os ++ [.symbol .dot, .ident x.val])
  | index {k span a i as is} (array : Written postfixLevel a as) (inner : Written 0 i is) :
      Written k (.index span a i) (as ++ .symbol .lbracket :: (is ++ [.symbol .rbracket]))
  | call {k span site m args ts} (inner : WrittenArgs args ts) :
      Written k (.call span site m args)
        (.ident m.val :: .symbol .lparen :: (ts ++ [.symbol .rparen]))
  | methodCall {k span site o m args os ts} (object : Written postfixLevel o os)
      (inner : WrittenArgs args ts) :
      Written k (.methodCall span site o m args)
        (os ++ .symbol .dot :: .ident m.val :: .symbol .lparen :: (ts ++ [.symbol .rparen]))
  | new {k span site c args ts} (inner : WrittenArgs args ts) :
      Written k (.new span site c args)
        (.keyword .new_ :: .ident c.val :: .symbol .lparen :: (ts ++ [.symbol .rparen]))
  | newArray {k span elem len t ts} (element : WrittenType elem t) (inner : Written 0 len ts) :
      Written k (.newArray span elem len)
        (.keyword .new_ :: t :: .symbol .lbracket :: (ts ++ [.symbol .rbracket]))

/-- What arguments are written as between their parentheses. -/
inductive WrittenArgs : List Expr → List Token → Prop
  | none : WrittenArgs [] []
  | some {e es ts us} (first : Written 0 e ts) (more : WrittenMore es us) :
      WrittenArgs (e :: es) (ts ++ us)

/-- Further arguments, each behind a comma. -/
inductive WrittenMore : List Expr → List Token → Prop
  | nil : WrittenMore [] []
  | cons {e es ts us} (next : Written 0 e ts) (more : WrittenMore es us) :
      WrittenMore (e :: es) (.symbol .comma :: (ts ++ us))

end

/-- What may stand at a level may also stand below. -/
theorem Written.mono {k k' : Nat} {e : Expr} {ts : List Token} (h : Written k e ts)
    (hle : k' ≤ k) : Written k' e ts := by
  cases h with
  | int => exact .int
  | true_ => exact .true_
  | false_ => exact .false_
  | null => exact .null
  | this => exact .this
  | name => exact .name
  | parens hi => exact .parens hi
  | binary hk hl hr => exact .binary (Nat.le_trans hle hk) hl hr
  | unary hk ho => exact .unary (Nat.le_trans hle hk) ho
  | field ho => exact .field ho
  | index ha hi => exact .index ha hi
  | call hi => exact .call hi
  | methodCall ho hi => exact .methodCall ho hi
  | new hi => exact .new hi
  | newArray ht hi => exact .newArray ht hi

/-- Nothing is written with a closing parenthesis in front. -/
theorem Written.starts {k : Nat} {e : Expr} {ts : List Token} :
    Written k e ts → ∃ t us, ts = t :: us ∧ t ≠ .symbol .rparen
  | .int | .true_ | .false_ | .null | .this | .name | .parens _ | .call _ | .new _
  | .newArray _ _ => ⟨_, _, rfl, by simp⟩
  | @Written.unary _ _ op _ _ _ _ => ⟨_, _, rfl, by cases op <;> simp [UnaryOp.mark]⟩
  | .binary _ h _ | .field h | .index h _ | .methodCall h _ => by
      obtain ⟨t, us, rfl, ht⟩ := h.starts
      exact ⟨t, _, rfl, ht⟩

/-! ## What can be written -/

theorem exists_writtenType {t : TypeExpr} (h : t.IsElement) : ∃ u, WrittenType t u := by
  cases t with
  | int => exact ⟨_, .int⟩
  | boolean => exact ⟨_, .boolean⟩
  | named => exact ⟨_, .named⟩
  | array => exact h.elim

mutual

/-- Every expression of a program can be written at any level, if need be in parentheses. -/
theorem exists_written : ∀ {e : Expr}, e.Host → ∀ k, ∃ ts, Written k e ts
  | .int .., _, _ => ⟨_, .int⟩
  | .bool _ true, _, _ => ⟨_, .true_⟩
  | .bool _ false, _, _ => ⟨_, .false_⟩
  | .null .., _, _ => ⟨_, .null⟩
  | .this .., _, _ => ⟨_, .this⟩
  | .name .., _, _ => ⟨_, .name⟩
  | .binary _ op l r, h, _ => by
      obtain ⟨ls, hl⟩ := exists_written h.1 op.level
      obtain ⟨rs, hr⟩ := exists_written h.2 (op.level + 1)
      exact ⟨_, .parens (.binary (Nat.zero_le _) hl hr)⟩
  | .unary _ op e, h, _ => by
      obtain ⟨ts, ht⟩ := exists_written (e := e) h prefixLevel
      exact ⟨_, .parens (.unary (Nat.zero_le _) ht)⟩
  | .field _ o x, h, _ => by
      obtain ⟨os, ho⟩ := exists_written (e := o) h postfixLevel
      exact ⟨_, .field ho⟩
  | .index _ a i, h, _ => by
      obtain ⟨as, ha⟩ := exists_written h.1 postfixLevel
      obtain ⟨is, hi⟩ := exists_written h.2 0
      exact ⟨_, .index ha hi⟩
  | .call _ _ m args, h, _ => by
      obtain ⟨ts, ht⟩ := exists_writtenArgs (show hostAll args from h)
      exact ⟨_, .call ht⟩
  | .methodCall _ _ o m args, h, _ => by
      obtain ⟨os, ho⟩ := exists_written h.1 postfixLevel
      obtain ⟨ts, ht⟩ := exists_writtenArgs h.2
      exact ⟨_, .methodCall ho ht⟩
  | .new _ _ c args, h, _ => by
      obtain ⟨ts, ht⟩ := exists_writtenArgs (show hostAll args from h)
      exact ⟨_, .new ht⟩
  | .newArray _ t len, h, _ => by
      obtain ⟨u, hu⟩ := exists_writtenType h.1
      obtain ⟨ts, ht⟩ := exists_written h.2 0
      exact ⟨_, .newArray hu ht⟩

theorem exists_writtenArgs : ∀ {args : List Expr}, hostAll args → ∃ ts, WrittenArgs args ts
  | [], _ => ⟨_, .none⟩
  | _ :: _, h => by
      obtain ⟨ts, ht⟩ := exists_written h.1 0
      obtain ⟨us, hu⟩ := exists_writtenMore h.2
      exact ⟨_, .some ht hu⟩

theorem exists_writtenMore : ∀ {args : List Expr}, hostAll args → ∃ ts, WrittenMore args ts
  | [], _ => ⟨_, .nil⟩
  | _ :: _, h => by
      obtain ⟨ts, ht⟩ := exists_written h.1 0
      obtain ⟨us, hu⟩ := exists_writtenMore h.2
      exact ⟨_, .cons ht hu⟩

end

mutual

/-- What can be written is an expression of a program. -/
theorem Written.host {k : Nat} {e : Expr} {ts : List Token} : Written k e ts → e.Host
  | .int | .true_ | .false_ | .null | .this | .name => trivial
  | .parens h => h.host
  | .binary _ hl hr => ⟨hl.host, hr.host⟩
  | .unary _ h => h.host
  | .field h => h.host
  | .index ha hi => ⟨ha.host, hi.host⟩
  | .call h => h.host
  | .methodCall ho h => ⟨ho.host, h.host⟩
  | .new h => h.host
  | .newArray ht h => ⟨by cases ht <;> trivial, h.host⟩

theorem WrittenArgs.host {args : List Expr} {ts : List Token} : WrittenArgs args ts → hostAll args
  | .none => trivial
  | .some h hs => ⟨h.host, hs.host⟩

theorem WrittenMore.host {args : List Expr} {ts : List Token} : WrittenMore args ts → hostAll args
  | .nil => trivial
  | .cons h hs => ⟨h.host, hs.host⟩

end

/-! ## Levels and powers -/

theorem binaryOp?_mark (op : BinaryOp) : binaryOp? (.symbol op.mark) = some op := by
  cases op <;> rfl

theorem eq_mark_of_binaryOp? {t : Token} {op : BinaryOp} (h : binaryOp? t = some op) :
    t = .symbol op.mark := by
  cases t with
  | symbol s => cases s <;> cases h <;> rfl
  | _ => cases h

/-- An operator is left to the rules outside if the level that they read at is above it. -/
theorem leftPower_lt_iff {op : BinaryOp} {power : Nat} :
    leftPower op < power ↔ op.level < power / 2 := by
  cases op <;> simp only [leftPower, BinaryOp.level] <;> omega

theorem rightPower_div (op : BinaryOp) : rightPower op / 2 = op.level + 1 := by
  cases op <;> rfl

theorem level_lt (op : BinaryOp) : op.level < prefixLevel := by
  cases op <;> decide

/-- The level of what a token goes on with, if it can stand behind an expression and go on with
it. -/
def level? : Token → Option Nat
  | .symbol .dot | .symbol .lbracket => some postfixLevel
  | t => (binaryOp? t).map BinaryOp.level

theorem level?_mark (op : BinaryOp) : level? (.symbol op.mark) = some op.level := by
  cases op <;> rfl

theorem level?_eq_none {t : Token} (h : binaryOp? t = none) (hdot : t ≠ .symbol .dot)
    (hopen : t ≠ .symbol .lbracket) : level? t = none := by
  cases t with
  | symbol s =>
      cases s <;> cases h <;> first | rfl | exact absurd rfl hdot | exact absurd rfl hopen
  | _ => rfl

/-- Only infix operators and postfix forms go on with an expression. -/
theorem level?_cases {t : Token} {m : Nat} (h : level? t = some m) :
    m < prefixLevel ∨ m = postfixLevel := by
  cases t with
  | symbol s => cases s <;> cases h <;> decide
  | _ => cases h

/-! ## What comes next -/

/-- What comes next can at most go on with expressions of the level. -/
def Within (ls : List Lexeme) (k : Nat) : Prop :=
  ∀ l, ls.head? = some l → ∀ m, level? l.token = some m → m ≤ k

/-- What comes next goes on only with expressions of lower levels. -/
def Stops (ls : List Lexeme) (k : Nat) : Prop :=
  ∀ l, ls.head? = some l → ∀ m, level? l.token = some m → m < k

section

variable {ls : List Lexeme} {l : Lexeme} {k k' : Nat}

/-- Everything that comes next can go on with something that has no operator outside. -/
theorem within_postfixLevel (ls : List Lexeme) : Within ls postfixLevel := fun _ _ _ h => by
  rcases level?_cases h with hlt | rfl
  · exact Nat.le_of_lt (Nat.lt_trans hlt (by decide))
  · exact Nat.le_refl _

theorem within_mark {op : BinaryOp} (h : l.token = .symbol op.mark) (hle : op.level ≤ k) :
    Within (l :: ls) k := fun l' hl' m hm => by
  obtain rfl := Option.some.inj hl'
  rw [h, level?_mark] at hm
  exact Option.some.inj hm ▸ hle

theorem Within.mono (h : Within ls k) (hle : k ≤ k') : Within ls k' :=
  fun l hl m hm => Nat.le_trans (h l hl m hm) hle

theorem Stops.within (h : Stops ls (k + 1)) : Within ls k :=
  fun l hl m hm => Nat.le_of_lt_succ (h l hl m hm)

theorem Within.stops (h : Within ls k) (hlt : k < k') : Stops ls k' :=
  fun l hl m hm => Nat.lt_of_le_of_lt (h l hl m hm) hlt

/-- No operator is of the level of prefix operators itself. -/
theorem Within.stops_prefixLevel (h : Within ls k) (hle : k ≤ prefixLevel) : Stops ls prefixLevel :=
  fun l hl m hm => (level?_cases hm).resolve_right fun heq =>
    absurd (heq ▸ Nat.le_trans (h l hl m hm) hle) (by decide)

theorem stops_of_none (h : ls.head? = none) : Stops ls k := fun l hl => by
  rw [h] at hl
  cases hl

theorem stops_of_level? (hl : ls.head? = some l) (h : level? l.token = none) : Stops ls k :=
  fun l' hl' m hm => by
    obtain rfl := Option.some.inj (hl.symm.trans hl')
    rw [h] at hm
    cases hm

theorem stops_of_mark (hl : ls.head? = some l) {op : BinaryOp}
    (h : l.token = .symbol op.mark) (hlt : op.level < k) : Stops ls k := fun l' hl' m hm => by
  obtain rfl := Option.some.inj (hl.symm.trans hl')
  rw [h, level?_mark] at hm
  exact Option.some.inj hm ▸ hlt

end

/-! ## Tokens at the front -/

/-- What is left begins with these tokens, and what is behind them. -/
def Opens (ls : List Lexeme) (ts : List Token) (rest : List Lexeme) : Prop :=
  ∃ xs, ls = xs ++ rest ∧ xs.map (·.token) = ts

namespace Opens

variable {ls rest : List Lexeme} {t : Token} {ts us : List Token}

theorem length (h : Opens ls ts rest) : ls.length = ts.length + rest.length := by
  obtain ⟨xs, rfl, rfl⟩ := h
  rw [List.length_append, List.length_map]

theorem of_nil (h : Opens ls [] rest) : ls = rest := by
  obtain ⟨xs, rfl, hxs⟩ := h
  rw [List.map_eq_nil_iff.mp hxs, List.nil_append]

theorem of_cons (h : Opens ls (t :: ts) rest) :
    ∃ span doc ls', ls = ⟨t, span, doc⟩ :: ls' ∧ Opens ls' ts rest := by
  obtain ⟨xs, rfl, hxs⟩ := h
  obtain ⟨l, xs', rfl, rfl, htail⟩ := List.map_eq_cons_iff.mp hxs
  exact ⟨l.span, l.doc, xs' ++ rest, rfl, xs', rfl, htail⟩

theorem of_append (h : Opens ls (ts ++ us) rest) :
    ∃ mid, Opens ls ts mid ∧ Opens mid us rest := by
  obtain ⟨xs, rfl, hxs⟩ := h
  obtain ⟨ys, zs, rfl, hys, hzs⟩ := List.map_eq_append_iff.mp hxs
  exact ⟨zs ++ rest, ⟨ys, List.append_assoc .., hys⟩, zs, rfl, hzs⟩

theorem of_closed {s : Symbol} (h : Opens ls (ts ++ [.symbol s]) rest) :
    ∃ span doc, Opens ls ts (⟨.symbol s, span, doc⟩ :: rest) := by
  obtain ⟨mid, hts, hmid⟩ := h.of_append
  obtain ⟨span, doc, ls', rfl, hend⟩ := hmid.of_cons
  exact ⟨span, doc, hend.of_nil ▸ hts⟩

end Opens

end Parse

end Covenant
