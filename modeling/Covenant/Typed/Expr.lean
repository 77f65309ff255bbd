import Covenant.Surface.Expr
import Covenant.Typed.Ty

/-!
# Typed expressions

Expressions in which every name has its meaning. A node holds its type where
nothing else decides it. `old` and `spread` are left over from clauses: the one
gives way to `slot` when entry values are scheduled, the other only occurs in
effect targets.

`Expr.text` is the reading that messages and reports show. It leaves out which
class a static call goes to.
-/

namespace Covenant.Typed

inductive Expr
  | int (span : Span) (value : Int64)
  | bool (span : Span) (value : Bool)
  | null (span : Span)
  | this (span : Span) (className : String)
  | var (span : Span) (type : Ty) (name : String)
  /-- A parameter that a clause reads: the value that was passed. -/
  | param (span : Span) (type : Ty) (index : Nat) (name : String)
  | field (span : Span) (type : Ty) (object : Expr) (name : String)
  | staticField (span : Span) (type : Ty) (className name : String)
  | length (span : Span) (array : Expr)
  | index (span : Span) (type : Ty) (array index : Expr)
  | binary (span : Span) (op : BinaryOp) (lhs rhs : Expr)
  | unary (span : Span) (op : UnaryOp) (operand : Expr)
  /-- A call; a static one has no receiver. -/
  | call (span : Span) (type : Ty) (site : SiteId) (receiver : Option Expr) (method : DeclId)
      (name : String) (args : List Expr)
  | new (span : Span) (site : SiteId) (className : String) (ctor : DeclId) (args : List Expr)
  | newArray (span : Span) (elem : Ty) (length : Expr)
  | old (span : Span) (inner : Expr)
  | result (span : Span) (type : Ty)
  | spread (span : Span) (collection : Expr)
  /-- The entry value that was stored under this number. -/
  | slot (span : Span) (type : Ty) (number : Nat)
  deriving Repr, Inhabited

namespace Expr

def span : Expr → Span
  | int s _ | bool s _ | null s | this s _ | var s _ _ | param s _ _ _ | field s _ _ _
  | staticField s _ _ _ | length s _ | index s _ _ _ | binary s _ _ _ | unary s _ _
  | call s _ _ _ _ _ _ | new s _ _ _ _ | newArray s _ _ | old s _ | result s _ | spread s _
  | slot s _ _ => s

/-- The type of what an operator yields. -/
def resultType : BinaryOp → Ty
  | .add | .sub | .mul | .div | .mod => .int
  | .eq | .neq | .lt | .gt | .ltEq | .gtEq | .and | .or => .boolean

/-- The type of what a prefix operator takes and yields. -/
def operandType : UnaryOp → Ty
  | .neg => .int
  | .not => .boolean

def type : Expr → Ty
  | int _ _ | length _ _ => .int
  | bool _ _ => .boolean
  | null _ => .null
  | this _ c | new _ _ c _ _ => .ofClass c
  | var _ t _ | param _ t _ _ | field _ t _ _ | staticField _ t _ _ | index _ t _ _
  | call _ t _ _ _ _ _ | result _ t | slot _ t _ => t
  | binary _ op _ _ => resultType op
  | unary _ op _ => operandType op
  | newArray _ e _ => .array e
  | old _ e => e.type
  | spread _ e => e.type.elem?.getD e.type

mutual

def text : Expr → String
  | int _ n => toString n.toInt
  | bool _ b => if b then "true" else "false"
  | null _ => "null"
  | this _ _ => "this"
  | var _ _ name => name
  | param _ _ _ name => name
  | field _ _ o name => o.text ++ "." ++ name
  | staticField _ _ c name => c ++ "." ++ name
  | length _ a => a.text ++ ".length"
  | index _ _ a i => a.text ++ "[" ++ i.text ++ "]"
  | binary _ op l r => "(" ++ l.text ++ " " ++ op.text ++ " " ++ r.text ++ ")"
  | unary _ op e => op.text ++ e.text
  | call _ _ _ receiver _ name args => receiverText receiver ++ name ++ "(" ++ textAll args ++ ")"
  | new _ _ c _ args => "new " ++ c ++ "(" ++ textAll args ++ ")"
  | newArray _ t len => "new " ++ t.text ++ "[" ++ len.text ++ "]"
  | old _ e => "old(" ++ e.text ++ ")"
  | result _ _ => "result"
  | spread _ e => "..." ++ e.text
  | slot _ _ n => "$old" ++ toString n

/-- The receiver of a call with its dot, or nothing. -/
def receiverText : Option Expr → String
  | none => ""
  | some e => e.text ++ "."

def textAll : List Expr → String
  | [] => ""
  | [e] => e.text
  | e :: es => e.text ++ ", " ++ textAll es

end

mutual

/-- The expression and all its parts, each before its own parts and from left to right. -/
def parts : Expr → List Expr
  | e@(int ..) | e@(bool ..) | e@(null ..) | e@(this ..) | e@(var ..) | e@(param ..)
  | e@(staticField ..) | e@(result ..) | e@(slot ..) => [e]
  | e@(field _ _ o _) => e :: o.parts
  | e@(length _ a) => e :: a.parts
  | e@(index _ _ a i) => e :: (a.parts ++ i.parts)
  | e@(binary _ _ l r) => e :: (l.parts ++ r.parts)
  | e@(unary _ _ x) => e :: x.parts
  | e@(call _ _ _ receiver _ _ args) => e :: (partsOpt receiver ++ partsAll args)
  | e@(new _ _ _ _ args) => e :: partsAll args
  | e@(newArray _ _ len) => e :: len.parts
  | e@(old _ x) => e :: x.parts
  | e@(spread _ x) => e :: x.parts

def partsOpt : Option Expr → List Expr
  | none => []
  | some e => e.parts

def partsAll : List Expr → List Expr
  | [] => []
  | e :: es => e.parts ++ partsAll es

end

mutual

/-- Whether two expressions are the same, spans counted. -/
def same : Expr → Expr → Bool
  | int s n, int s' n' => s == s' && n == n'
  | bool s b, bool s' b' => s == s' && b == b'
  | null s, null s' => s == s'
  | this s c, this s' c' => s == s' && c == c'
  | var s t n, var s' t' n' => s == s' && t == t' && n == n'
  | param s t i n, param s' t' i' n' => s == s' && t == t' && i == i' && n == n'
  | field s t o n, field s' t' o' n' => s == s' && t == t' && same o o' && n == n'
  | staticField s t c n, staticField s' t' c' n' => s == s' && t == t' && c == c' && n == n'
  | length s a, length s' a' => s == s' && same a a'
  | index s t a i, index s' t' a' i' => s == s' && t == t' && same a a' && same i i'
  | binary s op l r, binary s' op' l' r' => s == s' && op == op' && same l l' && same r r'
  | unary s op e, unary s' op' e' => s == s' && op == op' && same e e'
  | call s t i r m n args, call s' t' i' r' m' n' args' =>
    s == s' && t == t' && i == i' && sameOpt r r' && m == m' && n == n' && sameAll args args'
  | new s i c m args, new s' i' c' m' args' =>
    s == s' && i == i' && c == c' && m == m' && sameAll args args'
  | newArray s t l, newArray s' t' l' => s == s' && t == t' && same l l'
  | old s e, old s' e' => s == s' && same e e'
  | result s t, result s' t' => s == s' && t == t'
  | spread s e, spread s' e' => s == s' && same e e'
  | slot s t n, slot s' t' n' => s == s' && t == t' && n == n'
  | _, _ => false

def sameOpt : Option Expr → Option Expr → Bool
  | none, none => true
  | some a, some b => same a b
  | _, _ => false

def sameAll : List Expr → List Expr → Bool
  | [], [] => true
  | a :: as, b :: bs => same a b && sameAll as bs
  | _, _ => false

end

mutual

theorem same_iff (a b : Expr) : same a b = true ↔ a = b := by
  cases a <;> cases b <;> simp [same, same_iff, sameOpt_iff, sameAll_iff, and_assoc]

theorem sameOpt_iff (a b : Option Expr) : sameOpt a b = true ↔ a = b := by
  cases a <;> cases b <;> simp [sameOpt, same_iff]

theorem sameAll_iff (as bs : List Expr) : sameAll as bs = true ↔ as = bs := by
  cases as <;> cases bs <;> simp [sameAll, same_iff, sameAll_iff]

end

instance : DecidableEq Expr := fun a b => decidable_of_iff (same a b = true) (same_iff a b)

end Expr

end Covenant.Typed
