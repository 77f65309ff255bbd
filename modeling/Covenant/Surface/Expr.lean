import Covenant.Source.Span

/-!
# Parsed expressions

The trees that the grammar yields before any name has a meaning. Every node
carries the span of its text. The last three forms occur in clauses only.
-/

namespace Covenant

/-- The identity of a type, a member or an initializer block. -/
abbrev DeclId := Nat

/-- The identity of a call, a `new`, or a `super(...)` statement. -/
abbrev SiteId := Nat

inductive BinaryOp
  | add
  | sub
  | mul
  | div
  | mod
  | eq
  | neq
  | lt
  | gt
  | ltEq
  | gtEq
  | and
  | or
  deriving DecidableEq, Repr, Inhabited

def BinaryOp.text : BinaryOp → String
  | add => "+"
  | sub => "-"
  | mul => "*"
  | div => "/"
  | mod => "%"
  | eq => "=="
  | neq => "!="
  | lt => "<"
  | gt => ">"
  | ltEq => "<="
  | gtEq => ">="
  | and => "&&"
  | or => "||"

inductive UnaryOp
  | neg
  | not
  deriving DecidableEq, Repr, Inhabited

def UnaryOp.text : UnaryOp → String
  | neg => "-"
  | not => "!"

namespace Surface

inductive TypeExpr
  | int (span : Span)
  | boolean (span : Span)
  | named (span : Span) (name : String)
  | array (span : Span) (elem : TypeExpr)
  deriving DecidableEq, Repr, Inhabited

namespace TypeExpr

def span : TypeExpr → Span
  | int s | boolean s | named s _ | array s _ => s

/-- The same type with every span replaced. -/
def mapSpans (f : Span → Span) : TypeExpr → TypeExpr
  | int s => int (f s)
  | boolean s => boolean (f s)
  | named s n => named (f s) n
  | array s e => array (f s) (e.mapSpans f)

end TypeExpr

inductive Expr
  | int (span : Span) (value : Int64)
  | bool (span : Span) (value : Bool)
  | null (span : Span)
  | this (span : Span)
  | name (span : Span) (ident : String)
  | binary (span : Span) (op : BinaryOp) (lhs rhs : Expr)
  | unary (span : Span) (op : UnaryOp) (operand : Expr)
  | field (span : Span) (object : Expr) (name : Located String)
  /-- A call without a receiver, `m(args)`. -/
  | call (span : Span) (site : SiteId) (method : Located String) (args : List Expr)
  | methodCall (span : Span) (site : SiteId) (object : Expr) (method : Located String)
      (args : List Expr)
  | new (span : Span) (site : SiteId) (className : Located String) (args : List Expr)
  | newArray (span : Span) (elem : TypeExpr) (length : Expr)
  | index (span : Span) (array index : Expr)
  | old (span : Span) (inner : Expr)
  | result (span : Span)
  | spread (span : Span) (collection : Expr)
  deriving Repr, Inhabited

namespace Expr

def span : Expr → Span
  | int s _ | bool s _ | null s | this s | name s _ | binary s _ _ _ | unary s _ _ | field s _ _
  | call s _ _ _ | methodCall s _ _ _ _ | new s _ _ _ | newArray s _ _ | index s _ _ | old s _
  | result s | spread s _ => s

/-- A name with its span replaced. -/
def mapName (f : Span → Span) (n : Located String) : Located String := ⟨n.val, f n.span⟩

mutual

/-- The same expression with every span replaced, those of its names and types too. -/
def mapSpans (f : Span → Span) : Expr → Expr
  | int s n => int (f s) n
  | bool s b => bool (f s) b
  | null s => null (f s)
  | this s => this (f s)
  | name s n => name (f s) n
  | binary s op l r => binary (f s) op (l.mapSpans f) (r.mapSpans f)
  | unary s op e => unary (f s) op (e.mapSpans f)
  | field s o n => field (f s) (o.mapSpans f) (mapName f n)
  | call s site m args => call (f s) site (mapName f m) (mapSpansAll f args)
  | methodCall s site o m args =>
    methodCall (f s) site (o.mapSpans f) (mapName f m) (mapSpansAll f args)
  | new s site c args => new (f s) site (mapName f c) (mapSpansAll f args)
  | newArray s t len => newArray (f s) (t.mapSpans f) (len.mapSpans f)
  | index s a i => index (f s) (a.mapSpans f) (i.mapSpans f)
  | old s e => old (f s) (e.mapSpans f)
  | result s => result (f s)
  | spread s e => spread (f s) (e.mapSpans f)

def mapSpansAll (f : Span → Span) : List Expr → List Expr
  | [] => []
  | e :: es => e.mapSpans f :: mapSpansAll f es

end

@[simp] theorem span_mapSpans (f : Span → Span) (e : Expr) : (e.mapSpans f).span = f e.span := by
  cases e <;> simp [mapSpans, span]

end Expr

end Surface

end Covenant
