import Covenant.Typed.Expr

/-!
# Paths

A path denotes objects by the way to them: from `this`, a parameter or a class,
along fields, calls without arguments, and the elements of arrays. Effect
targets and the places that an invariant reads are paths, and a target covers
what lies behind it.

Each step also has the static type of what it leads to. Types take no part in
comparisons: two paths are the same if their roots and steps are.
-/

namespace Covenant.Effect

inductive Root
  | this
  | param (index : Nat)
  | static (className : String)
  deriving DecidableEq, Repr, Inhabited

inductive Step
  | field (name : String)
  /-- A call without arguments. -/
  | accessor (name : String)
  /-- All elements of an array. -/
  | elements
  deriving DecidableEq, Repr, Inhabited

structure Path where
  root : Root
  rootType : Ty
  steps : List (Step × Ty)
  deriving DecidableEq, Repr, Inhabited

namespace Path

/-- The object itself. -/
def this (className : String) : Path := ⟨.this, .ofClass className, []⟩

def param (index : Nat) (type : Ty) : Path := ⟨.param index, type, []⟩

/-- One step further. -/
def step (p : Path) (s : Step) (type : Ty) : Path := { p with steps := p.steps ++ [(s, type)] }

/-- The steps without their types. -/
def trail (p : Path) : List Step := p.steps.map (·.1)

/-- The static type of what the path leads to. -/
def type (p : Path) : Ty := (p.steps.getLast?.map (·.2)).getD p.rootType

/-- Whether two paths have one root and the same steps. -/
def same (p q : Path) : Bool := p.root == q.root && p.trail == q.trail

/-- Whether `q` starts with `p`. -/
def dominates (p q : Path) : Bool := p.root == q.root && p.trail.isPrefixOf q.trail

/-- Whether one of the two starts with the other. -/
def overlaps (p q : Path) : Bool := p.dominates q || q.dominates p

/-- The path cut after each number of steps, the bare root first. -/
def prefixes (p : Path) : List Path :=
  (List.range (p.steps.length + 1)).map fun n => { p with steps := p.steps.take n }

/-- The steps of `p` from where `base` leads to. -/
def from_ (p base : Path) : Path := { base with steps := base.steps ++ p.steps }

/-- The path as seen from the outside of an object that stands at `place`. -/
def reroot (p place : Path) : Path :=
  match p.root with
  | .this => p.from_ place
  | .param _ | .static _ => p

/-- The path of a called member in the frame of its caller, where `receiver` and `args` are the
paths of what it was called with; none where the caller has no path. -/
def substitute (p : Path) (receiver : Option Path) (args : List (Option Path)) : Option Path :=
  match p.root with
  | .this => receiver.map p.from_
  | .param i => (args[i]?).join.map p.from_
  | .static _ => some p

def stepText : Step → String
  | .field name => "." ++ name
  | .accessor name => "." ++ name ++ "()"
  | .elements => "[*]"

def rootText : Root → String
  | .this => "this"
  | .param i => "param#" ++ toString i
  | .static c => c

def text (p : Path) : String := rootText p.root ++ String.join (p.trail.map stepText)

mutual

/-- The path that an expression denotes. A local variable is a path if it is one of `params`. -/
def of? (params : List (String × Ty)) : Typed.Expr → Option Path
  | .this _ c => some (this c)
  | .param _ t i _ => some (param i t)
  | .var _ t name => (params.findIdx? (·.1 == name)).map fun i => param i t
  | .staticField _ t c name => some ⟨.static c, .void, [(.field name, t)]⟩
  | .field _ t object name => (of? params object).map (·.step (.field name) t)
  | .call _ t _ receiver _ name args =>
    if args.isEmpty then (ofOpt? params receiver).map (·.step (.accessor name) t) else none
  | .index _ t array _ => (of? params array).map (·.step .elements t)
  | e@(.spread _ x) => (of? params x).map (·.step .elements e.type)
  | .length _ array => of? params array
  | _ => none

def ofOpt? (params : List (String × Ty)) : Option Typed.Expr → Option Path
  | some e => of? params e
  | none => none

end

end Path

/-- Puts `x` at the end unless something equal is there. -/
def addNew {α : Type} (eq : α → α → Bool) (xs : List α) (x : α) : List α :=
  if xs.any (eq · x) then xs else xs ++ [x]

/-- The first of each class of equal elements. -/
def firsts {α : Type} (eq : α → α → Bool) (xs : List α) : List α := xs.foldl (addNew eq) []

end Covenant.Effect
