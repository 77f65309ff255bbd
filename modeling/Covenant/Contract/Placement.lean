import Covenant.Config.Basic
import Covenant.Contract.Plan

/-!
# Placing checks

Each specification becomes checks at the entry and the exits of its member, and
each call that can break invariants is followed by checks of them. A kind of
checks that is switched off is not placed at all.

A constructor stores its entry values before anything else; a method stores them
once its precondition holds. Entry values serve postconditions and clauses about
exceptions, and are stored if one of the two kinds is checked.
-/

namespace Covenant

inductive ProgramPoint
  | entry
  /-- Every normal exit, behind all `finally` blocks. -/
  | normalExit
  | exceptionalExit
  | afterCall (site : SiteId)
  deriving DecidableEq, Repr, Inhabited

/-- A clause of `throws` as an exit sees it: its condition's value is in a slot. -/
structure ThrowsCheck where
  exception : String
  slot : Nat
  clause : BoundClause
  deriving DecidableEq, Repr, Inhabited

inductive CheckCode
  | snapshot (s : Contract.Snapshot)
  /-- One group is enough, of which every clause has to hold. -/
  | precondition (groups : List (List BoundClause))
  | postcondition (clauses : List BoundClause)
  | throws (checks : List ThrowsCheck) (mayThrow : List String)
  /-- Invariants of objects that the callee was handed. -/
  | reverify (obligations : List Obligation)
  deriving DecidableEq, Repr, Inhabited

/-- A check in its place. -/
structure PlacedCheck where
  decl : DeclId
  point : ProgramPoint
  code : CheckCode
  deriving DecidableEq, Repr, Inhabited

namespace Contract

/-- `x`, if `b` holds. -/
def listIf {α : Type} (b : Bool) (x : α) : List α := if b then [x] else []

def entryCodes (checks : Checks) (isConstructor : Bool) (s : Specification)
    (snapshot : Option Snapshot) : List CheckCode :=
  let stored := match snapshot with
    | some site => listIf (checks.postconditions || checks.exceptional) (.snapshot site)
    | none => []
  let pre := listIf (checks.preconditions && !s.preconditions.isEmpty)
    (.precondition s.preconditions)
  if isConstructor then stored ++ pre else pre ++ stored

def throwsCode (s : Specification) : CheckCode :=
  .throws ((s.throws.zip s.throwsSlots).map fun (t, slot) => ⟨t.exception, slot, t.condition⟩)
    (s.mayThrow.map (·.exception))

/-- The checks of a member, with the points where they stand. -/
def memberCodes (checks : Checks) (isConstructor : Bool) (s : Specification)
    (snapshot : Option Snapshot) : List (ProgramPoint × CheckCode) :=
  let exceptional := checks.exceptional && !s.throws.isEmpty
  (entryCodes checks isConstructor s snapshot).map (fun c => (.entry, c))
    ++ listIf (checks.postconditions && !s.postconditions.isEmpty)
      (.normalExit, .postcondition s.postconditions)
    ++ listIf exceptional (.normalExit, throwsCode s)
    ++ listIf exceptional (.exceptionalExit, throwsCode s)

/-- Every invariant of the class that a constructor makes objects of. -/
def establish (env : Env) (plan : ContractPlan) (ctor : DeclId) : List Obligation :=
  match env.method? ctor with
  | some m =>
    (plan.invariantsOf env m.owner).map fun (owner, clause) => ⟨.this m.owner, owner, clause⟩
  | none => []

/-- What to check behind a call. Nothing follows the call of a superclass constructor: the object
is not complete. -/
def siteObligations (env : Env) (plan : ContractPlan) (site : CallSite) : List Obligation :=
  let broken := (plan.effects.obligations.get? site.callee).getD []
  match site.kind with
  | .super => []
  | .method => Effect.firsts Obligation.same broken
  | .new => broken.foldl (Effect.addNew Obligation.same) (establish env plan site.callee)

def siteCodes (env : Env) (plan : ContractPlan) (site : CallSite) : List PlacedCheck :=
  match siteObligations env plan site with
  | [] => []
  | os => [⟨site.caller, .afterCall site.id, .reverify os⟩]

def specCodes (env : Env) (plan : ContractPlan) (checks : Checks) (id : DeclId)
    (s : Specification) : List PlacedCheck :=
  (memberCodes checks ((env.method? id).any (·.isConstructor)) s (plan.snapshots.get? id)).map
    fun (point, code) => ⟨id, point, code⟩

/-- All checks of a program in their order: those of members, then those behind calls. -/
def weave (env : Env) (plan : ContractPlan) (checks : Checks) : List PlacedCheck :=
  plan.specs.entries.flatMap (fun (id, s) => specCodes env plan checks id s)
    ++ if checks.invariants then env.callSites.values.flatMap (siteCodes env plan) else []

end Contract

/-- A program that is ready to run. -/
structure WovenProgram where
  env : Env
  checks : List PlacedCheck
  deriving Inhabited

/-- The checks at a point of a declaration, in the order in which they were placed. -/
def WovenProgram.codesAt (p : WovenProgram) (decl : DeclId) (point : ProgramPoint) :
    List CheckCode :=
  (p.checks.filter fun c => c.decl == decl && c.point == point).map (·.code)

/-- Why a source cannot be run. -/
inductive BuildFault
  | source (fault : SourceFault)
  | clauses (errors : List Contract.Diagnostic) (notes : List Note)

def BuildFault.text : BuildFault → String
  | source fault => fault.text
  | clauses errors _ => toString errors.length ++ " invalid contract clause(s)"

structure Build where
  plan : ContractPlan
  program : WovenProgram

/-- Makes a source ready to run. One clause that makes no sense is enough to refuse it. -/
def build (source : String) (checks : Checks) : Except BuildFault Build :=
  match analyze source with
  | .error fault => .error (.source fault)
  | .ok ⟨env, plan⟩ =>
    if plan.errors.isEmpty then .ok ⟨plan, ⟨env, Contract.weave env plan checks⟩⟩
    else .error (.clauses plan.errors plan.notes)

end Covenant
