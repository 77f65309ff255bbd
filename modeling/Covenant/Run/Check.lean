import Covenant.Contract.Placement
import Covenant.Run.Eval

/-!
# Checks at work

What the checks that were placed in a program do when a run comes to them. The
clauses of a member are evaluated in its own frame. An invariant is evaluated on
each object that the obligation's path leads to, in a frame that has nothing but
that object.

The computation of the entry checks has the slots as its state, so that what was
stored stays stored if a later clause throws: the exit checks then know which
conditions were evaluated.
-/

namespace Covenant

namespace ThrowsCheck

/-- Whether the condition of a clause was true at entry. -/
def held (slots : Slots) (t : ThrowsCheck) : Bool := slots.get? t.slot == some (.bool true)

/-- Whether the condition of a clause was not evaluated: something in front of it threw. -/
def unknown (slots : Slots) (t : ThrowsCheck) : Bool := (slots.get? t.slot).isNone

end ThrowsCheck

/-- What a check demands of the objects that a callee was handed. -/
def CheckCode.obligations : CheckCode → List Obligation
  | .reverify os => os
  | _ => []

namespace Run

/-- Whether a clause is true in a frame. -/
def holds (env : Env) (calls : Calls) (f : Frame) (clause : BoundClause) : Run Bool := do
  match ← eval env calls f clause.expr with
  | .bool b => return b
  | _ => defect (.notBooleanClause clause.text)

/-- The first clause that is false; those behind it are not evaluated. -/
def firstFalse (env : Env) (calls : Calls) (f : Frame) :
    List BoundClause → Run (Option BoundClause)
  | [] => return none
  | c :: cs => do
    if ← holds env calls f c then firstFalse env calls f cs
    else return some c

/-- For each group the first clause that is false, or nothing if all clauses of some group are
true; groups behind that one are not evaluated. -/
def failures (env : Env) (calls : Calls) (f : Frame) :
    List (List BoundClause) → Run (Option (List BoundClause))
  | [] => return some []
  | group :: groups => do
    match ← firstFalse env calls f group with
    | none => return none
    | some c => return (← failures env calls f groups).map (c :: ·)

/-- A clause that is false at an exit. -/
def exitViolation (env : Env) (kind : ViolationKind) (f : Frame) (clause : BoundClause)
    (detail : ViolationDetail) : Violation where
  kind := kind
  member := env.describe f.decl
  clause := clause.text
  span := clause.span
  site := f.exit
  detail := detail

/-- A precondition none of whose groups holds, with a clause of each. -/
def entryViolation (env : Env) (f : Frame) (failed : List BoundClause) : Violation where
  kind := .precondition
  member := env.describe f.decl
  clause := String.intercalate " || " (failed.map (·.text))
  span := (failed.head?.map (·.span)).getD ⟨0, 0⟩
  site := none
  detail := .atEntry

def checkPrecondition (env : Env) (calls : Calls) (f : Frame)
    (groups : List (List BoundClause)) : Run Unit := do
  match ← failures env calls f groups with
  | none => return
  | some failed => stop (.violation (entryViolation env f failed))

def checkPostcondition (env : Env) (calls : Calls) (f : Frame) (clauses : List BoundClause) :
    Run Unit := do
  match ← firstFalse env calls f clauses with
  | none => return
  | some c =>
    let detail := if f.exit.isSome then .atReturn else .atEndOfBody
    stop (.violation (exitViolation env .postcondition f c detail))

/-- The clause about exceptions that an exit breaks, if there is one. If a condition held, the
member has to throw what its clause says. A member that throws something which a clause is about
needs a reason: a condition for it held, or is unknown, or the member may throw it. -/
def brokenThrows? (env : Env) (slots : Slots) (thrown : Option String) (checks : List ThrowsCheck)
    (mayThrow : List String) : Option (ThrowsCheck × ViolationDetail) :=
  let held := checks.filter (ThrowsCheck.held slots)
  match thrown with
  | none => held.head?.map fun t => (t, .completed t.exception)
  | some c =>
    match held.find? (!env.isSubtype c ·.exception) with
    | some t => some (t, .threwOther c t.exception)
    | none =>
      let about := checks.filter (env.isSubtype c ·.exception)
      let licensed := about.any (ThrowsCheck.unknown slots) || about.any (ThrowsCheck.held slots)
        || mayThrow.any (env.isSubtype c)
      if licensed then none else about.head?.map fun t => (t, .threwUnlicensed c)

def checkThrows (env : Env) (f : Frame) (checks : List ThrowsCheck) (mayThrow : List String) :
    Run Unit := do
  let thrown ← match f.thrown with
    | some e => some <$> classOf e
    | none => pure none
  match brokenThrows? env f.slots thrown checks mayThrow with
  | none => return
  | some (t, detail) =>
    stop (.violation (exitViolation env .exceptionalPostcondition f t.clause detail))

/-- Evaluates in a frame with the slots as they are now. -/
def withSlots {α : Type} (f : Frame) (x : Frame → Run α) : RunWith Slots α := do
  let slots ← getThe Slots
  keep (x { f with slots })

/-- Stores values in slots, the first in slot `n`. -/
def store (env : Env) (calls : Calls) (f : Frame) : Nat → List Typed.Expr → RunWith Slots Unit
  | _, [] => return
  | n, e :: es => do
    let v ← withSlots f (eval env calls · e)
    modifyThe Slots (·.insert n v)
    store env calls f (n + 1) es

/-- A check of a member at its entry or at an exit. -/
def runCode (env : Env) (calls : Calls) (f : Frame) : CheckCode → RunWith Slots Unit
  | .snapshot s => store env calls f 0 s.slots
  | .precondition groups => withSlots f (checkPrecondition env calls · groups)
  | .postcondition clauses => withSlots f (checkPostcondition env calls · clauses)
  | .throws checks mayThrow => withSlots f (checkThrows env · checks mayThrow)
  | .reverify _ => return

def runCodes (env : Env) (calls : Calls) (f : Frame) : List CheckCode → RunWith Slots Unit
  | [] => return
  | c :: cs => do
    runCode env calls f c
    runCodes env calls f cs

/-- What a method yields that takes nothing and is known by its name only. -/
def callAccessor (env : Env) (calls : Calls) (r : Ref) (name : String) : Run Value := do
  let c ← classOf r
  match (env.lookupMethods c name).find? fun m => !m.isStatic && m.params.isEmpty with
  | some m => calls.invoke (env.dispatch c m.id) (some r) []
  | none => defect (.noAccessor name c)

/-- Where one step leads to from an object. -/
def stepFrom (env : Env) (calls : Calls) (r : Ref) : Effect.Step → Run (List Value)
  | .field name => return [← getField r name]
  | .accessor name => return [← callAccessor env calls r name]
  | .elements => do
    match (← get).heap[r]? with
    | some (.array items) => return items.toList
    | _ => return []

/-- Where one step leads to from several values, in their order. Only objects lead anywhere. -/
def stepFromAll (env : Env) (calls : Calls) (s : Effect.Step) : List Value → Run (List Value)
  | [] => return []
  | .ref r :: vs => do
    let here ← stepFrom env calls r s
    return here ++ (← stepFromAll env calls s vs)
  | _ :: vs => stepFromAll env calls s vs

def walk (env : Env) (calls : Calls) : List Effect.Step → List Value → Run (List Value)
  | [], vs => return vs
  | s :: steps, vs => do walk env calls steps (← stepFromAll env calls s vs)

/-- Where a path starts, as the callee sees it, and the steps that are left. A path from a class
starts at the value of the static field that comes first. -/
def startOf (env : Env) (p : Effect.Path) (this : Option Ref) (args : List Value) :
    Run (List Value × List Effect.Step) := do
  match p.root, p.trail with
  | .this, steps => return (this.toList.map .ref, steps)
  | .param i, steps => return ((args[i]?).toList, steps)
  | .static c, .field name :: steps =>
    return (((← get).statics.get? (staticKey env c name)).toList, steps)
  | .static _, steps => return ([], steps.tail)

/-- The objects that a path denotes for the receiver and the arguments of a call. A link that is
`null` ends the way there. -/
def reach (env : Env) (calls : Calls) (p : Effect.Path) (this : Option Ref) (args : List Value) :
    Run (List Ref) := do
  let (vs, steps) ← startOf env p this args
  return (← walk env calls steps vs).filterMap Value.ref?

/-- An invariant that is false behind a call. -/
def callViolation (env : Env) (site : SiteId) (o : Obligation) : Violation where
  kind := .invariant
  member := o.className
  clause := o.clause.text
  span := o.clause.span
  site := (env.callSites.get? site).map (·.span)
  detail := .afterCall (((env.callSites.get? site).map (env.describe ·.callee)).getD "") o.object

/-- Checks the invariant of an obligation on objects, one after the other. -/
def checkObjects (env : Env) (calls : Calls) (site : SiteId) (o : Obligation) :
    List Ref → Run Unit
  | [] => return
  | r :: rs => do
    if ← holds env calls (Frame.start o.clause.origin (some r) []) o.clause then
      checkObjects env calls site o rs
    else stop (.violation (callViolation env site o))

def checkObligations (env : Env) (calls : Calls) (site : SiteId) (this : Option Ref)
    (args : List Value) : List Obligation → Run Unit
  | [] => return
  | o :: os => do
    checkObjects env calls site o (← reach env calls o.object this args)
    checkObligations env calls site this args os

/-- The checks behind a call that was made with an object and arguments. -/
def recheckWith (p : WovenProgram) (calls : Calls) (caller : DeclId) (site : SiteId)
    (this : Option Ref) (args : List Value) : Run Unit :=
  checkObligations p.env calls site this args
    ((p.codesAt caller (.afterCall site)).flatMap CheckCode.obligations)

end Run

end Covenant
