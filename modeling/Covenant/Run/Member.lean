import Covenant.Run.Check
import Covenant.Run.Exec

/-!
# Members at work

What happens when a member is invoked: checks at its entry, its body, and checks
at the exit that it takes. A constructor first has the superclass part of the
object made, then the fields and blocks of its own class, and only then runs the
rest of its body.

Here the recursion through calls is closed. `calls n` is what may happen behind a
call with a bound of `n`: every call leads to a smaller bound, and a loop below
it has as many rounds.
-/

namespace Covenant.Run

/-- Runs a computation from a local state on, and hands over how it ended with the state it left. -/
def withState {σ α : Type} (x : RunWith σ α) (s : σ) : Run (Except Unwind α × σ) :=
  ExceptT.mk do
    let r ← x.run s
    return .ok r

/-- The variables at the start of a body: its parameters. -/
def paramScopes (m : MethodInfo) (args : List Value) : Scopes :=
  [.ofList ((m.params.map (·.1)).zip args)]

/-- Runs the initializer of a field or a block on a new object. -/
def runInitItem (env : Env) (calls : Calls) (this : Ref) : InitItem → Run Unit
  | .field id => do
    match env.field? id, env.fieldInits.get? id with
    | some field, some init =>
      let v ← eval env calls (Frame.start id (some this) []) init
      setField this field.name v
    | _, _ => return
  | .block id => do
    let f := Frame.start id (some this) []
    let (r, _) ← withState (execAll env calls f ((env.body? id).getD [])) f.scopes
    let _ ← ofResult r

def runInitItems (env : Env) (calls : Calls) (this : Ref) : List InitItem → Run Unit
  | [] => return
  | item :: items => do
    runInitItem env calls this item
    runInitItems env calls this items

/-- Runs the initializers of a class on a new object, in textual order. -/
def runInitializers (env : Env) (calls : Calls) (this : Ref) (className : String) : Run Unit :=
  match env.class? className with
  | some info => runInitItems env calls this info.initOrder
  | none => return

/-- Runs the constructor without parameters of the superclass, if there is a superclass. -/
def runSuperDefault (env : Env) (calls : Calls) (this : Ref) (className : String) : Run Unit :=
  match (env.class? className).bind (·.superclass) with
  | none => return
  | some s =>
    match env.defaultConstructor? s with
    | some ctor => do let _ ← calls.invoke ctor.id (some this) []
    | none => defect (.noDefaultConstructor s)

/-- The first part of a constructor, which makes the superclass part of the object, and the
statements that are left. -/
def runSuper (env : Env) (calls : Calls) (f : Frame) (this : Ref) (className : String) :
    List Typed.Stmt → RunWith Scopes (List Typed.Stmt)
  | .superCall _ _ ctor args :: rest => do
    let vs ← inScope f (evalAll env calls · args)
    let _ ← keep (calls.invoke ctor (some this) vs)
    return rest
  | body => do
    keep (runSuperDefault env calls this className)
    return body

def runConstructor (env : Env) (calls : Calls) (f : Frame) (m : MethodInfo) :
    RunWith Scopes Flow :=
  match f.this with
  | none => keep (defect .constructorWithoutObject)
  | some this => do
    let rest ← runSuper env calls f this m.owner ((env.body? m.id).getD [])
    keep (runInitializers env calls this m.owner)
    execAll env calls f rest

def runMethod (env : Env) (calls : Calls) (f : Frame) (m : MethodInfo) : RunWith Scopes Flow :=
  match if m.hasBody then env.body? m.id else none with
  | some body => execAll env calls f body
  | none => keep do
    let c ← match f.this with
      | some r => classOf r
      | none => pure ""
    fatal (.noImplementation (env.describe m.id) c)

def runBody (env : Env) (calls : Calls) (f : Frame) (m : MethodInfo) : RunWith Scopes Flow :=
  if m.isConstructor then runConstructor env calls f m else runMethod env calls f m

/-- The frame at a normal exit. -/
def Frame.returning (f : Frame) : Flow → Frame
  | .normal => f
  | .ret v span => { f with result := v, exit := some span }

/-- Leaves a member in the way that its body ended. Only a value or an exception meets checks. -/
def leave (p : WovenProgram) (calls : Calls) (f : Frame) (r : Except Unwind Flow) : Run Value := do
  match r with
  | .ok flow =>
    let f := Frame.returning f flow
    let (checked, _) ← withState (runCodes p.env calls f (p.codesAt f.decl .normalExit)) f.slots
    ofResult checked
    return f.result
  | .error (.throw e) =>
    let f := { f with thrown := some e }
    let (checked, _) ←
      withState (runCodes p.env calls f (p.codesAt f.decl .exceptionalExit)) f.slots
    ofResult checked
    stop (.throw e)
  | .error u => stop u

/-- Runs a member from its entry checks to its exit checks. The body does not run if an entry check
stops early, but the exit checks do if it was by an exception. -/
def activate (p : WovenProgram) (calls : Calls) (m : MethodInfo) (this : Option Ref)
    (args : List Value) : Run Value := do
  let f := { Frame.start m.id this args with scopes := paramScopes m args }
  let (entered, slots) ← withState (runCodes p.env calls f (p.codesAt m.id .entry)) .empty
  let f := { f with slots }
  match entered with
  | .ok () =>
    let (completed, scopes) ← withState (runBody p.env calls f m) f.scopes
    leave p calls { f with scopes } completed
  | .error u => leave p calls f (.error u)

/-- Runs a computation one level deeper. -/
def deeper {α : Type} (x : Run α) : Run α :=
  ExceptT.mk do
    modify fun s => { s with depth := s.depth + 1 }
    let r ← x.run
    modify fun s => { s with depth := s.depth - 1 }
    return r

/-- Invokes a member with at most `limit` members active. -/
def invokeWith (p : WovenProgram) (limit : Nat) (calls : Calls) (id : DeclId) (this : Option Ref)
    (args : List Value) : Run Value := do
  match p.env.method? id with
  | none => defect (.unknownMember id)
  | some m =>
    if limit ≤ (← get).depth then fatal (.recursionLimit m.qualifiedName limit)
    else deeper (activate p calls m this args)

/-- What happens behind calls if every chain of calls and every loop is shorter than a bound. -/
def calls (p : WovenProgram) (limit : Nat) : Nat → Calls
  | 0 => ⟨fun _ _ _ => exhausted, fun _ _ _ _ => exhausted, 0⟩
  | n + 1 => {
    invoke := fun id this args => invokeWith p limit (calls p limit n) id this args
    recheck := fun caller site this args =>
      recheckWith p (calls p limit n) caller site this args
    rounds := n }

end Covenant.Run
