import Covenant.Run.Member

/-!
# Runs

A run starts at an entry point: a static method without parameters, written with
its class and a dot in front. It gives the static fields their first values and
then invokes the method. Several runs can follow one another on one heap.
-/

namespace Covenant

namespace Run

/-- The name of an entry point, split at its first dot. -/
def splitEntry? (entry : String) : Option (String × String) :=
  let cs := entry.toList
  let before := cs.takeWhile (· != '.')
  match cs.drop before.length with
  | [] => none
  | _ :: name => some (String.ofList before, String.ofList name)

/-- The method that an entry point names. -/
def findEntry (env : Env) (entry : String) : Except RunError DeclId :=
  match splitEntry? entry with
  | none => .error (.unknownEntry entry)
  | some (className, name) =>
    match env.lookupMethods className name with
    | [] => .error (.unknownEntry entry)
    | candidates =>
      match candidates.find? fun m => m.isStatic && m.params.isEmpty with
      | some m => .ok m.id
      | none => .error (.badEntry entry)

def staticFields (env : Env) : List FieldInfo :=
  (env.classes.values.flatMap (·.fields)).filterMap env.field? |>.filter (·.isStatic)

/-- Gives every static field the value of its type. -/
def resetStatics (fields : List FieldInfo) : Run Unit :=
  modify fun m => { m with
    statics := m.statics.insertAll
      (fields.map fun f => ((f.owner, f.name), Value.default f.type)) }

/-- Evaluates the initializers of static fields. -/
def evalStatics (env : Env) (calls : Calls) : List FieldInfo → Run Unit
  | [] => return
  | f :: fs => do
    match env.fieldInits.get? f.id with
    | some init =>
      let v ← eval env calls (Frame.start f.id none []) init
      modify fun m => { m with statics := m.statics.insert (f.owner, f.name) v }
    | none => pure ()
    evalStatics env calls fs

def initStatics (env : Env) (calls : Calls) : Run Unit := do
  let fields := staticFields env
  resetStatics fields
  evalStatics env calls fields

/-- How a run ends, if it can go on to its end. -/
def toOutcome : Except Unwind Value → Steps (Except RunError Outcome)
  | .ok v => return .ok (.returned v)
  | .error (.throw e) => return .ok (.threw (((← get).heap.className? e).getD ""))
  | .error (.violation v) => return .ok (.violated v)
  | .error (.fatal e) => return .error e

end Run

/-- Runs a program from an entry point, on a machine on which others may have run before, with at
most `limit` members active and within a bound on calls and rounds. -/
def WovenProgram.run (p : WovenProgram) (limit bound : Nat) (entry : String) :
    Steps (Except RunError Outcome) :=
  match Run.findEntry p.env entry with
  | .error e => return .error e
  | .ok id => do
    let calls := Run.calls p limit bound
    let r ← ExceptT.run do
      Run.initStatics p.env calls
      calls.invoke id none []
    Run.toOutcome r

/-- A bound that no run comes near which ends within a lifetime. -/
def Run.ample : Nat := 1000000000000000000

/-- Why a source could not be run to its end. -/
inductive RunFault
  | build (fault : BuildFault)
  | runtime (error : RunError)

def RunFault.text : RunFault → String
  | build fault => fault.text
  | runtime error => "runtime error: " ++ error.text

/-- Makes a source ready and runs it from an entry point on a fresh machine. -/
def runSource (source entry : String) (config : Config) (bound : Nat) :
    Option (Except RunFault Outcome) :=
  match build source config.checks with
  | .error fault => some (.error (.build fault))
  | .ok built => do
    let (r, _) ← (built.program.run config.runtime.maxCallDepth bound entry).run .initial
    return r.mapError .runtime

end Covenant
