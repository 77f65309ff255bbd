import Covenant.Effect.Path
import Covenant.Effect.Purity

/-!
# Which invariants a call can break

A member that declares effects mutates what its targets cover and what its calls
mutate, as far as a `mutates_properties` target licenses them. Its closed set
collects all of that as paths in its own frame. A call of it can break an
invariant of every object along these paths that reads something which overlaps
the closed set.

Nothing is inferred from bodies. A member that declares nothing and is no pure
accessor may have mutated anything: the objects that it was handed are checked,
and where a licensed call leads to it the closed set misses something, which is
noted.
-/

namespace Covenant

inductive EffectClass
  | declared
  | pureAccessor
  | unconstrained
  deriving DecidableEq, Repr, Inhabited

inductive Reverification
  | required
  | notRequired
  /-- The member declares nothing, so nothing is known. -/
  | gap
  deriving DecidableEq, Repr, Inhabited

/-- An invariant to check on an object after a call; the path is in the frame of the callee. -/
structure Obligation where
  object : Effect.Path
  /-- The class that the invariant is written on. -/
  className : String
  clause : BoundClause
  deriving DecidableEq, Repr, Inhabited

/-- Something that the checks do not cover. -/
structure Note where
  message : String
  span : Span
  deriving DecidableEq, Repr, Inhabited

structure EffectAnalysis where
  classes : Table DeclId EffectClass
  closures : Table DeclId (List Effect.Path)
  obligations : Table DeclId (List Obligation)
  deriving Inhabited

namespace Effect

/-- The invariants that are written on each class. -/
abbrev Invariants := Table String (List BoundClause)

/-- The invariants of objects of a class, those of its superclasses first, each with the class that
it is written on. -/
def classInvariants (env : Env) (invariants : Invariants) (className : String) :
    List (String × BoundClause) :=
  (env.classChain className).reverse.flatMap fun info =>
    ((invariants.get? info.name).getD []).map fun c => (info.name, c)

/-- The path whose property a part of an invariant reads. A call with arguments may read anything
behind its receiver. -/
def readPath? : Typed.Expr → Option Path
  | e@(.field ..) | e@(.index ..) | e@(.length ..) | e@(.staticField ..) => Path.of? [] e
  | e@(.call _ _ _ (some object) _ _ args) =>
    if args.isEmpty then Path.of? [] e else Path.of? [] object
  | _ => none

/-- What an invariant reads, as paths from `this`. -/
def readSet (invariant : BoundClause) : List Path :=
  firsts Path.same (invariant.expr.parts.filterMap readPath?)

/-- The class of a member. One with effect clauses, of its own or inherited, is declared. -/
def classify (env : Env) (specs : Table DeclId Specification) (id : DeclId) : EffectClass :=
  if (declaredEffects? specs id).isSome then .declared
  else if isPure env specs id then .pureAccessor
  else .unconstrained

def classifyAll (env : Env) (specs : Table DeclId Specification) : Table DeclId EffectClass :=
  ⟨env.methods.keys.map fun id => (id, classify env specs id)⟩

/-- The class of a member; what is not known may do anything. -/
def classOf (classes : Table DeclId EffectClass) (id : DeclId) : EffectClass :=
  (classes.get? id).getD .unconstrained

def paths (cs : List BoundClause) : List Path := cs.filterMap fun c => Path.of? [] c.expr

/-- What a member mutates itself: its targets, and the new object if it is a constructor. -/
def ownTargets (m : MethodInfo) (s : Specification) : List Path :=
  (if m.isConstructor then [.this m.owner] else []) ++ paths s.effects.mutates

/-- The receiver of a call that the member licenses, as a path in its frame. -/
def licensedReceiver? (m : MethodInfo) (s : Specification) (site : CallSite) : Option Path :=
  if site.kind = .method then
    (site.receiver.bind (Path.of? m.params)).filter fun p =>
      (paths s.effects.mutatesProperties).any (·.dominates p)
  else none

/-- What a licensed call mutates, given what its callee does. -/
def callTargets (m : MethodInfo) (site : CallSite) (receiver : Path) (callee : List Path) :
    List Path :=
  callee.filterMap (·.substitute (some receiver) (site.args.map (Path.of? m.params)))

/-- The closed set of a member, where those of `visiting` add nothing. -/
def closureFrom (env : Env) (specs : Table DeclId Specification)
    (classes : Table DeclId EffectClass) : Nat → List DeclId → DeclId → List Path
  | 0, _, _ => []
  | n + 1, visiting, id =>
    if classOf classes id != .declared || visiting.contains id then []
    else
      match specs.get? id, env.method? id with
      | some s, some m =>
        let called := (env.callSitesOf id).flatMap fun site =>
          match licensedReceiver? m s site with
          | some receiver =>
            callTargets m site receiver
              (closureFrom env specs classes n (id :: visiting) site.callee)
          | none => []
        firsts Path.same (ownTargets m s ++ called)
      | _, _ => []

/-- The closed set of a member. Each step goes to a member that was not visited, so there are no
more steps than members. -/
def closure (env : Env) (specs : Table DeclId Specification) (classes : Table DeclId EffectClass)
    (id : DeclId) : List Path :=
  closureFrom env specs classes (env.methods.size + 1) [] id

def membersOf (classes : Table DeclId EffectClass) (c : EffectClass) : List DeclId :=
  (classes.entries.filter (·.2 == c)).map (·.1)

def closures (env : Env) (specs : Table DeclId Specification)
    (classes : Table DeclId EffectClass) : Table DeclId (List Path) :=
  ⟨(membersOf classes .declared).map fun id => (id, closure env specs classes id)⟩

/-- Whether the invariant of an object at `object` reads something that the closed set overlaps. -/
def touches (closed : List Path) (object : Path) (invariant : BoundClause) : Bool :=
  (readSet invariant).any fun r => closed.any (·.overlaps (r.reroot object))

end Effect

/-- Whether a call of `id` can break an invariant of the object at `object`. -/
def EffectAnalysis.reverification (a : EffectAnalysis) (id : DeclId) (object : Effect.Path)
    (invariant : BoundClause) : Reverification :=
  if Effect.classOf a.classes id == .unconstrained then .gap
  else
    match a.closures.get? id with
    | none => .notRequired
    | some closed => if Effect.touches closed object invariant then .required else .notRequired

/-- The class of a member. -/
def EffectAnalysis.classOf (a : EffectAnalysis) (id : DeclId) : EffectClass :=
  Effect.classOf a.classes id

/-- Whether two obligations ask for the same check. -/
def Obligation.same (a b : Obligation) : Bool := a.object.same b.object && a.clause == b.clause

namespace Effect

/-- The invariants of the object at a path. -/
def invariantsAt (env : Env) (invariants : Invariants) (object : Path) : List Obligation :=
  match object.type.className? with
  | some c =>
    (classInvariants env invariants c).map fun (owner, clause) => ⟨object, owner, clause⟩
  | none => []

/-- What to check after a call of a declared member: the invariants along its closed set that it
touches. -/
def declaredObligations (env : Env) (invariants : Invariants) (closed : List Path) :
    List Obligation :=
  firsts Obligation.same <|
    ((closed.flatMap Path.prefixes).flatMap (invariantsAt env invariants)).filter fun o =>
      touches closed o.object o.clause

/-- What to check after a call of a member that declares nothing: all invariants of its receiver
and its arguments. -/
def handedObligations (env : Env) (invariants : Invariants) (m : MethodInfo) : List Obligation :=
  let receiver := if m.isStatic then [] else [Path.this m.owner]
  let args := m.paramTypes.mapIdx fun i t => Path.param i t
  (receiver ++ args).flatMap (invariantsAt env invariants)

def obligations (env : Env) (invariants : Invariants) (classes : Table DeclId EffectClass)
    (closures : Table DeclId (List Path)) : Table DeclId (List Obligation) :=
  let declared := closures.entries.map fun (id, closed) =>
    (id, declaredObligations env invariants closed)
  let unconstrained := (membersOf classes .unconstrained).map fun id =>
    (id, ((env.method? id).map (handedObligations env invariants)).getD [])
  ⟨(declared ++ unconstrained).filter fun (_, os) => !os.isEmpty⟩

/-- Whether a declared member licenses a call of a member that declares nothing. -/
def isGap (env : Env) (specs : Table DeclId Specification) (classes : Table DeclId EffectClass)
    (site : CallSite) : Bool :=
  site.kind = .method && classOf classes site.callee == .unconstrained &&
    match site.receiver with
    | none => false
    | some receiver =>
      classOf classes site.caller == .declared &&
        (env.method? site.caller).any fun m =>
          let path := Path.of? m.params receiver
          (specs.get? site.caller).any fun s =>
            (paths s.effects.mutatesProperties).any fun licence => path.any licence.dominates

def gapNote (env : Env) (site : CallSite) : Note :=
  ⟨"`" ++ env.describe site.callee ++
    "` declares no effects; invariants of objects enclosing its receiver are not re-verified",
    site.span⟩

/-- The calls that closed sets miss, in their order. -/
def gapNotes (env : Env) (specs : Table DeclId Specification)
    (classes : Table DeclId EffectClass) : List Note :=
  (env.callSites.values.filter (isGap env specs classes)).map (gapNote env)

end Effect

/-- Analyses the effects of all members. -/
def EffectAnalysis.ofSpecs (env : Env) (specs : Table DeclId Specification)
    (invariants : Effect.Invariants) : EffectAnalysis :=
  let classes := Effect.classifyAll env specs
  let closures := Effect.closures env specs classes
  { classes, closures, obligations := Effect.obligations env invariants classes closures }

end Covenant
