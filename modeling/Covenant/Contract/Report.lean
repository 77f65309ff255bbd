import Covenant.Contract.Plan
import Covenant.Json

/-!
# The report on a program's contracts

For each member its specification, the class of its effects and what it stores
at entry; for each class its invariants; and what the checks do not cover.
-/

namespace Covenant

def EffectClass.word : EffectClass → String
  | declared => "Declared"
  | pureAccessor => "PureAccessor"
  | unconstrained => "Unconstrained"

namespace ContractPlan

def clauseTexts (cs : List BoundClause) : Json := .strs (cs.map (·.text))

def throwsReport (cs : List ThrowsClause) : Json :=
  .arr (cs.map fun t => .obj [("exception", .str t.exception), ("when", .str t.condition.text)])

/-- The slots of a snapshot with the terms that they keep. -/
def slotTexts (s : Contract.Snapshot) : List String :=
  s.slots.mapIdx fun n e => "$old" ++ toString n ++ " = " ++ e.text

def memberReport (plan : ContractPlan) (id : DeclId) (s : Specification) : Json :=
  .obj [
    ("member", .str s.member),
    ("effect_class", .str (plan.effects.classOf id).word),
    ("preconditions", .arr (s.preconditions.map clauseTexts)),
    ("postconditions", clauseTexts s.postconditions),
    ("throws", throwsReport s.throws),
    ("may_throw", throwsReport s.mayThrow),
    ("inspects", clauseTexts s.effects.inspects),
    ("mutates", clauseTexts s.effects.mutates),
    ("mutates_properties", clauseTexts s.effects.mutatesProperties),
    ("snapshot", match plan.snapshots.get? id with
      | some site => .strs (slotTexts site)
      | none => .null)]

/-- The invariants of each class that has any, inherited ones included. -/
def invariantReport (plan : ContractPlan) (env : Env) : List (String × Json) :=
  env.classes.keys.filterMap fun c =>
    match plan.invariantsOf env c with
    | [] => none
    | cs => some (c, .strs (cs.map (·.2.text)))

def report (plan : ContractPlan) (env : Env) : Json :=
  .obj [
    ("members", .arr (plan.specs.entries.map fun (id, s) => plan.memberReport id s)),
    ("invariants", .obj (plan.invariantReport env)),
    ("notes", .strs (plan.notes.map (·.message)))]

end ContractPlan

end Covenant
