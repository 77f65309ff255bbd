import Covenant.Clause.Extract
import Covenant.Contract.Bound
import Covenant.Contract.Lineage
import Covenant.Contract.EntryValues
import Covenant.Effect.Analysis
import Covenant.Parse.Program
import Covenant.Typing.Program

/-!
# The contracts of a program

All that is known of a program's contracts before any check is placed: the
specification of each member with its entry values, the invariants of each
class, and the effect analysis.
-/

namespace Covenant

structure ContractPlan where
  specs : Table DeclId Specification
  /-- The invariants that are written on each class, without those that it inherits. -/
  invariants : Effect.Invariants
  snapshots : Table DeclId Contract.Snapshot
  effects : EffectAnalysis
  errors : List Contract.Diagnostic
  notes : List Note
  deriving Inhabited

namespace ContractPlan

/-- The contracts that bound clauses make. -/
def ofBound (env : Env) (bound : Contract.Bound) : ContractPlan :=
  let (specs, snapshots) := Contract.schedule env (Contract.specifications env bound.decls)
  let effects := EffectAnalysis.ofSpecs env specs bound.invariants
  { specs, snapshots, effects
    invariants := bound.invariants
    errors := bound.errors
    notes := Effect.gapNotes env specs effects.classes }

/-- The contracts of a checked program. Clauses that make no sense are reported and left out. -/
def ofProgram (p : Surface.Program) (env : Env) : ContractPlan :=
  .ofBound env (Contract.bind env (Clause.ofProgram p) p.siteCount)

/-- The invariants of objects of a class, those of its superclasses first. -/
def invariantsOf (plan : ContractPlan) (env : Env) (className : String) :
    List (String × BoundClause) :=
  Effect.classInvariants env plan.invariants className

end ContractPlan

/-- A program in whose text, names and types nothing is wrong. -/
structure Analyzed where
  env : Env
  plan : ContractPlan
  deriving Inhabited

/-- Reads, checks and analyses a source. -/
def analyze (source : String) : Except SourceFault Analyzed := do
  let p ← SourceFault.ofGrammar (Parse.program source)
  let env ← SourceFault.ofTyping (Typing.checkProgram p)
  return ⟨env, .ofProgram p env⟩

end Covenant
