import Covenant.Main
import Covenant.Parse.Clause
import Covenant.Proofs.AccessorReads
import Covenant.Proofs.CheckedCalls
import Covenant.Proofs.DepthLimits
import Covenant.Proofs.DisabledChecks
import Covenant.Proofs.DispatchedCalls
import Covenant.Proofs.ExceptionalExits
import Covenant.Proofs.FaithfulClauses
import Covenant.Proofs.Fields
import Covenant.Proofs.FirstRaised
import Covenant.Proofs.GapNotes
import Covenant.Proofs.Lookups
import Covenant.Proofs.MoreTargets
import Covenant.Proofs.NewObjects
import Covenant.Proofs.OrderedTypes
import Covenant.Proofs.PureAccessors
import Covenant.Proofs.ReachedTargets
import Covenant.Proofs.ReturnedValues
import Covenant.Proofs.ScheduledClauses
import Covenant.Proofs.SoundBuilds
import Covenant.Proofs.SoundChecks
import Covenant.Proofs.SoundExec
import Covenant.Proofs.SoundMembers
import Covenant.Proofs.SoundPrograms
import Covenant.Proofs.StoredTerms
import Covenant.Proofs.UndeclaredCalls
import Covenant.Proofs.WeakerPreconditions
import Covenant.Proofs.WovenClauses
import Covenant.Proofs.WrittenTerms
import Covenant.Proofs.IndependentRuns
import Covenant.Proofs.ClausePieces
import Covenant.Proofs.ClauseSpans
import Covenant.Proofs.DenseNumbers
import Covenant.Proofs.KeptCalls
import Covenant.Proofs.HeapDiscipline
import Covenant.Proofs.EvaluatedCalls
import Covenant.Proofs.CallChains
import Covenant.Proofs.ReadPlaces
import Covenant.Proofs.LeastPurity
import Covenant.Proofs.NeededChecks
import Covenant.Proofs.CheckedScopes
import Covenant.Proofs.CountedArguments
import Covenant.Proofs.Beginnings
import Covenant.Proofs.BegunMembers
import Covenant.Proofs.ScopedRuns
import Covenant.Proofs.RefusedEntries
import Covenant.Proofs.SkippedComments
import Covenant.Proofs.SeparateClauses
import Covenant.Proofs.ConstructionOrder
import Covenant.Proofs.PathLaws
import Covenant.Proofs.EffectlessTerms
import Covenant.Proofs.SharedSyntax
import Covenant.Proofs.LaidTokens
