import Covenant.Fault.Grammar
import Covenant.Fault.Clause

/-!
# Faults of a source

Everything that a source can be refused for, with the place in it. There are two
kinds: the text is malformed, or what it says is.
-/

namespace Covenant

inductive Fault
  | grammar (fault : GrammarFault)
  | typing (fault : TypingFault)
  | clause (fault : ClauseFault)
  deriving DecidableEq, Repr, Inhabited

inductive FaultKind
  | ofText
  | ofType
  deriving DecidableEq, Repr, Inhabited

namespace Fault

def kind : Fault → FaultKind
  | grammar _ => .ofText
  | typing _ | clause _ => .ofType

def message : Fault → String
  | grammar f => f.message
  | typing f => f.message
  | clause f => f.message

end Fault

/-- The word for a kind of fault. -/
def FaultKind.word : FaultKind → String
  | ofText => "syntax"
  | ofType => "type"

abbrev SourceFault := Located Fault

namespace SourceFault

/-- The message with its kind in front. -/
def text (f : SourceFault) : String :=
  match f.val.kind with
  | .ofText => "Syntax error: " ++ f.val.message
  | .ofType => "Type error: " ++ f.val.message

def ofGrammar {α : Type} (r : Except (Located GrammarFault) α) : Except SourceFault α :=
  r.mapError fun f => ⟨.grammar f.val, f.span⟩

def ofTyping {α : Type} (r : Except (Located TypingFault) α) : Except SourceFault α :=
  r.mapError fun f => ⟨.typing f.val, f.span⟩

def ofClause {α : Type} (r : Except (Located ClauseFault) α) : Except SourceFault α :=
  r.mapError fun f => ⟨.clause f.val, f.span⟩

end SourceFault

end Covenant
