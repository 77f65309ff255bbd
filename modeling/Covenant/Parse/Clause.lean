import Covenant.Parse.Expr
import Covenant.Clause.Record

/-!
# Clause expressions

The text of a clause is one condition, or for effects a list of targets with
commas between them, and nothing else may follow. Spans lead to the source, not
to the text that was put together.
-/

namespace Covenant.Parse

open Surface (Expr)

inductive ClauseBody
  | condition (e : Expr)
  | targets (es : List Expr)
  deriving Repr, Inhabited

def ClauseBody.mapSpans (f : Span → Span) : ClauseBody → ClauseBody
  | condition e => condition (e.mapSpans f)
  | targets es => targets (es.map (·.mapSpans f))

/-- Expressions with commas between them; there is at least one. -/
def targetList : Nat → Parser (List Expr)
  | 0 => return []
  | n + 1 => do
    let e ← expr .effect
    if ← eatMark .comma then
      return e :: (← targetList n)
    return [e]

def clauseEnd : Parser Unit := do
  match ← peek with
  | some l => failAt (.clauseRemainder l.token) l.span
  | none => return

def clauseBody (tag : ClauseTag) : Parser ClauseBody := do
  let body ←
    if tag.isEffect then .targets <$> targetList (← budget)
    else .condition <$> expr .condition
  clauseEnd
  return body

/-- The expression of a clause and the next free call site, where its own call sites are numbered
from `firstSite` on. -/
def clause (r : ClauseRecord) (firstSite : SiteId) :
    Except (Located GrammarFault) (ClauseBody × SiteId) :=
  let parsed := do
    let ts ← Scan.clause r.text
    (clauseBody r.tag).run (State.ofTokens ts firstSite)
  match parsed with
  | .ok (body, s) => .ok (body.mapSpans r.sourceSpan, s.nextSite)
  | .error ⟨fault, span⟩ => .error ⟨fault, r.sourceSpan span⟩

end Covenant.Parse
