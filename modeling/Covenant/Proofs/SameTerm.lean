import Covenant.Proofs.ReadBack
import Covenant.Run.Eval

/-!
# Evaluation sees no more than the text and the meanings

An expression and its bare form evaluate alike: spans and types do not matter,
and the number of a call matters only for the checks behind it. So two
expressions that read the same and mean the same have the same value, as long
as no checks stand behind their calls.
-/

namespace Covenant

namespace Typed.Expr

mutual

/-- The numbers of the calls in an expression. -/
def sites : Expr → List SiteId
  | int .. | bool .. | null .. | this .. | var .. | param .. | staticField .. | result ..
  | slot .. => []
  | field _ _ e _ | length _ e | unary _ _ e | newArray _ _ e | old _ e | spread _ e => e.sites
  | index _ _ a i => a.sites ++ i.sites
  | binary _ _ l r => l.sites ++ r.sites
  | call _ _ site receiver _ _ args => sitesOpt receiver ++ site :: sitesAll args
  | new _ site _ _ args => site :: sitesAll args

def sitesOpt : Option Expr → List SiteId
  | none => []
  | some e => e.sites

def sitesAll : List Expr → List SiteId
  | [] => []
  | e :: es => e.sites ++ sitesAll es

end

end Typed.Expr

namespace Run

open Typed (Expr)

section

variable {env : Env} {calls : Calls} {f : Frame} {caller : DeclId} {i k : SiteId}

theorem callMethod_congr (h : calls.recheck caller i = calls.recheck caller k) (method : DeclId)
    (this : Option Ref) (args : List Value) :
    callMethod env calls caller i method this args =
      callMethod env calls caller k method this args := by
  simp only [callMethod, h]

theorem construct_congr (h : calls.recheck caller i = calls.recheck caller k) (c : String)
    (ctor : DeclId) (args : List Value) :
    construct env calls caller i c ctor args = construct env calls caller k c ctor args := by
  simp only [construct, h]

end

section

variable {env : Env} {calls : Calls} {f : Frame} {k : SiteId}

/-- Whether the checks behind calls of these numbers are those behind the call `k`. -/
def ChecksAs (calls : Calls) (f : Frame) (k : SiteId) (sites : List SiteId) : Prop :=
  ∀ i ∈ sites, calls.recheck f.decl i = calls.recheck f.decl k

theorem ChecksAs.left {is js : List SiteId} (h : ChecksAs calls f k (is ++ js)) :
    ChecksAs calls f k is := fun i hi => h i (List.mem_append_left _ hi)

theorem ChecksAs.right {is js : List SiteId} (h : ChecksAs calls f k (is ++ js)) :
    ChecksAs calls f k js := fun i hi => h i (List.mem_append_right _ hi)

theorem ChecksAs.tail {i : SiteId} {is : List SiteId} (h : ChecksAs calls f k (i :: is)) :
    ChecksAs calls f k is := fun j hj => h j (List.mem_cons_of_mem _ hj)

mutual

theorem eval_bare : ∀ e : Expr, e.Printable → ChecksAs calls f k e.sites →
    eval env calls f (e.bare k) = eval env calls f e
  | .int .., _, _ => rfl
  | .bool .., _, _ => rfl
  | .null .., _, _ => rfl
  | .this .., _, _ => rfl
  | .result .., _, _ => rfl
  | .param .., _, _ => rfl
  | .staticField .., _, _ => rfl
  | .field _ _ o _, he, hs => by
    rw [Expr.bare, eval, eval, eval_bare o he.1 hs]
  | .length _ a, he, hs => by
    rw [Expr.bare, eval, eval, eval_bare a he.1 hs]
  | .index _ _ a i, he, hs => by
    rw [Expr.bare, eval, eval, eval_bare a he.1 hs.left, eval_bare i he.2.2 hs.right]
  | .binary _ op l r, he, hs => by
    have hl := eval_bare l he.1 hs.left
    have hr := eval_bare r he.2 hs.right
    cases op <;> rw [Expr.bare] <;> simp only [eval, hl, hr]
  | .unary _ _ e, he, hs => by
    rw [Expr.bare, eval, eval, eval_bare e he hs]
  | .call _ _ i receiver m name args, he, hs => by
    have hi := hs i (List.mem_append_right _ List.mem_cons_self)
    rw [Expr.bare, eval, eval, evalReceiver_bare receiver he.1 hs.left,
      evalAll_bare args he.2.2 hs.right.tail]
    simp only [callMethod_congr hi]
  | .new _ i c ctor args, he, hs => by
    have hi := hs i List.mem_cons_self
    rw [Expr.bare, eval, eval, evalAll_bare args he.2 hs.tail]
    simp only [construct_congr hi]
  | .newArray _ _ len, he, hs => by
    rw [Expr.bare, eval, eval, eval_bare len he.2 hs]

theorem evalReceiver_bare : ∀ e : Option Expr, Expr.PrintableReceiver e →
    ChecksAs calls f k (Expr.sitesOpt e) →
    evalReceiver env calls f (Expr.bareReceiver k e) = evalReceiver env calls f e
  | none, _, _ => rfl
  | some e, he, hs => by
    rw [Expr.bareReceiver, evalReceiver, evalReceiver, eval_bare e he.1 hs]

theorem evalAll_bare : ∀ es : List Expr, Expr.PrintableAll es →
    ChecksAs calls f k (Expr.sitesAll es) →
    evalAll env calls f (Expr.bareAll k es) = evalAll env calls f es
  | [], _, _ => rfl
  | e :: es, he, hs => by
    rw [Expr.bareAll, evalAll, evalAll, eval_bare e he.1 hs.left, evalAll_bare es he.2 hs.right]

end

/-- Two expressions that read the same and whose words mean the same have the same value. -/
theorem eval_eq_of_text {a b : Expr} (ha : a.Printable) (hb : b.Printable)
    (hsa : ChecksAs calls f k a.sites) (hsb : ChecksAs calls f k b.sites)
    (htext : a.text = b.text) (hmeanings : a.meanings = b.meanings) :
    eval env calls f a = eval env calls f b := by
  rw [← eval_bare a ha hsa, Expr.bare_eq_of_text k ha hb htext hmeanings, eval_bare b hb hsb]

end

end Run

end Covenant
