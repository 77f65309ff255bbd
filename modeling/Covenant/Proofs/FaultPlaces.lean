import Covenant.Contract.Bound
import Covenant.Proofs.Declared
import Covenant.Proofs.ParsedSpans
import Covenant.Proofs.ClausePieces

/-!
# Where faults are reported

A check reports a fault at a span of what it is given: of the tree that was
parsed, or of the typed one, whose spans come from the former. So if all spans of
a tree are in one place, then so are the faults that are found in it. For a
clause the place is the record: the tree has been moved there, and whatever else
is said of the record is said at its own span or at its subject.
-/

namespace Covenant

namespace Surface

/-- Whether all spans of an expression are such, those of its names and types too. -/
def Expr.AllSpans (P : Span → Prop) (e : Expr) : Prop :=
  P e.span ∧ e.WellSpanned (fun s _ => P s) fun s _ => P s

end Surface

namespace Typing

open Surface (wellSpannedAll)

variable {P : Span → Prop} {α β : Type}

/-! ## Checks that report -/

/-- A check reports its faults at such places, and what it yields has a property. -/
def Reports (P : Span → Prop) (x : Check α) (Q : α → Prop) : Prop :=
  ∀ cs, (∀ a cs', x cs = .ok (a, cs') → Q a) ∧ ∀ fault, x cs = .error fault → P fault.span

namespace Reports

variable {Q : α → Prop} {R : β → Prop} {x : Check α}

theorem pure {a : α} (h : Q a) : Reports P (Pure.pure a) Q := by
  refine fun cs => ⟨fun b cs' heq => ?_, fun fault heq => ?_⟩ <;> cases heq
  exact h

theorem fail {fault : TypingFault} {span : Span} (h : P span) :
    Reports P (Typing.fail fault span : Check α) Q := by
  refine fun cs => ⟨fun b cs' heq => ?_, fun fault heq => ?_⟩ <;> cases heq
  exact h

/-- A check that only writes something down. -/
theorem modify (f : List CallSite → List CallSite) :
    Reports P (modify f : Check PUnit) fun _ => True := by
  refine fun cs => ⟨fun b cs' heq => trivial, fun fault heq => ?_⟩
  cases heq

theorem bind {f : α → Check β} (hx : Reports P x Q) (hf : ∀ a, Q a → Reports P (f a) R) :
    Reports P (x >>= f) R := by
  intro cs
  have hbind : (x >>= f) cs = (x cs >>= fun r => f r.1 r.2) := rfl
  rw [hbind]
  cases hxcs : x cs with
  | error fault =>
      refine ⟨fun b cs' heq => ?_, fun fault' heq => ?_⟩ <;> cases heq
      exact (hx cs).2 fault hxcs
  | ok r => exact hf r.1 ((hx cs).1 r.1 r.2 hxcs) r.2

theorem lift {x : Checked α} (h : ∀ fault, x = .error fault → P fault.span) :
    Reports P (liftM x : Check α) fun _ => True := by
  refine fun cs => ⟨fun _ _ _ => trivial, fun fault heq => ?_⟩
  have hlift : (liftM x : Check α) cs = (x >>= fun a => Except.ok (a, cs)) := rfl
  rw [hlift] at heq
  cases x with
  | ok a => cases heq
  | error fault' =>
      cases heq
      exact h fault rfl

theorem ite {c : Prop} [Decidable c] {y : Check α} (hx : Reports P x Q) (hy : Reports P y Q) :
    Reports P (if c then x else y) Q := by
  split
  · exact hx
  · exact hy

end Reports

/-! ## Expressions -/

/-- Whether all spans of a typed expression are such. -/
def SpansIn (P : Span → Prop) (t : Typed.Expr) : Prop := ∀ x ∈ t.parts, P x.span

def SpansInAll (P : Span → Prop) (ts : List Typed.Expr) : Prop :=
  ∀ x ∈ Typed.Expr.partsAll ts, P x.span

def SpansInOpt (P : Span → Prop) (t : Option Typed.Expr) : Prop :=
  ∀ x ∈ Typed.Expr.partsOpt t, P x.span

theorem SpansIn.span {t : Typed.Expr} (h : SpansIn P t) : P t.span :=
  h t (by cases t <;> simp [Typed.Expr.parts])

/-- The spans of a node and of its parts. -/
theorem spans_cons {t : Typed.Expr} {ts : List Typed.Expr} (ht : P t.span)
    (hs : ∀ x ∈ ts, P x.span) : ∀ x ∈ t :: ts, P x.span :=
  List.forall_mem_cons.mpr ⟨ht, hs⟩

theorem spans_nil : ∀ x ∈ ([] : List Typed.Expr), P x.span := fun _ hx => absurd hx List.not_mem_nil

theorem spans_append {ts us : List Typed.Expr} (ht : ∀ x ∈ ts, P x.span)
    (hu : ∀ x ∈ us, P x.span) : ∀ x ∈ ts ++ us, P x.span :=
  List.forall_mem_append.mpr ⟨ht, hu⟩

variable {s : Scope}

theorem requireType_reports {place : TypedPlace} {want : Ty} {t : Typed.Expr}
    (ht : SpansIn P t) : Reports P (requireType s place want t) fun _ => True :=
  .ite (.pure trivial) (.fail ht.span)

theorem record_reports {id : SiteId} {callee : DeclId} {kind : CallKind}
    {receiver : Option Typed.Expr} {args : List Typed.Expr} {span : Span} :
    Reports P (record s id callee kind receiver args span) fun _ => True :=
  .ite (.pure trivial) (.modify _)

theorem resolveType_reports {t : Surface.TypeExpr} (hspan : P t.span)
    (ht : t.WellSpanned (fun s _ => P s) fun s _ => P s) :
    Reports P (resolveType s t) fun _ => True := by
  refine .lift ?_
  induction t with
  | int | boolean => exact fun fault heq => by cases heq
  | named span name =>
      intro fault heq
      rw [Env.resolveType] at heq
      split at heq <;> cases heq
      exact hspan
  | array span elem ih =>
      intro fault heq
      rw [Env.resolveType] at heq
      cases he : s.env.resolveType elem with
      | ok type =>
          rw [he] at heq
          cases heq
      | error fault' =>
          rw [he] at heq
          cases heq
          exact ih ht.1 ht.2 fault he

section

variable {span : Span} (h : P span)

include h

theorem thisExpr_spans : SpansIn P (s.thisExpr span) := spans_cons h spans_nil

theorem requireInstance_reports {use : InstanceUse} :
    Reports P (requireInstance s use span) fun _ => True :=
  .ite (.fail h) (.pure trivial)

theorem selectOverload_reports {candidates : List MethodInfo} {name : String}
    {args : List Typed.Expr} :
    Reports P (selectOverload s candidates name args span) fun _ => True := by
  rw [selectOverload]
  split
  · exact .pure trivial
  · exact .fail h

theorem checkName_reports {name : String} : Reports P (checkName s span name) (SpansIn P) := by
  rw [checkName]
  split
  · exact .pure (spans_cons h spans_nil)
  split
  · exact .pure (spans_cons h spans_nil)
  split
  · exact .ite (.pure (spans_cons h spans_nil)) <|
      .bind (requireInstance_reports h) fun _ _ => .pure (spans_cons h (thisExpr_spans h))
  · exact .fail h

theorem checkStaticField_reports {owner : String} {name : Located String} (hn : P name.span) :
    Reports P (checkStaticField s span owner name) (SpansIn P) := by
  rw [checkStaticField]
  split
  · exact .ite (.pure (spans_cons h spans_nil)) (.fail hn)
  · exact .fail hn

theorem checkField_reports {object : Typed.Expr} {name : Located String} (ho : SpansIn P object)
    (hn : P name.span) : Reports P (checkField s span object name) (SpansIn P) := by
  rw [checkField]
  split
  · split
    · exact .ite (.pure (spans_cons h spans_nil)) (.pure (spans_cons h ho))
    · exact .fail hn
  · exact .ite (.pure (spans_cons h ho)) (.fail hn)
  · exact .fail hn

theorem checkOperands_reports {op : BinaryOp} {l r : Typed.Expr} (hl : SpansIn P l)
    (hr : SpansIn P r) : Reports P (checkOperands s span op l r) fun _ => True := by
  have both (type : Ty) : Reports P (requireOperands s op type l r) fun _ => True :=
    .bind (requireType_reports hl) fun _ _ => requireType_reports hr
  cases op with
  | eq | neq => exact .ite (.pure trivial) (.fail h)
  | and | or => exact both .boolean
  | _ => exact both .int

theorem checkCall_reports {site : SiteId} {receiver : Option Typed.Expr} {m : MethodInfo}
    {name : String} {args : List Typed.Expr} (hr : SpansInOpt P receiver)
    (ha : SpansInAll P args) :
    Reports P (checkCall s span site receiver m name args) (SpansIn P) :=
  .bind record_reports fun _ _ => .pure (spans_cons h (spans_append hr ha))

end

theorem checkNewClass_reports {name : Located String} (hn : P name.span) :
    Reports P (checkNewClass s name) fun _ => True := by
  rw [checkNewClass]
  split
  · exact .fail hn
  · exact .ite (.fail hn) (.pure trivial)

mutual

/-- If all spans of an expression are such, then it is typed with such spans, and what is wrong with
it is reported at one of them. -/
theorem checkExpr_reports {e : Surface.Expr} (h : e.AllSpans P) :
    Reports P (checkExpr s e) (SpansIn P) := by
  obtain ⟨hspan, hparts⟩ := h
  match e with
  | .int .. | .bool .. | .null .. =>
      rw [checkExpr]
      exact .pure (spans_cons hspan spans_nil)
  | .this span =>
      rw [checkExpr]
      exact .bind (requireInstance_reports hspan) fun _ _ => .pure (thisExpr_spans hspan)
  | .name span name =>
      rw [checkExpr]
      exact checkName_reports hspan
  | .binary span op l r =>
      rw [checkExpr]
      exact .bind (checkExpr_reports hparts.1) fun l' hl =>
        .bind (checkExpr_reports hparts.2) fun r' hr =>
          .bind (checkOperands_reports hspan hl hr) fun _ _ =>
            .pure (spans_cons hspan (spans_append hl hr))
  | .unary span op x =>
      rw [checkExpr]
      exact .bind (checkExpr_reports hparts) fun x' hx =>
        .bind (requireType_reports hx) fun _ _ => .pure (spans_cons hspan hx)
  | .field span o name =>
      rw [checkExpr]
      split
      · exact checkStaticField_reports hspan hparts.2.1
      · exact .bind (checkExpr_reports hparts.1) fun o' ho =>
          checkField_reports hspan ho hparts.2.1
  | .call span site name args =>
      rw [checkExpr]
      refine .bind (checkArgs_reports hparts.2) fun args' ha => ?_
      refine .bind (selectOverload_reports hspan) fun m _ => ?_
      refine .ite (checkCall_reports hspan spans_nil ha) ?_
      exact .bind (requireInstance_reports hparts.1.1) fun _ _ =>
        checkCall_reports hspan (thisExpr_spans hparts.1.1) ha
  | .methodCall span site o name args =>
      rw [checkExpr]
      split
      · refine .bind (checkArgs_reports hparts.2.2) fun args' ha => ?_
        refine .bind (selectOverload_reports hspan) fun m _ => ?_
        exact .ite (checkCall_reports hspan spans_nil ha) (.fail hparts.2.1.1)
      · refine .bind (checkExpr_reports hparts.1) fun receiver hr => ?_
        split
        · refine .bind (checkArgs_reports hparts.2.2) fun args' ha => ?_
          refine .bind (selectOverload_reports hspan) fun m _ => ?_
          refine checkCall_reports hspan ?_ ha
          split
          · exact spans_nil
          · exact hr
        · exact .fail hparts.2.1.1
  | .new span site className args =>
      rw [checkExpr]
      refine .bind (checkNewClass_reports hparts.1.1) fun _ _ => ?_
      refine .bind (checkArgs_reports hparts.2) fun args' ha => ?_
      refine .bind (selectOverload_reports hspan) fun m _ => ?_
      exact .bind record_reports fun _ _ => .pure (spans_cons hspan ha)
  | .newArray span elem length =>
      rw [checkExpr]
      exact .bind (resolveType_reports hparts.1.1 hparts.1.2) fun _ _ =>
        .bind (checkExpr_reports hparts.2) fun l hl =>
          .bind (requireType_reports hl) fun _ _ => .pure (spans_cons hspan hl)
  | .index span a i =>
      rw [checkExpr]
      refine .bind (checkExpr_reports hparts.1) fun a' ha => ?_
      split
      · exact .bind (checkExpr_reports hparts.2) fun i' hi =>
          .bind (requireType_reports hi) fun _ _ =>
            .pure (spans_cons hspan (spans_append ha hi))
      · exact .fail ha.span
  | .old span x | .spread span x =>
      rw [checkExpr]
      exact .bind (checkExpr_reports hparts) fun x' hx => .pure (spans_cons hspan hx)
  | .result span =>
      rw [checkExpr]
      split
      · exact .pure (spans_cons hspan spans_nil)
      · exact .fail hspan

theorem checkArgs_reports {around : Span} {es : List Surface.Expr}
    (h : wellSpannedAll (fun s _ => P s) (fun s _ => P s) around es) :
    Reports P (checkArgs s es) (SpansInAll P) := by
  match es with
  | [] =>
      rw [checkArgs]
      exact .pure spans_nil
  | e :: es =>
      rw [checkArgs]
      exact .bind (checkExpr_reports h.1) fun e' he =>
        .bind (checkArgs_reports h.2) fun es' hes => .pure (spans_append he hes)

end

end Typing

namespace Contract

open Surface (Expr wellSpannedAll)

variable {P : Span → Prop}

/-! ## Clauses -/

theorem misplacedForm?_span {isPost hasResult inOld : Bool} {e : Expr}
    {fault : Located ClauseFault} (h : misplacedForm? isPost hasResult inOld e = some fault) :
    fault.span = e.span := by
  cases e with
  | old span x | result span =>
      rw [misplacedForm?] at h
      repeat' split at h
      all_goals cases h
      all_goals rfl
  | _ => cases h

mutual

/-- Where `old` or `result` may not stand is in the expression. -/
theorem misplaced?_span {isPost hasResult inOld : Bool} {e : Expr} (h : e.AllSpans P)
    {fault : Located ClauseFault} (hm : misplaced? isPost hasResult inOld e = some fault) :
    P fault.span := by
  obtain ⟨hspan, hparts⟩ := h
  rw [misplaced?.eq_def, Option.or_eq_some_iff] at hm
  rcases hm with hform | ⟨_, hm⟩
  · exact misplacedForm?_span hform ▸ hspan
  · match e with
    | .int .. | .bool .. | .null .. | .this .. | .name .. | .result .. => cases hm
    | .binary _ _ l r | .index _ l r =>
        rcases Option.or_eq_some_iff.mp hm with hm | ⟨_, hm⟩
        · exact misplaced?_span hparts.1 hm
        · exact misplaced?_span hparts.2 hm
    | .unary _ _ x | .spread _ x | .old _ x => exact misplaced?_span (e := x) hparts hm
    | .field _ x _ => exact misplaced?_span hparts.1 hm
    | .newArray _ _ x => exact misplaced?_span hparts.2 hm
    | .call _ _ _ args | .new _ _ _ args => exact misplacedAny?_span hparts.2 hm
    | .methodCall _ _ o _ args =>
        rcases Option.or_eq_some_iff.mp hm with hm | ⟨_, hm⟩
        · exact misplaced?_span hparts.1 hm
        · exact misplacedAny?_span hparts.2.2 hm

theorem misplacedAny?_span {isPost hasResult inOld : Bool} {around : Span} {es : List Expr}
    (h : wellSpannedAll (fun s _ => P s) (fun s _ => P s) around es)
    {fault : Located ClauseFault} (hm : misplacedAny? isPost hasResult inOld es = some fault) :
    P fault.span := by
  match es with
  | [] => cases hm
  | e :: es =>
      rw [misplacedAny?] at hm
      rcases Option.or_eq_some_iff.mp hm with hm | ⟨_, hm⟩
      · exact misplaced?_span h.1 hm
      · exact misplacedAny?_span h.2 hm

end

/-- A computation reports its faults at such places. -/
def FaultsAt {ε α : Type} (P : Span → Prop) (x : Except (Located ε) α) : Prop :=
  ∀ fault, x = .error fault → P fault.span

namespace FaultsAt

variable {ε ε' α β : Type} {x : Except (Located ε) α}

theorem ok {a : α} : FaultsAt P (Except.ok a : Except (Located ε) α) := fun _ h => by cases h

theorem error {fault : Located ε} (h : P fault.span) :
    FaultsAt P (Except.error fault : Except (Located ε) α) := by
  rintro _ ⟨⟩
  exact h

theorem bind {f : α → Except (Located ε) β} (hx : FaultsAt P x)
    (hf : ∀ a, x = .ok a → FaultsAt P (f a)) : FaultsAt P (x >>= f) := by
  intro fault h
  cases hxa : x with
  | ok a =>
      rw [hxa] at h
      exact hf a hxa fault h
  | error fault' =>
      rw [hxa] at h
      cases h
      exact hx fault hxa

/-- The fault is called differently, in the same place. -/
theorem mapError {g : ε → ε'} (hx : FaultsAt P x) :
    FaultsAt P (x.mapError fun f => (⟨g f.val, f.span⟩ : Located ε')) := by
  intro fault h
  cases hxa : x with
  | ok a =>
      rw [hxa] at h
      cases h
  | error fault' =>
      rw [hxa] at h
      cases h
      exact hx fault' hxa

theorem mapM {f : α → Except (Located ε) β} : ∀ {l : List α},
    (∀ a ∈ l, FaultsAt P (f a)) → FaultsAt P (l.mapM f)
  | [], _ => by
    rw [List.mapM_nil]
    exact ok
  | a :: l, h => by
    rw [List.mapM_cons]
    refine bind (h a (.head l)) fun b _ => ?_
    exact bind (mapM fun a ha => h a (.tail _ ha)) fun bs _ => ok

end FaultsAt

section

variable {env : Env} {r : ClauseRecord}

theorem checkForms_faults {tag : ClauseTag} {hasResult : Bool} {e : Expr} (h : e.AllSpans P) :
    FaultsAt P (checkForms tag hasResult e) := by
  rw [checkForms]
  split
  · next fault hm => exact .error (misplaced?_span h hm)
  · exact .ok

theorem resolve_faults (env : Env) (s : ClauseScope) {e : Expr} (h : e.AllSpans P) :
    FaultsAt P (resolve env s e) ∧ ∀ t, resolve env s e = .ok t → Typing.SpansIn P t := by
  have hreports := Typing.checkExpr_reports
    (s := .ofClause env s.className s.decl s.isStatic s.frame) h []
  rw [resolve, StateT.run]
  cases hx : Typing.checkExpr (.ofClause env s.className s.decl s.isStatic s.frame) e [] with
  | ok a => exact ⟨.ok, fun t ht => by cases ht; exact hreports.1 a.1 a.2 hx⟩
  | error fault => exact ⟨.error (hreports.2 fault hx), fun t ht => by cases ht⟩

theorem checkSpreads_faults {t : Typed.Expr} (h : Typing.SpansIn P t) :
    FaultsAt P (checkSpreads t) := by
  rw [checkSpreads]
  split
  · next fault hfind =>
      obtain ⟨x, hx, hbad⟩ := List.exists_of_findSome?_eq_some hfind
      have hat : fault.span = x.span := by
        cases x with
        | spread span y =>
            rw [badSpread?] at hbad
            split at hbad <;> cases hbad
            rfl
        | _ => cases hbad
      exact .error (hat ▸ h x hx)
  · exact .ok

theorem bindCondition_faults {s : ClauseScope} {e : Expr} (h : e.AllSpans P) :
    FaultsAt P (bindCondition env r s e) := by
  obtain ⟨hfaults, hspans⟩ := resolve_faults env s h
  refine .bind (.mapError (checkForms_faults h)) fun _ _ => ?_
  refine .bind (.mapError hfaults) fun t ht => ?_
  have hok := hspans t (mapError_eq_ok.mp ht)
  split
  · exact .bind (.mapError (.error hok.span)) fun _ _ => .ok
  · exact .ok

theorem bindTarget_faults {s : ClauseScope} {e : Expr} (h : e.AllSpans P) :
    FaultsAt P (bindTarget env r s e) := by
  obtain ⟨hfaults, hspans⟩ := resolve_faults env s h
  refine .bind (.mapError (checkForms_faults h)) fun _ _ => ?_
  refine .bind (.mapError hfaults) fun t ht => ?_
  have hok := hspans t (mapError_eq_ok.mp ht)
  refine .bind (.mapError (checkSpreads_faults hok)) fun _ _ => ?_
  split
  · exact .bind (.mapError (.error hok.span)) fun _ _ => .ok
  · exact .ok

theorem bindBody_faults {s : ClauseScope} {body : Parse.ClauseBody}
    (h : ∀ e ∈ body.exprs, e.AllSpans P) : FaultsAt P (bindBody env r s body) := by
  cases body with
  | condition e => exact bindCondition_faults (h e (.head _))
  | targets es => exact .bind (.mapM fun e he => bindTarget_faults (h e he)) fun _ _ => .ok

theorem placeRecord_faults (hr : P r.span) (hsubject : ∀ n, r.subject = some n → P n.span) :
    FaultsAt P (placeRecord env r) := by
  refine .mapError (.bind ?_ fun s _ => .bind ?_ fun _ _ => .ok)
  · rw [scopeOf]
    repeat' split
    all_goals first | exact .ok | exact .error hr
  · rw [checkSubject]
    split
    · split
      · exact .error hr
      · next n hn =>
          split
          · exact .ok
          · exact .error (hsubject n hn)
    · exact .ok

theorem clause_faults {site : SiteId} (h : ∀ s, P (r.sourceSpan s)) :
    FaultsAt P (Parse.clause r site) := by
  simp only [Parse.clause]
  split
  · exact .ok
  · exact .error (h _)

/-- All spans of what is parsed of a record are ones that its text leads to. -/
theorem clause_allSpans {site next : SiteId} {body : Parse.ClauseBody}
    (h : ∀ s, P (r.sourceSpan s)) (hparsed : Parse.clause r site = .ok (body, next)) :
    ∀ e ∈ body.exprs, e.AllSpans P := by
  intro e he
  obtain ⟨e₀, rfl, hspanned⟩ := Parse.clause_spanned hparsed e he
  exact ⟨e₀.span_mapSpans _ ▸ h _, hspanned.mapSpans ⟨fun s _ _ => h s, fun s _ _ => h s⟩⟩

/-- What is wrong with a record is reported in it: at its own span, at its subject, or at a span
that its text leads to. -/
theorem bindRecord_faults {site : SiteId} (hr : P r.span)
    (hsubject : ∀ n, r.subject = some n → P n.span) (h : ∀ s, P (r.sourceSpan s)) :
    FaultsAt P (bindRecord env r site).1 := by
  rw [bindRecord]
  split
  · next fault hplace => exact .error (placeRecord_faults hr hsubject fault hplace)
  · next s _ =>
      split
      · next fault hclause =>
          exact .error (FaultsAt.mapError (clause_faults h) fault hclause)
      · next body next hclause =>
          exact bindBody_faults (clause_allSpans h (mapError_eq_ok.mp hclause))

end

end Contract

end Covenant
