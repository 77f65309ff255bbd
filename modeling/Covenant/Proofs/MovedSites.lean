import Covenant.Contract.Bound
import Covenant.Proofs.ParallelParses

/-!
# Clauses with other numbers for their calls

The numbers of call sites are handed on: parsing puts them into the expression,
checking takes them over, and no rule of either looks at one. So what a record is
bound to does not depend on where its call sites are numbered from, except that
they are: bound from a higher number on, it has the same faults, or says the same
with all its call sites as much higher.
-/

namespace Covenant

open Surface (TypeExpr)

/-! ## Typed expressions -/

namespace Typed.Expr

mutual

/-- The same expression with other numbers for its call sites. -/
def mapSites (f : SiteId → SiteId) : Expr → Expr
  | int s n => int s n
  | bool s b => bool s b
  | null s => null s
  | this s c => this s c
  | var s t n => var s t n
  | param s t i n => param s t i n
  | field s t o n => field s t (o.mapSites f) n
  | staticField s t c n => staticField s t c n
  | length s a => length s (a.mapSites f)
  | index s t a i => index s t (a.mapSites f) (i.mapSites f)
  | binary s op l r => binary s op (l.mapSites f) (r.mapSites f)
  | unary s op e => unary s op (e.mapSites f)
  | call s t site receiver m n args =>
    call s t (f site) (mapSitesOpt f receiver) m n (mapSitesAll f args)
  | new s site c m args => new s (f site) c m (mapSitesAll f args)
  | newArray s t len => newArray s t (len.mapSites f)
  | old s e => old s (e.mapSites f)
  | result s t => result s t
  | spread s e => spread s (e.mapSites f)
  | slot s t n => slot s t n

def mapSitesOpt (f : SiteId → SiteId) : Option Expr → Option Expr
  | none => none
  | some e => some (e.mapSites f)

def mapSitesAll (f : SiteId → SiteId) : List Expr → List Expr
  | [] => []
  | e :: es => e.mapSites f :: mapSitesAll f es

end

variable (f : SiteId → SiteId)

@[simp] theorem span_mapSites (e : Expr) : (e.mapSites f).span = e.span := by
  cases e <;> simp [mapSites, span]

@[simp] theorem type_mapSites : ∀ e : Expr, (e.mapSites f).type = e.type
  | int .. | bool .. | null .. | this .. | var .. | param .. | field .. | staticField ..
  | length .. | index .. | binary .. | unary .. | call .. | new .. | newArray .. | result ..
  | slot .. => by simp [mapSites, type]
  | old _ e | spread _ e => by simp [mapSites, type, type_mapSites e]

theorem mapSitesAll_eq (es : List Expr) : mapSitesAll f es = es.map (·.mapSites f) := by
  induction es with
  | nil => rfl
  | cons e es ih => rw [mapSitesAll, ih, List.map_cons]

theorem map_type_mapSitesAll (es : List Expr) :
    (mapSitesAll f es).map (·.type) = es.map (·.type) := by
  simp [mapSitesAll_eq]

mutual

theorem text_mapSites : ∀ e : Expr, (e.mapSites f).text = e.text
  | int .. | bool .. | null .. | this .. | var .. | param .. | staticField .. | result ..
  | slot .. => by rw [mapSites]
  | field _ _ e _ | length _ e | unary _ _ e | newArray _ _ e | old _ e | spread _ e => by
    rw [mapSites, text, text, text_mapSites e]
  | index _ _ l r | binary _ _ l r => by
    rw [mapSites, text, text, text_mapSites l, text_mapSites r]
  | call _ _ _ receiver _ _ args => by
    rw [mapSites, text, text, receiverText_mapSites receiver, textAll_mapSites args]
  | new _ _ _ _ args => by rw [mapSites, text, text, textAll_mapSites args]

theorem receiverText_mapSites : ∀ e : Option Expr, receiverText (mapSitesOpt f e) = receiverText e
  | none => rfl
  | some e => by rw [mapSitesOpt, receiverText, receiverText, text_mapSites e]

theorem textAll_mapSites : ∀ es : List Expr, textAll (mapSitesAll f es) = textAll es
  | [] => rfl
  | [e] => text_mapSites e
  | e :: e' :: es => by
    show (e.mapSites f).text ++ ", " ++ textAll (mapSitesAll f (e' :: es)) =
      e.text ++ ", " ++ textAll (e' :: es)
    rw [text_mapSites e, textAll_mapSites (e' :: es)]

end

mutual

theorem parts_mapSites : ∀ e : Expr, (e.mapSites f).parts = e.parts.map (·.mapSites f)
  | int .. | bool .. | null .. | this .. | var .. | param .. | staticField .. | result ..
  | slot .. => by simp [mapSites, parts]
  | field _ _ e _ | length _ e | unary _ _ e | newArray _ _ e | old _ e | spread _ e => by
    simp [mapSites, parts, parts_mapSites e]
  | index _ _ l r | binary _ _ l r => by
    simp [mapSites, parts, parts_mapSites l, parts_mapSites r]
  | call _ _ _ receiver _ _ args => by
    simp [mapSites, parts, partsOpt_mapSites receiver, partsAll_mapSites args]
  | new _ _ _ _ args => by simp [mapSites, parts, partsAll_mapSites args]

theorem partsOpt_mapSites : ∀ e : Option Expr,
    partsOpt (mapSitesOpt f e) = (partsOpt e).map (·.mapSites f)
  | none => rfl
  | some e => parts_mapSites e

theorem partsAll_mapSites : ∀ es : List Expr,
    partsAll (mapSitesAll f es) = (partsAll es).map (·.mapSites f)
  | [] => rfl
  | e :: es => by simp [mapSitesAll, partsAll, parts_mapSites e, partsAll_mapSites es]

end

end Typed.Expr

/-! ## Checking -/

namespace Typing

variable {α β γ δ : Type}

/-- Two checks have one fault, or values that belong together. What calls they write down is left
open. -/
inductive EndsAlike (R : α → β → Prop) :
    Checked (α × List CallSite) → Checked (β × List CallSite) → Prop
  | ok {a b cs cs'} (h : R a b) : EndsAlike R (.ok (a, cs)) (.ok (b, cs'))
  | error {e} : EndsAlike R (.error e) (.error e)

/-- Two checks end alike, whatever calls are written down already. -/
def Alike (R : α → β → Prop) (x : Check α) (y : Check β) : Prop :=
  ∀ cs cs', EndsAlike R (x cs) (y cs')

namespace Alike

variable {R : α → β → Prop} {S : γ → δ → Prop} {x : Check α} {y : Check β}

theorem pure {a : α} {b : β} (h : R a b) : Alike R (Pure.pure a) (Pure.pure b) := fun _ _ => .ok h

theorem fail {fault : TypingFault} {span : Span} :
    Alike R (Typing.fail fault span) (Typing.fail fault span) := fun _ _ => .error

theorem bind {f : α → Check γ} {g : β → Check δ} (hx : Alike R x y)
    (hf : ∀ a b, R a b → Alike S (f a) (g b)) : Alike S (x >>= f) (y >>= g) := by
  intro cs cs'
  show EndsAlike S ((x cs).bind fun r => f r.1 r.2) ((y cs').bind fun r => g r.1 r.2)
  have hends := hx cs cs'
  generalize x cs = r, y cs' = r' at hends
  cases hends with
  | ok h => exact hf _ _ h _ _
  | error => exact .error

/-- A check whose value is the same on both sides. -/
theorem andThen {x y : Check α} {f : α → Check γ} {g : α → Check δ} (hx : Alike Eq x y)
    (hf : ∀ a, Alike S (f a) (g a)) : Alike S (x >>= f) (y >>= g) :=
  .bind hx fun a _ h => h ▸ hf a

theorem ite {p : Prop} [Decidable p] {x' : Check α} {y' : Check β} (hx : p → Alike R x y)
    (hy : ¬ p → Alike R x' y') : Alike R (if p then x else x') (if p then y else y') := by
  split
  · next hp => exact hx hp
  · next hp => exact hy hp

end Alike

variable {f : SiteId → SiteId} {s : Scope}

/-- An expression with its call sites numbered otherwise. -/
abbrev Moved (f : SiteId → SiteId) (e e' : Typed.Expr) : Prop := e' = e.mapSites f

theorem requireInstance_alike {use : InstanceUse} {span : Span} :
    Alike Eq (requireInstance s use span) (requireInstance s use span) :=
  .ite (fun _ => .fail) fun _ => .pure rfl

theorem requireType_alike {place : TypedPlace} {want : Ty} (e : Typed.Expr) :
    Alike Eq (requireType s place want e) (requireType s place want (e.mapSites f)) := by
  rw [requireType, requireType, Typed.Expr.type_mapSites, Typed.Expr.span_mapSites]
  exact .ite (fun _ => .pure rfl) fun _ => .fail

theorem resolveType_alike {t : TypeExpr} : Alike Eq (resolveType s t) (resolveType s t) := by
  intro cs cs'
  show EndsAlike Eq ((s.env.resolveType t).bind fun a => .ok (a, cs))
    ((s.env.resolveType t).bind fun a => .ok (a, cs'))
  cases s.env.resolveType t with
  | error => exact .error
  | ok a => exact .ok rfl

theorem record_alike {site site' : SiteId} {callee : DeclId} {kind : CallKind}
    {receiver receiver' : Option Typed.Expr} {args args' : List Typed.Expr} {span : Span} :
    Alike Eq (record s site callee kind receiver args span)
      (record s site' callee kind receiver' args' span) :=
  .ite (fun _ => .pure rfl) fun _ _ _ => .ok rfl

theorem selectOverload_alike {candidates : List MethodInfo} {name : String}
    (args : List Typed.Expr) {span : Span} :
    Alike Eq (selectOverload s candidates name args span)
      (selectOverload s candidates name (Typed.Expr.mapSitesAll f args) span) := by
  rw [selectOverload, selectOverload, Typed.Expr.map_type_mapSitesAll]
  split
  · exact .pure rfl
  · exact .fail

theorem checkName_alike {span : Span} {name : String} :
    Alike (Moved f) (checkName s span name) (checkName s span name) := by
  rw [checkName]
  split
  · exact .pure rfl
  · split
    · exact .pure rfl
    · split
      · exact .ite (fun _ => .pure rfl) fun _ => .andThen requireInstance_alike fun _ => .pure rfl
      · exact .fail

theorem checkStaticField_alike {span : Span} {owner : String} {name : Located String} :
    Alike (Moved f) (checkStaticField s span owner name) (checkStaticField s span owner name) := by
  rw [checkStaticField]
  split
  · exact .ite (fun _ => .pure rfl) fun _ => .fail
  · exact .fail

theorem checkField_alike {span : Span} {name : Located String} (object : Typed.Expr) :
    Alike (Moved f) (checkField s span object name)
      (checkField s span (object.mapSites f) name) := by
  rw [checkField, checkField, Typed.Expr.type_mapSites]
  split
  · split
    · exact .ite (fun _ => .pure rfl) fun _ => .pure rfl
    · exact .fail
  · exact .ite (fun _ => .pure rfl) fun _ => .fail
  · exact .fail

theorem checkOperands_alike {span : Span} {op : BinaryOp} (l r : Typed.Expr) :
    Alike Eq (checkOperands s span op l r)
      (checkOperands s span op (l.mapSites f) (r.mapSites f)) := by
  have both (type : Ty) : Alike Eq (requireOperands s op type l r)
      (requireOperands s op type (l.mapSites f) (r.mapSites f)) :=
    .andThen (requireType_alike l) fun _ => requireType_alike r
  cases op with
  | eq | neq =>
      simp only [checkOperands, Typed.Expr.type_mapSites]
      exact .ite (fun _ => .pure rfl) fun _ => .fail
  | _ => exact both _

theorem checkCall_alike {span : Span} {site : SiteId} {m : MethodInfo} {name : String}
    (receiver : Option Typed.Expr) (args : List Typed.Expr) :
    Alike (Moved f) (checkCall s span site receiver m name args)
      (checkCall s span (f site) (Typed.Expr.mapSitesOpt f receiver) m name
        (Typed.Expr.mapSitesAll f args)) :=
  .andThen record_alike fun _ => .pure (by rw [Moved, Typed.Expr.mapSites])

theorem checkNewClass_alike {name : Located String} :
    Alike Eq (checkNewClass s name) (checkNewClass s name) := by
  rw [checkNewClass]
  split
  · exact .fail
  · exact .ite (fun _ => .fail) fun _ => .pure rfl

theorem namedClass?_mapSites (e : Surface.Expr) : s.namedClass? (e.mapSites f) = s.namedClass? e := by
  cases e <;> rfl

mutual

/-- No rule of checking looks at the number of a call site. -/
theorem checkExpr_alike : ∀ e : Surface.Expr,
    Alike (Moved f) (checkExpr s e) (checkExpr s (e.mapSites f))
  | .int .. | .bool .. | .null .. => .pure rfl
  | .this span => .andThen requireInstance_alike fun _ => .pure rfl
  | .name span name => checkName_alike
  | .binary span op l r => by
    rw [checkExpr, Surface.Expr.mapSites, checkExpr]
    refine .bind (checkExpr_alike l) ?_
    rintro l _ rfl
    refine .bind (checkExpr_alike r) ?_
    rintro r _ rfl
    exact .andThen (checkOperands_alike l r) fun _ => .pure rfl
  | .unary span op e => by
    rw [checkExpr, Surface.Expr.mapSites, checkExpr]
    refine .bind (checkExpr_alike e) ?_
    rintro e _ rfl
    exact .andThen (requireType_alike e) fun _ => .pure rfl
  | .field span o name => by
    rw [checkExpr, Surface.Expr.mapSites, checkExpr, namedClass?_mapSites]
    split
    · exact checkStaticField_alike
    · refine .bind (checkExpr_alike o) ?_
      rintro o _ rfl
      exact checkField_alike o
  | .call span site name args => by
    rw [checkExpr, Surface.Expr.mapSites, checkExpr]
    refine .bind (checkArgs_alike args) ?_
    rintro args _ rfl
    refine .andThen (selectOverload_alike args) fun m => .ite (fun _ => checkCall_alike none args)
      fun _ => .andThen requireInstance_alike fun _ => checkCall_alike (some _) args
  | .methodCall span site o name args => by
    rw [checkExpr, Surface.Expr.mapSites, checkExpr, namedClass?_mapSites]
    split
    · refine .bind (checkArgs_alike args) ?_
      rintro args _ rfl
      exact .andThen (selectOverload_alike args) fun m =>
        .ite (fun _ => checkCall_alike none args) fun _ => .fail
    · refine .bind (checkExpr_alike o) ?_
      rintro o _ rfl
      rw [Typed.Expr.type_mapSites]
      split
      · refine .bind (checkArgs_alike args) ?_
        rintro args _ rfl
        refine .andThen (selectOverload_alike args) fun m => ?_
        cases m.isStatic with
        | true => exact checkCall_alike none args
        | false => exact checkCall_alike (some o) args
      · exact .fail
  | .new span site c args => by
    rw [checkExpr, Surface.Expr.mapSites, checkExpr]
    refine .andThen checkNewClass_alike fun _ => .bind (checkArgs_alike args) ?_
    rintro args _ rfl
    exact .andThen (selectOverload_alike args) fun m => .andThen record_alike fun _ =>
      .pure (by rw [Moved, Typed.Expr.mapSites])
  | .newArray span elem len => by
    rw [checkExpr, Surface.Expr.mapSites, checkExpr]
    refine .andThen resolveType_alike fun elem => .bind (checkExpr_alike len) ?_
    rintro len _ rfl
    exact .andThen (requireType_alike len) fun _ => .pure rfl
  | .index span a i => by
    rw [checkExpr, Surface.Expr.mapSites, checkExpr]
    refine .bind (checkExpr_alike a) ?_
    rintro a _ rfl
    rw [Typed.Expr.type_mapSites]
    split
    · refine .bind (checkExpr_alike i) ?_
      rintro i _ rfl
      exact .andThen (requireType_alike i) fun _ => .pure rfl
    · rw [Typed.Expr.span_mapSites]
      exact .fail
  | .old span e => by
    rw [checkExpr, Surface.Expr.mapSites, checkExpr]
    refine .bind (checkExpr_alike e) ?_
    rintro e _ rfl
    exact .pure rfl
  | .result span => by
    rw [Surface.Expr.mapSites, checkExpr]
    split
    · exact .pure rfl
    · exact .fail
  | .spread span e => by
    rw [checkExpr, Surface.Expr.mapSites, checkExpr]
    refine .bind (checkExpr_alike e) ?_
    rintro e _ rfl
    exact .pure rfl

theorem checkArgs_alike : ∀ es : List Surface.Expr,
    Alike (fun ts ts' => ts' = Typed.Expr.mapSitesAll f ts) (checkArgs s es)
      (checkArgs s (Surface.Expr.mapSitesAll f es))
  | [] => .pure rfl
  | e :: es => by
    rw [checkArgs, Surface.Expr.mapSitesAll, checkArgs]
    refine .bind (checkExpr_alike e) ?_
    rintro e _ rfl
    refine .bind (checkArgs_alike es) ?_
    rintro es _ rfl
    exact .pure rfl

end

end Typing

/-! ## Parsing -/

namespace Surface.Expr

mutual

theorem mapSites_mapSpans (f : SiteId → SiteId) (g : Span → Span) : ∀ e : Expr,
    (e.mapSites f).mapSpans g = (e.mapSpans g).mapSites f
  | int .. | bool .. | null .. | this .. | name .. | result .. => by simp [mapSites, mapSpans]
  | binary _ _ l r | index _ l r => by
    simp [mapSites, mapSpans, mapSites_mapSpans f g l, mapSites_mapSpans f g r]
  | unary _ _ e | field _ e _ | newArray _ _ e | old _ e | spread _ e => by
    simp [mapSites, mapSpans, mapSites_mapSpans f g e]
  | call _ _ _ args | new _ _ _ args => by
    simp [mapSites, mapSpans, mapSitesAll_mapSpansAll f g args]
  | methodCall _ _ o _ args => by
    simp [mapSites, mapSpans, mapSites_mapSpans f g o, mapSitesAll_mapSpansAll f g args]

theorem mapSitesAll_mapSpansAll (f : SiteId → SiteId) (g : Span → Span) : ∀ es : List Expr,
    mapSpansAll g (mapSitesAll f es) = mapSitesAll f (mapSpansAll g es)
  | [] => rfl
  | e :: es => by
    simp [mapSitesAll, mapSpansAll, mapSites_mapSpans f g e, mapSitesAll_mapSpansAll f g es]

end

end Surface.Expr

namespace Parse

open Surface (Expr)

def ClauseBody.mapSites (f : SiteId → SiteId) : ClauseBody → ClauseBody
  | condition e => condition (e.mapSites f)
  | targets es => targets (es.map (·.mapSites f))

theorem ClauseBody.mapSites_mapSpans (f : SiteId → SiteId) (g : Span → Span) (b : ClauseBody) :
    (b.mapSites f).mapSpans g = (b.mapSpans g).mapSites f := by
  cases b <;> simp [mapSites, mapSpans, Expr.mapSites_mapSpans]

/-- Two parses of one clause, of which the right one numbers its call sites from further on. -/
def Pairing.moved (d : Dialect) (offset : Nat) : Pairing where
  left := d
  right := d
  offset := offset
  exact := True
  reads _ := True
  agree := .inl rfl

theorem targetList_alike {offset : Nat} (n : Nat) :
    (Pairing.moved .effect offset).Alike (fun es es' => es' = es.map (·.mapSites (· + offset)))
      (targetList n) (targetList n) := by
  induction n with
  | zero => exact .pure rfl
  | succ n ih =>
      refine .bind (Pairing.exprAbove_alike (P := .moved .effect offset) 0) ?_
      rintro e _ rfl
      refine .andThen .eat fun _ => .ite (fun _ => .bind ih ?_) fun _ => .pure rfl
      rintro es _ rfl
      exact .pure rfl

theorem clauseEnd_alike {P : Pairing} : P.Alike Eq clauseEnd clauseEnd :=
  .peek (.pure rfl) fun _ _ _ _ _ => .failAt

/-- What a clause says, with its call sites numbered from further on. -/
abbrev MovedBody (offset : Nat) (b b' : ClauseBody) : Prop := b' = b.mapSites (· + offset)

theorem endOfBody_alike {P : Pairing} (offset : Nat) (b : ClauseBody) :
    P.Alike (MovedBody offset) (clauseEnd >>= fun _ => pure b)
      (clauseEnd >>= fun _ => pure (b.mapSites (· + offset))) :=
  .andThen clauseEnd_alike fun _ => .pure rfl

theorem clauseBody_alike (tag : ClauseTag) (offset : Nat) : ∃ d, (Pairing.moved d offset).Alike
    (MovedBody offset) (clauseBody tag) (clauseBody tag) := by
  cases htag : tag.isEffect with
  | true =>
      refine ⟨.effect, ?_⟩
      rw [clauseBody, if_pos htag]
      refine .andThen .budget fun n => .bind (R := MovedBody offset) ?_ ?_
      · rw [← bind_pure_comp]
        refine .bind (targetList_alike n) ?_
        rintro es _ rfl
        exact .pure rfl
      · rintro b _ rfl
        exact endOfBody_alike offset b
  | false =>
      refine ⟨.condition, ?_⟩
      rw [clauseBody, if_neg (by simp [htag])]
      refine .bind (R := MovedBody offset) ?_ ?_
      · rw [← bind_pure_comp]
        refine .bind (Pairing.exprAbove_alike (P := .moved .condition offset) 0) ?_
        rintro e _ rfl
        exact .pure rfl
      · rintro b _ rfl
        exact endOfBody_alike offset b

/-- A clause parsed with its call sites numbered from further on is the same with higher numbers, or
has the same fault. -/
theorem clause_add (r : ClauseRecord) (site offset : SiteId) :
    clause r (site + offset) =
      (clause r site).map fun (body, next) => (body.mapSites (· + offset), next + offset) := by
  obtain ⟨d, hbody⟩ := clauseBody_alike r.tag offset
  rw [clause, clause]
  cases Scan.clause r.text with
  | error e => rfl
  | ok ts =>
      have hends := @hbody (.ofTokens ts site) (.ofTokens ts (site + offset))
        ⟨rfl, fun _ => ⟨rfl, rfl⟩, rfl, rfl, fun _ _ => trivial⟩
      have hrun (first : SiteId) : (do
          let ts ← Except.ok (ε := Located GrammarFault) ts
          (clauseBody r.tag).run (State.ofTokens ts first)) =
            clauseBody r.tag (State.ofTokens ts first) := rfl
      rw [hrun, hrun]
      generalize clauseBody r.tag (State.ofTokens ts site) = x at hends
      generalize clauseBody r.tag (State.ofTokens ts (site + offset)) = y at hends
      cases hends with
      | ok hr hst =>
          subst hr
          simp only [Except.map, ClauseBody.mapSites_mapSpans]
          rw [show _ = _ + offset from hst.site]
      | error he =>
          rw [he trivial]
          rfl

end Parse

/-! ## Binding -/

/-- The same clause with other numbers for its call sites. -/
def BoundClause.mapSites (f : SiteId → SiteId) (c : BoundClause) : BoundClause :=
  { c with expr := c.expr.mapSites f }

namespace Contract

def Binding.mapSites (f : SiteId → SiteId) : Binding → Binding
  | condition c => condition (c.mapSites f)
  | targets cs => targets (cs.map (·.mapSites f))

variable {env : Env} {r : ClauseRecord} {s : ClauseScope} (f : SiteId → SiteId)

theorem misplacedForm?_mapSites (isPost hasResult inOld : Bool) (e : Surface.Expr) :
    misplacedForm? isPost hasResult inOld (e.mapSites f) =
      misplacedForm? isPost hasResult inOld e := by
  cases e <;> rfl

mutual

theorem misplaced?_mapSites (isPost hasResult inOld : Bool) : ∀ e : Surface.Expr,
    misplaced? isPost hasResult inOld (e.mapSites f) = misplaced? isPost hasResult inOld e
  | .int .. | .bool .. | .null .. | .this .. | .name .. | .result .. => by
    rw [Surface.Expr.mapSites]
  | .binary _ _ l r | .index _ l r => by
    rw [misplaced?.eq_def, misplaced?.eq_def, misplacedForm?_mapSites, Surface.Expr.mapSites]
    simp only [misplaced?_mapSites isPost hasResult inOld l,
      misplaced?_mapSites isPost hasResult inOld r]
  | .unary _ _ e | .field _ e _ | .newArray _ _ e | .spread _ e => by
    rw [misplaced?.eq_def, misplaced?.eq_def, misplacedForm?_mapSites, Surface.Expr.mapSites]
    simp only [misplaced?_mapSites isPost hasResult inOld e]
  | .old _ e => by
    rw [misplaced?.eq_def, misplaced?.eq_def, misplacedForm?_mapSites, Surface.Expr.mapSites]
    simp only [misplaced?_mapSites isPost hasResult true e]
  | .call _ _ _ args | .new _ _ _ args => by
    rw [misplaced?.eq_def, misplaced?.eq_def, misplacedForm?_mapSites, Surface.Expr.mapSites]
    simp only [misplacedAny?_mapSites isPost hasResult inOld args]
  | .methodCall _ _ o _ args => by
    rw [misplaced?.eq_def, misplaced?.eq_def, misplacedForm?_mapSites, Surface.Expr.mapSites]
    simp only [misplaced?_mapSites isPost hasResult inOld o,
      misplacedAny?_mapSites isPost hasResult inOld args]

theorem misplacedAny?_mapSites (isPost hasResult inOld : Bool) : ∀ es : List Surface.Expr,
    misplacedAny? isPost hasResult inOld (Surface.Expr.mapSitesAll f es) =
      misplacedAny? isPost hasResult inOld es
  | [] => rfl
  | e :: es => by
    rw [Surface.Expr.mapSitesAll, misplacedAny?, misplacedAny?,
      misplaced?_mapSites isPost hasResult inOld e, misplacedAny?_mapSites isPost hasResult inOld es]

end

theorem checkForms_mapSites (tag : ClauseTag) (hasResult : Bool) (e : Surface.Expr) :
    checkForms tag hasResult (e.mapSites f) = checkForms tag hasResult e := by
  rw [checkForms, checkForms, misplaced?_mapSites]

theorem resolve_mapSites (e : Surface.Expr) :
    resolve env s (e.mapSites f) = (resolve env s e).map (·.mapSites f) := by
  have hends := Typing.checkExpr_alike (f := f)
    (s := .ofClause env s.className s.decl s.isStatic s.frame) e [] []
  show Prod.fst <$> (Typing.checkExpr _ (e.mapSites f) []) =
    Except.map _ (Prod.fst <$> (Typing.checkExpr _ e []))
  generalize Typing.checkExpr _ e [] = x at hends
  generalize Typing.checkExpr _ (e.mapSites f) [] = y at hends
  cases hends with
  | ok h => exact congrArg Except.ok h
  | error => rfl

theorem badSpread?_mapSites (e : Typed.Expr) : badSpread? (e.mapSites f) = badSpread? e := by
  cases e <;> simp [badSpread?, Typed.Expr.mapSites]

theorem checkSpreads_mapSites (e : Typed.Expr) : checkSpreads (e.mapSites f) = checkSpreads e := by
  rw [checkSpreads, checkSpreads, Typed.Expr.parts_mapSites, List.findSome?_map]
  simp only [Function.comp_def, badSpread?_mapSites]

mutual

theorem isPath_mapSites : ∀ e : Typed.Expr, isPath (e.mapSites f) = isPath e
  | .this .. | .param .. | .staticField .. | .int .. | .bool .. | .null .. | .var .. | .length ..
  | .index .. | .binary .. | .unary .. | .new .. | .newArray .. | .old .. | .result ..
  | .slot .. => by simp [Typed.Expr.mapSites, isPath]
  | .field _ _ e _ | .spread _ e => by rw [Typed.Expr.mapSites, isPath, isPath, isPath_mapSites e]
  | .call _ _ _ receiver _ _ args => by
    rw [Typed.Expr.mapSites, isPath, isPath, isReceiverPath_mapSites receiver,
      Typed.Expr.mapSitesAll_eq, List.isEmpty_map]

theorem isReceiverPath_mapSites : ∀ e : Option Typed.Expr,
    isReceiverPath (Typed.Expr.mapSitesOpt f e) = isReceiverPath e
  | none => rfl
  | some e => isPath_mapSites e

end

theorem boundClause_mapSites (e : Typed.Expr) :
    boundClause r (e.mapSites f) = (boundClause r e).mapSites f := rfl

/-- What a record is bound to depends on the numbers in its text in its own numbers only. -/
theorem bindCondition_mapSites (e : Surface.Expr) :
    bindCondition env r s (e.mapSites f) = (bindCondition env r s e).map (Binding.mapSites f) := by
  rw [bindCondition, bindCondition, checkForms_mapSites, resolve_mapSites]
  cases checkForms r.tag s.frame.result.isSome e with
  | error fault => rfl
  | ok _ =>
      cases resolve env s e with
      | error fault => rfl
      | ok typed =>
          show (if (typed.mapSites f).type != .boolean then _ else _) =
            Except.map _ (if typed.type != .boolean then _ else _)
          rw [Typed.Expr.type_mapSites, Typed.Expr.span_mapSites]
          split <;> rfl

theorem bindTarget_mapSites (e : Surface.Expr) :
    bindTarget env r s (e.mapSites f) = (bindTarget env r s e).map (·.mapSites f) := by
  rw [bindTarget, bindTarget, checkForms_mapSites, resolve_mapSites]
  cases checkForms r.tag false e with
  | error fault => rfl
  | ok _ =>
      cases resolve env s e with
      | error fault => rfl
      | ok typed =>
          show SourceFault.ofClause (checkSpreads (typed.mapSites f)) >>= _ =
            Except.map _ (SourceFault.ofClause (checkSpreads typed) >>= _)
          rw [checkSpreads_mapSites]
          cases checkSpreads typed with
          | error fault => rfl
          | ok _ =>
              show (if !isPath (typed.mapSites f) then _ else _) =
                Except.map _ (if !isPath typed then _ else _)
              rw [isPath_mapSites, Typed.Expr.text_mapSites, Typed.Expr.span_mapSites]
              split <;> rfl

theorem bindTargets_mapSites (es : List Surface.Expr) :
    (es.map (·.mapSites f)).mapM (bindTarget env r s) =
      (es.mapM (bindTarget env r s)).map fun cs => cs.map (·.mapSites f) := by
  induction es with
  | nil => rfl
  | cons e es ih =>
      rw [List.map_cons, List.mapM_cons, List.mapM_cons, bindTarget_mapSites, ih]
      cases bindTarget env r s e with
      | error fault => rfl
      | ok c => cases es.mapM (bindTarget env r s) <;> rfl

theorem bindBody_mapSites (body : Parse.ClauseBody) :
    bindBody env r s (body.mapSites f) = (bindBody env r s body).map (Binding.mapSites f) := by
  cases body with
  | condition e => exact bindCondition_mapSites f e
  | targets es =>
      show Binding.targets <$> _ = Except.map _ (Binding.targets <$> _)
      rw [bindTargets_mapSites]
      cases es.mapM (bindTarget env r s) <;> rfl

/-- A record whose call sites are numbered from further on uses up as many numbers, has the same
fault, or is bound to the same with higher numbers. -/
theorem bindRecord_add (env : Env) (r : ClauseRecord) (site offset : SiteId) :
    bindRecord env r (site + offset) =
      ((bindRecord env r site).1.map (Binding.mapSites (· + offset)),
        (bindRecord env r site).2 + offset) := by
  rw [bindRecord, bindRecord]
  cases placeRecord env r with
  | error fault => rfl
  | ok s =>
      rw [Parse.clause_add]
      cases Parse.clause r site with
      | error fault => rfl
      | ok x => exact congrArg (·, x.2 + offset) (bindBody_mapSites (· + offset) x.1)

end Contract

end Covenant
