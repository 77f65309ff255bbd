import Covenant.Proofs.Overriding
import Covenant.Proofs.SpareValues

/-!
# Clauses on their way into checks

A clause goes from its record through binding, inheritance, scheduling and
placing. Each of these passes walks lists of its own, and what the last one
places is compared here with the records themselves. On each declaration the
records of a kind are bound in their order, each to one clause; a member's checks
ask for the clauses of the declarations in its lineage, and for nothing else.
Postconditions are the only clauses that change: they read slots where terms in
`old` were.
-/

namespace Covenant

open Typed (Expr)

/-! ## What is written on a declaration -/

namespace Contract

/-- The clause that a record was bound to, if the record is of that kind and on that declaration. -/
def conditionOn? (id : DeclId) (tag : ClauseTag) :
    ClauseRecord × Except SourceFault Binding → Option (ClauseRecord × BoundClause)
  | (r, .ok (.condition c)) => if r.owner = id ∧ r.tag = tag then some (r, c) else none
  | (_, .ok (.targets _)) | (_, .error _) => none

/-- The clauses of a kind on a declaration, each with its record, in the order of the records. -/
def conditionsOn (results : List (ClauseRecord × Except SourceFault Binding)) (id : DeclId)
    (tag : ClauseTag) : List (ClauseRecord × BoundClause) :=
  results.filterMap (conditionOn? id tag)

/-- The exception that a record names. -/
def exceptionOf (r : ClauseRecord) : String := (r.subject.map (·.val)).getD ""

/-- A clause about the exception that its record names. -/
def throwsOf (x : ClauseRecord × BoundClause) : ThrowsClause := ⟨exceptionOf x.1, x.2⟩

/-- The clauses of a kind on a declaration of a program, each with its record. -/
def clausesOf (env : Env) (p : Surface.Program) :
    DeclId → ClauseTag → List (ClauseRecord × BoundClause) :=
  conditionsOn (bindAll env p.siteCount (Clause.ofProgram p))

section

variable {env : Env} {id : DeclId} {tag : ClauseTag}
  {x : ClauseRecord × Except SourceFault Binding} {results : List (ClauseRecord ×
    Except SourceFault Binding)}

theorem conditionsOn_append {more : List (ClauseRecord × Except SourceFault Binding)} :
    conditionsOn (results ++ more) id tag =
      conditionsOn results id tag ++ conditionsOn more id tag :=
  List.filterMap_append

theorem conditionOn?_eq_some {y : ClauseRecord × BoundClause} :
    conditionOn? id tag x = some y ↔
      x.2 = .ok (.condition y.2) ∧ x.1 = y.1 ∧ y.1.owner = id ∧ y.1.tag = tag := by
  obtain ⟨r, c⟩ := y
  obtain ⟨r', fault | c' | cs⟩ := x
  · simp [conditionOn?]
  · simp only [conditionOn?, Option.ite_none_right_eq_some, Option.some.injEq, Prod.mk.injEq,
      Except.ok.injEq, Binding.condition.injEq]
    constructor
    · rintro ⟨⟨ho, ht⟩, rfl, rfl⟩
      exact ⟨rfl, rfl, ho, ht⟩
    · rintro ⟨rfl, rfl, ho, ht⟩
      exact ⟨⟨ho, ht⟩, rfl, rfl⟩
  · simp [conditionOn?]

/-- The clauses of a declaration with those that records on it were bound to behind them. -/
structure GrownBy (id : DeclId) (results : List (ClauseRecord × Except SourceFault Binding))
    (own own' : OwnClauses) : Prop where
  preconditions :
    own'.preconditions = own.preconditions ++ (conditionsOn results id .pre).map (·.2)
  postconditions :
    own'.postconditions = own.postconditions ++ (conditionsOn results id .post).map (·.2)
  throws : own'.throws = own.throws ++ (conditionsOn results id .throws).map throwsOf
  mayThrow : own'.mayThrow = own.mayThrow ++ (conditionsOn results id .mayThrow).map throwsOf

theorem GrownBy.trans {more : List (ClauseRecord × Except SourceFault Binding)}
    {own own' own'' : OwnClauses} (h : GrownBy id results own own')
    (h' : GrownBy id more own' own'') : GrownBy id (results ++ more) own own'' where
  preconditions := by
    rw [h'.preconditions, h.preconditions, conditionsOn_append, List.map_append, List.append_assoc]
  postconditions := by
    rw [h'.postconditions, h.postconditions, conditionsOn_append, List.map_append,
      List.append_assoc]
  throws := by
    rw [h'.throws, h.throws, conditionsOn_append, List.map_append, List.append_assoc]
  mayThrow := by
    rw [h'.mayThrow, h.mayThrow, conditionsOn_append, List.map_append, List.append_assoc]

/-- Nothing is added where no record has a clause for the declaration. -/
theorem GrownBy.of_none {own : OwnClauses} (h : ∀ tag, conditionsOn results id tag = []) :
    GrownBy id results own own := by
  constructor <;> rw [h] <;> exact (List.append_nil _).symm

/-- A clause goes into the list of its kind. -/
theorem addCondition_grownBy (r : ClauseRecord) (c : BoundClause) (own : OwnClauses) :
    GrownBy r.owner [(r, .ok (.condition c))] own (OwnClauses.addCondition r c own) := by
  cases ht : r.tag <;> constructor <;>
    simp [OwnClauses.addCondition, conditionsOn, conditionOn?, throwsOf, exceptionOf, ht]

/-- Taking the result of a record in adds it to the declaration that the record is on. -/
theorem add_grownBy (b : Bound) (x : ClauseRecord × Except SourceFault Binding) (id : DeclId) :
    GrownBy id [x] (clausesAt b.decls id) (clausesAt (Bound.add env b x).decls id) := by
  obtain ⟨r, fault | c | cs⟩ := x
  · exact .of_none fun tag => rfl
  · by_cases hon : r.owner = id
    · subst hon
      simp only [clausesAt, Bound.add, Table.alter, Table.get?_insert_self, Option.getD_some]
      exact addCondition_grownBy r c _
    · simp only [clausesAt, Bound.add, Table.alter, Table.get?_insert_of_ne _ hon]
      exact .of_none fun tag => by simp [conditionsOn, conditionOn?, hon]
  · by_cases hon : r.owner = id
    · subst hon
      simp only [clausesAt, Bound.add, Table.alter, Table.get?_insert_self, Option.getD_some]
      constructor <;> exact (List.append_nil _).symm
    · simp only [clausesAt, Bound.add, Table.alter, Table.get?_insert_of_ne _ hon]
      exact .of_none fun tag => rfl

/-- On each declaration stand the clauses that its records were bound to. -/
theorem bind_grownBy (env : Env) (records : List ClauseRecord) (k : SiteId) (id : DeclId) :
    GrownBy id (bindAll env k records) {} (clausesAt (bind env records k).decls id) := by
  have fold : ∀ (xs : List (ClauseRecord × Except SourceFault Binding)) (b : Bound),
      GrownBy id xs (clausesAt b.decls id) (clausesAt (xs.foldl (Bound.add env) b).decls id) := by
    intro xs
    induction xs with
    | nil => exact fun b => .of_none fun tag => rfl
    | cons x xs ih => exact fun b => (add_grownBy b x id).trans (ih (Bound.add env b x))
  exact fold _ ⟨.empty, .empty, []⟩

/-! ## Each record once -/

theorem map_fst_bindAll (env : Env) (records : List ClauseRecord) (k : SiteId) :
    (bindAll env k records).map (·.1) = records := by
  induction records generalizing k with
  | nil => rfl
  | cons r rs ih => exact congrArg (r :: ·) (ih _)

/-- Every fault of a record is kept. -/
theorem ok_of_errors (h : (results.foldl (Bound.add env) ⟨.empty, .empty, []⟩).errors = []) :
    ∀ x ∈ results, ∃ b, x.2 = .ok b := by
  have fold : ∀ (xs : List (ClauseRecord × Except SourceFault Binding)) (b : Bound),
      (xs.foldl (Bound.add env) b).errors = [] → b.errors = [] ∧ ∀ x ∈ xs, ∃ b, x.2 = .ok b := by
    intro xs
    induction xs with
    | nil => exact fun b hb => ⟨hb, fun x hx => absurd hx List.not_mem_nil⟩
    | cons x xs ih =>
        intro b hb
        obtain ⟨hadd, hrest⟩ := ih _ hb
        obtain ⟨r, fault | c | cs⟩ := x
        · exact absurd hadd (by simp [Bound.add])
        · exact ⟨hadd, List.forall_mem_cons.mpr ⟨⟨_, rfl⟩, hrest⟩⟩
        · exact ⟨hadd, List.forall_mem_cons.mpr ⟨⟨_, rfl⟩, hrest⟩⟩
  exact (fold results _ h).2

/-- What is bound on declarations, beside the records that it was bound from. -/
structure BindsEach (env : Env) (records : List ClauseRecord)
    (on : DeclId → ClauseTag → List (ClauseRecord × BoundClause)) : Prop where
  records : ∀ id tag, tag.isEffect = false →
    (on id tag).map (·.1) = records.filter fun r => r.owner = id ∧ r.tag = tag
  clause : ∀ id tag, ∀ x ∈ on id tag, x.2 = boundClause x.1 x.2.expr
  subject : ∀ id tag, tag.hasSubject = true → ∀ x ∈ on id tag,
    ∃ name, x.1.subject = some name ∧ env.isException name.val = true

theorem map_fst_conditionsOn (hok : ∀ x ∈ results, ∃ b, x.2 = .ok b)
    (htag : ∀ x ∈ results, WellTagged x) (hcond : tag.isEffect = false) :
    (conditionsOn results id tag).map (·.1) =
      (results.map (·.1)).filter fun r => r.owner = id ∧ r.tag = tag := by
  induction results with
  | nil => rfl
  | cons x results ih =>
      obtain ⟨⟨b, hb⟩, hok⟩ := List.forall_mem_cons.mp hok
      obtain ⟨hx, htag⟩ := List.forall_mem_cons.mp htag
      rw [← List.singleton_append, conditionsOn_append, List.map_append, ih hok htag,
        List.map_append, List.filter_append]
      congr 1
      obtain ⟨r, result⟩ := x
      subst hb
      cases b with
      | condition c =>
          by_cases hon : r.owner = id ∧ r.tag = tag <;> simp [conditionsOn, conditionOn?, hon]
      | targets cs =>
          have heffect : r.tag.isEffect = true := hx
          have hne : r.tag ≠ tag := fun heq => by simp [heq, hcond] at heffect
          simp [conditionsOn, conditionOn?, hne]

/-- A clause is a condition that its record stands for. -/
theorem conditionOf_of_mem {records : List ClauseRecord} {k : SiteId}
    {x : ClauseRecord × BoundClause} (hx : x ∈ conditionsOn (bindAll env k records) id tag) :
    ConditionOf env k x.1 x.2 ∧ x.1.tag = tag := by
  obtain ⟨y, hy, hxy⟩ := List.mem_filterMap.mp hx
  obtain ⟨hok, hr, _, ht⟩ := conditionOn?_eq_some.mp hxy
  exact ⟨hr ▸ bindAll_ok (Nat.le_refl k) y hy _ hok, ht⟩

/-- If no clause is at fault, each record is bound to one clause. -/
theorem bindAll_bindsEach {records : List ClauseRecord} {k : SiteId}
    (h : (bind env records k).errors = []) :
    BindsEach env records (conditionsOn (bindAll env k records)) where
  records id tag htag := by
    rw [map_fst_conditionsOn (ok_of_errors h) (bindAll_wellTagged records k) htag, map_fst_bindAll]
  clause id tag x hx := by
    obtain ⟨r, c⟩ := x
    obtain ⟨hof : ConditionOf env k r c, _⟩ := conditionOf_of_mem hx
    cases hof
    rfl
  subject id tag htag x hx := by
    obtain ⟨r, c⟩ := x
    obtain ⟨hof : ConditionOf env k r c, ht⟩ := conditionOf_of_mem hx
    cases hof with
    | mk _ hsub =>
        rw [checkSubject, ht, if_pos htag] at hsub
        split at hsub
        · exact absurd hsub (by simp [clauseFault])
        · next name hname =>
            split at hsub
            · next hexc => exact ⟨name, hname, hexc⟩
            · exact absurd hsub (by simp [clauseFault])

end

end Contract

/-! ## What scheduling leaves of a postcondition -/

namespace Typed.Expr

mutual

/-- An expression with one and the same hole in place of each term in `old` and each slot of a
type. -/
def withoutOld : Expr → Expr
  | .old span x => .slot span x.type 0
  | .slot span t _ => .slot span t 0
  | .field span t object name => .field span t object.withoutOld name
  | .length span a => .length span a.withoutOld
  | .index span t a i => .index span t a.withoutOld i.withoutOld
  | .binary span op l r => .binary span op l.withoutOld r.withoutOld
  | .unary span op x => .unary span op x.withoutOld
  | .call span t site receiver m name args =>
    .call span t site (withoutOldOpt receiver) m name (withoutOldAll args)
  | .new span site c ctor args => .new span site c ctor (withoutOldAll args)
  | .newArray span elem n => .newArray span elem n.withoutOld
  | .spread span x => .spread span x.withoutOld
  | e => e

def withoutOldOpt : Option Expr → Option Expr
  | none => none
  | some e => some e.withoutOld

def withoutOldAll : List Expr → List Expr
  | [] => []
  | e :: es => e.withoutOld :: withoutOldAll es

end

end Typed.Expr

namespace Contract

theorem storeOld_type (first : Nat) : ∀ (slots : List Expr) (e : Expr),
    (storeOld first slots e).1.type = e.type
  | slots, .old _ x => storeOld_type first slots x
  | slots, .spread _ x => by
      rw [storeOld]
      simp only [Expr.type, storeOld_type first slots x]
  | _, .int .. | _, .bool .. | _, .null .. | _, .this .. | _, .var .. | _, .param ..
  | _, .field .. | _, .staticField .. | _, .length .. | _, .index .. | _, .binary ..
  | _, .unary .. | _, .call .. | _, .new .. | _, .newArray .. | _, .result .. | _, .slot .. => rfl

mutual

/-- Only terms in `old` are replaced. -/
theorem storeOld_withoutOld (first : Nat) : ∀ (slots : List Expr) (e : Expr),
    (storeOld first slots e).1.withoutOld = e.withoutOld
  | slots, .old _ x => by
      rw [storeOld, Expr.withoutOld, Expr.withoutOld, storeOld_type]
  | slots, .field _ _ e _ | slots, .length _ e | slots, .unary _ _ e | slots, .newArray _ _ e
  | slots, .spread _ e => by
      rw [storeOld, Expr.withoutOld, Expr.withoutOld, storeOld_withoutOld first slots e]
  | slots, .index _ _ l r | slots, .binary _ _ l r => by
      rw [storeOld, Expr.withoutOld, Expr.withoutOld, storeOld_withoutOld first slots l,
        storeOld_withoutOld first _ r]
  | slots, .call _ _ _ receiver _ _ args => by
      rw [storeOld, Expr.withoutOld, Expr.withoutOld, storeOldOpt_withoutOld first slots receiver,
        storeOldAll_withoutOld first _ args]
  | slots, .new _ _ _ _ args => by
      rw [storeOld, Expr.withoutOld, Expr.withoutOld, storeOldAll_withoutOld first slots args]
  | _, .int .. | _, .bool .. | _, .null .. | _, .this .. | _, .var .. | _, .param ..
  | _, .staticField .. | _, .result .. | _, .slot .. => rfl

theorem storeOldOpt_withoutOld (first : Nat) : ∀ (slots : List Expr) (e : Option Expr),
    Expr.withoutOldOpt (storeOldOpt first slots e).1 = Expr.withoutOldOpt e
  | _, none => rfl
  | slots, some e => by
      rw [storeOldOpt, Expr.withoutOldOpt, Expr.withoutOldOpt, storeOld_withoutOld first slots e]

theorem storeOldAll_withoutOld (first : Nat) : ∀ (slots : List Expr) (es : List Expr),
    Expr.withoutOldAll (storeOldAll first slots es).1 = Expr.withoutOldAll es
  | _, [] => rfl
  | slots, e :: es => by
      rw [storeOldAll, Expr.withoutOldAll, Expr.withoutOldAll, storeOld_withoutOld first slots e,
        storeOldAll_withoutOld first _ es]

end

end Contract

/-- Two clauses are one and the same but for what they read of the entry. -/
structure BoundClause.SameButOld (c c' : BoundClause) : Prop where
  tag : c'.tag = c.tag
  origin : c'.origin = c.origin
  text : c'.text = c.text
  span : c'.span = c.span
  expr : c'.expr.withoutOld = c.expr.withoutOld

theorem BoundClause.SameButOld.symm {c c' : BoundClause} (h : c.SameButOld c') : c'.SameButOld c :=
  ⟨h.tag.symm, h.origin.symm, h.text.symm, h.span.symm, h.expr.symm⟩

theorem BoundClause.SameButOld.trans {c c' c'' : BoundClause} (h : c.SameButOld c')
    (h' : c'.SameButOld c'') : c.SameButOld c'' :=
  ⟨h'.tag.trans h.tag, h'.origin.trans h.origin, h'.text.trans h.text, h'.span.trans h.span,
    h'.expr.trans h.expr⟩

namespace Contract

theorem storePosts_sameButOld (first : Nat) (slots : List Expr) (posts : List BoundClause) :
    List.Forall₂ BoundClause.SameButOld posts (storePosts first slots posts).1 := by
  induction posts generalizing slots with
  | nil => exact .nil
  | cons c cs ih =>
      rw [storePosts]
      exact .cons ⟨rfl, rfl, rfl, rfl, storeOld_withoutOld first slots c.expr⟩ (ih _)

end Contract

/-! ## Clauses of a lineage -/

namespace Contract

/-- The clauses of a kind on several declarations, one declaration after the other. -/
def gather (on : DeclId → ClauseTag → List (ClauseRecord × BoundClause)) (ids : List DeclId)
    (tag : ClauseTag) : List (ClauseRecord × BoundClause) :=
  ids.flatMap fun id => on id tag

/-- The preconditions on several declarations, a group for each one that has any. -/
def groups (on : DeclId → ClauseTag → List (ClauseRecord × BoundClause)) (ids : List DeclId) :
    List (List BoundClause) :=
  (ids.map fun id => (on id .pre).map (·.2)).filter (!·.isEmpty)

/-- A member's specification has the clauses of its lineage. -/
theorem specificationOf_bind (env : Env) (records : List ClauseRecord) (k : SiteId)
    (m : MethodInfo) {s : Specification} (hs : s = specificationOf env (bind env records k).decls m)
    {on : DeclId → ClauseTag → List (ClauseRecord × BoundClause)}
    (hon : on = conditionsOn (bindAll env k records)) :
    s.preconditions = groups on (m.id :: ancestors env m) ∧
      s.postconditions = (gather on (m.id :: ancestors env m) .post).map (·.2) ∧
      s.throws = (gather on (m.id :: ancestors env m) .throws).map throwsOf ∧
      s.mayThrow = (gather on (m.id :: ancestors env m) .mayThrow).map throwsOf := by
  have own (id : DeclId) := bind_grownBy env records k id
  subst hs hon
  rw [specificationOf_eq]
  simp only [assemble, groups, gather, List.map_map, List.map_flatMap, List.flatMap_map]
  refine ⟨?_, ?_, ?_, ?_⟩
  · congr 1
    exact List.map_congr_left fun id _ => (own id).preconditions
  · exact congrArg List.flatten (List.map_congr_left fun id _ => (own id).postconditions)
  · exact congrArg List.flatten (List.map_congr_left fun id _ => (own id).throws)
  · exact congrArg List.flatten (List.map_congr_left fun id _ => (own id).mayThrow)

/-- The check of some clauses about exceptions, where the values of their conditions come first
among what is stored. -/
def exitCode (throws mayThrow : List (ClauseRecord × BoundClause)) : CheckCode :=
  .throws (throws.mapIdx fun i x => ⟨exceptionOf x.1, i, x.2⟩)
    (mayThrow.map fun x => exceptionOf x.1)

theorem throwsCode_scheduleOne {s : Specification}
    {throws mayThrow : List (ClauseRecord × BoundClause)}
    (ht : s.throws = throws.map throwsOf) (hm : s.mayThrow = mayThrow.map throwsOf) :
    throwsCode (scheduleOne s).1 = exitCode throws mayThrow := by
  have hslots : (scheduleOne s).1.throwsSlots = List.range throws.length := by
    show List.range (s.throws.map _).length = _
    rw [List.length_map, ht, List.length_map]
  have hthrows : (scheduleOne s).1.throws = throws.map throwsOf := ht
  have hmay : (scheduleOne s).1.mayThrow = mayThrow.map throwsOf := hm
  rw [throwsCode, hslots, hthrows, hmay, exitCode, List.mapIdx_eq_zipIdx_map, List.map_map,
    List.zipIdx_eq_zip_range', ← List.range_eq_range', List.zip_map_left, List.map_map]
  rfl

end Contract

open Contract (clausesOf BindsEach gather groups exitCode listIf storePosts conditionTerms
  OldTermsStored sharesSlot)

/-- The checks at the entry and the exits of a member ask for the clauses of some declarations, and
for nothing else. The conditions of its clauses about exceptions are the first terms that it stores,
in their order, and a term in `old` reads a slot that a term of the same type and text is stored
in. -/
structure WovenProgram.AsksFor (p : WovenProgram) (m : MethodInfo)
    (on : DeclId → ClauseTag → List (ClauseRecord × BoundClause)) (ids : List DeclId)
    (slots : List Expr) (posts : List BoundClause) : Prop where
  entry : p.codesAt m.id .entry =
    if m.isConstructor then
      listIf (!slots.isEmpty) (.snapshot ⟨.constructorPrologue, slots⟩) ++
        listIf (!(groups on ids).isEmpty) (.precondition (groups on ids))
    else
      listIf (!(groups on ids).isEmpty) (.precondition (groups on ids)) ++
        listIf (!slots.isEmpty) (.snapshot ⟨.methodEntry, slots⟩)
  normalExit : p.codesAt m.id .normalExit =
    listIf (!(gather on ids .post).isEmpty) (.postcondition posts) ++
      listIf (!(gather on ids .throws).isEmpty)
        (exitCode (gather on ids .throws) (gather on ids .mayThrow))
  exceptionalExit : p.codesAt m.id .exceptionalExit =
    listIf (!(gather on ids .throws).isEmpty)
      (exitCode (gather on ids .throws) (gather on ids .mayThrow))
  elsewhere : ∀ site, ∀ code ∈ p.codesAt m.id (.afterCall site), ∃ os, code = .reverify os
  conditions : slots.take (gather on ids .throws).length =
    (gather on ids .throws).map (·.2.expr)
  same : List.Forall₂ BoundClause.SameButOld ((gather on ids .post).map (·.2)) posts
  terms : OldTermsStored (fun y x => sharesSlot y x = true) slots
    ((gather on ids .post).map (·.2)) posts

/-- All that the checks of one member ask for the checks of another one ask for as well. -/
structure WovenProgram.AsksForAll (p : WovenProgram) (d m : MethodInfo) : Prop where
  preconditions : ∀ gs, .precondition gs ∈ p.codesAt m.id .entry →
    ∃ gs', .precondition gs' ∈ p.codesAt d.id .entry ∧ gs ⊆ gs'
  postconditions : ∀ cs, .postcondition cs ∈ p.codesAt m.id .normalExit →
    ∃ cs', .postcondition cs' ∈ p.codesAt d.id .normalExit ∧
      ∀ c ∈ cs, ∃ c' ∈ cs', c.SameButOld c'
  throws : ∀ point ∈ [ProgramPoint.normalExit, .exceptionalExit], ∀ ts names,
    .throws ts names ∈ p.codesAt m.id point →
      ∃ ts' names', .throws ts' names' ∈ p.codesAt d.id point ∧ names ⊆ names' ∧
        ∀ t ∈ ts, ∃ t' ∈ ts', t'.exception = t.exception ∧ t'.clause = t.clause

/-- Behind calls only invariants are checked. -/
theorem reverify_of_afterCall {env : Env} {plan : ContractPlan} {checks : Checks} {id : DeclId}
    {site : SiteId} {code : CheckCode}
    (h : code ∈ (WovenProgram.mk env (Contract.weave env plan checks)).codesAt id
      (.afterCall site)) : ∃ os, code = .reverify os := by
  obtain ⟨c, hc, rfl⟩ := List.mem_map.mp h
  obtain ⟨hc, hpoint⟩ := List.mem_filter.mp hc
  rcases Contract.mem_weave hc with ⟨s, _, hcode⟩ | ⟨site, _, heq⟩
  · simp only [Bool.and_eq_true, beq_iff_eq] at hpoint
    exact absurd hpoint.2 (Contract.memberCodes_point _ hcode)
  · exact ⟨_, congrArg PlacedCheck.code heq⟩

section

variable {p : Surface.Program} {env : Env} {m : MethodInfo}

/-- The checks of a member ask for the clauses of its lineage. -/
theorem asksFor_ofProgram (hk : env.MethodsKeyed)
    (howners : ∀ id f, env.field? id = some f → IsWord f.owner)
    (hm : env.method? m.id = some m) :
    ∃ slots posts, (WovenProgram.mk env
      (Contract.weave env (.ofProgram p env) {})).AsksFor m (clausesOf env p)
        (m.id :: Contract.ancestors env m) slots posts := by
  generalize hon : clausesOf env p = on
  generalize hs : Contract.specificationOf env
    (Contract.bind env (Clause.ofProgram p) p.siteCount).decls m = s
  obtain ⟨hpre, hpost, hthrows, hmay⟩ :=
    Contract.specificationOf_bind env (Clause.ofProgram p) p.siteCount m hs.symm hon.symm
  have hfresh := Contract.freshSpec_of_bind howners (Clause.ofProgram p) p.siteCount m
  rw [hs] at hfresh
  have hflat := fun c hc => (hfresh.postconditions c hc).unscheduled
  have codes {point : ProgramPoint} (hp : ∀ site, point ≠ .afterCall site) :
      (WovenProgram.mk env (Contract.weave env (.ofProgram p env) {})).codesAt m.id point =
        ((Contract.scheduledCodes {} env m s).filter (·.1 == point)).map (·.2) :=
    (codesAt_member {} hk hm hs.symm hp).1
  have hexit := Contract.throwsCode_scheduleOne hthrows hmay
  have hpoint : Contract.snapshotPoint env m.id =
      if m.isConstructor then .constructorPrologue else .methodEntry := by
    rw [Contract.snapshotPoint, hm]
    rfl
  have hempty : s.throws.isEmpty =
      (gather on (m.id :: Contract.ancestors env m) .throws).isEmpty := by
    rw [hthrows, List.isEmpty_map]
  have hsame : List.Forall₂ BoundClause.SameButOld s.postconditions
      (Contract.scheduleOne s).1.postconditions := Contract.storePosts_sameButOld _ _ _
  have hempty' : (Contract.scheduleOne s).1.postconditions.isEmpty =
      (gather on (m.id :: Contract.ancestors env m) .post).isEmpty := by
    rw [Bool.eq_iff_iff, List.isEmpty_iff_length_eq_zero, ← hsame.length_eq, hpost,
      List.length_map, List.isEmpty_iff_length_eq_zero]
  refine ⟨(Contract.scheduleOne s).2, (Contract.scheduleOne s).1.postconditions, ?_, ?_, ?_,
    fun _ _ => reverify_of_afterCall, ?_, ?_, ?_⟩
  · rw [codes (by simp), Contract.scheduledCodes, memberCodes_entry, Contract.entryCodes_eq, hpoint]
    cases m.isConstructor <;> simp [Contract.scheduleOne, hpre]
  · rw [codes (by simp), Contract.scheduledCodes, memberCodes_normalExit, hexit, hempty', ← hempty]
    rfl
  · rw [codes (by simp), Contract.scheduledCodes, memberCodes_exceptionalExit, hexit, ← hempty]
    rfl
  · obtain ⟨⟨more, hmore, _⟩, _⟩ := Contract.storePosts_stores
      (Nat.le_refl (conditionTerms s).length) hflat
    have hconditions : conditionTerms s =
        (gather on (m.id :: Contract.ancestors env m) .throws).map (·.2.expr) := by
      rw [conditionTerms, hthrows, List.map_map]
      rfl
    rw [Contract.scheduleOne_snd, hmore, hconditions]
    exact List.take_left' (List.length_map _)
  · exact hpost ▸ hsame
  · rw [← hpost]
    refine (Contract.scheduleOne_stored hflat).imp fun c c' hc => hc.imp fun x n hx => ?_
    obtain ⟨y, hy, _, hfind⟩ := hx
    have hshare := List.find?_some hfind
    exact ⟨y, hy, hshare⟩

end

/-- What stands in one of two lists has a partner in the other one. -/
theorem partner_of_mem {α β : Type} {R : α → β → Prop} {xs : List α} {ys : List β}
    (h : List.Forall₂ R xs ys) {x : α} (hx : x ∈ xs) : ∃ y ∈ ys, R x y := by
  induction h with
  | nil => exact absurd hx List.not_mem_nil
  | cons hxy _ ih =>
      rcases List.mem_cons.mp hx with rfl | hx
      · exact ⟨_, List.mem_cons_self, hxy⟩
      · obtain ⟨y, hy, hxy⟩ := ih hx
        exact ⟨y, List.mem_cons_of_mem _ hy, hxy⟩

/-- More declarations ask for more. -/
theorem groups_subset {on : DeclId → ClauseTag → List (ClauseRecord × BoundClause)}
    {ids ids' : List DeclId} (h : ids ⊆ ids') : groups on ids ⊆ groups on ids' := by
  intro g hg
  obtain ⟨hg, hne⟩ := List.mem_filter.mp hg
  obtain ⟨id, hid, rfl⟩ := List.mem_map.mp hg
  exact List.mem_filter.mpr ⟨List.mem_map.mpr ⟨id, h hid, rfl⟩, hne⟩

theorem gather_subset {on : DeclId → ClauseTag → List (ClauseRecord × BoundClause)}
    {ids ids' : List DeclId} (h : ids ⊆ ids') (tag : ClauseTag) :
    gather on ids tag ⊆ gather on ids' tag := by
  intro x hx
  obtain ⟨id, hid, hx⟩ := List.mem_flatMap.mp hx
  exact List.mem_flatMap.mpr ⟨id, h hid, hx⟩

theorem mem_listIf_iff {α : Type} {b : Bool} {x y : α} : y ∈ listIf b x ↔ b = true ∧ y = x := by
  cases b <;> simp [listIf]

section

variable {p : WovenProgram} {d m : MethodInfo}
  {on : DeclId → ClauseTag → List (ClauseRecord × BoundClause)} {ids ids' : List DeclId}
  {slots slots' : List Expr} {posts posts' : List BoundClause}

/-- Where something is asked for about exceptions, more is asked for on more declarations. -/
theorem exitCode_subset (hids : ids ⊆ ids') {ts : List ThrowsCheck} {names : List String}
    (h : .throws ts names ∈ listIf (!(gather on ids .throws).isEmpty)
      (exitCode (gather on ids .throws) (gather on ids .mayThrow))) :
    ∃ ts' names', .throws ts' names' ∈ listIf (!(gather on ids' .throws).isEmpty)
        (exitCode (gather on ids' .throws) (gather on ids' .mayThrow)) ∧ names ⊆ names' ∧
      ∀ t ∈ ts, ∃ t' ∈ ts', t'.exception = t.exception ∧ t'.clause = t.clause := by
  obtain ⟨hne, heq⟩ := mem_listIf_iff.mp h
  rw [exitCode, CheckCode.throws.injEq] at heq
  obtain ⟨rfl, rfl⟩ := heq
  have hne' : (!(gather on ids' .throws).isEmpty) = true := by
    rw [Bool.not_eq_true', List.isEmpty_eq_false_iff_exists_mem] at hne ⊢
    obtain ⟨x, hx⟩ := hne
    exact ⟨x, gather_subset hids .throws hx⟩
  refine ⟨_, _, mem_listIf_iff.mpr ⟨hne', rfl⟩, List.map_subset _ (gather_subset hids .mayThrow),
    fun t ht => ?_⟩
  obtain ⟨i, hi, rfl⟩ := List.mem_mapIdx.mp ht
  obtain ⟨j, hj, heq⟩ := List.mem_iff_getElem.mp (gather_subset hids .throws (List.getElem_mem hi))
  exact ⟨_, List.mem_mapIdx.mpr ⟨j, hj, rfl⟩, by rw [heq], by rw [heq]⟩

/-- If the lineage of one member is in that of another one, all that the one's checks ask for the
other's ask for as well. -/
theorem WovenProgram.AsksFor.all (hm : p.AsksFor m on ids slots posts)
    (hd : p.AsksFor d on ids' slots' posts') (hids : ids ⊆ ids') : p.AsksForAll d m where
  preconditions gs hgs := by
    have hgroups : (!(groups on ids).isEmpty) = true ∧ gs = groups on ids := by
      rw [hm.entry] at hgs
      split at hgs <;> simpa [mem_listIf_iff] using hgs
    obtain ⟨hne, rfl⟩ := hgroups
    refine ⟨groups on ids', ?_, groups_subset hids⟩
    have hne' : (!(groups on ids').isEmpty) = true := by
      rw [Bool.not_eq_true', List.isEmpty_eq_false_iff_exists_mem] at hne ⊢
      obtain ⟨g, hg⟩ := hne
      exact ⟨g, groups_subset hids hg⟩
    rw [hd.entry]
    split <;> simp [mem_listIf_iff, hne']
  postconditions cs hcs := by
    obtain ⟨hne, rfl⟩ : (!(gather on ids .post).isEmpty) = true ∧ cs = posts := by
      rw [hm.normalExit] at hcs
      simpa [mem_listIf_iff, exitCode] using hcs
    have hne' : (!(gather on ids' .post).isEmpty) = true := by
      rw [Bool.not_eq_true', List.isEmpty_eq_false_iff_exists_mem] at hne ⊢
      obtain ⟨x, hx⟩ := hne
      exact ⟨x, gather_subset hids .post hx⟩
    refine ⟨posts', ?_, fun c hc => ?_⟩
    · rw [hd.normalExit]
      exact List.mem_append_left _ (mem_listIf_iff.mpr ⟨hne', rfl⟩)
    · obtain ⟨c₀, hc₀, hsame⟩ := partner_of_mem hm.same.flip hc
      obtain ⟨c', hc', hsame'⟩ := partner_of_mem hd.same
        (List.map_subset _ (gather_subset hids .post) hc₀)
      have hback : c₀.SameButOld c := hsame
      exact ⟨c', hc', hback.symm.trans hsame'⟩
  throws point hpoint ts names h := by
    rcases List.mem_cons.mp hpoint with rfl | hpoint
    · rw [hm.normalExit] at h
      obtain ⟨ts', names', h', hsub⟩ := exitCode_subset hids
        ((List.mem_append.mp h).resolve_left fun h => by simpa using (mem_listIf_iff.mp h).2)
      exact ⟨ts', names', hd.normalExit ▸ List.mem_append_right _ h', hsub⟩
    · obtain rfl := List.mem_singleton.mp hpoint
      rw [hm.exceptionalExit] at h
      obtain ⟨ts', names', h', hsub⟩ := exitCode_subset hids h
      exact ⟨ts', names', hd.exceptionalExit ▸ h', hsub⟩

end

/-- No clause is lost on the way into the checks and none is made up: if every clause makes sense
and every kind of checks is on, each record of a condition is bound to one clause on its
declaration, and the checks of each member ask for the clauses of its own declaration and of all
that chains of overriding lead to, each declaration once, and for nothing else. So the checks of a
method ask for all that those of the methods ask for which it overrides; static methods and
constructors have their own clauses. -/
theorem clauses_kept {source : String} {b : Build} (h : build source {} = .ok b)
    {p : Surface.Program} (hp : Parse.program source = .ok p) :
    BindsEach b.program.env (Clause.ofProgram p) (clausesOf b.program.env p) ∧
    (∀ m, b.program.env.method? m.id = some m → ∃ ids slots posts,
      b.program.env.Lineage m ids ∧
        b.program.AsksFor m (clausesOf b.program.env p) ids slots posts ∧
        (m.isStatic = true ∨ m.isConstructor = true → ids = [m.id])) ∧
    ∀ d m, b.program.env.Overrides d m → b.program.AsksForAll d m := by
  obtain ⟨hcheck, hplan, hprog⟩ := analysis_of_build h hp
  obtain ⟨_, _, _, _, _, herrors, _⟩ := build_eq_ok h
  have hwf := Parse.program_wellFormed hp
  have hk := methodsKeyed_of_check hcheck
  have hdecl := Env.declaredBy_of_check hwf hcheck
  have howners := Contract.owners_words hwf hcheck
  have asks {m : MethodInfo} (hm : b.program.env.method? m.id = some m) :
      ∃ slots posts, b.program.AsksFor m (clausesOf b.program.env p)
        (m.id :: Contract.ancestors b.program.env m) slots posts := by
    have hasks := asksFor_ofProgram (p := p) hk howners hm
    rw [← hplan, ← hprog] at hasks
    exact hasks
  refine ⟨?_, fun m hm => ?_, fun d m hover => ?_⟩
  · rw [hplan] at herrors
    exact Contract.bindAll_bindsEach herrors
  · obtain ⟨slots, posts, hasks⟩ := asks hm
    have hlineage := hdecl.lineage hk hm
    exact ⟨_, slots, posts, hlineage, hasks, hlineage.eq_singleton⟩
  · obtain ⟨slots, posts, hasks⟩ := asks hover.known'
    obtain ⟨slots', posts', hasks'⟩ := asks hover.known
    -- What the overridden method overrides is overridden by way of it.
    refine hasks.all hasks' fun id hid => ?_
    obtain ⟨a, rfl, hchain⟩ := ((hdecl.lineage hk hover.known').mem id).mp hid
    exact ((hdecl.lineage hk hover.known).mem a.id).mpr ⟨a, rfl, .head hover hchain⟩

/-- There are two ways from a class to a method of an interface that it overrides. -/
def diamondSource : String :=
  "interface I {
     /** @pre | x > 0
       * @post | result > old(x)
       * @throws IllegalStateException | x == 7
       * @may_throw RuntimeException | x > 8 */
     int m(int x);
   }
   interface J extends I { /** @pre | x == 0 */ int m(int x); }
   class A implements I {
     /** @throws ArithmeticException | x == 5 */
     int m(int x) { return x + 1; }
   }
   class B extends A implements J {
     /** @post | result == x + 1 */
     int m(int x) { return x + 1; }
     /** @pre | x > 1 */
     static int s(int x) { return x; }
   }"

theorem clauses_kept_diamond :
    ∃ b p m ids slots posts, build diamondSource {} = .ok b ∧
      Parse.program diamondSource = .ok p ∧ b.program.env.methodNamed? "B.m" = some m ∧
      b.program.env.Lineage m ids ∧
      b.program.AsksFor m (clausesOf b.program.env p) ids slots posts ∧
      (b.program.codesAt m.id .entry).length = 2 ∧
      (b.program.codesAt m.id .normalExit).length = 2 := by
  have h : (do
      let b ← (build diamondSource {}).toOption
      let p ← (Parse.program diamondSource).toOption
      let m ← b.program.env.methodNamed? "B.m"
      return (decide (b.program.env.method? m.id = some m) &&
        ((b.program.codesAt m.id .entry).length == 2 &&
          (b.program.codesAt m.id .normalExit).length == 2))) = some true := by
    set_option maxRecDepth 20000 in
    rw [show diamondSource = String.ofList _ from rfl, build_ofList, Parse.program_ofList]
    decide +kernel
  simp only [Option.bind_eq_bind, Option.bind_eq_some_iff] at h
  obtain ⟨b, hb, p, hp, m, hnamed, h⟩ := h
  simp only [Option.pure_def, Option.some.injEq, Bool.and_eq_true, decide_eq_true_eq,
    beq_iff_eq] at h
  obtain ⟨hm, hentry, hexit⟩ := h
  obtain ⟨ids, slots, posts, hlineage, hasks, _⟩ :=
    (clauses_kept (ok_of_toOption hb) (ok_of_toOption hp)).2.1 m hm
  exact ⟨b, p, m, ids, slots, posts, ok_of_toOption hb, ok_of_toOption hp, hnamed, hlineage, hasks,
    hentry, hexit⟩

end Covenant
