import Covenant.Proofs.Obligations
import Covenant.Proofs.OldValues

/-!
# Programs without the clauses that are not checked

A kind of clauses can be switched off, or its clauses can be deleted. `covered`
is the program in which they are deleted and everything else is checked. Its
specifications are those of the program with the deleted clauses left out, its
effects are the same, and so are the invariants if they count.
-/

namespace Covenant

open Contract (Bound Binding)

/-- Whether clauses of a kind are checked. Effects are no checks; they always count. -/
def Checks.covers (checks : Checks) : ClauseTag → Bool
  | .pre => checks.preconditions
  | .post => checks.postconditions
  | .invariant => checks.invariants
  | .throws | .mayThrow => checks.exceptional
  | .inspects | .mutates | .mutatesProperties => true

/-- The clauses of a declaration that are checked. -/
def OwnClauses.covered (checks : Checks) (own : OwnClauses) : OwnClauses where
  preconditions := if checks.preconditions then own.preconditions else []
  postconditions := if checks.postconditions then own.postconditions else []
  invariants := if checks.invariants then own.invariants else []
  throws := if checks.exceptional then own.throws else []
  mayThrow := if checks.exceptional then own.mayThrow else []
  effects := own.effects

section

variable (checks : Checks) (own : OwnClauses)

@[simp] theorem OwnClauses.preconditions_covered : (own.covered checks).preconditions =
    if checks.preconditions then own.preconditions else [] := rfl

@[simp] theorem OwnClauses.postconditions_covered : (own.covered checks).postconditions =
    if checks.postconditions then own.postconditions else [] := rfl

@[simp] theorem OwnClauses.throws_covered : (own.covered checks).throws =
    if checks.exceptional then own.throws else [] := rfl

@[simp] theorem OwnClauses.mayThrow_covered : (own.covered checks).mayThrow =
    if checks.exceptional then own.mayThrow else [] := rfl

@[simp] theorem OwnClauses.effects_covered : (own.covered checks).effects = own.effects := rfl

end

/-- The clauses of a member that are checked. -/
def Specification.covered (checks : Checks) (s : Specification) : Specification where
  member := s.member
  preconditions := if checks.preconditions then s.preconditions else []
  postconditions := if checks.postconditions then s.postconditions else []
  throws := if checks.exceptional then s.throws else []
  mayThrow := if checks.exceptional then s.mayThrow else []
  effects := s.effects
  throwsSlots := s.throwsSlots

/-- Binds the records that are left when those of the kinds that are not checked are deleted. The
calls in them keep their numbers. -/
def Contract.bindCovered (checks : Checks) (env : Env) (records : List ClauseRecord)
    (firstSite : SiteId) : Bound :=
  ((bindAll env firstSite records).filter fun x => checks.covers x.1.tag).foldl (Bound.add env)
    ⟨.empty, .empty, []⟩

/-- The contracts of a program without the clauses that are not checked. -/
def ContractPlan.covered (checks : Checks) (p : Surface.Program) (env : Env) : ContractPlan :=
  .ofBound env (Contract.bindCovered checks env (Clause.ofProgram p) p.siteCount)

/-- The program without the clauses that are not checked, of which all others are. -/
def WovenProgram.covered (checks : Checks) (p : Surface.Program) (env : Env) : WovenProgram :=
  ⟨env, Contract.weave env (.covered checks p env) {}⟩

/-! ## Records and what they are bound to -/

namespace Parse

theorem clauseBody_kind {tag : ClauseTag} {st st' : State} {body : ClauseBody}
    (h : clauseBody tag st = .ok (body, st')) :
    match body with
    | .condition _ => tag.isEffect = false
    | .targets _ => tag.isEffect = true := by
  simp only [clauseBody] at h
  cases he : tag.isEffect with
  | true =>
      simp only [he, if_true] at h
      obtain ⟨_, _, _, h₁⟩ := stateT_bind.mp h
      obtain ⟨_, _, hb, h₂⟩ := stateT_bind.mp h₁
      obtain ⟨_, _, _, heq⟩ := stateT_map hb
      obtain ⟨_, _, _, hend⟩ := stateT_bind.mp h₂
      cases heq
      cases hend
      rfl
  | false =>
      simp only [he, Bool.false_eq_true, if_false] at h
      obtain ⟨_, _, hb, h₁⟩ := stateT_bind.mp h
      obtain ⟨_, _, _, heq⟩ := stateT_map hb
      obtain ⟨_, _, _, hend⟩ := stateT_bind.mp h₁
      cases heq
      cases hend
      rfl

/-- A record of an effect lists targets, and every other record has a condition. -/
theorem clause_kind {r : ClauseRecord} {site next : SiteId} {body : ClauseBody}
    (h : clause r site = .ok (body, next)) :
    match body with
    | .condition _ => r.tag.isEffect = false
    | .targets _ => r.tag.isEffect = true := by
  simp only [clause] at h
  split at h
  · next b st hb =>
      cases h
      obtain ⟨_, _, hrun⟩ := bind_eq_ok.mp hb
      have hkind := clauseBody_kind hrun
      cases b <;> exact hkind
  · exact absurd h (by simp)

end Parse

namespace Contract

variable {env : Env} {checks : Checks}

/-- What a record was bound to is of the kind of the record. -/
def WellTagged (x : ClauseRecord × Except SourceFault Binding) : Prop :=
  match x.2 with
  | .ok (.condition _) => x.1.tag.isEffect = false
  | .ok (.targets _) => x.1.tag.isEffect = true
  | .error _ => True

theorem bindRecord_wellTagged (env : Env) (r : ClauseRecord) (site : SiteId) :
    WellTagged (r, (bindRecord env r site).1) := by
  cases hp : placeRecord env r with
  | error fault =>
      simp only [bindRecord, hp]
      trivial
  | ok s =>
      cases hc : SourceFault.ofGrammar (Parse.clause r site) with
      | error fault =>
          simp only [bindRecord, hp, hc]
          trivial
      | ok body =>
          obtain ⟨body, next⟩ := body
          simp only [bindRecord, hp, hc]
          have hkind := Parse.clause_kind (mapError_eq_ok.mp hc)
          cases body with
          | condition e =>
              cases hb : bindCondition env r s e with
              | error fault =>
                  simp only [bindBody, hb]
                  trivial
              | ok b =>
                  obtain ⟨_, _, h₁⟩ := bind_eq_ok.mp hb
                  obtain ⟨_, _, h₂⟩ := bind_eq_ok.mp h₁
                  split at h₂
                  · obtain ⟨_, hfail, _⟩ := bind_eq_ok.mp h₂
                    exact absurd (mapError_eq_ok.mp hfail) (by simp [clauseFault])
                  · cases h₂
                    simp only [bindBody, hb]
                    exact hkind
          | targets es =>
              simp only [bindBody]
              cases es.mapM (bindTarget env r s) with
              | error fault => trivial
              | ok cs => exact hkind

theorem bindAll_wellTagged (records : List ClauseRecord) (site : SiteId) :
    ∀ x ∈ bindAll env site records, WellTagged x := by
  induction records generalizing site with
  | nil => exact fun x hx => absurd hx List.not_mem_nil
  | cons r rs ih =>
      intro x hx
      rcases List.mem_cons.mp hx with rfl | hx
      · exact bindRecord_wellTagged env r site
      · exact ih _ x hx

/-! ## Taking records in -/

theorem addCondition_covered (checks : Checks) {r : ClauseRecord} (c : BoundClause)
    (own : OwnClauses) :
    (OwnClauses.addCondition r c own).covered checks =
      if checks.covers r.tag then OwnClauses.addCondition r c (own.covered checks)
      else own.covered checks := by
  cases ht : r.tag with
  | pre => cases h : checks.preconditions <;>
      simp [OwnClauses.addCondition, OwnClauses.covered, Checks.covers, ht, h]
  | post => cases h : checks.postconditions <;>
      simp [OwnClauses.addCondition, OwnClauses.covered, Checks.covers, ht, h]
  | invariant => cases h : checks.invariants <;>
      simp [OwnClauses.addCondition, OwnClauses.covered, Checks.covers, ht, h]
  | throws | mayThrow => cases h : checks.exceptional <;>
      simp [OwnClauses.addCondition, OwnClauses.covered, Checks.covers, ht, h]
  | inspects | mutates | mutatesProperties =>
      simp [OwnClauses.addCondition, Checks.covers, ht]

/-- What is bound without the records that are not checked, beside what is bound with them. -/
structure CoveredBound (checks : Checks) (b b' : Bound) : Prop where
  decls : ∀ id, (b'.decls.get? id).getD {} = ((b.decls.get? id).getD {}).covered checks
  checked : checks.invariants = true → b'.invariants = b.invariants
  unchecked : checks.invariants = false → b'.invariants = .empty

variable {b b' : Bound} {x : ClauseRecord × Except SourceFault Binding}

theorem CoveredBound.keep (h : CoveredBound checks b b') (hx : checks.covers x.1.tag = true) :
    CoveredBound checks (Bound.add env b x) (Bound.add env b' x) := by
  obtain ⟨r, fault | c | cs⟩ := x
  · exact ⟨h.decls, h.checked, h.unchecked⟩
  · refine ⟨fun id => ?_, fun hi => ?_, fun hi => ?_⟩
    · simp only [Bound.add, Table.alter, Table.get?_insert]
      split
      · rw [Option.getD_some, Option.getD_some, h.decls, addCondition_covered, if_pos hx]
      · exact h.decls id
    · simp only [Bound.add, h.checked hi]
    · simp only [Bound.add]
      split
      · next ht =>
          rw [show checks.covers r.tag = checks.invariants by rw [ht]; rfl] at hx
          exact absurd (hi.symm.trans hx) (by simp)
      · exact h.unchecked hi
  · refine ⟨fun id => ?_, h.checked, h.unchecked⟩
    simp only [Bound.add, Table.alter, Table.get?_insert]
    split
    · simp only [Option.getD_some, h.decls]
      rfl
    · exact h.decls id

theorem CoveredBound.leaveOut (h : CoveredBound checks b b') (hx : checks.covers x.1.tag = false)
    (htag : WellTagged x) : CoveredBound checks (Bound.add env b x) b' := by
  obtain ⟨r, fault | c | cs⟩ := x
  · exact ⟨h.decls, h.checked, h.unchecked⟩
  · refine ⟨fun id => ?_, fun hi => ?_, h.unchecked⟩
    · simp only [Bound.add, Table.alter, Table.get?_insert]
      split
      · next heq =>
          rw [Option.getD_some, addCondition_covered, if_neg (by simp [hx]), h.decls, heq]
      · exact h.decls id
    · simp only [Bound.add]
      split
      · next ht =>
          rw [show checks.covers r.tag = checks.invariants by rw [ht]; rfl] at hx
          exact absurd (hi.symm.trans hx) (by simp)
      · exact h.checked hi
  · cases ht : r.tag <;> simp [WellTagged, ClauseTag.isEffect, Checks.covers, ht] at htag hx

theorem bind_covered (checks : Checks) (env : Env) (records : List ClauseRecord) (k : SiteId) :
    CoveredBound checks (bind env records k) (bindCovered checks env records k) := by
  have fold : ∀ (xs : List (ClauseRecord × Except SourceFault Binding)) (b b' : Bound),
      (∀ x ∈ xs, WellTagged x) → CoveredBound checks b b' →
      CoveredBound checks (xs.foldl (Bound.add env) b)
        ((xs.filter fun x => checks.covers x.1.tag).foldl (Bound.add env) b') := by
    intro xs
    induction xs with
    | nil => exact fun _ _ _ h => h
    | cons x xs ih =>
        intro b b' hxs h
        have hrest : ∀ y ∈ xs, WellTagged y := fun y hy => hxs y (List.mem_cons_of_mem _ hy)
        cases hx : checks.covers x.1.tag with
        | true =>
            rw [List.filter_cons, if_pos hx]
            exact ih _ _ hrest (h.keep hx)
        | false =>
            rw [List.filter_cons, if_neg (by simp [hx])]
            exact ih _ _ hrest (h.leaveOut hx (hxs x List.mem_cons_self))
  refine fold _ _ _ (bindAll_wellTagged records k) ⟨fun id => ?_, fun _ => rfl, fun _ => rfl⟩
  simp [OwnClauses.covered]

/-! ## Specifications -/

/-- The specification that the clauses of several declarations make, the nearest first. -/
def assemble (member : String) (chain : List OwnClauses) : Specification where
  member
  preconditions := (chain.map (·.preconditions)).filter (!·.isEmpty)
  postconditions := chain.flatMap (·.postconditions)
  throws := chain.flatMap (·.throws)
  mayThrow := chain.flatMap (·.mayThrow)
  effects := ((chain.map (·.effects)).find? (!·.isEmpty)).getD {}

/-- What is written on a declaration. -/
def clausesAt (decls : Table DeclId OwnClauses) (id : DeclId) : OwnClauses :=
  (decls.get? id).getD {}

theorem assemble_cons {member : String} {own : OwnClauses} {xs ys : List OwnClauses}
    (h : assemble member xs = assemble member ys) :
    assemble member (own :: xs) = assemble member (own :: ys) := by
  simp only [assemble, Specification.mk.injEq, true_and, and_true] at h ⊢
  obtain ⟨hpre, hpost, hthrows, hmay, heffects⟩ := h
  simp only [List.map_cons, List.filter_cons, List.flatMap_cons, List.find?_cons, hpre, hpost,
    hthrows, hmay, true_and]
  split
  · rfl
  · exact heffects

/-- A declaration without clauses adds nothing to a specification. -/
theorem assemble_filterMap (decls : Table DeclId OwnClauses) (member : String)
    (ids : List DeclId) :
    assemble member (ids.filterMap decls.get?) = assemble member (ids.map (clausesAt decls)) := by
  induction ids with
  | nil => rfl
  | cons id ids ih =>
      cases hid : decls.get? id with
      | none =>
          have hempty : clausesAt decls id = {} := by rw [clausesAt, hid, Option.getD_none]
          rw [List.filterMap_cons_none hid, List.map_cons, hempty]
          exact ih
      | some own =>
          have hown : clausesAt decls id = own := by rw [clausesAt, hid, Option.getD_some]
          rw [List.filterMap_cons_some hid, List.map_cons, hown]
          exact assemble_cons ih

theorem specificationOf_eq (env : Env) (decls : Table DeclId OwnClauses) (m : MethodInfo) :
    specificationOf env decls m =
      assemble m.qualifiedName ((m.id :: ancestors env m).map (clausesAt decls)) :=
  assemble_cons (assemble_filterMap decls m.qualifiedName (ancestors env m))

theorem assemble_covered (checks : Checks) (member : String) (chain : List OwnClauses) :
    assemble member (chain.map (·.covered checks)) = (assemble member chain).covered checks := by
  induction chain with
  | nil => simp [assemble, Specification.covered]
  | cons own chain ih =>
      simp only [assemble, Specification.covered, Specification.mk.injEq, true_and,
        and_true] at ih ⊢
      obtain ⟨hpre, hpost, hthrows, hmay, heffects⟩ := ih
      simp only [List.map_cons, List.filter_cons, List.flatMap_cons, List.find?_cons, hpre, hpost,
        hthrows, hmay, OwnClauses.preconditions_covered, OwnClauses.postconditions_covered,
        OwnClauses.throws_covered, OwnClauses.mayThrow_covered, OwnClauses.effects_covered]
      refine ⟨?_, ?_, ?_, ?_, ?_⟩
      · cases checks.preconditions <;> simp
      · cases checks.postconditions <;> simp
      · cases checks.exceptional <;> simp
      · cases checks.exceptional <;> simp
      · split
        · rfl
        · exact heffects

/-- Deleting clauses before inheritance or behind it comes to the same. -/
theorem specificationOf_covered {decls decls' : Table DeclId OwnClauses}
    (h : ∀ id, clausesAt decls' id = (clausesAt decls id).covered checks) (m : MethodInfo) :
    specificationOf env decls' m = (specificationOf env decls m).covered checks := by
  rw [specificationOf_eq, specificationOf_eq, ← assemble_covered, List.map_map]
  congr 1
  exact List.map_congr_left fun id _ => h id

end Contract

/-! ## Effects -/

namespace Effect

variable {env : Env} {specs specs' : Table DeclId Specification}

/-- Whether two tables of specifications say the same of effects. -/
structure SameEffects (specs specs' : Table DeclId Specification) : Prop where
  declared : ∀ id, declaredEffects? specs' id = declaredEffects? specs id
  referenced : referencedAccessors specs' = referencedAccessors specs

theorem isPureFrom_congr (h : SameEffects specs specs') (n : Nat) (visiting : List DeclId)
    (id : DeclId) : isPureFrom env specs' n visiting id = isPureFrom env specs n visiting id := by
  induction n generalizing visiting id with
  | zero => rfl
  | succ n ih =>
      have hrest (visiting : List DeclId) :
          isPureFrom env specs' n visiting = isPureFrom env specs n visiting :=
        funext (ih visiting)
      simp only [isPureFrom, h.declared, h.referenced, hrest]

theorem classifyAll_congr (h : SameEffects specs specs') :
    classifyAll env specs' = classifyAll env specs := by
  have hclass (id : DeclId) : classify env specs' id = classify env specs id := by
    rw [classify, isPure, h.declared, isPureFrom_congr h]
    rfl
  simp only [classifyAll, hclass]

/-- A declared member has a specification with effects. -/
theorem exists_of_declared {id : DeclId} (h : classOf (classifyAll env specs) id = .declared) :
    ∃ s, specs.get? id = some s ∧ declaredEffects? specs id = some s.effects := by
  obtain ⟨id', _, heq⟩ := List.mem_map.mp (Table.mem_of_get? (get?_of_classOf h))
  obtain ⟨rfl, hclass⟩ := Prod.mk.inj heq
  cases hd : declaredEffects? specs id' with
  | none =>
      simp only [classify, hd, Option.isSome_none, Bool.false_eq_true, if_false] at hclass
      split at hclass <;> cases hclass
  | some e =>
      obtain ⟨he, _⟩ := Option.filter_eq_some_iff.mp hd
      obtain ⟨s, hs, rfl⟩ := Option.map_eq_some_iff.mp he
      exact ⟨s, hs, rfl⟩

theorem closureFrom_congr (h : SameEffects specs specs') (n : Nat) (visiting : List DeclId)
    (id : DeclId) :
    closureFrom env specs' (classifyAll env specs) n visiting id =
      closureFrom env specs (classifyAll env specs) n visiting id := by
  induction n generalizing visiting id with
  | zero => rfl
  | succ n ih =>
      simp only [closureFrom]
      split
      · rfl
      · next hcond =>
          have hd : classOf (classifyAll env specs) id = .declared := by
            by_contra hne
            exact hcond (by simp [hne])
          obtain ⟨s, hs, he⟩ := exists_of_declared hd
          obtain ⟨s', hs', he'⟩ := exists_of_declared ((classifyAll_congr h).symm ▸ hd)
          obtain heffects : s'.effects = s.effects :=
            Option.some.inj (he'.symm.trans ((h.declared id).trans he))
          rw [hs, hs']
          cases env.method? id with
          | none => rfl
          | some m => simp only [ownTargets, licensedReceiver?, heffects, ih]

theorem ofSpecs_congr (h : SameEffects specs specs') (invariants : Invariants) :
    EffectAnalysis.ofSpecs env specs' invariants = EffectAnalysis.ofSpecs env specs invariants := by
  have hclosure (id : DeclId) : closure env specs' (classifyAll env specs) id =
      closure env specs (classifyAll env specs) id := closureFrom_congr h _ _ _
  simp only [EffectAnalysis.ofSpecs, classifyAll_congr h, closures, hclosure]

theorem classInvariants_empty (env : Env) (c : String) : classInvariants env .empty c = [] :=
  List.flatMap_eq_nil_iff.mpr fun _ _ => rfl

/-- Nothing has to be checked behind calls if there are no invariants. -/
theorem obligations_empty {classes : Table DeclId EffectClass}
    {closures : Table DeclId (List Path)} (id : DeclId) :
    ((obligations env .empty classes closures).get? id).getD [] = [] := by
  cases hos : (obligations env .empty classes closures).get? id with
  | none => rfl
  | some os =>
      refine List.eq_nil_iff_forall_not_mem.mpr fun o ho => ?_
      rcases mem_obligations hos ho with ⟨_, _, _, _, _, hat⟩ | ⟨_, _, _, hat⟩ <;>
      · obtain ⟨_, c, _, hc⟩ := mem_invariantsAt hat
        rw [classInvariants_empty] at hc
        exact absurd hc List.not_mem_nil

end Effect

namespace Contract

section

variable {env : Env} (hn : env.methods.keys.Nodup) (decls : Table DeclId OwnClauses)

include hn

/-- A member has a specification if there are clauses for it. -/
theorem get?_specifications_eq (id : DeclId) :
    (specifications env decls).get? id =
      ((env.method? id).map (specificationOf env decls)).filter (!·.isEmpty) := by
  have hkeys : ((env.methods.entries.map fun x => (x.1, specificationOf env decls x.2)).map
      (·.1)).Nodup := by
    rw [List.map_map]
    exact hn
  refine (Table.find?_filter hkeys _).trans (congrArg _ ?_)
  exact Table.find?_map (fun _ => specificationOf env decls) id env.methods.entries

theorem declaredEffects?_schedule (id : DeclId) :
    Effect.declaredEffects? (schedule env (specifications env decls)).1 id =
      ((env.method? id).map fun m => (specificationOf env decls m).effects).filter
        (!·.isEmpty) := by
  rw [Effect.declaredEffects?, get?_schedule_specs, get?_specifications_eq hn, Option.map_map]
  cases env.method? id with
  | none => rfl
  | some m =>
      simp only [Option.map_some, Option.filter_some]
      cases hs : (specificationOf env decls m).isEmpty with
      | true =>
          simp only [Specification.isEmpty, Bool.and_eq_true] at hs
          simp [hs.2]
      | false =>
          simp only [Bool.not_false, if_true, Option.map_some, Option.filter_some]
          rfl

omit hn

theorem referencedAccessors_schedule :
    Effect.referencedAccessors (schedule env (specifications env decls)).1 =
      env.methods.values.flatMap fun m =>
        ((specificationOf env decls m).effects.inspects
          ++ (specificationOf env decls m).effects.mutatesProperties).flatMap fun c =>
            c.expr.parts.filterMap Effect.accessor? := by
  show (((((env.methods.entries.map _).filter _).map _).map _).map _).flatMap _ = _
  simp only [Table.values, List.flatMap_map]
  induction env.methods.entries with
  | nil => rfl
  | cons e es ih =>
      simp only [List.map_cons, List.filter_cons, List.flatMap_cons]
      cases hs : (specificationOf env decls e.2).isEmpty with
      | true =>
          simp only [Specification.isEmpty, EffectClauses.isEmpty, Bool.and_eq_true,
            List.isEmpty_iff] at hs
          simpa [hs.2] using ih
      | false =>
          simp only [Bool.not_false, if_true, List.flatMap_cons]
          exact congrArg _ ih

end

/-- Deleting clauses that are no effects leaves all effects. -/
theorem sameEffects_covered {env : Env} (hn : env.methods.keys.Nodup) {checks : Checks}
    {decls decls' : Table DeclId OwnClauses}
    (h : ∀ id, clausesAt decls' id = (clausesAt decls id).covered checks) :
    Effect.SameEffects (schedule env (specifications env decls)).1
      (schedule env (specifications env decls')).1 where
  declared id := by
    simp only [declaredEffects?_schedule hn, specificationOf_covered h, Specification.covered]
  referenced := by
    simp only [referencedAccessors_schedule, specificationOf_covered h, Specification.covered]

/-! ## Checks -/

/-- The checks of a member with these clauses. -/
def scheduledCodes (checks : Checks) (env : Env) (m : MethodInfo) (s : Specification) :
    List (ProgramPoint × CheckCode) :=
  memberCodes checks m.isConstructor (scheduleOne s).1
    (if (scheduleOne s).2.isEmpty then none else some ⟨snapshotPoint env m.id, (scheduleOne s).2⟩)

theorem scheduledCodes_of_isEmpty (checks : Checks) (env : Env) (m : MethodInfo)
    {s : Specification} (h : s.isEmpty = true) : scheduledCodes checks env m s = [] := by
  simp only [Specification.isEmpty, Bool.and_eq_true, List.isEmpty_iff] at h
  obtain ⟨⟨⟨⟨hpre, hpost⟩, hthrows⟩, _⟩, _⟩ := h
  simp [scheduledCodes, scheduleOne, memberCodes, entryCodes, storePosts, listIf, hpre, hpost,
    hthrows]

/-- What stands at the entry and the exits of a member, if bound clauses are all there is. -/
theorem codesAt_ofBound {env : Env} (hk : env.MethodsKeyed) (bound : Bound) (checks : Checks)
    (id : DeclId) {point : ProgramPoint} (hp : ∀ site, point ≠ .afterCall site) :
    (WovenProgram.mk env (weave env (.ofBound env bound) checks)).codesAt id point =
      (env.method? id).elim [] fun m =>
        ((scheduledCodes checks env m (specificationOf env bound.decls m)).filter
          (·.1 == point)).map (·.2) := by
  have hkeys := keys_specifications env bound.decls hk.nodup
  have hn : (ContractPlan.ofBound env bound).specs.keys.Nodup := by
    show (schedule env (specifications env bound.decls)).1.keys.Nodup
    rw [keys_schedule]
    exact hkeys
  rw [codesAt_weave hn checks id hp]
  show ((schedule env (specifications env bound.decls)).1.get? id).elim [] (fun s =>
    ((memberCodes checks _ s
      ((schedule env (specifications env bound.decls)).2.get? id)).filter _).map _) = _
  rw [get?_schedule_specs, get?_schedule_snapshots hkeys, get?_specifications_eq hk.nodup]
  cases hm : env.method? id with
  | none => rfl
  | some m =>
      obtain rfl := hk.id_eq hm
      simp only [Option.map_some, Option.filter_some]
      cases hs : (specificationOf env bound.decls m).isEmpty with
      | true => simp [scheduledCodes_of_isEmpty checks env m hs]
      | false => rfl

theorem codesAt_afterCall (env : Env) (plan : ContractPlan) (checks : Checks) (id : DeclId)
    (site : SiteId) :
    (WovenProgram.mk env (weave env plan checks)).codesAt id (.afterCall site) =
      if checks.invariants then ((env.callSites.values.flatMap (siteCodes env plan)).filter
        fun c => c.decl == id && c.point == .afterCall site).map (·.code) else [] := by
  have members : (plan.specs.entries.flatMap fun x => specCodes env plan checks x.1 x.2).filter
      (fun c => c.decl == id && c.point == .afterCall site) = [] := by
    refine List.filter_eq_nil_iff.mpr fun c hc => ?_
    obtain ⟨⟨_, s⟩, _, hc⟩ := List.mem_flatMap.mp hc
    obtain ⟨x, hx, rfl⟩ := List.mem_map.mp hc
    simp [memberCodes_point x hx]
  rw [WovenProgram.codesAt, weave, List.filter_append, members, List.nil_append]
  split <;> rfl

/-- Behind a call the same invariants are checked. -/
theorem codesAt_afterCall_covered {p : Surface.Program} {env : Env} (hn : env.methods.keys.Nodup)
    (checks : Checks) (id : DeclId) (site : SiteId) :
    (WovenProgram.covered checks p env).codesAt id (.afterCall site) =
      (WovenProgram.mk env (weave env (.ofProgram p env) checks)).codesAt id (.afterCall site) := by
  have hbound := bind_covered checks env (Clause.ofProgram p) p.siteCount
  have heffects : (ContractPlan.covered checks p env).effects = EffectAnalysis.ofSpecs env
      (ContractPlan.ofProgram p env).specs (ContractPlan.covered checks p env).invariants :=
    Effect.ofSpecs_congr (sameEffects_covered hn hbound.decls) _
  rw [WovenProgram.covered, codesAt_afterCall, codesAt_afterCall, if_pos rfl]
  cases hi : checks.invariants with
  | true =>
      have hinvariants : (ContractPlan.covered checks p env).invariants =
          (ContractPlan.ofProgram p env).invariants := hbound.checked hi
      have hsame : siteCodes env (.covered checks p env) = siteCodes env (.ofProgram p env) := by
        funext c
        simp only [siteCodes, siteObligations, establish, ContractPlan.invariantsOf, heffects,
          hinvariants]
        rfl
      rw [hsame, if_pos rfl]
  | false =>
      have hinvariants : (ContractPlan.covered checks p env).invariants = .empty :=
        hbound.unchecked hi
      have hnone (c : CallSite) : siteCodes env (.covered checks p env) c = [] := by
        simp only [siteCodes, siteObligations, establish, ContractPlan.invariantsOf, heffects,
          hinvariants, EffectAnalysis.ofSpecs, Effect.obligations_empty,
          Effect.classInvariants_empty]
        cases c.kind <;> cases env.method? c.callee <;> rfl
      simp [hnone]

end Contract

end Covenant
