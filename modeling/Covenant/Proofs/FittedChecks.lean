import Covenant.Proofs.Obligations
import Covenant.Proofs.PathTypes
import Covenant.Proofs.SoundMembers
import Covenant.Proofs.SpareValues
import Covenant.Proofs.StoredTerms

/-!
# Checks fit their members

A clause fits the members that take it over as well as the one that it is written on,
because what is overridden has the same parameters and the same result. So all checks
of a member fit it, and what is checked behind a call fits the callee. One thing can
go wrong: a term in `old` may read the result, which is not there at the entry where
the term is stored.
-/

namespace Covenant

open Typed (Context)

/-! ## Results at entries -/

namespace Typed

def Expr.isResult : Expr → Bool
  | .result .. => true
  | _ => false

/-- Whether an expression reads the result of a member somewhere. -/
def Expr.readsResult (e : Expr) : Bool := e.parts.any (·.isResult)

end Typed

/-- Whether a check stores the value of an expression that reads the result. -/
def CheckCode.storesResult : CheckCode → Bool
  | .snapshot s => s.slots.any (·.readsResult)
  | _ => false

/-- No check stores the result of a member, which is not there when entry values are stored. -/
def WovenProgram.StoresNoResult (p : WovenProgram) : Prop :=
  ∀ c ∈ p.checks, c.code.storesResult = false

instance (p : WovenProgram) : Decidable p.StoresNoResult :=
  inferInstanceAs (Decidable (∀ c ∈ p.checks, c.code.storesResult = false))

namespace Typed

theorem Context.keepsResult_of_unread {Γ Γ' : Context} {e : Expr} (h : e.readsResult = false) :
    Γ.KeepsResult Γ' e.parts := fun span t hin =>
  absurd (List.any_eq_false.mp h _ hin) (by simp [Expr.isResult])

/-- What a clause may refer to that a member has or takes over. -/
def Context.ofClause (tag : ClauseTag) (m : MethodInfo) : Context :=
  { Context.atEntry m with
    result := Contract.resultType tag m
    hasOld := decide (tag = .post) }

end Typed

namespace Contract

section

variable {p : Surface.Program} (hp : p.WellFormed) {env : Env}
  (h : Typing.checkProgram p = .ok env)

include hp h

/-- A clause fits the members that have it. -/
theorem ConditionOf.isCondition {m : MethodInfo} (hm : env.method? m.id = some m) {r : ClauseRecord}
    (htag : r.tag ≠ .invariant) (howner : r.owner = m.id ∨ r.owner ∈ ancestors env m)
    {c : BoundClause} (hc : ConditionOf env p.siteCount r c) :
    c.IsCondition env (.ofClause r.tag m) := by
  obtain ⟨s, hs, hfits, htype⟩ := hc.fits hp h
  obtain ⟨d, hd, hscope⟩ := method_of_scope htag hs
  have hinherits := (Env.declaredBy_of_check hp h).inheritsFrom hm hd howner
  have hwidens : (s.context (decide (r.tag = .post)) false).Widens env (.ofClause r.tag m) := by
    subst hscope
    refine ⟨fun c hc => ?_, rfl, hinherits.paramTypes, ⟨[], List.append_nil _⟩, id, id⟩
    cases hstatic : m.isStatic with
    | true => simp [ClauseScope.context, hinherits.isStatic, hstatic] at hc
    | false =>
        obtain rfl : d.owner = c := by
          simpa [ClauseScope.context, hinherits.isStatic, hstatic] using hc
        exact ⟨m.owner, by simp [Context.ofClause, Context.atEntry, hstatic], hinherits.owner⟩
  refine ⟨hfits.widen hwidens fun _ t _ ht => ?_, htype⟩
  subst hscope
  simpa [ClauseScope.context, Context.ofClause, resultType, hinherits.isConstructor,
    hinherits.returnType] using ht

/-- Without `result` and `old` a clause reads what there is at the entry. -/
theorem ConditionOf.atEntry {m : MethodInfo} (hm : env.method? m.id = some m) {r : ClauseRecord}
    (htag : r.tag ≠ .invariant) (hpost : r.tag ≠ .post)
    (howner : r.owner = m.id ∨ r.owner ∈ ancestors env m) {c : BoundClause}
    (hc : ConditionOf env p.siteCount r c) : c.IsCondition env (.atEntry m) := by
  have hentry : Context.ofClause r.tag m = .atEntry m := by
    simp [Context.ofClause, Context.atEntry, resultType, hpost]
  exact hentry ▸ hc.isCondition hp h hm htag howner

/-- An invariant fits all objects that have it. -/
theorem ConditionOf.ofObject {r : ClauseRecord} (htag : r.tag = .invariant) {c : BoundClause}
    (hc : ConditionOf env p.siteCount r c) {className : String}
    (hsub : env.isSubtype className ((env.ownerOf? r.owner).getD "") = true) :
    c.IsCondition env (.ofObject className) := by
  obtain ⟨s, hs, hfits, htype⟩ := hc.fits hp h
  obtain rfl := class_of_scope htag hs
  have hwidens : Context.Widens env (.ofObject ((env.ownerOf? r.owner).getD ""))
      (.ofObject className) :=
    ⟨fun c hc => ⟨className, rfl, Option.some.inj hc ▸ hsub⟩, rfl, rfl, ⟨[], rfl⟩, id, id⟩
  rw [htag] at hfits
  exact ⟨hfits.widen hwidens fun _ t _ ht => ht, htype⟩

/-! ## Checks of members -/

omit hp h in
/-- What is left of a postcondition stands where the terms in `old` are stored. -/
theorem storing_ofClause (m : MethodInfo) (slots : List Typed.Expr) :
    (Context.ofClause .post m).storing slots = .atExit m (slots.map (·.type)) := by
  have hresult : resultType .post m =
      if m.isConstructor || m.returnType == .void then none else some m.returnType := by
    cases hc : m.isConstructor <;> by_cases hv : m.returnType = .void <;> simp [resultType, hc, hv]
  simp [Context.ofClause, Context.storing, Context.atExit, Context.atEntry, hresult]

/-- All clauses of a specification fit the member. -/
structure SpecFits (env : Env) (m : MethodInfo) (s : Specification) : Prop where
  preconditions : ∀ group ∈ s.preconditions, ∀ c ∈ group, c.IsCondition env (.atEntry m)
  postconditions : ∀ c ∈ s.postconditions, c.IsCondition env (.ofClause .post m)
  conditions : ∀ t ∈ s.throws, t.condition.IsCondition env (.atEntry m)

theorem specFits_of_bind (records : List ClauseRecord) {m : MethodInfo}
    (hm : env.method? m.id = some m) :
    SpecFits env m (specificationOf env (bind env records p.siteCount).decls m) := by
  have hown := (bind_fromRecords env records p.siteCount).own
  refine ⟨fun group hg c hc => ?_, fun c hc => ?_, fun t ht => ?_⟩
  · obtain ⟨own, hmem, rfl⟩ := List.mem_map.mp (List.mem_filter.mp hg).1
    obtain ⟨_, hid, hfrom⟩ := mem_lineage hown hmem
    obtain ⟨r, rfl, htag, hr⟩ := hfrom.pre c hc
    exact hr.atEntry hp h hm (by simp [htag]) (by simp [htag]) hid
  · obtain ⟨own, hmem, hc⟩ := List.mem_flatMap.mp hc
    obtain ⟨_, hid, hfrom⟩ := mem_lineage hown hmem
    obtain ⟨r, rfl, htag, hr⟩ := hfrom.post c hc
    exact htag ▸ hr.isCondition hp h hm (by simp [htag]) hid
  · obtain ⟨own, hmem, ht⟩ := List.mem_flatMap.mp ht
    obtain ⟨_, hid, hfrom⟩ := mem_lineage hown hmem
    obtain ⟨r, rfl, htag, hr, _⟩ := hfrom.throws t ht
    exact hr.atEntry hp h hm (by simp [htag]) (by simp [htag]) hid

end

section

variable {env : Env} {m : MethodInfo} {s : Specification} (hfits : SpecFits env m s)
  (hfresh : FreshSpec s)

include hfits hfresh

omit hfits in
/-- What is stored at entry is the condition of a clause about exceptions, or stands in `old`. -/
theorem stored_cases {e : Typed.Expr} (he : e ∈ (scheduleOne s).2) :
    (∃ t ∈ s.throws, e = t.condition.expr) ∨ ∃ c ∈ s.postconditions, e ∈ c.expr.oldTerms := by
  obtain ⟨⟨more, hmore, hterms⟩, _⟩ :=
    storePosts_stores (Nat.le_refl _) fun c hc => (hfresh.postconditions c hc).unscheduled
  rw [scheduleOne_snd, hmore] at he
  rcases List.mem_append.mp he with he | he
  · obtain ⟨t, ht, rfl⟩ := List.mem_map.mp he
    exact .inl ⟨t, ht, rfl⟩
  · obtain ⟨c, hc, hx⟩ := List.mem_flatMap.mp (hterms e he)
    exact .inr ⟨c, hc, hx⟩

/-- What is stored at entry fits there, if it does not read the result. -/
theorem SpecFits.stored {e : Typed.Expr} (he : e ∈ (scheduleOne s).2)
    (hunread : e.readsResult = false) : e.Fits env (.atEntry m) := by
  rcases stored_cases hfresh he with ⟨t, ht, rfl⟩ | ⟨c, hc, hx⟩
  · exact (hfits.conditions t ht).1
  · have hwidens : Context.Widens env { Context.ofClause .post m with hasOld := false }
        (.atEntry m) :=
      ⟨fun c hc => ⟨c, hc, Env.isSubtype_refl⟩, rfl, rfl, ⟨[], rfl⟩, id, id⟩
    exact ((hfits.postconditions c hc).1.oldTerms e hx).widen hwidens
      (Context.keepsResult_of_unread hunread)

/-- What is left of postconditions fits the exit. -/
theorem SpecFits.left {c : BoundClause} (hc : c ∈ (scheduleOne s).1.postconditions) :
    c.IsCondition env (.atExit m ((scheduleOne s).2.map (·.type))) := by
  rw [← storing_ofClause]
  exact storePosts_fit (Nat.le_refl _) (fun c hc =>
    ⟨(hfresh.postconditions c hc).unscheduled, hfits.postconditions c hc⟩) c hc

end

/-! ## Where checks of members stand -/

section

variable {checks : Checks} {env : Env} {m : MethodInfo} {s : Specification} {code : CheckCode}

theorem mem_scheduledCodes_entry (h : (.entry, code) ∈ scheduledCodes checks env m s) :
    ((checks.postconditions || checks.exceptional) = true ∧
      code = .snapshot ⟨snapshotPoint env m.id, (scheduleOne s).2⟩) ∨
    code = .precondition (scheduleOne s).1.preconditions := by
  rcases mem_memberCodes h with ⟨site, hs, hon, heq⟩ | heq | ⟨_, heq⟩ | heq | heq
  · split at hs <;> cases hs
    exact .inl ⟨hon, (Prod.mk.inj heq).2⟩
  · exact .inr (Prod.mk.inj heq).2
  all_goals cases heq

theorem mem_scheduledCodes_normalExit (h : (.normalExit, code) ∈ scheduledCodes checks env m s) :
    (checks.postconditions = true ∧ code = .postcondition (scheduleOne s).1.postconditions) ∨
    code = throwsCode (scheduleOne s).1 := by
  rcases mem_memberCodes h with ⟨_, _, _, heq⟩ | heq | ⟨hon, heq⟩ | heq | heq
  · cases heq
  · cases heq
  · exact .inl ⟨hon, (Prod.mk.inj heq).2⟩
  · exact .inr (Prod.mk.inj heq).2
  · cases heq

theorem mem_scheduledCodes_exceptionalExit
    (h : (.exceptionalExit, code) ∈ scheduledCodes checks env m s) :
    code = throwsCode (scheduleOne s).1 := by
  rcases mem_memberCodes h with ⟨_, _, _, heq⟩ | heq | ⟨_, heq⟩ | heq | heq
  all_goals cases heq
  rfl

theorem snapshot_mem_scheduledCodes
    (hon : (checks.postconditions || checks.exceptional) = true) (hs : (scheduleOne s).2 ≠ []) :
    (.entry, .snapshot ⟨snapshotPoint env m.id, (scheduleOne s).2⟩) ∈
      scheduledCodes checks env m s := by
  rw [scheduledCodes, if_neg (by simpa using hs)]
  exact snapshot_mem_memberCodes _ _ _ hon

end

end Contract

namespace WovenProgram

variable {p : WovenProgram}

theorem StoresNoResult.unread (h : p.StoresNoResult) {id : DeclId} {point : ProgramPoint}
    {s : Contract.Snapshot} (hs : .snapshot s ∈ p.codesAt id point) :
    ∀ e ∈ s.slots, e.readsResult = false := by
  obtain ⟨c, hc, hcode⟩ := List.mem_map.mp hs
  have hnone := h c (List.mem_filter.mp hc).1
  rw [hcode] at hnone
  simpa [CheckCode.storesResult] using hnone

open Contract in
/-- The checks of a specification that fits a member fit it, if they do not store its result. -/
theorem memberFits_of_scheduled {checks : Checks} {m : MethodInfo} {s : Specification}
    (hfits : SpecFits p.env m s) (hfresh : FreshSpec s) (hresult : p.StoresNoResult)
    (hcodes : ∀ point, (∀ site, point ≠ .afterCall site) → p.codesAt m.id point =
      ((scheduledCodes checks p.env m s).filter (·.1 == point)).map (·.2)) :
    ∃ slots, p.MemberFits m slots := by
  have hmem {point : ProgramPoint} (hpoint : ∀ site, point ≠ .afterCall site) {code : CheckCode} :
      code ∈ p.codesAt m.id point ↔ (point, code) ∈ scheduledCodes checks p.env m s := by
    simp [hcodes point hpoint]
  have hentry {code : CheckCode} : code ∈ p.codesAt m.id .entry ↔
      (.entry, code) ∈ scheduledCodes checks p.env m s := hmem (by simp)
  refine ⟨if checks.postconditions || checks.exceptional then (scheduleOne s).2.map (·.type)
    else [], fun code hcode => ?_, ?_, fun code hcode => ?_, fun code hcode => ?_⟩
  · rcases mem_scheduledCodes_entry (hentry.mp hcode) with ⟨hon, rfl⟩ | rfl
    · rw [if_pos hon]
      exact ⟨rfl, fun e he => hfits.stored hfresh he (hresult.unread hcode e he)⟩
    · exact hfits.preconditions
  · cases hon : checks.postconditions || checks.exceptional with
    | false => exact .inl rfl
    | true =>
        by_cases hempty : (scheduleOne s).2 = []
        · exact .inl (by simp [hempty])
        · exact .inr ⟨_, hentry.mpr (snapshot_mem_scheduledCodes hon hempty)⟩
  · rcases mem_scheduledCodes_normalExit ((hmem (by simp)).mp hcode) with ⟨hon, rfl⟩ | rfl
    · rw [if_pos (by simp [hon])]
      exact fun c hc => hfits.left hfresh hc
    · trivial
  · exact ⟨_, _, mem_scheduledCodes_exceptionalExit ((hmem (by simp)).mp hcode)⟩

end WovenProgram

/-! ## Checks behind calls -/

namespace Effect

section

variable {p : Surface.Program} (hp : p.WellFormed) {env : Env}
  (h : Typing.checkProgram p = .ok env) {invariants : Invariants}
  (hinvariants : ∀ name cs, invariants.get? name = some cs →
    Contract.InvariantsOf env p.siteCount name cs)

include hp h hinvariants

/-- The invariants of a class fit its objects. -/
theorem invariant_fits {c owner : String} {clause : BoundClause}
    (hc : (owner, clause) ∈ classInvariants env invariants c) :
    clause.IsCondition env (.ofObject c) := by
  obtain ⟨⟨info, hinfo, rfl⟩, cs, hget, hmem⟩ := mem_classInvariants hc
  obtain ⟨r, htag, howner, hcondition⟩ := hinvariants _ cs hget clause hmem
  refine hcondition.ofObject hp h htag ?_
  rw [howner]
  exact ((Env.declaredBy_of_check hp h).isSubtype_of_mem_chain hinfo).2

theorem obligation_fits {m : MethodInfo} {o : Obligation} (hobject : o.object.Fits env m)
    (ho : o ∈ invariantsAt env invariants o.object) : o.Fits env m := by
  obtain ⟨_, c, htype, hc⟩ := mem_invariantsAt ho
  exact ⟨hobject, c, htype, invariant_fits hp h hinvariants hc⟩

/-- What is checked behind calls of a member fits it. -/
theorem obligations_fit {specs : Table DeclId Specification}
    (htargets : TargetsWritten env p.siteCount specs) {m : MethodInfo}
    (hm : env.method? m.id = some m) {os : List Obligation}
    (hos : (EffectAnalysis.ofSpecs env specs invariants).obligations.get? m.id = some os) :
    ∀ o ∈ os, o.Fits env m := by
  intro o ho
  rcases mem_obligations hos ho with
    ⟨closed, hclosed, q, hq, hprefix, hat⟩ | ⟨m', hm', hobject, hat⟩
  · obtain ⟨id, _, heq⟩ := List.mem_map.mp hclosed
    obtain ⟨rfl, rfl⟩ := Prod.mk.inj heq
    obtain ⟨hleads, hroot⟩ := stands_closureFrom hp h htargets hm hq
    exact obligation_fits hp h hinvariants ((hleads.fits hroot).of_initial hprefix) hat
  · obtain rfl := Option.some.inj (hm.symm.trans hm')
    refine obligation_fits hp h hinvariants ?_ hat
    rcases hobject with ⟨hs, hobject⟩ | ⟨i, t, ht, hobject⟩ <;> rw [hobject]
    · exact ⟨hs, Env.isAssignable_refl, trivial⟩
    · exact ⟨⟨t, ht, Env.isAssignable_refl⟩, trivial⟩

end

end Effect

section

variable {source : String} {checks : Checks} {b : Build} (h : build source checks = .ok b)

include h

theorem invariantsOf_of_build {p : Surface.Program} (hp : Parse.program source = .ok p)
    {name : String} {cs : List BoundClause} (hcs : b.plan.invariants.get? name = some cs) :
    Contract.InvariantsOf b.program.env p.siteCount name cs := by
  obtain ⟨_, hplan, _⟩ := analysis_of_build h hp
  rw [hplan] at hcs
  exact (Contract.bind_fromRecords _ (Clause.ofProgram p) p.siteCount).invariants name cs hcs

/-- What is checked behind a call of a member fits the member. -/
theorem callChecks_fit {m : MethodInfo} (hm : b.program.env.method? m.id = some m) {site : SiteId}
    {caller : DeclId} (hsite : Typed.SiteOf b.program.env site m.id) :
    ∀ o ∈ (b.program.codesAt caller (.afterCall site)).flatMap CheckCode.obligations,
      o.Fits b.program.env m := by
  intro o ho
  obtain ⟨p, _, hp, _⟩ := build_eq_ok h
  have hwf := Parse.program_wellFormed hp
  obtain ⟨hcheck, _, hprogram⟩ := analysis_of_build h hp
  have hinvariants : ∀ name cs, b.plan.invariants.get? name = some cs →
      Contract.InvariantsOf b.program.env p.siteCount name cs :=
    fun _ _ hcs => invariantsOf_of_build h hp hcs
  obtain ⟨code, hcode, ho⟩ := List.mem_flatMap.mp ho
  obtain ⟨placed, hplaced, rfl⟩ := List.mem_map.mp hcode
  obtain ⟨hplaced, hat⟩ := List.mem_filter.mp hplaced
  obtain ⟨_, hpoint⟩ := Bool.and_eq_true_iff.mp hat
  rw [hprogram] at hplaced
  rcases Contract.mem_weave hplaced with ⟨s, _, hcodes⟩ | ⟨c, hc, rfl⟩
  · -- The checks of members stand elsewhere.
    rw [beq_iff_eq.mp hpoint] at hcodes
    rcases Contract.mem_memberCodes hcodes with ⟨_, _, _, heq⟩ | heq | ⟨_, heq⟩ | heq | heq <;>
      cases heq
  · have hid : c.id = site := by simpa using hpoint
    obtain ⟨hnodup, hkeys⟩ := Typing.nodup_callSites hwf hcheck
    obtain ⟨⟨k, c⟩, hentry, rfl⟩ := List.mem_map.mp hc
    have hcallee : c.callee = m.id :=
      hsite c (hid ▸ hkeys _ hentry ▸ Table.get?_of_mem hnodup hentry)
    rcases Contract.mem_siteObligations ho with ⟨os, hos, ho⟩ | ⟨hk, m', hm', hobject, ho⟩
    · rw [effects_of_build h, hcallee] at hos
      exact Effect.obligations_fit hwf hcheck hinvariants (Effect.targetsWritten_of_build h hp)
        hm hos o ho
    · -- A constructor works on an object of its class.
      obtain ⟨_, hfits⟩ := Typing.exists_fitsIn hwf hcheck hc
      obtain ⟨ctor, _, htyped⟩ := hfits.creation hk
      obtain rfl := Option.some.inj ((hcallee ▸ htyped.method).symm.trans hm)
      obtain rfl := Option.some.inj (hm.symm.trans (hcallee ▸ hm'))
      exact ⟨hobject ▸ ⟨htyped.isInstance, Env.isAssignable_refl, trivial⟩, _,
        congrArg Effect.Path.type hobject, Effect.invariant_fits hwf hcheck hinvariants ho⟩

end

end Covenant
