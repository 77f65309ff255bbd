import Covenant.Proofs.ShiftedSlots

/-!
# Entry values that nobody reads

The conditions of `throws` clauses and the terms in `old` are stored together if
one of the two kinds of clauses is checked. If it is only one, the values of the
other kind are spare. Where nothing that is stored is spare, the checks of a
member are those that it has without the clauses that are not checked. Otherwise
what is stored are the same values, with the spare ones in front or behind.
-/

namespace Covenant

open Typed (Expr)
open Contract (scheduleOne scheduledCodes storePosts specificationOf)

/-- Whether a value that a member stores at entry is read by no clause that is checked. The values
of conditions come first. -/
def Specification.spares (checks : Checks) (s : Specification) (n : Nat) : Bool :=
  if n < s.throws.length then checks.postconditions && !checks.exceptional
  else checks.exceptional && !checks.postconditions

/-- The spare values of a member of a program. -/
def ContractPlan.spares (plan : ContractPlan) (checks : Checks) (id : DeclId) (n : Nat) : Bool :=
  (plan.specs.get? id).any (·.spares checks n)

/-! ## The checks of a member -/

namespace Contract

/-- What is stored at entry for a specification. -/
def conditionTerms (s : Specification) : List Expr := s.throws.map (·.condition.expr)

section

variable {checks : Checks} {s : Specification}

theorem scheduleOne_snd : (scheduleOne s).2 =
    (storePosts (conditionTerms s).length (conditionTerms s) s.postconditions).2 := rfl

/-- Without postconditions the conditions are all that is stored. -/
theorem scheduleOne_covered_of_exceptional (hp : checks.postconditions = false)
    (he : checks.exceptional = true) :
    (scheduleOne (s.covered checks)).2 = conditionTerms s ∧
      (scheduleOne (s.covered checks)).1.postconditions = [] ∧
      (scheduleOne (s.covered checks)).1.throws = s.throws ∧
      throwsCode (scheduleOne (s.covered checks)).1 = throwsCode (scheduleOne s).1 := by
  simp [scheduleOne, Specification.covered, conditionTerms, storePosts, throwsCode, hp, he]

/-- Without clauses about exceptions only terms in `old` are stored. -/
theorem scheduleOne_covered_of_postconditions (hp : checks.postconditions = true)
    (he : checks.exceptional = false) :
    (scheduleOne (s.covered checks)).2 = (storePosts 0 [] s.postconditions).2 ∧
      (scheduleOne (s.covered checks)).1.postconditions =
        (storePosts 0 [] s.postconditions).1 ∧
      (scheduleOne (s.covered checks)).1.throws = [] := by
  simp [scheduleOne, Specification.covered, hp, he]

/-- Conditions come first among the values that are stored. -/
theorem scheduleOne_of_exceptional (h : ∀ c ∈ s.postconditions, Fresh c) :
    ∃ more, (scheduleOne s).2 = conditionTerms s ++ more := by
  obtain ⟨⟨more, hmore, _⟩, _⟩ := storePosts_stores (Nat.le_refl _) fun c hc => (h c hc).unscheduled
  exact ⟨more, hmore⟩

/-- Terms in `old` come behind the conditions and have greater numbers for that. -/
theorem scheduleOne_of_postconditions (h : ∀ c ∈ s.postconditions, Fresh c) :
    (scheduleOne s).2 = conditionTerms s ++ (storePosts 0 [] s.postconditions).2 ∧
      (scheduleOne s).1.postconditions = (storePosts 0 [] s.postconditions).1.map
        (·.shiftSlots (conditionTerms s).length) := by
  have happend := storePosts_append (conditionTerms s) [] h
  rw [List.append_nil] at happend
  constructor
  · rw [scheduleOne_snd, happend]
  · show (storePosts (conditionTerms s).length (conditionTerms s) s.postconditions).1 = _
    rw [happend]

/-- Postconditions read slots in which something is stored. -/
theorem slotNumbers_lt {posts : List BoundClause}
    (h : ∀ c ∈ posts, Unscheduled c.expr.oldTerms c.expr.slotNumbers) :
    ∀ c ∈ (storePosts 0 [] posts).1, ∀ n ∈ c.expr.slotNumbers,
      n < (storePosts 0 [] posts).2.length := by
  intro c hc n hn
  have hfirst : 0 ≤ ([] : List Expr).length := Nat.zero_le _
  have hstored := (storePosts_stores hfirst h).2.flip
  obtain ⟨_, hterms⟩ := exists_of_forall₂ hstored c hc
  obtain ⟨_, _, hy, _⟩ := exists_of_forall₂ hterms.flip n hn
  exact (List.getElem?_eq_some_iff.mp hy).1

theorem listIf_nonempty (b : Bool) {α : Type} (xs : List α) (code : List α → CheckCode) :
    listIf (b && !xs.isEmpty) (code xs) =
      listIf (!(if b then xs else []).isEmpty) (code (if b then xs else [])) := by
  cases b <;> rfl

/-- The checks at an entry, where what is not checked counts as nothing. -/
theorem entryCodes_eq (checks : Checks) (isConstructor : Bool) (s : Specification)
    (point : SnapshotPoint) (es : List Expr) :
    entryCodes checks isConstructor s (if es.isEmpty then none else some ⟨point, es⟩) =
      let es := if checks.postconditions || checks.exceptional then es else []
      let groups := if checks.preconditions then s.preconditions else []
      let stored := listIf (!es.isEmpty) (.snapshot ⟨point, es⟩)
      let pre := listIf (!groups.isEmpty) (.precondition groups)
      if isConstructor then stored ++ pre else pre ++ stored := by
  simp only [entryCodes, listIf_nonempty _ _ CheckCode.precondition]
  cases es <;> cases checks.postconditions || checks.exceptional <;> rfl

/-- The checks of two members are the same if they store the same and check the same clauses. -/
theorem scheduledCodes_congr {checks checks' : Checks} {env : Env} {m : MethodInfo}
    {s s' : Specification}
    (hstored : (if checks.postconditions || checks.exceptional then (scheduleOne s).2 else []) =
      if checks'.postconditions || checks'.exceptional then (scheduleOne s').2 else [])
    (hpre : (if checks.preconditions then s.preconditions else []) =
      if checks'.preconditions then s'.preconditions else [])
    (hpost : (if checks.postconditions then (scheduleOne s).1.postconditions else []) =
      if checks'.postconditions then (scheduleOne s').1.postconditions else [])
    (hthrows : listIf (checks.exceptional && !s.throws.isEmpty) (throwsCode (scheduleOne s).1) =
      listIf (checks'.exceptional && !s'.throws.isEmpty) (throwsCode (scheduleOne s').1)) :
    scheduledCodes checks env m s = scheduledCodes checks' env m s' := by
  have pair (point : ProgramPoint) (b : Bool) (code : CheckCode) :
      listIf b (point, code) = (listIf b code).map (Prod.mk point) := by
    cases b <;> rfl
  have hpre' : (if checks.preconditions then (scheduleOne s).1.preconditions else []) =
    if checks'.preconditions then (scheduleOne s').1.preconditions else [] := hpre
  have hthrows' : listIf (checks.exceptional && !(scheduleOne s).1.throws.isEmpty)
      (throwsCode (scheduleOne s).1) =
    listIf (checks'.exceptional && !(scheduleOne s').1.throws.isEmpty)
      (throwsCode (scheduleOne s').1) := hthrows
  simp only [scheduledCodes, memberCodes, entryCodes_eq, hstored, pair, hthrows',
    listIf_nonempty _ _ CheckCode.postcondition, hpre', hpost]

/-- If no value is spare, the checks are the same without the deleted clauses. -/
theorem scheduledCodes_covered (env : Env) (m : MethodInfo)
    (hs : ∀ c ∈ s.postconditions, Fresh c)
    (h : ∀ i < (scheduleOne s).2.length, s.spares checks i = false) :
    scheduledCodes {} env m (s.covered checks) = scheduledCodes checks env m s := by
  have hlength : (conditionTerms s).length = s.throws.length := List.length_map ..
  cases hp : checks.postconditions <;> cases he : checks.exceptional
  · refine scheduledCodes_congr ?_ rfl ?_ ?_ <;>
      simp [scheduleOne, Specification.covered, storePosts, hp, he, listIf]
  · obtain ⟨more, hmore⟩ := scheduleOne_of_exceptional hs
    obtain ⟨hterms, hposts, hthrows, hcode⟩ := scheduleOne_covered_of_exceptional (s := s) hp he
    have hnone : more = [] := by
      refine List.eq_nil_iff_length_eq_zero.mpr (Nat.eq_zero_of_not_pos fun hpos => ?_)
      have hfirst := h (conditionTerms s).length (by rw [hmore, List.length_append]; omega)
      rw [Specification.spares, if_neg (by omega), hp, he] at hfirst
      exact absurd hfirst (by simp)
    refine scheduledCodes_congr ?_ rfl ?_ ?_
    · simp [hterms, hmore, hnone, he]
    · simp [hposts, hp]
    · rw [hcode, show (s.covered checks).throws = s.throws from hthrows, he]
  · have hnone : s.throws = [] := by
      refine List.eq_nil_iff_length_eq_zero.mpr (Nat.eq_zero_of_not_pos fun hpos => ?_)
      obtain ⟨hmore, _⟩ := scheduleOne_of_postconditions hs
      have hfirst := h 0 (by rw [hmore, List.length_append]; omega)
      rw [Specification.spares, if_pos hpos, hp, he] at hfirst
      exact absurd hfirst (by simp)
    refine scheduledCodes_congr ?_ rfl ?_ ?_ <;>
      simp [scheduleOne, Specification.covered, hp, he, hnone, listIf]
  · refine scheduledCodes_congr ?_ rfl ?_ ?_ <;>
      simp [scheduleOne, Specification.covered, hp, he, throwsCode]

/-- The clauses of a specification as binding makes them. -/
structure FreshSpec (s : Specification) : Prop where
  postconditions : ∀ c ∈ s.postconditions, Fresh c
  conditions : ∀ e ∈ conditionTerms s, e.slotNumbers = []
  groups : ∀ group ∈ s.preconditions, ∀ c ∈ group, c.expr.slotNumbers = []

/-- Terms in `old` read no slots. -/
theorem FreshSpec.terms {s : Specification} (h : FreshSpec s) :
    ∀ e ∈ (storePosts 0 [] s.postconditions).2, e.slotNumbers = [] := by
  have hfirst : 0 ≤ ([] : List Expr).length := Nat.zero_le _
  obtain ⟨⟨more, hmore, hin⟩, _⟩ :=
    storePosts_stores hfirst fun c hc => (h.postconditions c hc).unscheduled
  intro e he
  rw [hmore, List.nil_append] at he
  obtain ⟨c, hc, hterm⟩ := List.mem_flatMap.mp (hin e he)
  have hnumbers := (h.postconditions c hc).unscheduled.numbers
  refine List.eq_nil_iff_forall_not_mem.mpr fun n hn => ?_
  have hmem := Typed.Expr.slotNumbers_oldTerms c.expr e hterm n hn
  rw [hnumbers] at hmem
  exact absurd hmem List.not_mem_nil

theorem ConditionOf.fresh {env : Env} {k : SiteId} {r : ClauseRecord} {c : BoundClause}
    (howners : ∀ id f, env.field? id = some f → IsWord f.owner) (h : ConditionOf env k r c) :
    Fresh c := by
  obtain ⟨hnumbers, hterms⟩ := h.oldTerms howners
  refine ⟨⟨fun x hx => (hterms x hx).printable.oldTerms, hnumbers⟩, ?_⟩
  cases h with
  | mk hs hsub he hl hn hf ht => exact he.spreadFree hl

theorem freshSpec_of_bind {env : Env} (howners : ∀ id f, env.field? id = some f → IsWord f.owner)
    (records : List ClauseRecord) (k : SiteId) (m : MethodInfo) :
    FreshSpec (specificationOf env (bind env records k).decls m) := by
  have hown := (bind_fromRecords env records k).own
  refine ⟨fun c hc => ?_, fun e he => ?_, fun group hg c hc => ?_⟩
  · obtain ⟨own, hmem, hc⟩ := List.mem_flatMap.mp hc
    obtain ⟨_, _, hfrom⟩ := mem_lineage hown hmem
    obtain ⟨_, _, _, hr⟩ := hfrom.post c hc
    exact hr.fresh howners
  · obtain ⟨t, ht, rfl⟩ := List.mem_map.mp he
    obtain ⟨own, hmem, ht⟩ := List.mem_flatMap.mp ht
    obtain ⟨_, _, hfrom⟩ := mem_lineage hown hmem
    obtain ⟨_, _, _, hr, _⟩ := hfrom.throws t ht
    exact (hr.fresh howners).unscheduled.numbers
  · obtain ⟨own, hmem, rfl⟩ := List.mem_map.mp (List.mem_filter.mp hg).1
    obtain ⟨_, _, hfrom⟩ := mem_lineage hown hmem
    obtain ⟨_, _, _, hr⟩ := hfrom.pre c hc
    exact (hr.fresh howners).unscheduled.numbers

end

end Contract

/-! ## The checks of programs -/

section

variable {p : Surface.Program} {env : Env} (checks : Checks) {m : MethodInfo}
  {s : Specification}

/-- The checks of a member of the program, and of the one without the deleted clauses. -/
theorem codesAt_member (hk : env.MethodsKeyed) (hm : env.method? m.id = some m)
    (hs : s = specificationOf env
      (Contract.bind env (Clause.ofProgram p) p.siteCount).decls m)
    {point : ProgramPoint} (hp : ∀ site, point ≠ .afterCall site) :
    (WovenProgram.mk env (Contract.weave env (.ofProgram p env) checks)).codesAt m.id point =
        ((scheduledCodes checks env m s).filter (·.1 == point)).map (·.2) ∧
      (WovenProgram.covered checks p env).codesAt m.id point =
        ((scheduledCodes {} env m (s.covered checks)).filter (·.1 == point)).map (·.2) := by
  constructor
  · refine (Contract.codesAt_ofBound hk _ checks m.id hp).trans ?_
    rw [hm, hs]
    rfl
  · refine (Contract.codesAt_ofBound hk _ {} m.id hp).trans ?_
    rw [hm, hs, ← Contract.specificationOf_covered
      (Contract.bind_covered checks env (Clause.ofProgram p) p.siteCount).decls]
    rfl

/-- What a member stores, and what of it is spare, is known from its clauses. -/
theorem spares_ofProgram (hk : env.MethodsKeyed) (hm : env.method? m.id = some m)
    (hs : s = specificationOf env
      (Contract.bind env (Clause.ofProgram p) p.siteCount).decls m) :
    (scheduleOne s).2 =
        Contract.storedTerms (ContractPlan.ofProgram p env).snapshots m.id ∧
      ∀ i < (scheduleOne s).2.length,
        (ContractPlan.ofProgram p env).spares checks m.id i = s.spares checks i := by
  have hkeys := Contract.keys_specifications env
    (Contract.bind env (Clause.ofProgram p) p.siteCount).decls hk.nodup
  have hget := Contract.get?_specifications_eq hk.nodup
    (Contract.bind env (Clause.ofProgram p) p.siteCount).decls m.id
  rw [hm, Option.map_some, ← hs, Option.filter_some] at hget
  cases hempty : s.isEmpty with
  | true =>
      rw [hempty] at hget
      have hnone : (scheduleOne s).2 = [] := by
        simp only [Specification.isEmpty, Bool.and_eq_true, List.isEmpty_iff] at hempty
        obtain ⟨⟨⟨⟨_, hpost⟩, hthrows⟩, _⟩, _⟩ := hempty
        simp [scheduleOne, storePosts, hpost, hthrows]
      refine ⟨?_, fun i hi => absurd hi (by simp [hnone])⟩
      show _ = Contract.storedTerms (Contract.schedule env _).2 m.id
      rw [hnone, Contract.storedTerms, Contract.get?_schedule_snapshots hkeys, hget]
      rfl
  | false =>
      rw [hempty] at hget
      refine ⟨(Contract.storedTerms_schedule hkeys hget).symm, fun i _ => ?_⟩
      show Option.any _ ((Contract.schedule env _).1.get? m.id) = _
      rw [Contract.get?_schedule_specs, hget]
      rfl

/-- If nothing that is stored is spare, the checks are those of the program without the deleted
clauses. -/
theorem codesAt_covered (hk : env.MethodsKeyed)
    (howners : ∀ id f, env.field? id = some f → IsWord f.owner)
    (hnone : ∀ id, ∀ i < (Contract.storedTerms (ContractPlan.ofProgram p env).snapshots id).length,
      (ContractPlan.ofProgram p env).spares checks id i = false)
    (id : DeclId) (point : ProgramPoint) :
    (WovenProgram.covered checks p env).codesAt id point =
      (WovenProgram.mk env (Contract.weave env (.ofProgram p env) checks)).codesAt id point := by
  by_cases hpoint : ∃ site, point = .afterCall site
  · obtain ⟨site, rfl⟩ := hpoint
    exact Contract.codesAt_afterCall_covered hk.nodup checks id site
  · have hpoint : ∀ site, point ≠ .afterCall site := fun site h => hpoint ⟨site, h⟩
    cases hm : env.method? id with
    | none =>
        refine (Contract.codesAt_ofBound hk _ {} id hpoint).trans
          (Eq.trans ?_ (Contract.codesAt_ofBound hk _ checks id hpoint).symm)
        rw [hm]
        rfl
    | some m =>
        obtain rfl := hk.id_eq hm
        obtain ⟨hcodes, hcodes'⟩ := codesAt_member (p := p) checks hk hm rfl hpoint
        have hfresh := Contract.freshSpec_of_bind howners (Clause.ofProgram p) p.siteCount m
        obtain ⟨hstored, hspares⟩ := spares_ofProgram (p := p) checks hk hm rfl
        rw [hcodes, hcodes', Contract.scheduledCodes_covered env m hfresh.postconditions]
        intro i hi
        rw [← hspares i hi]
        exact hnone m.id i (hstored ▸ hi)

end

end Covenant
