import Covenant.Proofs.Built

/-!
# Which checks are placed

Every check that is placed belongs to a specification or stands behind a call,
and is of one of a few forms. What is checked behind a call are invariants of the
class at the end of a path, for one of the paths along which the callee may have
written.
-/

namespace Covenant

namespace Effect

variable {α : Type} {eq : α → α → Bool}

theorem mem_addNew {xs : List α} {x y : α} (h : y ∈ addNew eq xs x) : y ∈ xs ∨ y = x := by
  rw [addNew] at h
  split at h
  · exact .inl h
  · rcases List.mem_append.mp h with h | h
    · exact .inl h
    · exact .inr (List.mem_singleton.mp h)

theorem mem_foldl_addNew {xs ys : List α} {y : α} (h : y ∈ xs.foldl (addNew eq) ys) :
    y ∈ ys ∨ y ∈ xs := by
  induction xs generalizing ys with
  | nil => exact .inl h
  | cons x xs ih =>
      rcases ih h with h | h
      · rcases mem_addNew h with h | rfl
        · exact .inl h
        · exact .inr List.mem_cons_self
      · exact .inr (List.mem_cons_of_mem _ h)

theorem mem_firsts {xs : List α} {y : α} (h : y ∈ firsts eq xs) : y ∈ xs := by
  rcases mem_foldl_addNew h with h | h
  · exact absurd h List.not_mem_nil
  · exact h

/-- Of equal elements only the first is kept. -/
theorem pairwise_firsts (xs : List α) : (firsts eq xs).Pairwise fun a b => eq a b = false := by
  suffices h : ∀ ys : List α, ys.Pairwise (fun a b => eq a b = false) →
      (xs.foldl (addNew eq) ys).Pairwise fun a b => eq a b = false from h [] .nil
  induction xs with
  | nil => exact fun ys hys => hys
  | cons x xs ih =>
      refine fun ys hys => ih _ ?_
      rw [addNew]
      split
      · exact hys
      · next hnew =>
          refine List.pairwise_append.mpr ⟨hys, List.pairwise_singleton _ x, fun a ha b hb => ?_⟩
          obtain rfl := List.mem_singleton.mp hb
          have hno : ¬eq a b = true := fun heq => hnew (List.any_eq_true.mpr ⟨a, ha, heq⟩)
          simpa using hno

theorem subset_foldl_addNew {xs ys : List α} {y : α} (h : y ∈ ys) :
    y ∈ xs.foldl (addNew eq) ys := by
  induction xs generalizing ys with
  | nil => exact h
  | cons x xs ih =>
      refine ih ?_
      unfold addNew
      split
      · exact h
      · exact List.mem_append_left _ h

/-- Of each element an equal one is kept. -/
theorem exists_mem_foldl_addNew (hrefl : ∀ x, eq x x = true) {xs : List α} {x : α} (h : x ∈ xs)
    (ys : List α) : ∃ y ∈ xs.foldl (addNew eq) ys, eq y x = true := by
  induction xs generalizing ys with
  | nil => exact absurd h List.not_mem_nil
  | cons z xs ih =>
      rcases List.mem_cons.mp h with rfl | h
      · by_cases hany : ys.any (eq · x) = true
        · obtain ⟨y, hy, heq⟩ := List.any_eq_true.mp hany
          have hold : y ∈ addNew eq ys x := by
            rw [addNew, if_pos hany]
            exact hy
          have hkept : y ∈ xs.foldl (addNew eq) (addNew eq ys x) := subset_foldl_addNew hold
          exact ⟨y, hkept, heq⟩
        · have hnew : x ∈ addNew eq ys x := by
            rw [addNew, if_neg hany]
            exact List.mem_append_right _ List.mem_cons_self
          have hkept : x ∈ xs.foldl (addNew eq) (addNew eq ys x) := subset_foldl_addNew hnew
          exact ⟨x, hkept, hrefl x⟩
      · exact ih h (addNew eq ys z)

theorem exists_mem_firsts (hrefl : ∀ x, eq x x = true) {xs : List α} {x : α} (h : x ∈ xs) :
    ∃ y ∈ firsts eq xs, eq y x = true :=
  exists_mem_foldl_addNew hrefl h []

section

variable {env : Env} {invariants : Invariants}

theorem mem_classInvariants {c owner : String} {clause : BoundClause}
    (h : (owner, clause) ∈ classInvariants env invariants c) :
    (∃ info ∈ env.classChain c, info.name = owner) ∧
      ∃ cs, invariants.get? owner = some cs ∧ clause ∈ cs := by
  obtain ⟨info, hinfo, hclause⟩ := List.mem_flatMap.mp h
  obtain ⟨c', hc', heq⟩ := List.mem_map.mp hclause
  cases heq
  refine ⟨⟨info, List.mem_reverse.mp hinfo, rfl⟩, ?_⟩
  cases hget : invariants.get? info.name with
  | none =>
      rw [hget] at hc'
      exact absurd hc' List.not_mem_nil
  | some cs =>
      rw [hget] at hc'
      exact ⟨cs, rfl, hc'⟩

theorem mem_invariantsAt {object : Path} {o : Obligation}
    (h : o ∈ invariantsAt env invariants object) :
    o.object = object ∧ ∃ c, object.type = .ofClass c ∧
      (o.className, o.clause) ∈ classInvariants env invariants c := by
  rw [invariantsAt] at h
  split at h
  · next c hc =>
      obtain ⟨⟨owner, clause⟩, hmem, rfl⟩ := List.mem_map.mp h
      refine ⟨rfl, c, ?_, hmem⟩
      cases ht : object.type <;> simp_all [Ty.className?]
  · exact absurd h List.not_mem_nil

/-- What is checked behind a call of a member. -/
theorem mem_obligations {classes : Table DeclId EffectClass}
    {closures : Table DeclId (List Path)} {id : DeclId} {os : List Obligation}
    (h : (obligations env invariants classes closures).get? id = some os) {o : Obligation}
    (ho : o ∈ os) :
    (∃ closed, (id, closed) ∈ closures.entries ∧ ∃ q ∈ closed, o.object ∈ q.prefixes ∧
      o ∈ invariantsAt env invariants o.object) ∨
    (∃ m, env.method? id = some m ∧ (m.isStatic = false ∧ o.object = .this m.owner ∨
        ∃ i t, m.paramTypes[i]? = some t ∧ o.object = .param i t) ∧
      o ∈ invariantsAt env invariants o.object) := by
  have hmem := (List.mem_filter.mp (Table.mem_of_get? h)).1
  rcases List.mem_append.mp hmem with hmem | hmem
  · obtain ⟨⟨id', closed⟩, hclosed, heq⟩ := List.mem_map.mp hmem
    cases heq
    have hfrom := (List.mem_filter.mp (mem_firsts ho)).1
    obtain ⟨object, hobject, hat⟩ := List.mem_flatMap.mp hfrom
    obtain ⟨q, hq, hprefix⟩ := List.mem_flatMap.mp hobject
    obtain ⟨rfl, _⟩ := mem_invariantsAt hat
    exact .inl ⟨closed, hclosed, q, hq, hprefix, hat⟩
  · obtain ⟨id', _, heq⟩ := List.mem_map.mp hmem
    cases heq
    cases hm : env.method? id with
    | none =>
        rw [hm] at ho
        exact absurd ho List.not_mem_nil
    | some m =>
        rw [hm] at ho
        obtain ⟨object, hobject, hat⟩ := List.mem_flatMap.mp ho
        obtain ⟨hobj, _⟩ := mem_invariantsAt hat
        refine .inr ⟨m, rfl, ?_, hobj ▸ hat⟩
        rcases List.mem_append.mp hobject with hthis | hparam
        · cases hs : m.isStatic with
          | true =>
              rw [hs] at hthis
              exact absurd hthis List.not_mem_nil
          | false =>
              rw [hs] at hthis
              exact .inl ⟨rfl, hobj.trans (List.mem_singleton.mp hthis)⟩
        · obtain ⟨i, hi⟩ := List.mem_iff_getElem?.mp hparam
          rw [List.getElem?_mapIdx, Option.map_eq_some_iff] at hi
          obtain ⟨t, ht, hpath⟩ := hi
          exact .inr ⟨i, t, ht, hobj.trans hpath.symm⟩

end

end Effect

namespace Contract

/-- The check of an invariant behind a call. -/
theorem mem_siteObligations {env : Env} {plan : ContractPlan} {site : CallSite} {o : Obligation}
    (h : o ∈ siteObligations env plan site) :
    (∃ os, plan.effects.obligations.get? site.callee = some os ∧ o ∈ os) ∨
      site.kind = .new ∧ ∃ m, env.method? site.callee = some m ∧ o.object = .this m.owner ∧
        (o.className, o.clause) ∈ plan.invariantsOf env m.owner := by
  have broken (h : o ∈ (plan.effects.obligations.get? site.callee).getD []) :
      ∃ os, plan.effects.obligations.get? site.callee = some os ∧ o ∈ os := by
    cases hget : plan.effects.obligations.get? site.callee with
    | none =>
        rw [hget] at h
        exact absurd h List.not_mem_nil
    | some os =>
        rw [hget] at h
        exact ⟨os, rfl, h⟩
  rw [siteObligations] at h
  cases hk : site.kind with
  | super =>
      simp only [hk] at h
      exact absurd h List.not_mem_nil
  | method =>
      simp only [hk] at h
      exact .inl (broken (Effect.mem_firsts h))
  | new =>
      simp only [hk] at h
      rcases Effect.mem_foldl_addNew h with h | h
      · rw [establish] at h
        split at h
        · next m hm =>
            obtain ⟨⟨owner, clause⟩, hmem, rfl⟩ := List.mem_map.mp h
            exact .inr ⟨rfl, m, hm, rfl, hmem⟩
        · exact absurd h List.not_mem_nil
      · exact .inl (broken h)

theorem mem_listIf {α : Type} {b : Bool} {x y : α} (h : y ∈ listIf b x) : b = true ∧ y = x := by
  cases b
  · exact absurd h List.not_mem_nil
  · exact ⟨rfl, List.mem_singleton.mp h⟩

/-- The forms of the checks of a member. -/
theorem mem_memberCodes {checks : Checks} {isConstructor : Bool} {s : Specification}
    {snapshot : Option Snapshot} {x : ProgramPoint × CheckCode}
    (h : x ∈ memberCodes checks isConstructor s snapshot) :
    (∃ site, snapshot = some site ∧ (checks.postconditions || checks.exceptional) = true ∧
        x = (.entry, .snapshot site)) ∨
      x = (.entry, .precondition s.preconditions) ∨
      checks.postconditions = true ∧ x = (.normalExit, .postcondition s.postconditions) ∨
      x = (.normalExit, throwsCode s) ∨ x = (.exceptionalExit, throwsCode s) := by
  have entry {code : CheckCode} (h : code ∈ entryCodes checks isConstructor s snapshot) :
      (∃ site, snapshot = some site ∧ (checks.postconditions || checks.exceptional) = true ∧
        code = .snapshot site) ∨ code = .precondition s.preconditions := by
    cases snapshot with
    | none =>
        have h : code ∈ listIf (checks.preconditions && !s.preconditions.isEmpty)
            (.precondition s.preconditions) := by
          cases isConstructor <;> simpa [entryCodes] using h
        exact .inr (mem_listIf h).2
    | some site =>
        have h : code ∈ listIf (checks.postconditions || checks.exceptional) (.snapshot site) ∨
            code ∈ listIf (checks.preconditions && !s.preconditions.isEmpty)
              (.precondition s.preconditions) := by
          cases isConstructor with
          | true => exact List.mem_append.mp h
          | false => exact (List.mem_append.mp h).symm
        exact h.imp (fun h => ⟨site, rfl, mem_listIf h⟩) fun h => (mem_listIf h).2
  rcases List.mem_append.mp h with h | h
  · rcases List.mem_append.mp h with h | h
    · rcases List.mem_append.mp h with h | h
      · obtain ⟨code, hcode, rfl⟩ := List.mem_map.mp h
        rcases entry hcode with ⟨site, hs, hon, rfl⟩ | rfl
        · exact .inl ⟨site, hs, hon, rfl⟩
        · exact .inr (.inl rfl)
      · obtain ⟨hon, rfl⟩ := mem_listIf h
        exact .inr (.inr (.inl ⟨(Bool.and_eq_true_iff.mp hon).1, rfl⟩))
    · exact .inr (.inr (.inr (.inl (mem_listIf h).2)))
  · exact .inr (.inr (.inr (.inr (mem_listIf h).2)))

/-- What a member stores is stored at its entry if a kind of clauses is checked that reads it. -/
theorem snapshot_mem_memberCodes {checks : Checks} (isConstructor : Bool) (s : Specification)
    (site : Snapshot) (h : (checks.postconditions || checks.exceptional) = true) :
    (.entry, .snapshot site) ∈ memberCodes checks isConstructor s (some site) := by
  have hentry : .snapshot site ∈ entryCodes checks isConstructor s (some site) := by
    cases isConstructor <;> simp [entryCodes, listIf, h]
  exact List.mem_append_left _ (List.mem_append_left _ (List.mem_append_left _
    (List.mem_map.mpr ⟨_, hentry, rfl⟩)))

/-- A check belongs to a specification, or it stands behind a call. -/
theorem mem_weave {env : Env} {plan : ContractPlan} {checks : Checks} {c : PlacedCheck}
    (h : c ∈ weave env plan checks) :
    (∃ s, (c.decl, s) ∈ plan.specs.entries ∧ (c.point, c.code) ∈
        memberCodes checks ((env.method? c.decl).any (·.isConstructor)) s
          (plan.snapshots.get? c.decl)) ∨
      ∃ site ∈ env.callSites.values,
        c = ⟨site.caller, .afterCall site.id, .reverify (siteObligations env plan site)⟩ := by
  rcases List.mem_append.mp h with h | h
  · obtain ⟨⟨id, s⟩, hs, hc⟩ := List.mem_flatMap.mp h
    obtain ⟨⟨point, code⟩, hcode, rfl⟩ := List.mem_map.mp hc
    exact .inl ⟨s, hs, hcode⟩
  · cases hi : checks.invariants with
    | false =>
        rw [hi] at h
        exact absurd h List.not_mem_nil
    | true =>
        rw [hi] at h
        obtain ⟨site, hsite, hc⟩ := List.mem_flatMap.mp h
        refine .inr ⟨site, hsite, ?_⟩
        rw [siteCodes] at hc
        split at hc
        · exact absurd hc List.not_mem_nil
        · exact List.mem_singleton.mp hc

/-- Nothing is placed if every kind of checks is switched off. -/
theorem weave_off (env : Env) (plan : ContractPlan) :
    weave env plan ⟨false, false, false, false⟩ = [] := by
  have hspec (id : DeclId) (s : Specification) :
      specCodes env plan ⟨false, false, false, false⟩ id s = [] := by
    simp only [specCodes, memberCodes, entryCodes]
    cases plan.snapshots.get? id <;> simp [listIf]
  rw [weave]
  simp [hspec]

end Contract

/-- What can be built with some checks can be built without any: the same program with none. -/
theorem build_off {source : String} {checks : Checks} {b : Build}
    (h : build source checks = .ok b) :
    ∃ b₀, build source ⟨false, false, false, false⟩ = .ok b₀ ∧ b₀.program = ⟨b.program.env, []⟩ := by
  rw [build] at h ⊢
  split at h
  · exact absurd h (by simp)
  · next env plan ha =>
      split at h
      · next he =>
          cases h
          simp only [he, if_true]
          exact ⟨_, rfl, by rw [Contract.weave_off]⟩
      · exact absurd h (by simp)

end Covenant
