import Covenant.Effect.Analysis
import Covenant.Proofs.Tables

/-!
# What is taken for pure

The test for purity goes through the calls of a method as they are written. What it
says of a method and of those that it calls does not depend on where the test began,
and with fewer effects declared no less is taken for pure.
-/

namespace Covenant.Effect

variable {env : Env} {specs specs' : Table DeclId Specification} {id : DeclId}

/-- A member that only declares what it inspects. -/
def InspectsOnly (specs : Table DeclId Specification) (id : DeclId) : Prop :=
  ∃ e, declaredEffects? specs id = some e ∧ e.mutates = [] ∧ e.mutatesProperties = []

/-- A member that has the form of a pure accessor: a method that is only declared and called as an
accessor somewhere, or one that returns an expression and does nothing else. -/
inductive PureForm (env : Env) (specs : Table DeclId Specification) (id : DeclId) :
    Option Typed.Expr → Prop
  | declared {m} (method : env.method? id = some m) (form : isAccessorForm m = true)
      (bodiless : m.hasBody = false) (called : id ∈ referencedAccessors specs) :
      PureForm env specs id none
  | returns {m e} (method : env.method? id = some m) (form : isAccessorForm m = true)
      (bodied : m.hasBody = true) (body : (env.body? id).bind returnedExpr? = some e)
      (plain : ∀ x ∈ e.parts, createsOrPasses x = false) : PureForm env specs id (some e)

/-- One step of the test. -/
theorem isPureFrom_succ {n : Nat} {visiting : List DeclId} :
    isPureFrom env specs (n + 1) visiting id = true ↔
      InspectsOnly specs id ∨ declaredEffects? specs id = none ∧
        ∃ returned, PureForm env specs id returned ∧ ∀ e, returned = some e →
          id ∉ visiting ∧ ∀ x ∈ e.parts, ∀ d, callee? x = some d →
            isPureFrom env specs n (id :: visiting) d = true := by
  rw [isPureFrom]
  cases hdecl : declaredEffects? specs id with
  | some e =>
      simp only [Bool.and_eq_true, List.isEmpty_iff]
      constructor
      · exact fun h => .inl ⟨e, hdecl, h⟩
      · rintro (⟨e', he', h⟩ | ⟨hnone, _⟩)
        · obtain rfl := Option.some.inj (hdecl.symm.trans he')
          exact h
        · cases hnone
  | none =>
      have hinspects : ¬InspectsOnly specs id := by
        rintro ⟨e, he, _⟩
        exact absurd (hdecl.symm.trans he) (by simp)
      simp only [hinspects, false_or, true_and]
      constructor
      · intro h
        split at h
        · cases h
        · next m hm =>
            split at h
            · cases h
            · next hform =>
                have hform : isAccessorForm m = true := by simpa using hform
                split at h
                · next hbody =>
                    exact ⟨none, .declared hm hform (by simpa using hbody) (by simpa using h), nofun⟩
                · next hbody =>
                    split at h
                    · cases h
                    · next e he =>
                        rw [Bool.and_eq_true, Bool.and_eq_true, Bool.not_eq_true',
                          Bool.not_eq_true', List.any_eq_false, List.all_eq_true] at h
                        obtain ⟨⟨hplain, hnew⟩, hcallees⟩ := h
                        refine ⟨some e, .returns hm hform (by simpa using hbody) he
                          fun x hx => by simpa using hplain x hx, ?_⟩
                        rintro _ ⟨⟩
                        exact ⟨by simpa using hnew,
                          fun x hx d hd => hcallees d (List.mem_filterMap.mpr ⟨x, hx, hd⟩)⟩
      · rintro ⟨returned, hform, hcalls⟩
        cases hform with
        | declared hm hform hbody hcalled =>
            simpa [hm, hform, hbody] using hcalled
        | @returns m e hm hform hbody he hplain =>
            obtain ⟨hnew, hcallees⟩ := hcalls e rfl
            have hplain : e.parts.any createsOrPasses = false :=
              List.any_eq_false.mpr fun x hx => by simpa using hplain x hx
            have hall : (e.parts.filterMap callee?).all
                (isPureFrom env specs n (id :: visiting)) = true := by
              refine List.all_eq_true.mpr fun d hd => ?_
              obtain ⟨x, hx, hxd⟩ := List.mem_filterMap.mp hd
              exact hcallees x hx d hxd
            simp [hm, hform, hbody, he, hplain, hall, hnew]

/-- The second specifications declare the same members, each with no fewer effects. -/
structure MoreEffects (specs specs' : Table DeclId Specification) : Prop where
  undeclared : ∀ id, declaredEffects? specs' id = none → declaredEffects? specs id = none
  inspectsOnly : ∀ id, InspectsOnly specs' id → InspectsOnly specs id
  referenced : ∀ id, id ∈ referencedAccessors specs' → id ∈ referencedAccessors specs

theorem MoreEffects.refl (specs : Table DeclId Specification) : MoreEffects specs specs :=
  ⟨fun _ h => h, fun _ h => h, fun _ h => h⟩

/-- With more steps and less that was visited before, and with fewer effects, no less is taken for
pure. -/
theorem isPureFrom_mono (h : MoreEffects specs specs') {n k : Nat} (hk : n ≤ k)
    {visiting visiting' : List DeclId} (hv : visiting' ⊆ visiting)
    (hpure : isPureFrom env specs' n visiting id = true) :
    isPureFrom env specs k visiting' id = true := by
  induction n generalizing k visiting visiting' id with
  | zero => cases hpure
  | succ n ih =>
      obtain ⟨k, rfl⟩ := Nat.exists_eq_add_of_lt hk
      rw [show n + k + 1 = (n + k) + 1 from rfl, isPureFrom_succ]
      rcases isPureFrom_succ.mp hpure with hins | ⟨hnone, returned, hform, hcalls⟩
      · exact .inl (h.inspectsOnly id hins)
      · refine .inr ⟨h.undeclared id hnone, returned, ?_, fun e he => ?_⟩
        · cases hform with
          | declared hm hform hbody hcalled =>
              exact .declared hm hform hbody (h.referenced id hcalled)
          | returns hm hform hbody he hplain => exact .returns hm hform hbody he hplain
        · obtain ⟨hnew, hcallees⟩ := hcalls e he
          exact ⟨fun hin => hnew (hv hin), fun x hx d hd =>
            ih (Nat.le_add_right n k) (List.cons_subset_cons id hv) (hcallees x hx d hd)⟩

theorem isPure_mono (h : MoreEffects specs specs') (hpure : isPure env specs' id = true) :
    isPure env specs id = true :=
  isPureFrom_mono h (Nat.le_refl _) (List.Subset.refl _) hpure

/-- What is taken for pure only declares what it inspects, or it declares nothing, has the form of a
pure accessor, and calls what is taken for pure. -/
theorem isPure_cases (h : isPure env specs id = true) :
    InspectsOnly specs id ∨ declaredEffects? specs id = none ∧
      ∃ returned, PureForm env specs id returned ∧ ∀ e, returned = some e →
        ∀ x ∈ e.parts, ∀ d, callee? x = some d → isPure env specs d = true := by
  refine (isPureFrom_succ.mp h).imp_right ?_
  rintro ⟨hnone, returned, hform, hcalls⟩
  refine ⟨hnone, returned, hform, fun e he x hx d hd => ?_⟩
  exact isPureFrom_mono (.refl specs) (Nat.le_succ _) (List.nil_subset _) ((hcalls e he).2 x hx d hd)

/-! ## The classes of members -/

theorem classOf_classifyAll {c : EffectClass} (hc : c ≠ .unconstrained)
    (h : classOf (classifyAll env specs) id = c) : classify env specs id = c := by
  rw [classOf] at h
  cases hg : (classifyAll env specs).get? id with
  | none =>
      rw [hg] at h
      exact absurd h.symm hc
  | some c' =>
      obtain ⟨i, _, heq⟩ := List.mem_map.mp (Table.mem_of_get? hg)
      cases heq
      rw [hg] at h
      exact h

theorem isPure_of_class (h : classOf (classifyAll env specs) id = .pureAccessor) :
    declaredEffects? specs id = none ∧ isPure env specs id = true := by
  have hclass := classOf_classifyAll (by simp) h
  rw [classify] at hclass
  split at hclass
  · cases hclass
  · next hnone =>
      split at hclass
      · next hpure => exact ⟨by simpa using hnone, hpure⟩
      · cases hclass

/-- What is classified as a pure accessor has the form of one. -/
theorem accessorForm_of_pure (h : classOf (classifyAll env specs) id = .pureAccessor) :
    ∃ m, env.method? id = some m ∧ isAccessorForm m = true := by
  obtain ⟨hnone, hpure⟩ := isPure_of_class h
  rcases isPure_cases hpure with ⟨e, he, _⟩ | ⟨_, returned, hform, _⟩
  · exact absurd (hnone.symm.trans he) (by simp)
  · cases hform with
    | declared hm hform | returns hm hform => exact ⟨_, hm, hform⟩

end Covenant.Effect
