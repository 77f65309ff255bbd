import Covenant.Proofs.EvaluatedCalls
import Covenant.Proofs.FittedCalls
import Covenant.Proofs.Purity

/-!
# Nothing is checked without need

A method that mutates nothing breaks no invariant, and nothing is checked behind its
calls: pure accessors have no obligations at all, and the closed set of a method that
only declares what it inspects is empty, since it has no targets and licenses no call.
This does not depend on what invariants there are. Behind a call of a declared method
each obligation is for an object along the closed set, the query asks for it, and it
is there once: `checks_needed`.
-/

namespace Covenant

namespace Effect

variable {env : Env} {specs : Table DeclId Specification} {invariants : Invariants} {id : DeclId}

/-- What only declares what it inspects has neither targets nor licences. -/
theorem InspectsOnly.effects {s : Specification} (h : InspectsOnly specs id)
    (hs : specs.get? id = some s) :
    s.effects.mutates = [] ∧ s.effects.mutatesProperties = [] := by
  obtain ⟨e, he, hempty⟩ := h
  rw [declaredEffects?, hs, Option.map_some] at he
  obtain rfl := Option.some.inj (Option.filter_eq_some_iff.mp he).1
  exact hempty

/-- The closed set of a method that only declares what it inspects. -/
theorem InspectsOnly.closureFrom_eq_nil {classes : Table DeclId EffectClass} {n : Nat}
    {visiting : List DeclId} (h : InspectsOnly specs id)
    (hmethod : ∀ m, env.method? id = some m → m.isConstructor = false) :
    closureFrom env specs classes n visiting id = [] := by
  refine List.eq_nil_iff_forall_not_mem.mpr fun q hq => ?_
  obtain ⟨_, m, s, _, _, _, hm, hs, hq⟩ := closureFrom_cases hq
  obtain ⟨hmutates, hlicences⟩ := h.effects hs
  rcases hq with hown | ⟨site, _, receiver, hr, _⟩
  · rw [ownTargets, if_neg (by simp [hmethod m hm]), hmutates] at hown
    exact absurd hown List.not_mem_nil
  · obtain ⟨_, _, c, hc, _⟩ := licensedReceiver?_eq_some.mp hr
    rw [hlicences] at hc
    exact absurd hc List.not_mem_nil

/-- A method that mutates nothing breaks nothing, whatever the invariants. -/
theorem obligations_eq_nil (hn : env.methods.keys.Nodup) {m : MethodInfo}
    (hm : env.method? id = some m) (hmethod : m.isConstructor = false)
    (h : classOf (classifyAll env specs) id = .pureAccessor ∨ InspectsOnly specs id) :
    ((EffectAnalysis.ofSpecs env specs invariants).obligations.get? id).getD [] = [] := by
  rw [obligations_eq hn]
  rcases h with hpure | hinspects
  · rw [show (EffectAnalysis.ofSpecs env specs invariants).classOf id = _ from hpure]
    rfl
  · have hclass : (EffectAnalysis.ofSpecs env specs invariants).classOf id = .declared := by
      obtain ⟨e, he, _⟩ := hinspects
      show classOf (classifyAll env specs) id = _
      rw [classOf, get?_classifyAll hm, Option.getD_some, classify, he]
      rfl
    have hclosed : closure env specs (classifyAll env specs) id = [] :=
      hinspects.closureFrom_eq_nil fun m' hm' => Option.some.inj (hm.symm.trans hm') ▸ hmethod
    rw [hclass, obligationsBy, hclosed]
    rfl

/-- What is checked after a call of a declared member. -/
theorem mem_declaredObligations {closed : List Path} {o : Obligation}
    (h : o ∈ declaredObligations env invariants closed) :
    (∃ q ∈ closed, o.object ∈ q.prefixes) ∧ touches closed o.object o.clause = true := by
  obtain ⟨hmem, htouches⟩ := List.mem_filter.mp (mem_firsts h)
  obtain ⟨p, hp, hat⟩ := List.mem_flatMap.mp hmem
  obtain ⟨rfl, _⟩ := mem_invariantsAt hat
  exact ⟨List.mem_flatMap.mp hp, htouches⟩

end Effect

open Effect

/-- The contracts of a program with other invariants. -/
def ContractPlan.withInvariants (plan : ContractPlan) (env : Env) (invariants : Invariants) :
    ContractPlan :=
  { plan with invariants, effects := .ofSpecs env plan.specs invariants }

section

variable {source : String} {checks : Checks} {b : Build} (h : build source checks = .ok b)

include h

/-- A method call of the table calls a method. -/
theorem method_of_callSite {i : SiteId} {c : CallSite}
    (hc : b.program.env.callSites.get? i = some c) (hk : c.kind = .method) :
    ∃ m, b.program.env.method? c.callee = some m ∧ m.isConstructor = false := by
  obtain ⟨p, hwf, hcheck⟩ := checkProgram_of_build h
  have hmem : c ∈ b.program.env.callSites.values :=
    List.mem_map.mpr ⟨_, Table.mem_of_get? hc, rfl⟩
  obtain ⟨_, hfits⟩ := Typing.exists_fitsIn hwf hcheck hmem
  obtain ⟨_, _, m, _, _, htyped⟩ := hfits.call hk
  exact ⟨m, htyped.method, htyped.isMethod⟩

/-- All that is checked behind a call, in whatever declaration it was placed. -/
theorem obligations_behind {i : SiteId} {c : CallSite}
    (hc : b.program.env.callSites.get? i = some c) :
    (b.program.codesBehind i).flatMap CheckCode.obligations =
      if checks.invariants then Contract.siteObligations b.program.env b.plan c else [] := by
  obtain ⟨p, hp, hcheck⟩ := checkProgram_of_build h
  obtain rfl : i = c.id := (Typing.nodup_callSites hp hcheck).2 _ (Table.mem_of_get? hc)
  rw [← codesAt_caller h hc]
  cases hi : checks.invariants with
  | true => exact obligationsAt_of_callSite h hi hc
  | false =>
      obtain ⟨_, _, _, _, _, _, hprogram⟩ := build_eq_ok h
      rw [hprogram, Contract.codesAt_afterCall, hi]
      rfl

/-- The checks of a build are placed for its own invariants. -/
theorem checks_of_build :
    b.program.checks = Contract.weave b.program.env
      (b.plan.withInvariants b.program.env b.plan.invariants) checks := by
  obtain ⟨_, _, _, _, _, _, hprogram⟩ := build_eq_ok h
  rw [ContractPlan.withInvariants, ← effects_of_build h, hprogram]

/-- Nothing is placed behind the call of a method that mutates nothing. -/
theorem weave_ne_afterCall {i : SiteId} {c : CallSite}
    (hc : b.program.env.callSites.get? i = some c) (hk : c.kind = .method)
    (hcallee : b.plan.effects.classOf c.callee = .pureAccessor ∨
      InspectsOnly b.plan.specs c.callee) (invariants : Invariants) (checks' : Checks) :
    ∀ x ∈ Contract.weave b.program.env (b.plan.withInvariants b.program.env invariants) checks',
      x.point ≠ .afterCall i := by
  intro x hx hpoint
  obtain ⟨c', hc', hx⟩ := mem_weave_callSite h hx hpoint
  obtain rfl := Option.some.inj (hc'.symm.trans hc)
  obtain ⟨m, hm, hmethod⟩ := method_of_callSite h hc hk
  rw [effects_of_build h] at hcallee
  have hnone : ((EffectAnalysis.ofSpecs b.program.env b.plan.specs invariants).obligations.get?
      c'.callee).getD [] = [] :=
    obligations_eq_nil (methodsKeyed_of_build h).nodup hm hmethod hcallee
  refine (Contract.mem_siteCodes hx).2.2 ?_
  rw [Contract.siteObligations, hk]
  exact congrArg (firsts Obligation.same) hnone

/-- Behind the call of a method all obligations are different, and among those of the method. -/
theorem obligations_behind_method {i : SiteId} {c : CallSite}
    (hc : b.program.env.callSites.get? i = some c) (hk : c.kind = .method) :
    (∀ o ∈ (b.program.codesBehind i).flatMap CheckCode.obligations,
        o ∈ (b.plan.effects.obligations.get? c.callee).getD []) ∧
      ((b.program.codesBehind i).flatMap CheckCode.obligations).Pairwise
        fun o o' => o.same o' = false := by
  rw [obligations_behind h hc, Contract.siteObligations, hk]
  cases checks.invariants with
  | true => exact ⟨fun _ ho => mem_firsts ho, pairwise_firsts _⟩
  | false => exact ⟨fun _ ho => absurd ho List.not_mem_nil, .nil⟩

end

/-- Behind the call of a method that is a pure accessor, or only declares what it inspects, no
checks are placed, whatever the invariants are and whatever is switched on. Behind the call of a
declared method only invariants of objects along its closed set are checked that the query asks for,
and no two of these checks are the same. -/
theorem checks_needed {source : String} {checks : Checks} {b : Build}
    (h : build source checks = .ok b) {i : SiteId} {c : CallSite}
    (hc : b.program.env.callSites.get? i = some c) (hk : c.kind = .method) :
    (b.plan.effects.classOf c.callee = .pureAccessor ∨ InspectsOnly b.plan.specs c.callee →
      b.program.codesBehind i = [] ∧ ∀ (invariants : Invariants) (checks' : Checks),
        ∀ x ∈ Contract.weave b.program.env (b.plan.withInvariants b.program.env invariants) checks',
          x.point ≠ .afterCall i) ∧
      (b.plan.effects.classOf c.callee = .declared →
        ∃ closed, b.plan.effects.closures.get? c.callee = some closed ∧
          (∀ o ∈ (b.program.codesBehind i).flatMap CheckCode.obligations,
            (∃ q ∈ closed, o.object ∈ q.prefixes) ∧
              b.plan.effects.reverification c.callee o.object o.clause = .required) ∧
          ((b.program.codesBehind i).flatMap CheckCode.obligations).Pairwise
            fun o o' => o.same o' = false) := by
  have hn := (methodsKeyed_of_build h).nodup
  constructor
  · intro hcallee
    have hnone := weave_ne_afterCall h hc hk hcallee
    refine ⟨WovenProgram.codesBehind_eq_nil ?_, hnone⟩
    rw [checks_of_build h]
    exact hnone b.plan.invariants checks
  · intro hd
    obtain ⟨hsub, hpairwise⟩ := obligations_behind_method h hc hk
    rw [effects_of_build h] at hd hsub ⊢
    rw [get?_obligations hn hd] at hsub
    refine ⟨_, get?_closures hn hd, fun o ho => ?_, hpairwise⟩
    obtain ⟨hobject, htouches⟩ := mem_declaredObligations (hsub o ho)
    exact ⟨hobject, (required_iff_touches hn hd o.object o.clause).mpr htouches⟩

/-- A method that sets what an invariant reads, and one that only declares what it inspects. -/
def gaugeSource : String :=
  "/** @invar | level >= 0 */ class Gauge {
     int level;
     /** @mutates | this.level */ void set(int n) { level = n; }
     /** @inspects | this.level */ int above(int n) { return level - n; }
   }
   class Main { static int main() { Gauge g = new Gauge(); g.set(3); return g.above(2); } }"

/-- Evaluates what is said of `gaugeSource`. -/
def gaugeCheck : Option Bool := do
  let b ← (build gaugeSource {}).toOption
  let c ← b.program.env.callSites.get? 1
  let c' ← b.program.env.callSites.get? 2
  let e ← declaredEffects? b.plan.specs c'.callee
  return decide (c.kind = .method ∧ c'.kind = .method ∧
    b.program.env.describe c.callee = "Gauge.set" ∧
    b.program.env.describe c'.callee = "Gauge.above" ∧
    b.plan.effects.classOf c.callee = .declared ∧ e.mutates = [] ∧ e.mutatesProperties = [] ∧
    b.program.codesBehind 1 ≠ [])

/-- The invariant is checked behind the first call, which can break it, not behind the second. -/
theorem checks_needed_gauge :
    ∃ (b : Build) (c c' : CallSite) (closed : List Path), build gaugeSource {} = .ok b ∧
      b.program.env.callSites.get? 1 = some c ∧ b.program.env.describe c.callee = "Gauge.set" ∧
      b.program.env.callSites.get? 2 = some c' ∧ b.program.env.describe c'.callee = "Gauge.above" ∧
      b.plan.effects.closures.get? c.callee = some closed ∧
      b.program.codesBehind 1 ≠ [] ∧ b.program.codesBehind 2 = [] ∧
      ∀ o ∈ (b.program.codesBehind 1).flatMap CheckCode.obligations,
        ∃ q ∈ closed, o.object ∈ q.prefixes := by
  have h : gaugeCheck = some true := by
    set_option maxRecDepth 20000 in
    rw [gaugeCheck, show gaugeSource = String.ofList _ from rfl, build_ofList]
    decide +kernel
  simp only [gaugeCheck, Option.bind_eq_bind, Option.bind_eq_some_iff] at h
  obtain ⟨b, hb, c, hc, c', hc', e, he, h⟩ := h
  simp only [Option.pure_def, Option.some.injEq, decide_eq_true_eq] at h
  obtain ⟨hk, hk', hset, habove, hd, hmutates, hlicences, hcodes⟩ := h
  have hb := ok_of_toOption hb
  obtain ⟨closed, hclosed, hneeded, _⟩ := (checks_needed hb hc hk).2 hd
  have hnone := (checks_needed hb hc' hk').1 (.inr ⟨e, he, hmutates, hlicences⟩)
  exact ⟨b, c, c', closed, hb, hc, hset, hc', habove, hclosed, hcodes, hnone.1,
    fun o ho => (hneeded o ho).1⟩

end Covenant
