import Covenant.Proofs.SparingRuns

/-!
# Checks that are switched off

A kind of checks that is switched off should be as good as not written. It is,
but for spare entry values: nothing reads them, but their evaluation can throw
or write. `disabled_inert` says that a run ends as in the program without the
deleted clauses if no value is spare, or if no evaluation of a spare value leaves
a trace. In `spareSource` one throws.
-/

namespace Covenant

theorem Run.calls_congr {p q : WovenProgram} (henv : q.env = p.env)
    (hcodes : ∀ id point, q.codesAt id point = p.codesAt id point) (limit n : Nat) :
    calls q limit n = calls p limit n := by
  induction n with
  | zero => rfl
  | succ n ih =>
      have hleave : leave q = leave p := by
        funext c f r
        rcases r with (e | v | e) | flow <;> simp only [leave, henv, hcodes]
      simp only [calls, ih, invokeWith, activate, recheckWith, hleave, henv, hcodes]

theorem WovenProgram.run_congr {p q : WovenProgram} (henv : q.env = p.env)
    (hcodes : ∀ id point, q.codesAt id point = p.codesAt id point) (limit bound : Nat)
    (entry : String) : q.run limit bound entry = p.run limit bound entry := by
  simp only [run, henv, Run.calls_congr henv hcodes]

/-- A run in which spare values leave no trace is a run of the program without the deleted
clauses. -/
theorem sparingCalls_refines_covered {p : Surface.Program} {env : Env} {checks : Checks}
    (hk : env.MethodsKeyed) (howners : ∀ id f, env.field? id = some f → IsWord f.owner)
    (hbodies : ∀ id body, env.body? id = some body → Typed.stmtsSlotNumbers body = [])
    (hmixed : checks.postconditions = !checks.exceptional) (limit n : Nat) :
    (Run.sparingCalls ⟨env, Contract.weave env (.ofProgram p env) checks⟩
      ((ContractPlan.ofProgram p env).spares checks) limit n).Refines
        (Run.calls (.covered checks p env) limit n) := by
  refine Run.sparingCalls_refines (p := ⟨env, Contract.weave env (.ofProgram p env) checks⟩)
    (q := .covered checks p env) rfl
    (fun id site => Contract.codesAt_afterCall_covered hk.nodup checks id site)
    (fun {c d} hc id m hm this args => ?_) n
  replace hm : env.method? id = some m := hm
  obtain rfl := hk.id_eq hm
  have hfresh := Contract.freshSpec_of_bind howners (Clause.ofProgram p) p.siteCount m
  obtain ⟨_, hspares⟩ := spares_ofProgram (p := p) checks hk hm rfl
  cases he : checks.exceptional with
  | true =>
      exact Run.activate_without_postconditions hk hm rfl hfresh (hbodies m.id) hspares
        (by rw [hmixed, he]; rfl) he hc this args
  | false =>
      exact Run.activate_without_exceptional hk hm rfl hfresh (hbodies m.id) hspares
        (by rw [hmixed, he]; rfl) he hc this args

/-- A kind of checks that is switched off is as good as not written, but for spare entry values: if
no member stores any, a run ends as it does in the program without the deleted clauses, and if some
do, it ends so whenever their evaluations complete and leave no trace. -/
theorem disabled_inert {source : String} {checks : Checks} {b : Build}
    (h : build source checks = .ok b) {p : Surface.Program} (hp : Parse.program source = .ok p)
    (limit bound : Nat) (entry : String) :
    ((∀ id, ∀ i < (Contract.storedTerms b.plan.snapshots id).length,
        b.plan.spares checks id i = false) →
      b.program.run limit bound entry =
        (WovenProgram.covered checks p b.program.env).run limit bound entry) ∧
    ∀ μ o, b.program.sparingRun (b.plan.spares checks) limit bound entry μ = some o →
      b.program.run limit bound entry μ = some o ∧
        (WovenProgram.covered checks p b.program.env).run limit bound entry μ = some o := by
  obtain ⟨p', env, hp', henv, hplan, _, hprog⟩ := build_eq_ok h
  obtain rfl : p' = p := Except.ok.inj (hp'.symm.trans hp)
  have hwell := Parse.program_wellFormed hp
  have hk : env.MethodsKeyed := methodsKeyed_of_check henv
  have howners := Contract.owners_words hwell henv
  rw [hplan] at hprog
  rw [hplan, hprog]
  have hequal (hnone : ∀ id, ∀ i < (Contract.storedTerms
      (ContractPlan.ofProgram p' env).snapshots id).length,
      (ContractPlan.ofProgram p' env).spares checks id i = false) :=
    (WovenProgram.run_congr (p := ⟨env, Contract.weave env (.ofProgram p' env) checks⟩)
      (q := .covered checks p' env) rfl (codesAt_covered checks hk howners hnone) limit bound
      entry).symm
  refine ⟨hequal, fun μ o hrun => ?_⟩
  have hcalls : (Run.sparingCalls ⟨env, Contract.weave env (.ofProgram p' env) checks⟩
      ((ContractPlan.ofProgram p' env).spares checks) limit bound).Refines
      (Run.calls ⟨env, Contract.weave env (.ofProgram p' env) checks⟩ limit bound) :=
    Run.sparingCalls_refines rfl (fun _ _ => rfl)
      (fun hc _ m _ => Run.sparingActivate_refines _ hc _ m) bound
  have hsame := WovenProgram.run_of_sparingRun rfl hcalls hrun
  refine ⟨hsame, ?_⟩
  by_cases hmixed : checks.postconditions = !checks.exceptional
  · have hcovered := sparingCalls_refines_covered (p := p') hk howners
      (fun _ _ => Typing.body_slotNumbers hwell henv) hmixed limit bound
    exact WovenProgram.run_of_sparingRun
      (p := ⟨env, Contract.weave env (.ofProgram p' env) checks⟩) rfl hcovered hrun
  · rw [← hequal fun id i _ => ?_]
    · exact hsame
    · rw [ContractPlan.spares]
      cases (ContractPlan.ofProgram p' env).specs.get? id with
      | none => rfl
      | some s =>
          rw [Option.any_some, Specification.spares]
          cases hpost : checks.postconditions <;> cases hexc : checks.exceptional <;>
            simp_all

/-- A program with spare entry values if postconditions are switched off: `old(n)` is stored beside
the condition of `throws` and does nothing but yield a value. -/
def sparingSource : String :=
  "class M { static int n = 1;
    /** @post | old(n) < n
     * @throws IllegalStateException | n < 0 */ static int f() { n = n - 1; return n; } }"

theorem disabled_inert_sparing :
    ∃ b p o, build sparingSource { postconditions := false } = .ok b ∧
      Parse.program sparingSource = .ok p ∧
      b.program.sparingRun (b.plan.spares { postconditions := false }) 8 4 "M.f" .initial =
        some o ∧
      b.program.run 8 4 "M.f" .initial = some o ∧
      (WovenProgram.covered { postconditions := false } p b.program.env).run 8 4 "M.f" .initial =
        some o ∧
      o.1 = .ok (.returned (.int 0)) := by
  have h : (do
      let b ← (build sparingSource { postconditions := false }).toOption
      let p ← (Parse.program sparingSource).toOption
      let o ← b.program.sparingRun (b.plan.spares { postconditions := false }) 8 4 "M.f" .initial
      return (o.1, p.siteCount)) = some (.ok (.returned (.int 0)), 0) := by
    set_option maxRecDepth 20000 in
    rw [show sparingSource = String.ofList _ from rfl, build_ofList, Parse.program_ofList]
    decide +kernel
  simp only [Option.bind_eq_bind, Option.bind_eq_some_iff] at h
  obtain ⟨b, hb, p, hp, o, ho, h⟩ := h
  rw [Option.pure_def, Option.some.injEq, Prod.mk.injEq] at h
  obtain ⟨hrun, hcovered⟩ :=
    (disabled_inert (ok_of_toOption hb) (ok_of_toOption hp) 8 4 "M.f").2 .initial o ho
  exact ⟨b, p, o, ok_of_toOption hb, ok_of_toOption hp, ho, hrun, hcovered, h.1⟩

/-- A program that stores a spare value whose evaluation throws if postconditions are switched
off. -/
def spareSource : String :=
  "class M { static int z = 0; /** @post | old(1 / z) == 0 */ static int f() { return 0; } }"

/-- It ends in an exception, and without its postcondition it returns. -/
theorem disabled_evaluated :
    ∃ b p o o', build spareSource { postconditions := false } = .ok b ∧
      Parse.program spareSource = .ok p ∧
      b.program.run 8 4 "M.f" .initial = some o ∧
      (WovenProgram.covered { postconditions := false } p b.program.env).run 8 4 "M.f" .initial =
        some o' ∧
      o.1 = .ok (.threw "ArithmeticException") ∧ o'.1 = .ok (.returned (.int 0)) := by
  have h : (do
      let b ← (build spareSource { postconditions := false }).toOption
      let p ← (Parse.program spareSource).toOption
      let o ← b.program.run 8 4 "M.f" .initial
      let o' ← (WovenProgram.covered { postconditions := false } p b.program.env).run 8 4 "M.f"
        .initial
      return o.1 == .ok (.threw "ArithmeticException") && o'.1 == .ok (.returned (.int 0))) =
        some true := by
    set_option maxRecDepth 20000 in
    rw [show spareSource = String.ofList _ from rfl, build_ofList, Parse.program_ofList]
    decide +kernel
  simp only [Option.bind_eq_bind, Option.bind_eq_some_iff] at h
  obtain ⟨b, hb, p, hp, o, ho, o', ho', h⟩ := h
  rw [Option.pure_def, Option.some.injEq, Bool.and_eq_true, beq_iff_eq, beq_iff_eq] at h
  exact ⟨b, p, o, o', ok_of_toOption hb, ok_of_toOption hp, ho, ho', h⟩

end Covenant
