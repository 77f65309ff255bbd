import Covenant.Proofs.Covered
import Covenant.Proofs.Navigation

/-!
# What targets denote

The objects that a target denotes are found along its path wherever checks ask for
them. For every target that a member of a sound program has, this is what the target
itself would yield if it were evaluated in a frame of the member. No checks stand
behind the calls of a target, so the two ways differ only as `Navigation` says.
-/

namespace Covenant

open Typed (Context)
open Effect (Path)

/-- The targets of a program that are accepted, each with the record that it is written in. -/
def Contract.targetsOf (env : Env) (p : Surface.Program) : List (ClauseRecord × BoundClause) :=
  (bindAll env p.siteCount (Clause.ofProgram p)).flatMap fun
    | (r, .ok (.targets cs)) => cs.map (r, ·)
    | _ => []

theorem Contract.mem_targetsOf {env : Env} {p : Surface.Program} {r : ClauseRecord}
    {c : BoundClause} (h : (r, c) ∈ targetsOf env p) :
    TargetOf env p.siteCount r c ∧ r.tag.isEffect = true := by
  obtain ⟨⟨r', result⟩, hx, hc⟩ := List.mem_flatMap.mp h
  split at hc
  · next r' cs heq =>
      cases heq
      obtain ⟨c', hc', heq⟩ := List.mem_map.mp hc
      cases heq
      exact ⟨bindAll_ok (Nat.le_refl _) _ hx _ rfl c hc', bindAll_wellTagged _ _ _ hx⟩
  · exact absurd hc List.not_mem_nil

namespace Run

section

variable {env : Env} {plan : ContractPlan} {checks : Checks} {k i : SiteId}

/-- Nothing is checked behind a call whose number is behind those of the program's calls. -/
theorem bareSite_fresh (hn : ∀ c ∈ env.callSites.values, c.id < k) (hi : k ≤ i)
    (limit bound : Nat) (caller : DeclId) :
    BareSite env (Run.calls ⟨env, Contract.weave env plan checks⟩ limit bound) caller i := by
  intro method this args μ
  refine (ends_callMethod (f := Frame.start caller none [])).trans ?_
  cases bound with
  | zero => rfl
  | succ bound =>
      simp only [Run.calls, recheckWith, Contract.codesAt_fresh hn hi]
      rcases (invokeWith _ limit _ (env.target μ method this) this args).ends μ with
        _ | ⟨u | v, _⟩
      · rfl
      · cases u <;> rfl
      · rfl

end

/-- What is accepted as a target and spreads nothing shows a way, in a frame that has what the
target's place offers. -/
theorem exists_way {env : Env} {p : Surface.Program} (hd : env.DeclaredBy p) {calls : Calls}
    {Γ : Context} {f : Frame} (hthis : Γ.this ≠ none → f.this ≠ none)
    (hargs : ∀ i, i < Γ.params.length → i < f.args.length) : ∀ {e : Typed.Expr},
    e.Fits env Γ → Contract.isPath e = true → e.spreadFree = true →
    (∀ i ∈ e.sites, BareSite env calls f.decl i) → ∃ q, Way env calls f e q
  | .this _ c, h, _, _, _ => by
      obtain ⟨d, hΓ, _⟩ := h
      obtain ⟨r, hr⟩ := Option.ne_none_iff_exists'.mp (hthis (by simp [hΓ]))
      exact ⟨_, .this hr⟩
  | .param _ t i _, h, _, _, _ => by
      obtain ⟨hi, _⟩ := List.getElem?_eq_some_iff.mp h
      exact ⟨_, .param (List.getElem?_eq_getElem (hargs i hi))⟩
  | .staticField .., _, _, _, _ => ⟨_, .static⟩
  | .field _ t o name, h, hpath, hfree, hsites => by
      obtain ⟨q, hq⟩ := exists_way hd hthis hargs h.1 hpath hfree hsites
      exact ⟨_, .field hq⟩
  | .call _ t site (some o) id name args, h, hpath, hfree, hsites => by
      obtain ⟨⟨ho, _⟩, m, hcall⟩ := h
      obtain ⟨hempty, hopath⟩ := Bool.and_eq_true_iff.mp hpath
      obtain ⟨hofree, _⟩ := Bool.and_eq_true_iff.mp hfree
      obtain ⟨q, hq⟩ := exists_way hd hthis hargs ho hopath hofree fun i hi =>
        hsites i (List.mem_append_left _ hi)
      obtain ⟨hs, c, hc, hsub⟩ := hcall.receiver o rfl
      obtain rfl := List.isEmpty_iff.mp hempty
      obtain rfl := hcall.name
      obtain rfl : m.id = id := (hd.method_cases id m hcall.method).1
      have hparams : m.params = [] := by
        simpa [MethodInfo.paramTypes, Typed.ArgsFit] using hcall.args
      have hsite := hsites site (List.mem_append_right _ List.mem_cons_self)
      exact ⟨_, .accessor hq hc hsub hcall.method hs hcall.isMethod hparams hsite⟩
  | .call _ _ _ none .., _, hpath, _, _ => by simp [Contract.isPath, Contract.isReceiverPath] at hpath
  | .spread .., _, _, hfree, _ => nomatch hfree
  | .int .., _, h, _, _ | .bool .., _, h, _, _ | .null .., _, h, _, _ | .var .., _, h, _, _
  | .length .., _, h, _, _ | .index .., _, h, _, _ | .binary .., _, h, _, _
  | .unary .., _, h, _, _ | .new .., _, h, _, _ | .newArray .., _, h, _, _
  | .old .., _, h, _, _ | .result .., _, h, _, _ | .slot .., _, h, _, _ => nomatch h

/-- A target of a member denotes what it yields in a frame of the member: the way along its path goes
with its evaluation, on every machine and for every receiver and all arguments, as long as only
`null` and objects of the types that are expected are met on the way. -/
theorem reach_follows_eval {source : String} {checks : Checks} {b : Build}
    (hb : build source checks = .ok b) {p : Surface.Program} (hp : Parse.program source = .ok p)
    {r : ClauseRecord} {c : BoundClause} (hc : (r, c) ∈ Contract.targetsOf b.program.env p)
    (hfree : c.expr.spreadFree = true) {m : MethodInfo}
    (hm : b.program.env.method? r.owner = some m) {f : Frame}
    (hthis : m.isStatic = false → f.this ≠ none) (hargs : f.args.length = m.params.length)
    (limit bound : Nat) {μ : Machine}
    (hmeets : ∀ o ∈ c.expr.objects,
      meetsLink b.program.env (Run.calls b.program limit bound) f μ o = true) :
    ∃ q, Path.of? [] c.expr = some q ∧
      Follows b.program.env (Run.calls b.program limit bound) f μ c.expr q := by
  obtain ⟨hcheck, _, hprogram⟩ := analysis_of_build hb hp
  have hwf := Parse.program_wellFormed hp
  have hd := Env.declaredBy_of_check hwf hcheck
  have hsitesOf : ∀ c ∈ b.program.env.callSites.values, c.id < p.siteCount :=
    fun c hc => Typing.callSites_lt hwf hcheck hc
  obtain ⟨htarget, heffect⟩ := Contract.mem_targetsOf hc
  have htag : r.tag ≠ .invariant := by
    intro h
    simp [h, ClauseTag.isEffect] at heffect
  have hbodies : NeedsBodies b.program.env (Run.calls b.program limit bound) :=
    fun m hm hc hb this args μ v μ' => invoke_bodiless hm hc hb
  have hbare : ∀ i ∈ c.expr.sites,
      BareSite b.program.env (Run.calls b.program limit bound) f.decl i := by
    rw [hprogram]
    obtain ⟨_, he, _, hsites⟩ := htarget
    exact fun i hi => bareSite_fresh hsitesOf (hsites i (he.sites_subset i hi)) limit bound f.decl
  obtain ⟨s, hs, hfits, _⟩ := htarget.fits hwf hcheck
  obtain ⟨d, hdm, rfl⟩ := Contract.method_of_scope htag hs
  obtain rfl := Option.some.inj (hm.symm.trans hdm)
  have hpath : Contract.isPath c.expr = true := by
    obtain ⟨_, _, _, _, _, _, hpath⟩ := htarget
    exact hpath
  obtain ⟨q, hq⟩ : ∃ q, Way b.program.env (Run.calls b.program limit bound) f c.expr q := by
    refine exists_way hd (fun h => hthis ?_) (fun i hi => ?_) hfits hpath hfree hbare
    · cases hs : m.isStatic with
      | false => rfl
      | true => exact absurd (by simp [Contract.ClauseScope.context, hs]) h
    · rw [hargs]
      simpa [Contract.ClauseScope.context] using hi
  exact ⟨q, hq.of?, hq.follows hd hbodies hmeets⟩

/-- A target along a field and an accessor, which is overridden. -/
def overridingSource : String :=
  "class Cell \x7b int value; \x7d
   class Base \x7b Cell cell; Cell get() \x7b return cell; \x7d \x7d
   class Sub extends Base \x7b Cell spare; Cell get() \x7b return spare; \x7d \x7d
   class Holder \x7b
     Base base;
     /** @mutates_properties | base.get() */
     void f() \x7b \x7d
   \x7d"

/-- A machine with an object of the subclass. -/
def overridingMachine : Machine where
  heap := #[.inst "Holder" (.ofList [("base", .ref 1)]),
    .inst "Sub" (.ofList [("cell", .null), ("spare", .ref 2)]),
    .inst "Cell" (.ofList [("value", .int 0)])]
  statics := .empty
  depth := 1

def overridingCheck : Option Bool := do
  let p ← (Parse.program overridingSource).toOption
  let b ← (build overridingSource {}).toOption
  let x ← (Contract.targetsOf b.program.env p)[0]?
  let m ← b.program.env.method? x.1.owner
  let calls := Run.calls b.program 8 4
  let f := Frame.start m.id (some 0) []
  let o ← (eval b.program.env calls f x.2.expr).ends overridingMachine
  return x.2.expr.spreadFree && m.params.isEmpty &&
    x.2.expr.objects.all (meetsLink b.program.env calls f overridingMachine) &&
    decide (o.2 = overridingMachine) && (o.1.toOption == some (.ref 2))

/-- The accessor of the subclass is called on both ways. -/
theorem reach_follows_eval_overridden :
    ∃ b p r c m, build overridingSource {} = .ok b ∧ Parse.program overridingSource = .ok p ∧
      (r, c) ∈ Contract.targetsOf b.program.env p ∧ c.expr.spreadFree = true ∧
      b.program.env.method? r.owner = some m ∧ m.params = [] ∧
      (∀ o ∈ c.expr.objects, meetsLink b.program.env (Run.calls b.program 8 4)
        (.start m.id (some 0) []) overridingMachine o = true) ∧
      ∃ q, Path.of? [] c.expr = some q ∧
        (eval b.program.env (Run.calls b.program 8 4) (.start m.id (some 0) []) c.expr).ends
          overridingMachine = some (.ok (.ref 2), overridingMachine) ∧
        (reach b.program.env (Run.calls b.program 8 4) q (some 0) []).ends
          overridingMachine = some (.ok [2], overridingMachine) := by
  have h : overridingCheck = some true := by
    set_option maxRecDepth 20000 in
    rw [overridingCheck, show overridingSource = String.ofList _ from rfl, Parse.program_ofList,
      build_ofList]
    decide +kernel
  simp only [overridingCheck, Option.bind_eq_bind, Option.bind_eq_some_iff] at h
  obtain ⟨p, hp, b, hb, ⟨r, c⟩, hc, m, hm, ⟨o, μ⟩, ho, h⟩ := h
  simp only [Option.pure_def, Option.some.injEq, Bool.and_eq_true, decide_eq_true_eq, beq_iff_eq,
    List.isEmpty_iff, List.all_eq_true] at h
  obtain ⟨⟨⟨⟨hfree, hparams⟩, hmeets⟩, rfl⟩, hvalue⟩ := h
  obtain rfl := ok_of_toOption hvalue
  have hc := List.mem_of_getElem? hc
  obtain ⟨q, hq, hfollows⟩ := reach_follows_eval (ok_of_toOption hb) (ok_of_toOption hp) hc hfree hm
    (f := .start m.id (some 0) []) (fun _ => by simp [Frame.start])
    (by simp [Frame.start, hparams]) 8 4 hmeets
  exact ⟨b, p, r, c, m, ok_of_toOption hb, ok_of_toOption hp, hc, hfree, hm, hparams, hmeets, q, hq,
    ho, hfollows.object 2 _ ho⟩

/-- A target whose accessor is declared twice above the class of an object and nowhere
implemented. -/
def twinSource : String :=
  "interface I \x7b Cell get(); \x7d
   interface J \x7b Cell get(); \x7d
   class C implements I, J \x7b \x7d
   class Cell \x7b int value; \x7d
   class Holder \x7b
     J twin;
     /** @mutates_properties | twin.get() */
     void f() \x7b \x7d
   \x7d"

/-- A machine with an object that has both. -/
def twinMachine : Machine where
  heap := #[.inst "Holder" (.ofList [("twin", .ref 1)]), .inst "C" .empty]
  statics := .empty
  depth := 1

def twinCheck : Option Bool := do
  let p ← (Parse.program twinSource).toOption
  let b ← (build twinSource {}).toOption
  let x ← (Contract.targetsOf b.program.env p)[0]?
  let m ← b.program.env.method? x.1.owner
  let calls := Run.calls b.program 8 4
  let f := Frame.start m.id (some 0) []
  let q ← Path.of? [] x.2.expr
  let o ← (eval b.program.env calls f x.2.expr).ends twinMachine
  let o' ← (reach b.program.env calls q (some 0) []).ends twinMachine
  return x.2.expr.spreadFree && x.2.expr.type == .ofClass "Cell" && m.params.isEmpty &&
    (x.2.expr :: x.2.expr.objects).all (meetsLink b.program.env calls f twinMachine) &&
    decide (o = (.error (.fatal (.noImplementation "J.get" "C")), twinMachine)) &&
    decide (o' = (.error (.fatal (.noImplementation "I.get" "C")), twinMachine))

/-- Evaluation misses the implementation of the method that the target means, and the way along the
path misses that of another one. -/
theorem reach_fails_elsewhere :
    ∃ b p r c m q, build twinSource {} = .ok b ∧ Parse.program twinSource = .ok p ∧
      (r, c) ∈ Contract.targetsOf b.program.env p ∧ c.expr.spreadFree = true ∧
      c.expr.type = .ofClass "Cell" ∧ b.program.env.method? r.owner = some m ∧ m.params = [] ∧
      (∀ x ∈ c.expr :: c.expr.objects, meetsLink b.program.env (Run.calls b.program 8 4)
        (.start m.id (some 0) []) twinMachine x = true) ∧
      Path.of? [] c.expr = some q ∧
      (eval b.program.env (Run.calls b.program 8 4) (.start m.id (some 0) []) c.expr).ends
        twinMachine = some (.error (.fatal (.noImplementation "J.get" "C")), twinMachine) ∧
      (reach b.program.env (Run.calls b.program 8 4) q (some 0) []).ends
        twinMachine = some (.error (.fatal (.noImplementation "I.get" "C")), twinMachine) := by
  have h : twinCheck = some true := by
    set_option maxRecDepth 20000 in
    rw [twinCheck, show twinSource = String.ofList _ from rfl, Parse.program_ofList, build_ofList]
    decide +kernel
  simp only [twinCheck, Option.bind_eq_bind, Option.bind_eq_some_iff] at h
  obtain ⟨p, hp, b, hb, ⟨r, c⟩, hc, m, hm, q, hq, o, ho, o', ho', h⟩ := h
  simp only [Option.pure_def, Option.some.injEq, Bool.and_eq_true, decide_eq_true_eq, beq_iff_eq,
    List.isEmpty_iff, List.all_eq_true] at h
  obtain ⟨⟨⟨⟨⟨hfree, htype⟩, hparams⟩, hmeets⟩, rfl⟩, rfl⟩ := h
  exact ⟨b, p, r, c, m, q, ok_of_toOption hb, ok_of_toOption hp, List.mem_of_getElem? hc, hfree,
    htype, hm, hparams, hmeets, hq, ho, ho'⟩

end Run

end Covenant
