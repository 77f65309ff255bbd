import Covenant.Proofs.CallChecks

/-!
# Calls of members that declare nothing

A member that declares nothing may have mutated anything, so all invariants of the
objects that it was handed are evaluated behind a call of it. These are the
invariants of the classes by which the member knows the objects: an object of a
subclass can have more.
-/

namespace Covenant

open Effect Run

/-- The object at a root of the frame of a callee. -/
def Effect.Root.object? (this : Option Ref) (args : List Value) : Root → Option Ref
  | .this => this
  | .param i => (args[i]?).bind Value.ref?
  | .static _ => none

/-- An object that a callee was handed, with a class by which it knows the object. -/
def HandedAs (m : MethodInfo) (this : Option Ref) (args : List Value) (r : Ref) (c : String) :
    Prop :=
  ∃ object, Handed m object c ∧ object.root.object? this args = some r

section

variable {env : Env} {invariants : Invariants} {m : MethodInfo} {object : Path} {c : String}

theorem Effect.Handed.type (h : Handed m object c) : object.type = .ofClass c := by
  cases h <;> rfl

/-- What is checked behind a call of a member that declares nothing: the invariants of the objects
that it is handed. -/
theorem mem_handedObligations {o : Obligation} : o ∈ handedObligations env invariants m ↔
    ∃ c, Handed m o.object c ∧ (o.className, o.clause) ∈ classInvariants env invariants c := by
  rw [handedObligations, List.mem_flatMap]
  constructor
  · rintro ⟨p, hp, hat⟩
    obtain ⟨rfl, c, hc, hinv⟩ := mem_invariantsAt hat
    refine ⟨c, ?_, hinv⟩
    rcases List.mem_append.mp hp with hp | hp
    · cases hs : m.isStatic with
      | true =>
          rw [hs] at hp
          exact absurd hp List.not_mem_nil
      | false =>
          rw [hs] at hp
          have hthis : o.object = .this m.owner := List.mem_singleton.mp hp
          rw [hthis] at hc ⊢
          cases hc
          exact .receiver hs
    · obtain ⟨i, hi, hparam⟩ := List.mem_mapIdx.mp hp
      rw [← hparam] at hc ⊢
      have htype : m.paramTypes[i] = .ofClass c := hc
      rw [htype]
      exact .param (by rw [List.getElem?_eq_getElem hi, htype])
  · rintro ⟨c, hhanded, hinv⟩
    refine ⟨o.object, ?_, mem_invariantsAt_self hhanded.type hinv⟩
    generalize o.object = object at hhanded
    cases hhanded with
    | receiver hs =>
        refine List.mem_append_left _ ?_
        rw [hs]
        exact List.mem_singleton.mpr rfl
    | @param i _ hp =>
        obtain ⟨hi, hget⟩ := List.getElem?_eq_some_iff.mp hp
        exact List.mem_append_right _ (List.mem_mapIdx.mpr ⟨i, hi, by rw [hget]⟩)

theorem ends_reach_handed {calls : Calls} {this : Option Ref} {args : List Value} {μ : Machine}
    (h : Handed m object c) :
    (reach env calls object this args).ends μ =
      some (.ok (object.root.object? this args).toList, μ) := by
  cases h with
  | receiver => cases this <;> rfl
  | @param i =>
      have hrefs : ((args[i]?).toList.filterMap Value.ref?) =
          ((args[i]?).bind Value.ref?).toList := by
        cases args[i]? with
        | none => rfl
        | some v => cases v <;> rfl
      exact congrArg (fun rs => some (Except.ok rs, μ)) hrefs

end

/-- Behind a call of a method that declares nothing, whether it returned or threw, the invariants
that are evaluated on an object are those of the classes by which the method was handed the object.
They are all true if the call passes on how the method ended; otherwise a check stopped early. -/
theorem evaluated_iff_handed {source : String} {checks : Checks} {b : Build}
    (h : build source checks = .ok b) (hi : checks.invariants = true) {f : Frame} {e : Typed.Expr}
    (he : e ∈ b.program.env.partsOf f.decl) {c : CallSite} (hc : e.callSite? f.decl = some c)
    (hk : c.kind = .method) {m : MethodInfo} (hm : b.program.env.method? c.callee = some m)
    (hu : b.plan.effects.classOf c.callee = .unconstrained) {limit n : Nat} {μ μ₁ μ' : Machine}
    {this : Option Ref} {vs : List Value} {x r : Except Unwind Value}
    (hcallee : CalleeEnds b.program.env (Run.calls b.program limit (n + 1)) f μ e this vs x μ₁)
    (hx : LeadsToChecks e x)
    (hr : (eval b.program.env (Run.calls b.program limit (n + 1)) f e).ends μ = some (r, μ')) :
    (∃ u, StoppedBy b.program.env (Run.calls b.program limit n) c.id this vs
        (b.program.obligationsAt f.decl c.id) u μ₁ μ' ∧ r = .error u) ∨
      ∃ log, Verified b.program.env (Run.calls b.program limit n) this vs log μ₁ μ' ∧ r = x ∧
        ∀ object clause, EvaluatedOn log object clause ↔
          ∃ known, HandedAs m this vs object known ∧
            HasInvariant b.program.env b.plan.invariants known clause := by
  have hhanded : (b.plan.effects.obligations.get? c.callee).getD [] =
      handedObligations b.program.env b.plan.invariants m := by
    rw [effects_of_build h] at hu ⊢
    rw [obligations_eq (methodsKeyed_of_build h).nodup, hu]
    show ((b.program.env.method? c.callee).map _).getD [] = _
    rw [hm]
    rfl
  have hplaced : b.program.obligationsAt f.decl c.id =
      firsts Obligation.same (handedObligations b.program.env b.plan.invariants m) := by
    rw [← Typed.Expr.caller_of_callSite hc, obligationsAt_of_part h hi he hc,
      Contract.siteObligations, hk, hhanded]
  refine (checked_of_calleeEnds hcallee hx hc hr).imp id ?_
  rintro ⟨log, hlog, hv, hpass⟩
  rw [hplaced] at hlog
  refine ⟨log, hv, hpass.trans (passedOn_method hc hk this x), fun object clause => ⟨?_, ?_⟩⟩
  · rintro ⟨⟨o, rs⟩, hy, rfl, hobject⟩
    have ho : o ∈ handedObligations b.program.env b.plan.invariants m :=
      mem_firsts (hlog ▸ List.mem_map_of_mem hy)
    obtain ⟨known, hknown, hinv⟩ := mem_handedObligations.mp ho
    obtain ⟨μ₂, μ₃, hreach⟩ := hv.reached hy
    rw [ends_reach_handed hknown] at hreach
    cases hreach
    exact ⟨known, ⟨o.object, hknown, Option.mem_toList.mp hobject⟩, _, hinv⟩
  · rintro ⟨known, ⟨place, hknown, hobject⟩, owner, hinv⟩
    have ho : (⟨place, owner, clause⟩ : Obligation) ∈
        handedObligations b.program.env b.plan.invariants m :=
      mem_handedObligations.mpr ⟨known, hknown, hinv⟩
    obtain ⟨o, ho, hsame⟩ := exists_mem_firsts Obligation.same_refl ho
    obtain ⟨hplace, hclause⟩ := Obligation.same_iff.mp hsame
    obtain ⟨y, hy, rfl⟩ := List.mem_map.mp (hlog ▸ ho)
    obtain ⟨μ₂, μ₃, hreach⟩ := hv.reached hy
    rw [reach_same hplace, ends_reach_handed hknown, hobject] at hreach
    obtain ⟨hobjects, _⟩ := Prod.mk.inj (Option.some.inj hreach)
    exact ⟨y, hy, hclause, Except.ok.inj hobjects ▸ List.mem_singleton.mpr rfl⟩

/-- A method that declares nothing is handed an object of the class that it knows. -/
def paySource : String :=
  "/** @invar | balance >= 0 */ class Account { int balance; }
   class Bank { static void pay(Account a) { a.balance = a.balance + 1; } }
   class Main {
     static int main() { Account a = new Account(); Bank.pay(a); return a.balance; }
   }"

/-- Evaluates what is said of `paySource`. -/
def payCheck : Option Bool := do
  let b ← (build paySource {}).toOption
  let main ← b.program.env.methodNamed? "Main.main"
  let (f, μ) ← stateAt? b.program (Run.calls b.program 8 8) main 1
  let e ← (b.program.env.partsOf f.decl).find? fun e => (callee? e).isSome
  let c ← e.callSite? f.decl
  let m ← b.program.env.method? c.callee
  let (this, vs, x, _) ← calleeEnds? b.program.env (Run.calls b.program 8 8) f μ e
  let _ ← Root.object? none vs (.param 0)
  let (r, _) ← (eval b.program.env (Run.calls b.program 8 8) f e).ends μ
  let _ ← (classInvariants b.program.env b.plan.invariants "Account").head?
  return decide (c.kind = .method ∧ b.plan.effects.classOf c.callee = .unconstrained ∧
    this = none ∧ x = .ok .void ∧ r = .ok .void ∧
    m.paramTypes[0]? = some (.ofClass "Account"))

theorem evaluated_iff_handed_pay :
    ∃ (b : Build) (f : Frame) (e : Typed.Expr) (c : CallSite) (m : MethodInfo) (μ μ₁ μ' : Machine)
      (vs : List Value) (object : Ref) (clause : BoundClause) (log : List (Obligation × List Ref)),
      build paySource {} = .ok b ∧ e ∈ b.program.env.partsOf f.decl ∧
        e.callSite? f.decl = some c ∧ b.program.env.method? c.callee = some m ∧
        b.plan.effects.classOf c.callee = .unconstrained ∧
        CalleeEnds b.program.env (Run.calls b.program 8 8) f μ e none vs (.ok .void) μ₁ ∧
        HandedAs m none vs object "Account" ∧
        HasInvariant b.program.env b.plan.invariants "Account" clause ∧
        Verified b.program.env (Run.calls b.program 8 7) none vs log μ₁ μ' ∧
        EvaluatedOn log object clause := by
  have h : payCheck = some true := by
    set_option maxRecDepth 20000 in
    rw [payCheck, show paySource = String.ofList _ from rfl, build_ofList]
    decide +kernel
  simp only [payCheck, Option.bind_eq_bind, Option.bind_eq_some_iff] at h
  obtain ⟨b, hb, main, _, ⟨f, μ⟩, _, e, he, c, hc, m, hm, ⟨this, vs, x, μ₁⟩, hcallee, object, hobject,
    ⟨r, μ'⟩, hr, ⟨owner, clause⟩, hinv, h⟩ := h
  simp only [Option.pure_def, Option.some.injEq, decide_eq_true_eq] at h
  obtain ⟨hk, hu, rfl, rfl, rfl, htype⟩ := h
  have hinv := List.mem_of_head? hinv
  have hcallee := calleeEnds_of_eq hcallee
  have hx : LeadsToChecks e (.ok .void) := by
    cases hcallee with
    | call => exact .returned .void
  have he : e ∈ b.program.env.partsOf f.decl := List.mem_of_find?_eq_some he
  have hhanded : HandedAs m none vs object "Account" :=
    ⟨.param 0 (.ofClass "Account"), .param htype, hobject⟩
  rcases evaluated_iff_handed (ok_of_toOption hb) rfl he hc hk hm hu hcallee hx hr with
    ⟨_, _, hstop⟩ | ⟨log, hv, _, hevaluated⟩
  · cases hstop
  · exact ⟨b, f, e, c, m, μ, μ₁, μ', vs, object, clause, log, ok_of_toOption hb, he, hc, hm, hu,
      hcallee, hhanded, ⟨owner, hinv⟩, hv,
      (hevaluated object clause).mpr ⟨"Account", hhanded, owner, hinv⟩⟩

/-- A method of a superclass that declares nothing runs on an object of a class with an invariant
over the inherited field. -/
def savingsSource : String :=
  "class Account {
     int balance;
     void corrupt() { balance = -1; }
   }
   /** @invar | balance >= 0 */ class Savings extends Account { }
   class Main {
     static int main() { Savings s = new Savings(); s.corrupt(); return s.balance; }
   }"

/-- Evaluates what is said of `savingsSource`. -/
def savingsCheck : Option Bool := do
  let b ← (build savingsSource {}).toOption
  let main ← b.program.env.methodNamed? "Main.main"
  let (f, μ) ← stateAt? b.program (Run.calls b.program 8 8) main 1
  let e ← (b.program.env.partsOf f.decl).find? fun e => (callee? e).isSome
  let c ← e.callSite? f.decl
  let (this, vs, x, μ₁) ← calleeEnds? b.program.env (Run.calls b.program 8 8) f μ e
  let object ← this
  let (r, μ') ← (eval b.program.env (Run.calls b.program 8 8) f e).ends μ
  let (_, clause) ← (classInvariants b.program.env b.plan.invariants "Savings").head?
  let (held, _) ← (holds b.program.env (Run.calls b.program 8 7)
    (Frame.start clause.origin (some object) []) clause).ends μ'
  return decide (c.kind = .method ∧ b.plan.effects.classOf c.callee = .unconstrained ∧
    vs = [] ∧ x = .ok .void ∧ r = .ok .void ∧ held = .ok false ∧
    μ₁.heap.className? object = some "Savings" ∧
    b.program.obligationsAt f.decl c.id = [])

/-- The call passes on what the method returned, with an invariant of the object false and not
evaluated. -/
theorem invariant_unevaluated :
    ∃ (b : Build) (f : Frame) (e : Typed.Expr) (c : CallSite) (μ μ₁ μ' μ₂ : Machine)
      (object : Ref) (clause : BoundClause),
      build savingsSource {} = .ok b ∧ e ∈ b.program.env.partsOf f.decl ∧
        e.callSite? f.decl = some c ∧ c.kind = .method ∧
        b.plan.effects.classOf c.callee = .unconstrained ∧
        CalleeEnds b.program.env (Run.calls b.program 8 8) f μ e (some object) [] (.ok .void) μ₁ ∧
        (eval b.program.env (Run.calls b.program 8 8) f e).ends μ = some (.ok .void, μ') ∧
        μ₁.heap.className? object = some "Savings" ∧
        HasInvariant b.program.env b.plan.invariants "Savings" clause ∧
        (holds b.program.env (Run.calls b.program 8 7)
          (Frame.start clause.origin (some object) []) clause).ends μ' = some (.ok false, μ₂) ∧
        ∀ log : List (Obligation × List Ref),
          log.map (·.1) = b.program.obligationsAt f.decl c.id →
            ¬EvaluatedOn log object clause := by
  have h : savingsCheck = some true := by
    set_option maxRecDepth 20000 in
    rw [savingsCheck, show savingsSource = String.ofList _ from rfl, build_ofList]
    decide +kernel
  simp only [savingsCheck, Option.bind_eq_bind, Option.bind_eq_some_iff] at h
  obtain ⟨b, hb, main, _, ⟨f, μ⟩, _, e, he, c, hc, ⟨this, vs, x, μ₁⟩, hcallee, object, rfl,
    ⟨r, μ'⟩, hr, ⟨owner, clause⟩, hinv, ⟨held, μ₂⟩, hheld, h⟩ := h
  simp only [Option.pure_def, Option.some.injEq, decide_eq_true_eq] at h
  obtain ⟨hk, hu, rfl, rfl, rfl, rfl, hclass, hnone⟩ := h
  refine ⟨b, f, e, c, μ, μ₁, μ', μ₂, object, clause, ok_of_toOption hb,
    List.mem_of_find?_eq_some he, hc, hk, hu, calleeEnds_of_eq hcallee, hr, hclass,
    ⟨owner, List.mem_of_head? hinv⟩, hheld, fun log hlog => ?_⟩
  rw [hnone] at hlog
  rw [List.map_eq_nil_iff.mp hlog]
  rintro ⟨_, hmem, _⟩
  exact absurd hmem List.not_mem_nil

end Covenant
