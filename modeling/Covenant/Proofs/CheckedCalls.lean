import Covenant.Proofs.CallChecks

/-!
# Obligations of calls

What a callee can break is checked behind the call, whether the callee returns or
throws: its obligations are met before the caller goes on with what the call
passes on. The call of a superclass constructor is not checked; the object is not
complete then.
-/

namespace Covenant

open Effect Run

/-- An obligation is met by one of the checks that went well: the same objects were reached, and the
same invariant was evaluated on them. -/
def MetBy (env : Env) (calls : Calls) (this : Option Ref) (args : List Value)
    (log : List (Obligation × List Ref)) (o : Obligation) : Prop :=
  ∃ x ∈ log, x.1.clause = o.clause ∧
    reach env calls x.1.object this args = reach env calls o.object this args

/-- What follows the call of a superclass constructor starts where the constructor ended. -/
theorem ends_runSuper {env : Env} {calls : Calls} {f : Frame} {this : Ref} {className : String}
    {span : Span} {site : SiteId} {ctor : DeclId} {args : List Typed.Expr}
    {rest : List Typed.Stmt} {vs : List Value} {v : Value} {s : Scopes} {μ μ₁ μ₂ : Machine}
    (hargs : (evalAll env calls { f with scopes := s } args).ends μ = some (.ok vs, μ₁))
    (hcallee : (calls.invoke ctor (some this) vs).ends μ₁ = some (.ok v, μ₂)) :
    (runSuper env calls f this className (.superCall span site ctor args :: rest)).ends s μ =
      some ((.ok rest, s), μ₂) := by
  rw [runSuper, RunWith.ends_bind, RunWith.ends_inScope, hargs]
  show ((keep _ >>= fun _ => pure rest : RunWith Scopes _).ends s μ₁) = _
  rw [RunWith.ends_bind, RunWith.ends_keep, hcallee]
  rfl

/-- Behind a call or a creation in a body or a first value, each obligation of the callee is met if
the callee returned, and behind a call also if it threw; a check in front of it that stops early
stops the call. Behind the call of a superclass constructor there is nothing. -/
theorem obligations_met {source : String} {checks : Checks} {b : Build}
    (h : build source checks = .ok b) (hi : checks.invariants = true) {f : Frame} :
    (∀ {e : Typed.Expr} {c : CallSite}, e ∈ b.program.env.partsOf f.decl →
      e.callSite? f.decl = some c → ∀ {limit n : Nat} {μ μ₁ μ' : Machine} {this : Option Ref}
      {vs : List Value} {x r : Except Unwind Value},
      CalleeEnds b.program.env (Run.calls b.program limit (n + 1)) f μ e this vs x μ₁ →
      LeadsToChecks e x →
      (eval b.program.env (Run.calls b.program limit (n + 1)) f e).ends μ = some (r, μ') →
      (∃ u, StoppedBy b.program.env (Run.calls b.program limit n) c.id this vs
          (b.program.obligationsAt f.decl c.id) u μ₁ μ' ∧ r = .error u) ∨
        ∃ log, Verified b.program.env (Run.calls b.program limit n) this vs log μ₁ μ' ∧
          r = passedOn this e x ∧
          ∀ o ∈ (b.plan.effects.obligations.get? c.callee).getD [],
            MetBy b.program.env (Run.calls b.program limit n) this vs log o) ∧
    ∀ {span : Span} {site : SiteId} {ctor : DeclId} {args : List Typed.Expr}
      {rest : List Typed.Stmt},
      b.program.env.body? f.decl = some (.superCall span site ctor args :: rest) →
      b.program.obligationsAt f.decl site = [] := by
  refine ⟨fun {e c} he hc {limit n μ μ₁ μ' this vs x r} hcallee hx hr => ?_,
    fun hb => obligationsAt_super h hi hb⟩
  refine (checked_of_calleeEnds hcallee hx hc hr).imp id ?_
  rintro ⟨log, hlog, hv, hpass⟩
  refine ⟨log, hv, hpass, fun o ho => ?_⟩
  have hkind : c.kind ≠ .super := by
    cases hcallee <;> cases hc <;> exact nofun
  obtain ⟨o', ho', hsame⟩ := Contract.exists_mem_siteObligations hkind ho
  rw [← obligationsAt_of_part h hi he hc, Typed.Expr.caller_of_callSite hc, ← hlog] at ho'
  obtain ⟨y, hy, rfl⟩ := List.mem_map.mp ho'
  obtain ⟨hobject, hclause⟩ := Obligation.same_iff.mp hsame
  exact ⟨y, hy, hclause, reach_same hobject this vs⟩

/-- A method says that it mutates an object that it is handed. -/
def depositSource : String :=
  "/** @invar | balance >= 0 */ class Account { int balance; }
   class Bank {
     /** @mutates | a.balance */ static void deposit(Account a) { a.balance = a.balance + 1; }
   }
   class Main {
     static int main() { Account a = new Account(); Bank.deposit(a); return a.balance; }
   }"

/-- Evaluates what is said of `depositSource`. -/
def depositCheck : Option Bool := do
  let b ← (build depositSource {}).toOption
  let main ← b.program.env.methodNamed? "Main.main"
  let (f, μ) ← stateAt? b.program (Run.calls b.program 8 8) main 1
  let e ← (b.program.env.partsOf f.decl).find? fun e => (callee? e).isSome
  let c ← e.callSite? f.decl
  let (this, _, x, _) ← calleeEnds? b.program.env (Run.calls b.program 8 8) f μ e
  let (r, _) ← (eval b.program.env (Run.calls b.program 8 8) f e).ends μ
  let o ← ((b.plan.effects.obligations.get? c.callee).getD []).head?
  return decide (c.kind = .method ∧ this = none ∧ x = .ok .void ∧ r = .ok .void ∧
    o.object.root = .param 0)

theorem obligations_met_deposit :
    ∃ (b : Build) (f : Frame) (e : Typed.Expr) (c : CallSite) (o : Obligation)
      (μ μ₁ μ' : Machine) (vs : List Value) (log : List (Obligation × List Ref)),
      build depositSource {} = .ok b ∧ e ∈ b.program.env.partsOf f.decl ∧
        e.callSite? f.decl = some c ∧
        CalleeEnds b.program.env (Run.calls b.program 8 8) f μ e none vs (.ok .void) μ₁ ∧
        (eval b.program.env (Run.calls b.program 8 8) f e).ends μ = some (.ok .void, μ') ∧
        o ∈ (b.plan.effects.obligations.get? c.callee).getD [] ∧ o.object.root = .param 0 ∧
        Verified b.program.env (Run.calls b.program 8 7) none vs log μ₁ μ' ∧
        MetBy b.program.env (Run.calls b.program 8 7) none vs log o := by
  have h : depositCheck = some true := by
    set_option maxRecDepth 20000 in
    rw [depositCheck, show depositSource = String.ofList _ from rfl, build_ofList]
    decide +kernel
  simp only [depositCheck, Option.bind_eq_bind, Option.bind_eq_some_iff] at h
  obtain ⟨b, hb, main, _, ⟨f, μ⟩, _, e, he, c, hc, ⟨this, vs, x, μ₁⟩, hcallee, ⟨r, μ'⟩, hr, o, ho,
    h⟩ := h
  simp only [Option.pure_def, Option.some.injEq, decide_eq_true_eq] at h
  obtain ⟨hk, rfl, rfl, rfl, hroot⟩ := h
  have hcallee := calleeEnds_of_eq hcallee
  have hx : LeadsToChecks e (.ok .void) := by
    cases hcallee with
    | call => exact .returned .void
  have he : e ∈ b.program.env.partsOf f.decl := List.mem_of_find?_eq_some he
  have ho : o ∈ (b.plan.effects.obligations.get? c.callee).getD [] := List.mem_of_head? ho
  rcases (obligations_met (ok_of_toOption hb) rfl).1 he hc hcallee hx hr with
    ⟨_, _, hstop⟩ | ⟨log, hv, _, hmet⟩
  · cases hstop
  · exact ⟨b, f, e, c, o, μ, μ₁, μ', vs, log, ok_of_toOption hb, he, hc, hcallee, hr, ho, hroot, hv,
      hmet o ho⟩

/-- A superclass constructor breaks an invariant of an object that it is handed. -/
def chainSource : String :=
  "/** @invar | balance >= 0 */ class Account { int balance; }
   class Base { Base(Account a) { a.balance = -1; } }
   class Sub extends Base { Sub(Account a) { super(a); a.balance = 0; } }
   class Main {
     static int main() { Account a = new Account(); new Sub(a); return a.balance; }
   }"

/-- A machine with an account, and with an object on which the constructor runs. -/
def chainMachine : Machine :=
  ⟨#[.inst "Account" (.ofList [("balance", .int 0)]), .inst "Sub" .empty], .empty, 1⟩

/-- The frame of the constructor. -/
def chainFrame (m : MethodInfo) : Frame :=
  { Frame.start m.id (some 1) [.ref 0] with scopes := paramScopes m [.ref 0] }

/-- Evaluates what is said of `chainSource`. -/
def chainCheck : Option Bool := do
  let b ← (build chainSource {}).toOption
  let sub ← b.program.env.methodNamed? "Sub.Sub"
  let calls := Run.calls b.program 8 8
  let body ← b.program.env.body? sub.id
  match body with
  | .superCall _ _ ctor args :: _ =>
    let (r, μ₁) ← (calls.invoke ctor (some 1) [.ref 0]).ends chainMachine
    let o ← ((b.plan.effects.obligations.get? ctor).getD []).head?
    return decide (r = .ok .void ∧ o.object.root = .param 0 ∧
      (evalAll b.program.env calls (chainFrame sub) args).ends chainMachine =
        some (.ok [.ref 0], chainMachine) ∧
      (reach b.program.env calls o.object (some 1) [.ref 0]).ends μ₁ = some (.ok [0], μ₁) ∧
      (holds b.program.env calls (Frame.start o.clause.origin (some 0) []) o.clause).ends μ₁ =
        some (.ok false, μ₁))
  | _ => none

/-- A method breaks two invariants of an object that it is handed; the evaluation of the first one
throws. -/
def spoilSource : String :=
  "/** @invar | 1 / n >= 0
    * @invar | k >= 0 */ class A { int n = 1; int k; }
   class Bank { static void spoil(A a) { a.n = 0; a.k = -1; } }
   class Main {
     static int main() {
       A a = new A();
       try { Bank.spoil(a); } catch (ArithmeticException e) { }
       return a.k;
     }
   }"

/-- Evaluates what is said of `spoilSource`. -/
def spoilCheck : Option Bool := do
  let b ← (build spoilSource {}).toOption
  let main ← b.program.env.methodNamed? "Main.main"
  let (f, μ) ← stateAt? b.program (Run.calls b.program 8 8) main 1
  let e ← (b.program.env.partsOf f.decl).find? fun e => (callee? e).isSome
  let c ← e.callSite? f.decl
  let (this, vs, x, μ₁) ← calleeEnds? b.program.env (Run.calls b.program 8 8) f μ e
  let (r, _) ← (eval b.program.env (Run.calls b.program 8 8) f e).ends μ
  let o ← ((b.plan.effects.obligations.get? c.callee).getD [])[1]?
  return decide (this = none ∧ x = .ok .void ∧ (∃ thrown < 9, r = .error (.throw thrown)) ∧
    o.object.root = .param 0 ∧
    (reach b.program.env (Run.calls b.program 8 7) o.object none vs).ends μ₁ =
      some (.ok [0], μ₁) ∧
    (holds b.program.env (Run.calls b.program 8 7)
      (Frame.start o.clause.origin (some 0) []) o.clause).ends μ₁ = some (.ok false, μ₁))

/-- Not every obligation is met: the caller goes on with an invariant false behind the call of a
superclass constructor, and behind a call whose first check threw. -/
theorem obligations_unmet :
    (∃ (b : Build) (f : Frame) (span : Span) (site : SiteId) (ctor : DeclId)
      (args : List Typed.Expr) (rest : List Typed.Stmt) (o : Obligation) (this object : Ref)
      (vs : List Value) (μ μ₁ : Machine),
      build chainSource {} = .ok b ∧
        b.program.env.body? f.decl = some (.superCall span site ctor args :: rest) ∧
        o ∈ (b.plan.effects.obligations.get? ctor).getD [] ∧ o.object.root = .param 0 ∧
        ((Run.calls b.program 8 8).invoke ctor (some this) vs).ends μ = some (.ok .void, μ₁) ∧
        (runSuper b.program.env (Run.calls b.program 8 8) f this "Sub"
          (.superCall span site ctor args :: rest)).ends f.scopes μ =
            some ((.ok rest, f.scopes), μ₁) ∧
        (reach b.program.env (Run.calls b.program 8 8) o.object (some this) vs).ends μ₁ =
          some (.ok [object], μ₁) ∧
        (holds b.program.env (Run.calls b.program 8 8)
          (Frame.start o.clause.origin (some object) []) o.clause).ends μ₁ =
            some (.ok false, μ₁)) ∧
    ∃ (b : Build) (f : Frame) (e : Typed.Expr) (c : CallSite) (o : Obligation) (object thrown : Ref)
      (vs : List Value) (μ μ₁ μ' : Machine),
      build spoilSource {} = .ok b ∧ e ∈ b.program.env.partsOf f.decl ∧
        e.callSite? f.decl = some c ∧
        CalleeEnds b.program.env (Run.calls b.program 8 8) f μ e none vs (.ok .void) μ₁ ∧
        (eval b.program.env (Run.calls b.program 8 8) f e).ends μ =
          some (.error (.throw thrown), μ') ∧
        o ∈ (b.plan.effects.obligations.get? c.callee).getD [] ∧ o.object.root = .param 0 ∧
        (reach b.program.env (Run.calls b.program 8 7) o.object none vs).ends μ₁ =
          some (.ok [object], μ₁) ∧
        (holds b.program.env (Run.calls b.program 8 7)
          (Frame.start o.clause.origin (some object) []) o.clause).ends μ₁ =
            some (.ok false, μ₁) := by
  constructor
  · have h : chainCheck = some true := by
      set_option maxRecDepth 20000 in
      rw [chainCheck, show chainSource = String.ofList _ from rfl, build_ofList]
      decide +kernel
    simp only [chainCheck, Option.bind_eq_bind, Option.bind_eq_some_iff] at h
    obtain ⟨b, hb, sub, _, body, hbody, h⟩ := h
    split at h
    · simp only [Option.bind_eq_some_iff] at h
      obtain ⟨⟨r, μ₁⟩, hcallee, o, ho, h⟩ := h
      simp only [Option.pure_def, Option.some.injEq, decide_eq_true_eq] at h
      obtain ⟨rfl, hroot, hargs, hreach, hheld⟩ := h
      exact ⟨b, chainFrame sub, _, _, _, _, _, o, 1, 0, [.ref 0], chainMachine, μ₁,
        ok_of_toOption hb, hbody, List.mem_of_head? ho, hroot, hcallee, ends_runSuper hargs hcallee, hreach, hheld⟩
    · cases h
  · have h : spoilCheck = some true := by
      set_option maxRecDepth 20000 in
      rw [spoilCheck, show spoilSource = String.ofList _ from rfl, build_ofList]
      decide +kernel
    simp only [spoilCheck, Option.bind_eq_bind, Option.bind_eq_some_iff] at h
    obtain ⟨b, hb, main, _, ⟨f, μ⟩, _, e, he, c, hc, ⟨this, vs, x, μ₁⟩, hcallee, ⟨r, μ'⟩, hr, o, ho,
      h⟩ := h
    simp only [Option.pure_def, Option.some.injEq, decide_eq_true_eq] at h
    obtain ⟨rfl, rfl, ⟨thrown, _, rfl⟩, hroot, hreach, hheld⟩ := h
    exact ⟨b, f, e, c, o, 0, thrown, vs, μ, μ₁, μ', ok_of_toOption hb, List.mem_of_find?_eq_some he,
      hc, calleeEnds_of_eq hcallee, hr, List.mem_of_getElem? ho, hroot, hreach, hheld⟩

end Covenant
