import Covenant.Proofs.CallChecks
import Covenant.Proofs.ElaboratedParts
import Covenant.Proofs.Transparent

/-!
# Invariants of new objects

Behind a creation all invariants of the class are checked on the new object, so they
were all true when they were checked. They are true together where evaluation goes on
if nothing writes in between: clauses that only read do not, but the way to other
objects, which the constructor may have broken, can lead through accessors that do.
-/

namespace Covenant

namespace Run

variable {env : Env} {calls : Calls} {this : Option Ref} {args : List Value}
  {μ μ' : Machine}

/-! ## Clauses that only read -/

/-- The value of an expression without calls and creations does not depend on what calls do. -/
theorem eval_callFree {c d : Calls} {f : Frame} :
    ∀ e : Typed.Expr, e.callFree = true → eval env c f e = eval env d f e
  | .int .., _ | .bool .., _ | .null .., _ | .this .., _ | .var .., _ | .param .., _
  | .staticField .., _ | .result .., _ | .slot .., _ | .old .., _ | .spread .., _ => by
    rw [eval, eval]
  | .field _ _ e _, h | .length _ e, h | .unary _ _ e, h => by
    rw [eval, eval, eval_callFree e h]
  | .index _ _ l r, h => by
    rw [Typed.Expr.callFree, Bool.and_eq_true] at h
    rw [eval, eval, eval_callFree l h.1, eval_callFree r h.2]
  | .binary _ op l r, h => by
    rw [Typed.Expr.callFree, Bool.and_eq_true] at h
    cases op <;> simp only [eval, eval_callFree (c := c) (d := d) l h.1,
      eval_callFree (c := c) (d := d) r h.2]
  | .call .., h | .new .., h | .newArray .., h => absurd h (by simp [Typed.Expr.callFree])

theorem holds_callFree {c d : Calls} {f : Frame} {clause : BoundClause}
    (h : clause.expr.callFree = true) : holds env c f clause = holds env d f clause := by
  rw [holds, holds, eval_callFree (d := d) clause.expr h]

/-- A clause that only reads is true on all objects where it was started. -/
theorem HoldsOn.callFree {clause : BoundClause} (h : clause.expr.callFree = true) {rs : List Ref}
    (hr : HoldsOn env calls clause rs μ μ') :
    μ' = μ ∧ ∀ r ∈ rs, (holds env calls (Frame.start clause.origin (some r) []) clause).ends μ =
      some (.ok true, μ) := by
  induction rs with
  | nil => exact ⟨Eq.symm hr, fun r hr => absurd hr List.not_mem_nil⟩
  | cons r rs ih =>
      obtain ⟨μ₁, hhead, hrest⟩ := hr
      obtain rfl := holds_traceless h hhead
      obtain ⟨rfl, hall⟩ := ih hrest
      exact ⟨rfl, List.forall_mem_cons.mpr ⟨hhead, hall⟩⟩

/-! ## Ways that write nothing -/

/-- The accessors of a path leave the machine alone, whatever object they are called on. -/
def QuietAccessors (env : Env) (calls : Calls) (steps : List Effect.Step) (μ : Machine) : Prop :=
  ∀ name, Effect.Step.accessor name ∈ steps → ∀ r, QuietAt (callAccessor env calls r name) μ

theorem stepFrom_quiet {s : Effect.Step} (h : QuietAccessors env calls [s] μ) (r : Ref) :
    QuietAt (stepFrom env calls r s) μ := by
  cases s with
  | field name =>
      exact (Traceless.bind (getField_reads r name).traceless fun _ => .pure _).quietAt
  | accessor name =>
      exact .bind (h name (List.mem_singleton.mpr rfl) r) fun _ => (Traceless.pure _).quietAt
  | elements =>
      refine (Traceless.bind get_traceless fun μ => ?_).quietAt
      split
      · exact .pure _
      · exact .pure _

theorem stepFromAll_quiet {s : Effect.Step} (h : QuietAccessors env calls [s] μ)
    (vs : List Value) : QuietAt (stepFromAll env calls s vs) μ := by
  induction vs with
  | nil => exact (Traceless.pure _).quietAt
  | cons v vs ih =>
      cases v with
      | ref r =>
          exact .bind (stepFrom_quiet h r) fun _ => .bind ih fun _ => (Traceless.pure _).quietAt
      | int | bool | null | void => exact ih

theorem walk_quiet {steps : List Effect.Step} (h : QuietAccessors env calls steps μ)
    (vs : List Value) : QuietAt (walk env calls steps vs) μ := by
  induction steps generalizing vs with
  | nil => exact (Traceless.pure _).quietAt
  | cons s steps ih =>
      have hhead : QuietAccessors env calls [s] μ := fun name hname =>
        h name (List.mem_singleton.mp hname ▸ List.mem_cons_self)
      exact .bind (stepFromAll_quiet hhead vs) fun vs =>
        ih (fun name hname => h name (List.mem_cons_of_mem _ hname)) vs

theorem reach_quiet {p : Effect.Path} (h : QuietAccessors env calls p.trail μ) :
    QuietAt (reach env calls p this args) μ := by
  intro rs μ' hrs
  rw [reach] at hrs
  rcases ends_bind_eq_some.mp hrs with ⟨u, _, hu⟩ | ⟨⟨vs, steps⟩, μ₁, hstart, hwalk⟩
  · cases hu
  · obtain rfl := startOf_traceless p this args hstart
    have hsteps : QuietAccessors env calls steps μ₁ := fun name hname =>
      h name (startOf_subset hstart hname)
    exact (walk_quiet hsteps vs).bind (fun _ => (Traceless.pure _).quietAt) hwalk

/-- Checks that went well, of clauses that only read, along quiet ways: all of them went well on one
machine. -/
theorem Verified.quiet {log : List (Obligation × List Ref)}
    (h : Verified env calls this args log μ μ')
    (hfree : ∀ x ∈ log, x.1.clause.expr.callFree = true)
    (hquiet : ∀ x ∈ log, QuietAccessors env calls x.1.object.trail μ) :
    μ' = μ ∧ ∀ x ∈ log, ∀ r ∈ x.2,
      (holds env calls (Frame.start x.1.clause.origin (some r) []) x.1.clause).ends μ =
        some (.ok true, μ) := by
  induction log with
  | nil => exact ⟨Eq.symm h, fun x hx => absurd hx List.not_mem_nil⟩
  | cons x log ih =>
      obtain ⟨μ₁, μ₂, hreach, hholds, hrest⟩ := h
      obtain rfl := reach_quiet (hquiet x List.mem_cons_self) hreach
      obtain ⟨rfl, hhead⟩ := hholds.callFree (hfree x List.mem_cons_self)
      obtain ⟨rfl, htail⟩ := ih hrest (fun y hy => hfree y (List.mem_cons_of_mem _ hy))
        fun y hy => hquiet y (List.mem_cons_of_mem _ hy)
      exact ⟨rfl, List.forall_mem_cons.mpr ⟨hhead, htail⟩⟩

end Run

open Effect Run

/-- What is checked behind calls contains no calls if no clause of the build does. -/
theorem WovenProgram.obligationsAt_callFree {p : WovenProgram}
    (h : ∀ c ∈ p.checks, c.code.CallFree) (caller : DeclId) (site : SiteId) :
    ∀ o ∈ p.obligationsAt caller site, o.clause.expr.callFree = true := by
  intro o ho
  obtain ⟨code, hcode, ho⟩ := List.mem_flatMap.mp ho
  have hfree := codesAt_callFree h caller (.afterCall site) code hcode
  cases code with
  | reverify os => exact hfree o ho
  | _ => exact absurd ho List.not_mem_nil

/-- Every invariant of the class is among the checks behind a creation, on the new object. -/
theorem Contract.mem_siteObligations_new {env : Env} {plan : ContractPlan} {c : CallSite}
    (hk : c.kind = .new) {m : MethodInfo} (hm : env.method? c.callee = some m) {owner : String}
    {clause : BoundClause} (h : (owner, clause) ∈ classInvariants env plan.invariants m.owner) :
    ⟨.this m.owner, owner, clause⟩ ∈ siteObligations env plan c := by
  rw [siteObligations, hk]
  refine subset_foldl_addNew ?_
  rw [establish, hm]
  exact List.mem_map.mpr ⟨_, h, rfl⟩

/-- A creation that yields a value yields the object that the constructor ran on, and every invariant
of its class was evaluated on this object, with the result true. If the clauses of the program
contain no calls and creations, and the accessors on the ways to the objects that are checked
behind the creation leave the machine alone, all these invariants are true where evaluation goes
on. -/
theorem invariants_established {source : String} {checks : Checks} {b : Build}
    (h : build source checks = .ok b) (hi : checks.invariants = true) {f : Frame} {span : Span}
    {site : SiteId} {className : String} {ctor : DeclId} {args : List Typed.Expr}
    (he : .new span site className ctor args ∈ b.program.env.partsOf f.decl) {limit n : Nat}
    {μ μ' : Machine} {v : Value}
    (hr : (eval b.program.env (Run.calls b.program limit (n + 1)) f
      (.new span site className ctor args)).ends μ = some (.ok v, μ')) :
    ∃ object vs x μ₁ log,
      CalleeEnds b.program.env (Run.calls b.program limit (n + 1)) f μ
        (.new span site className ctor args) (some object) vs (.ok x) μ₁ ∧
      v = .ref object ∧
      Verified b.program.env (Run.calls b.program limit n) (some object) vs log μ₁ μ' ∧
      (∀ clause, HasInvariant b.program.env b.plan.invariants className clause →
        EvaluatedOn log object clause) ∧
      ∀ {p : Surface.Program}, Parse.program source = .ok p →
        Contract.CallFree
          (Contract.bind b.program.env (Clause.ofProgram p) p.siteCount).clauses →
        (∀ o ∈ b.program.obligationsAt f.decl site,
          QuietAccessors b.program.env (Run.calls b.program limit n) o.object.trail μ₁) →
        ∀ clause, HasInvariant b.program.env b.plan.invariants className clause → ∀ calls,
          (holds b.program.env calls (Frame.start clause.origin (some object) []) clause).ends μ' =
            some (.ok true, μ') := by
  obtain ⟨p, hp, hcheck⟩ := checkProgram_of_build h
  obtain ⟨m, hm, rfl, _⟩ := Typing.constructor_of_part hp hcheck he
  have hsite : (Typed.Expr.new span site m.owner ctor args).callSite? f.decl =
      some ⟨site, f.decl, ctor, .new, none, args, span⟩ := rfl
  have hplaced := obligationsAt_of_part h hi he hsite
  have hcallee := hr
  rw [eval, ends_bind_eq_some] at hcallee
  obtain ⟨_, _, hu⟩ | ⟨vs, μ₂, hargs, hcallee⟩ := hcallee
  · cases hu
  obtain ⟨_, _, hu⟩ | ⟨object, μ₃, hobject, hcallee⟩ := ends_bind_eq_some.mp hcallee
  · cases hu
  obtain ⟨_, _, hu⟩ | ⟨x, μ₁, hcallee, _⟩ := ends_bind_eq_some.mp hcallee
  · cases hu
  have hcallee : CalleeEnds b.program.env (Run.calls b.program limit (n + 1)) f μ
      (.new span site m.owner ctor args) (some object) vs (.ok x) μ₁ := .new hargs hobject hcallee
  rcases checked_of_calleeEnds hcallee (.made x) hsite hr with
    ⟨_, _, hstop⟩ | ⟨log, hlog, hv, hpass⟩
  · cases hstop
  rw [hplaced] at hlog
  have hevaluated : ∀ clause, HasInvariant b.program.env b.plan.invariants m.owner clause →
      EvaluatedOn log object clause := by
    rintro clause ⟨owner, hinv⟩
    have ho : ⟨.this m.owner, owner, clause⟩ ∈ Contract.siteObligations b.program.env b.plan
        ⟨site, f.decl, ctor, .new, none, args, span⟩ :=
      Contract.mem_siteObligations_new rfl hm hinv
    obtain ⟨y, hy, hyo⟩ := List.mem_map.mp (hlog ▸ ho)
    obtain ⟨μ₄, μ₅, hreach⟩ := hv.reached hy
    rw [hyo] at hreach
    obtain ⟨hobjects, _⟩ := Prod.mk.inj (Option.some.inj hreach)
    exact ⟨y, hy, congrArg Obligation.clause hyo,
      Except.ok.inj hobjects ▸ List.mem_singleton.mpr rfl⟩
  refine ⟨object, vs, x, μ₁, log, hcallee, Except.ok.inj hpass, hv, hevaluated, ?_⟩
  intro p hp hfree hquiet clause hclause calls
  have hlogfree : ∀ y ∈ log, y.1.clause.expr.callFree = true := fun y hy =>
    b.program.obligationsAt_callFree (checks_callFree h hp hfree) f.decl site y.1
      (hplaced ▸ hlog ▸ List.mem_map_of_mem hy)
  obtain ⟨rfl, hall⟩ := hv.quiet hlogfree fun y hy =>
    hquiet y.1 (hplaced ▸ hlog ▸ List.mem_map_of_mem hy)
  obtain ⟨y, hy, rfl, hobject⟩ := hevaluated clause hclause
  rw [holds_callFree (d := Run.calls b.program limit n) (hlogfree y hy)]
  exact hall y hy object hobject

/-- A constructor that says that it mutates an object in a field, in a class that inherits an
invariant. -/
def engineSource : String :=
  "/** @invar | v > 0 */ class E {
     int v = 1;
     /** @mutates | this.v */ void set(int n) { v = n; }
   }
   /** @invar | k > 0 */ class B { int k; }
   /** @invar | e != null */ class C extends B {
     E e;
     /** @mutates_properties | this.e */ C(int n) { k = n; e = new E(); e.set(3); }
   }
   class M { static int f() { C c = new C(4); return c.k; } }"

/-- Evaluates what is said of `engineSource`. -/
def engineCheck : Option Bool := do
  let b ← (build engineSource {}).toOption
  let p ← (Parse.program engineSource).toOption
  let main ← b.program.env.methodNamed? "M.f"
  let (f, μ) ← stateAt? b.program (Run.calls b.program 8 8) main 0
  let e ← (b.program.env.partsOf f.decl).head?
  match e with
  | .new _ site className _ _ =>
    let (r, _) ← (eval b.program.env (Run.calls b.program 8 8) f e).ends μ
    let (owner, _) ← (classInvariants b.program.env b.plan.invariants "C").head?
    return decide (className = "C" ∧ owner = "B" ∧
      (∃ object < 9, r = .ok (.ref object)) ∧
      (b.program.obligationsAt f.decl site).length = 3 ∧
      (∀ s ∈ (b.program.obligationsAt f.decl site).flatMap (·.object.trail),
        s = .field "e") ∧
      ∀ c ∈ (Contract.bind b.program.env (Clause.ofProgram p) p.siteCount).clauses,
        c.expr.callFree = true)
  | _ => none

theorem invariants_established_engine :
    ∃ (b : Build) (f : Frame) (span : Span) (site : SiteId) (ctor : DeclId)
      (args : List Typed.Expr) (μ μ' : Machine) (object : Ref) (clause : BoundClause),
      build engineSource {} = .ok b ∧
        .new span site "C" ctor args ∈ b.program.env.partsOf f.decl ∧
        (eval b.program.env (Run.calls b.program 8 8) f (.new span site "C" ctor args)).ends μ =
          some (.ok (.ref object), μ') ∧
        (b.program.obligationsAt f.decl site).length = 3 ∧
        ("B", clause) ∈ classInvariants b.program.env b.plan.invariants "C" ∧
        (holds b.program.env (Run.calls b.program 8 8)
          (Frame.start clause.origin (some object) []) clause).ends μ' = some (.ok true, μ') := by
  have h : engineCheck = some true := by
    set_option maxRecDepth 20000 in
    rw [engineCheck, show engineSource = String.ofList _ from rfl, build_ofList, Parse.program_ofList]
    decide +kernel
  simp only [engineCheck, Option.bind_eq_bind, Option.bind_eq_some_iff] at h
  obtain ⟨b, hb, p, hp, main, _, ⟨f, μ⟩, _, e, he, h⟩ := h
  split at h
  · simp only [Option.bind_eq_some_iff] at h
    obtain ⟨⟨r, μ'⟩, hr, ⟨owner, clause⟩, hinv, h⟩ := h
    simp only [Option.pure_def, Option.some.injEq, decide_eq_true_eq] at h
    obtain ⟨rfl, rfl, ⟨object, _, rfl⟩, hlength, htrails, hfree⟩ := h
    have hinv := List.mem_of_head? hinv
    have he := List.mem_of_head? he
    obtain ⟨object', _, _, _, _, _, hv, _, _, hall⟩ :=
      invariants_established (ok_of_toOption hb) rfl he hr
    cases hv
    refine ⟨b, f, _, _, _, _, μ, μ', object, clause, ok_of_toOption hb, he, hr, hlength, hinv,
      hall (ok_of_toOption hp) hfree ?_ clause ⟨_, hinv⟩ _⟩
    intro o ho name hname
    cases htrails _ (List.mem_flatMap.mpr ⟨o, ho, hname⟩)
  · cases h

/-- A constructor leads to an object through an accessor that counts how often it is called. -/
def meterSource : String :=
  "/** @invar | v > 0 */ class I {
     int v = 1;
     /** @mutates | this.v */ void set(int n) { v = n; }
   }
   /** @invar | k < 2 */ class O {
     int k;
     I i;
     I get() { k = k + 1; return i; }
     /** @mutates_properties | this */ O() { i = new I(); get().set(3); }
   }
   class M { static boolean f() { O o = new O(); return o.k < 2; } }"

/-- Evaluates what is said of `meterSource`. -/
def meterCheck : Option Bool := do
  let b ← (build meterSource {}).toOption
  let p ← (Parse.program meterSource).toOption
  let main ← b.program.env.methodNamed? "M.f"
  let (f, μ) ← stateAt? b.program (Run.calls b.program 8 8) main 0
  let e ← (b.program.env.partsOf f.decl).head?
  match e with
  | .new _ _ className _ _ =>
    let (r, μ') ← (eval b.program.env (Run.calls b.program 8 8) f e).ends μ
    let (_, clause) ← (classInvariants b.program.env b.plan.invariants "O").head?
    return decide (className = "O" ∧ r = .ok (.ref 0) ∧
      (holds b.program.env (Run.calls b.program 8 8)
        (Frame.start clause.origin (some 0) []) clause).ends μ' = some (.ok false, μ') ∧
      ∀ c ∈ (Contract.bind b.program.env (Clause.ofProgram p) p.siteCount).clauses,
        c.expr.callFree = true)
  | _ => none

/-- The creation yields an object with a false invariant: it was true when it was checked, and the
check of another object went through the accessor. -/
theorem invariant_lost :
    ∃ (b : Build) (p : Surface.Program) (f : Frame) (span : Span) (site : SiteId) (ctor : DeclId)
      (args : List Typed.Expr) (μ μ' : Machine) (object : Ref) (clause : BoundClause),
      build meterSource {} = .ok b ∧ Parse.program meterSource = .ok p ∧
        Contract.CallFree
          (Contract.bind b.program.env (Clause.ofProgram p) p.siteCount).clauses ∧
        .new span site "O" ctor args ∈ b.program.env.partsOf f.decl ∧
        (eval b.program.env (Run.calls b.program 8 8) f (.new span site "O" ctor args)).ends μ =
          some (.ok (.ref object), μ') ∧
        HasInvariant b.program.env b.plan.invariants "O" clause ∧
        (holds b.program.env (Run.calls b.program 8 8)
          (Frame.start clause.origin (some object) []) clause).ends μ' = some (.ok false, μ') := by
  have h : meterCheck = some true := by
    set_option maxRecDepth 20000 in
    rw [meterCheck, show meterSource = String.ofList _ from rfl, build_ofList, Parse.program_ofList]
    decide +kernel
  simp only [meterCheck, Option.bind_eq_bind, Option.bind_eq_some_iff] at h
  obtain ⟨b, hb, p, hp, main, _, ⟨f, μ⟩, _, e, he, h⟩ := h
  split at h
  · simp only [Option.bind_eq_some_iff] at h
    obtain ⟨⟨r, μ'⟩, hr, ⟨owner, clause⟩, hinv, h⟩ := h
    simp only [Option.pure_def, Option.some.injEq, decide_eq_true_eq] at h
    obtain ⟨rfl, rfl, hheld, hfree⟩ := h
    exact ⟨b, p, f, _, _, _, _, μ, μ', 0, clause, ok_of_toOption hb, ok_of_toOption hp, hfree,
      List.mem_of_head? he, hr, ⟨_, List.mem_of_head? hinv⟩, hheld⟩
  · cases h

end Covenant
