import Covenant.Proofs.ElaboratedParts
import Covenant.Proofs.MoreTargets
import Covenant.Proofs.UndeclaredCalls

/-!
# Calls that run another method than they name

What is checked behind a call is what the method can break that the call names,
whatever method the class of the object picks. So an override that takes over the
effects of the method is covered, as far as its body makes no licensed calls. One
that declares effects of its own, or whose licensed calls lead elsewhere, is
covered only where the two closed sets agree.
-/

namespace Covenant

open Effect

/-! ## Which method runs -/

/-- A call of a method runs a method, whatever class the object is of. -/
theorem Env.DeclaredBy.method_of_dispatch {env : Env} {p : Surface.Program}
    (h : env.DeclaredBy p) {id : DeclId} {m : MethodInfo} (hm : env.method? id = some m)
    (hc : m.isConstructor = false) (r : String) :
    ∃ d, env.method? (env.dispatch r id) = some d ∧ d.id = env.dispatch r id ∧
      d.isConstructor = false := by
  have hself : ∃ d, env.method? id = some d ∧ d.id = id ∧ d.isConstructor = false :=
    ⟨m, hm, h.method_id hm, hc⟩
  simp only [Env.dispatch, hm]
  split
  · exact hself
  · cases hfind : (((env.classChain r).flatMap (·.methods)).filterMap env.method?).find?
        fun x => x.hasBody && !x.isStatic && x.sameSignature m with
    | none => exact hself
    | some d =>
        obtain ⟨id', hid, hget⟩ := List.mem_filterMap.mp (List.mem_of_find?_eq_some hfind)
        obtain ⟨info, hin, hid⟩ := List.mem_flatMap.mp hid
        obtain ⟨hi, _⟩ := h.isSubtype_of_mem_chain hin
        obtain ⟨d', hd', _, hctor, _⟩ := h.method_of_type hi hid
        obtain rfl := Option.some.inj (hget.symm.trans hd')
        obtain rfl := h.method_id hget
        exact ⟨d, hget, rfl, hctor⟩

/-! ## What is checked behind a call -/

namespace Effect

theorem firsts_subset_append {α : Type} {eq : α → α → Bool} {xs ys : List α} {x : α}
    (h : x ∈ firsts eq xs) : x ∈ firsts eq (xs ++ ys) := by
  rw [firsts, List.foldl_append]
  exact subset_foldl_addNew h

theorem listed_firsts {os : List Obligation} {object : Path} {clause : BoundClause} :
    Listed (firsts Obligation.same os) object clause ↔ Listed os object clause := by
  constructor
  · rintro ⟨o, ho, hlisted⟩
    exact ⟨o, mem_firsts ho, hlisted⟩
  · rintro ⟨o, ho, hsame, rfl⟩
    obtain ⟨o', ho', hsame'⟩ := exists_mem_firsts Obligation.same_refl ho
    obtain ⟨hobject, hclause⟩ := Obligation.same_iff.mp hsame'
    exact ⟨o', ho', Path.same_trans hobject hsame, hclause⟩

end Effect

namespace Build

variable (b : Build)

/-- What a member is known to mutate, with the calls that it licenses. -/
def closed (id : DeclId) : List Path :=
  closure b.program.env b.plan.specs (classifyAll b.program.env b.plan.specs) id

/-- What a call of a member is taken to break. Of a declared one it is the invariants that read
something of its closed set, along the closed set; of one that declares nothing, the invariants of
the objects that it is handed. -/
def Breaks (id : DeclId) (object : Path) (clause : BoundClause) : Prop :=
  match b.plan.effects.classOf id with
  | .declared => touches (b.closed id) object clause = true ∧
      ∃ q ∈ b.closed id, ∃ p ∈ q.prefixes, p.same object = true ∧
        ∃ c, p.type = .ofClass c ∧ HasInvariant b.program.env b.plan.invariants c clause
  | .pureAccessor => False
  | .unconstrained => ∃ m, b.program.env.method? id = some m ∧ ∃ c place, Handed m place c ∧
      place.same object = true ∧ HasInvariant b.program.env b.plan.invariants c clause

/-- A call leads on to what its callee mutates: a target of the caller is a part of the way to the
receiver. -/
def Licensed (site : CallSite) : Prop :=
  ∃ m s receiver, b.program.env.method? site.caller = some m ∧
    b.plan.specs.get? site.caller = some s ∧ licensedReceiver? m s site = some receiver

variable {b}
variable {source : String} {checks : Checks} (h : build source checks = .ok b) {id id' : DeclId}

include h

/-- The obligations of a member are what a call of it is taken to break. -/
theorem listed_iff_breaks {object : Path} {clause : BoundClause} :
    Listed ((b.plan.effects.obligations.get? id).getD []) object clause ↔
      b.Breaks id object clause := by
  rw [Breaks, effects_of_build h, obligations_eq (methodsKeyed_of_build h).nodup]
  cases (EffectAnalysis.ofSpecs b.program.env b.plan.specs b.plan.invariants).classOf id with
  | declared => exact listed_declared
  | pureAccessor => exact ⟨fun ⟨_, ho, _⟩ => absurd ho List.not_mem_nil, False.elim⟩
  | unconstrained =>
      show Listed (((b.program.env.method? id).map _).getD []) object clause ↔ _
      cases b.program.env.method? id with
      | none =>
          refine ⟨fun ⟨_, ho, _⟩ => absurd ho List.not_mem_nil, ?_⟩
          rintro ⟨_, ⟨⟩, _⟩
      | some m =>
          constructor
          · rintro ⟨o, ho, hsame, rfl⟩
            obtain ⟨c, hhanded, hinv⟩ := mem_handedObligations.mp ho
            exact ⟨m, rfl, c, o.object, hhanded, hsame, _, hinv⟩
          · rintro ⟨_, ⟨⟩, c, place, hhanded, hsame, owner, hinv⟩
            exact ⟨⟨place, owner, clause⟩, mem_handedObligations.mpr ⟨c, hhanded, hinv⟩, hsame, rfl⟩

/-- Behind a call of a method stands what the method is taken to break. -/
theorem listed_behind_call (hi : checks.invariants = true) {decl : DeclId} {e : Typed.Expr}
    (he : e ∈ b.program.env.partsOf decl) {c : CallSite} (hc : e.callSite? decl = some c)
    (hk : c.kind = .method) {object : Path} {clause : BoundClause} :
    Listed (b.program.obligationsAt decl c.id) object clause ↔
      b.Breaks c.callee object clause := by
  rw [← Typed.Expr.caller_of_callSite hc, obligationsAt_of_part h hi he hc,
    Contract.siteObligations, hk, listed_firsts, listed_iff_breaks h]

/-! ## Closed sets of two members -/

omit h in
theorem declared_of_mem_closed {q : Path} (hq : q ∈ b.closed id) :
    classOf (classifyAll b.program.env b.plan.specs) id = .declared := by
  obtain ⟨_, _, _, _, hd, _⟩ := closureFrom_cases hq
  exact hd

/-- What mutates less breaks less. -/
theorem Breaks.of_closed_subset (hd : b.plan.effects.classOf id = .declared)
    (hsub : ∀ q ∈ b.closed id, q ∈ b.closed id') {object : Path} {clause : BoundClause}
    (hb : b.Breaks id object clause) : b.Breaks id' object clause := by
  rw [Breaks, hd] at hb
  obtain ⟨htouches, q, hq, hprefix⟩ := hb
  have hd' : b.plan.effects.classOf id' = .declared := by
    rw [effects_of_build h]
    exact declared_of_mem_closed (hsub q hq)
  rw [Breaks, hd']
  exact ⟨touches_mono (fun q hq => ⟨q, hsub q hq, Path.same_refl q⟩) htouches, q, hsub q hq, hprefix⟩

omit h in
/-- A method whose body makes no licensed calls mutates the targets of its clauses. -/
theorem mem_closed_of_unlicensed {m : MethodInfo} {s : Specification}
    (hm : b.program.env.method? id = some m) (hs : b.plan.specs.get? id = some s)
    (hc : m.isConstructor = false) (hcalls : ∀ site ∈ b.program.env.callSitesOf id, ¬b.Licensed site)
    {q : Path} (hq : q ∈ b.closed id) : q ∈ firsts Path.same (paths s.effects.mutates) := by
  have hd := declared_of_mem_closed hq
  rw [closed, Effect.closure, closureFrom, hs, hm, hd] at hq
  simp only [bne_self_eq_false, List.contains_nil, Bool.or_self, Bool.false_eq_true, if_false] at hq
  rw [List.flatMap_eq_nil_iff.mpr ?_, List.append_nil, ownTargets, hc] at hq
  · exact hq
  · intro site hsite
    split
    · next receiver hr =>
        have hcaller : site.caller = id := by simpa using (List.mem_filter.mp hsite).2
        exact absurd ⟨m, s, receiver, hcaller ▸ hm, hcaller ▸ hs, hr⟩ (hcalls site hsite)
    · rfl

omit h in
/-- The targets of a declared method are in its closed set. -/
theorem mem_closed_of_target {m : MethodInfo} {s : Specification}
    (hm : b.program.env.method? id = some m) (hs : b.plan.specs.get? id = some s)
    (hc : m.isConstructor = false) (hd : classOf (classifyAll b.program.env b.plan.specs) id = .declared)
    {q : Path} (hq : q ∈ firsts Path.same (paths s.effects.mutates)) : q ∈ b.closed id := by
  rw [closed, Effect.closure, closureFrom, hs, hm, hd]
  simp only [bne_self_eq_false, List.contains_nil, Bool.or_self, Bool.false_eq_true, if_false]
  refine firsts_subset_append ?_
  rw [ownTargets, hc]
  exact hq

omit h in
/-- A method that has the effects of another one, and whose body makes no licensed calls, mutates
nothing that the other one does not. -/
theorem closed_subset_of_effects {d m : MethodInfo} (hd : b.program.env.method? id = some d)
    (hdc : d.isConstructor = false) (hm : b.program.env.method? id' = some m)
    (hmc : m.isConstructor = false)
    (heffects : declaredEffects? b.plan.specs id = declaredEffects? b.plan.specs id')
    (hcalls : ∀ site ∈ b.program.env.callSitesOf id, ¬b.Licensed site) {q : Path}
    (hq : q ∈ b.closed id) : q ∈ b.closed id' := by
  obtain ⟨s, hs, hown⟩ := exists_of_declared (declared_of_mem_closed hq)
  rw [hown, eq_comm] at heffects
  obtain ⟨s', hs', hsame⟩ := Option.map_eq_some_iff.mp (Option.filter_eq_some_iff.mp heffects).1
  have hdeclared : classOf (classifyAll b.program.env b.plan.specs) id' = .declared := by
    rw [classOf, get?_classifyAll hm, classify, heffects]
    rfl
  refine mem_closed_of_target hm hs' hmc hdeclared ?_
  rw [hsame]
  exact mem_closed_of_unlicensed hd hs hdc hcalls hq

end Build

/-- Behind a call of a method stands what that method is taken to break, whatever method runs. All
that the declared method which runs is taken to break is checked too if its closed set lies in that
of the method that is called. This is so if it has the effects of that method and its body makes no
licensed calls. -/
theorem dispatched_obligations {source : String} {checks : Checks} {b : Build}
    (h : build source checks = .ok b) (hi : checks.invariants = true) {decl : DeclId}
    {e : Typed.Expr} (he : e ∈ b.program.env.partsOf decl) {c : CallSite}
    (hc : e.callSite? decl = some c) (hk : c.kind = .method) (r : String)
    (hd : b.plan.effects.classOf (b.program.env.dispatch r c.callee) = .declared) (object : Path)
    (clause : BoundClause) :
    (Listed ((b.plan.effects.obligations.get? (b.program.env.dispatch r c.callee)).getD []) object
        clause ↔ b.Breaks (b.program.env.dispatch r c.callee) object clause) ∧
    (Listed (b.program.obligationsAt decl c.id) object clause ↔
      b.Breaks c.callee object clause) ∧
    ((∀ q ∈ b.closed (b.program.env.dispatch r c.callee), q ∈ b.closed c.callee) ∨
        declaredEffects? b.plan.specs (b.program.env.dispatch r c.callee) =
            declaredEffects? b.plan.specs c.callee ∧
          (∀ site ∈ b.program.env.callSitesOf (b.program.env.dispatch r c.callee),
            ¬b.Licensed site) →
      Listed ((b.plan.effects.obligations.get? (b.program.env.dispatch r c.callee)).getD []) object
        clause →
      Listed (b.program.obligationsAt decl c.id) object clause) := by
  refine ⟨Build.listed_iff_breaks h, Build.listed_behind_call h hi he hc hk, fun hcovered hlisted => ?_⟩
  obtain ⟨p, hp, hcheck⟩ := checkProgram_of_build h
  have hmethods : ∃ m d, b.program.env.method? c.callee = some m ∧ m.isConstructor = false ∧
      b.program.env.method? (b.program.env.dispatch r c.callee) = some d ∧
      d.isConstructor = false := by
    cases e with
    | call =>
        obtain ⟨m, hm, _, hmc, _⟩ := Typing.method_of_part hp hcheck he
        cases hc
        obtain ⟨d, hd, _, hdc⟩ :=
          (Env.declaredBy_of_check hp hcheck).method_of_dispatch hm hmc r
        exact ⟨m, d, hm, hmc, hd, hdc⟩
    | new =>
        cases hc
        cases hk
    | _ => cases hc
  obtain ⟨m, d, hm, hmc, hdget, hdc⟩ := hmethods
  have hsub : ∀ q ∈ b.closed (b.program.env.dispatch r c.callee), q ∈ b.closed c.callee :=
    hcovered.elim id fun ⟨heffects, hcalls⟩ _ hq =>
      Build.closed_subset_of_effects hdget hdc hm hmc heffects hcalls hq
  exact (Build.listed_behind_call h hi he hc hk).mpr
    (((Build.listed_iff_breaks h).mp hlisted).of_closed_subset h hd hsub)

/-- An override takes over the effects of the method that the call names. -/
def bonusSource : String :=
  "/** @invar | balance >= 0 */ class Account {
     int balance;
     /** @mutates | this.balance */ void set(int n) { balance = n; }
   }
   class Savings extends Account { void set(int n) { balance = n + 1; } }
   class M { static int main() { Account a = new Savings(); a.set(3); return a.balance; } }"

/-- Evaluates what is said of `bonusSource`. -/
def bonusCheck : Option Bool := do
  let b ← (build bonusSource {}).toOption
  let main ← b.program.env.methodNamed? "M.main"
  let e ← (b.program.env.partsOf main.id).find? fun e => (callee? e).isSome
  let c ← e.callSite? main.id
  let (_, clause) ← (classInvariants b.program.env b.plan.invariants "Account").head?
  let run := b.program.env.dispatch "Savings" c.callee
  return decide (c.kind = .method ∧ run ≠ c.callee ∧
    b.plan.effects.classOf run = .declared ∧
    declaredEffects? b.plan.specs run = declaredEffects? b.plan.specs c.callee ∧
    b.program.env.callSitesOf run = [] ∧
    Listed ((b.plan.effects.obligations.get? run).getD []) (.this "Account") clause)

theorem dispatched_obligations_bonus :
    ∃ (b : Build) (decl : DeclId) (e : Typed.Expr) (c : CallSite) (clause : BoundClause),
      build bonusSource {} = .ok b ∧ e ∈ b.program.env.partsOf decl ∧
        e.callSite? decl = some c ∧ c.kind = .method ∧
        b.program.env.dispatch "Savings" c.callee ≠ c.callee ∧
        b.plan.effects.classOf (b.program.env.dispatch "Savings" c.callee) = .declared ∧
        Listed ((b.plan.effects.obligations.get? (b.program.env.dispatch "Savings" c.callee)).getD [])
          (.this "Account") clause ∧
        Listed (b.program.obligationsAt decl c.id) (.this "Account") clause := by
  have h : bonusCheck = some true := by
    set_option maxRecDepth 20000 in
    rw [bonusCheck, show bonusSource = String.ofList _ from rfl, build_ofList]
    decide +kernel
  simp only [bonusCheck, Option.bind_eq_bind, Option.bind_eq_some_iff] at h
  obtain ⟨b, hb, main, _, e, he, c, hc, ⟨_, clause⟩, _, h⟩ := h
  simp only [Option.pure_def, Option.some.injEq, decide_eq_true_eq] at h
  obtain ⟨hk, hne, hd, heffects, hcalls, hlisted⟩ := h
  have he : e ∈ b.program.env.partsOf main.id := List.mem_of_find?_eq_some he
  refine ⟨b, main.id, e, c, clause, ok_of_toOption hb, he, hc, hk, hne, hd, hlisted, ?_⟩
  refine (dispatched_obligations (ok_of_toOption hb) rfl he hc hk "Savings" hd _ clause).2.2
    (.inr ⟨heffects, ?_⟩) hlisted
  rw [hcalls]
  exact List.forall_mem_nil _

/-- An override has effects of its own. -/
def ownEffectsSource : String :=
  "/** @invar | b >= 0 */ class Base {
     int a; int b;
     /** @mutates | this.a */ void set(int n) { a = n; }
   }
   class Sub extends Base { /** @mutates | this.b */ void set(int n) { b = n; } }
   class M { static int main() { Base x = new Sub(); x.set(-1); return x.b; } }"

/-- An override makes a licensed call that the method which it overrides does not make. -/
def ownCallSource : String :=
  "class Cell { int value; /** @mutates | this.value */ void set(int n) { value = n; } }
   /** @invar | cell.value >= 0 */ class Base {
     Cell cell = new Cell();
     /** @mutates_properties | this.cell */ void set(int n) { }
   }
   class Sub extends Base { void set(int n) { cell.set(n); } }
   class M { static int main() { Base x = new Sub(); x.set(-1); return x.cell.value; } }"

/-- A program calls a method on an object whose class may be `Sub`, and something that the declared
method of this class is taken to break is not checked behind the call. -/
def Uncovered (source : String) : Prop :=
  ∃ (b : Build) (decl : DeclId) (span : Span) (type : Ty) (site : SiteId) (receiver : Typed.Expr)
      (method : DeclId) (name : String) (args : List Typed.Expr) (k : String) (o : Obligation),
    build source {} = .ok b ∧
      .call span type site (some receiver) method name args ∈ b.program.env.partsOf decl ∧
      receiver.type = .ofClass k ∧ b.program.env.isSubtype "Sub" k = true ∧
      b.plan.effects.classOf (b.program.env.dispatch "Sub" method) = .declared ∧
      o ∈ (b.plan.effects.obligations.get? (b.program.env.dispatch "Sub" method)).getD [] ∧
      ¬Listed (b.program.obligationsAt decl site) o.object o.clause

theorem uncovered_of_eval {source : String} (h : (do
      let b ← (build source {}).toOption
      let main ← b.program.env.methodNamed? "M.main"
      let e ← (b.program.env.partsOf main.id).find? fun e => (callee? e).isSome
      match e with
      | .call _ _ site (some receiver) method _ _ =>
        let k ← receiver.type.className?
        let run := b.program.env.dispatch "Sub" method
        return decide (receiver.type = .ofClass k ∧ b.program.env.isSubtype "Sub" k = true ∧
          b.plan.effects.classOf run = .declared ∧
          ∃ o ∈ (b.plan.effects.obligations.get? run).getD [],
            ¬Listed (b.program.obligationsAt main.id site) o.object o.clause)
      | _ => none) = some true) : Uncovered source := by
  simp only [Option.bind_eq_bind, Option.bind_eq_some_iff] at h
  obtain ⟨b, hb, main, _, e, he, h⟩ := h
  split at h
  · simp only [Option.bind_eq_some_iff] at h
    obtain ⟨k, _, h⟩ := h
    simp only [Option.pure_def, Option.some.injEq, decide_eq_true_eq] at h
    obtain ⟨hk, hsub, hd, o, ho, hnot⟩ := h
    exact ⟨b, main.id, _, _, _, _, _, _, _, k, o, ok_of_toOption hb,
      List.mem_of_find?_eq_some he, hk, hsub, hd, ho, hnot⟩
  · cases h

/-- What an override can break goes unchecked if it has effects of its own, and if it makes a call
that the effects which it takes over license. -/
theorem override_uncovered : Uncovered ownEffectsSource ∧ Uncovered ownCallSource := by
  constructor
  · refine uncovered_of_eval ?_
    set_option maxRecDepth 20000 in
    rw [show ownEffectsSource = String.ofList _ from rfl, build_ofList]
    decide +kernel
  · refine uncovered_of_eval ?_
    set_option maxRecDepth 20000 in
    rw [show ownCallSource = String.ofList _ from rfl, build_ofList]
    decide +kernel

end Covenant
