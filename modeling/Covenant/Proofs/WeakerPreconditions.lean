import Covenant.Proofs.CallChecks
import Covenant.Proofs.FittedClauses
import Covenant.Proofs.Inheritance
import Covenant.Proofs.Traceless

/-!
# Preconditions of overriding methods

A method takes over the groups of preconditions of every method that it overrides,
and one group is enough. So what may call the overridden method may call the
overriding one, as far as its groups can be evaluated: they are evaluated in their
order, its own first, and a clause that throws in front of the group that holds ends
the check.
-/

namespace Covenant

open Relation (ReflTransGen)
open Run
open Typed (Context)

/-! ## Clauses in the frames of two members -/

/-- Nothing but `this` and what was passed has a meaning. -/
structure Typed.Context.OfEntry (Γ : Context) : Prop where
  locals : Γ.locals = []
  slots : Γ.slots = []
  result : Γ.result = none

namespace Run

variable {env : Env} {c : Calls} {f g : Frame}

/-- Two frames have one object and were passed the same. -/
structure SamePassed (f g : Frame) : Prop where
  this : f.this = g.this
  args : f.args = g.args

theorem callMethod_caller {caller caller' : DeclId} {site : SiteId}
    (h : c.recheck caller site = c.recheck caller' site) (method : DeclId) (this : Option Ref)
    (args : List Value) :
    callMethod env c caller site method this args =
      callMethod env c caller' site method this args := by
  simp only [callMethod, h]

theorem construct_caller {caller caller' : DeclId} {site : SiteId}
    (h : c.recheck caller site = c.recheck caller' site) (className : String) (ctor : DeclId)
    (args : List Value) :
    construct env c caller site className ctor args =
      construct env c caller' site className ctor args := by
  simp only [construct, h]

section

open Typed (Expr)

variable {Γ : Context}

mutual

/-- An expression that reads nothing but `this` and what was passed has the same value in frames that
agree on these, if the same is checked behind its calls. -/
theorem eval_passed (hΓ : Γ.OfEntry) (h : SamePassed f g) : ∀ e : Expr, e.Fits env Γ →
    (∀ i ∈ e.sites, c.recheck f.decl i = c.recheck g.decl i) → eval env c f e = eval env c g e
  | .int .., _, _ | .bool .., _, _ | .null .., _, _ | .staticField .., _, _ | .old .., _, _
  | .spread .., _, _ => by
    rw [eval, eval]
  | .this .., _, _ => by
    rw [eval, eval, h.this]
  | .param .., _, _ => by
    rw [eval, eval, h.args]
  | .var .., he, _ => absurd he (by simp [Expr.Fits, hΓ.locals])
  | .result .., he, _ => absurd he (by simp [Expr.Fits, hΓ.result])
  | .slot .., he, _ => absurd he (by simp [Expr.Fits, hΓ.slots])
  | .field _ _ o _, he, hs | .length _ o, he, hs | .unary _ _ o, he, hs => by
    rw [eval, eval, eval_passed hΓ h o he.1 hs]
  | .index _ _ a i, he, hs => by
    rw [eval, eval, eval_passed hΓ h a he.1.1 fun j hj => hs j (List.mem_append_left _ hj),
      eval_passed hΓ h i he.2.1 fun j hj => hs j (List.mem_append_right _ hj)]
  | .binary _ op l r, he, hs => by
    have hl := eval_passed hΓ h l he.1.1 fun j hj => hs j (List.mem_append_left _ hj)
    have hr := eval_passed hΓ h r he.1.2 fun j hj => hs j (List.mem_append_right _ hj)
    cases op <;> simp only [eval, hl, hr]
  | .call _ _ i receiver m _ args, he, hs => by
    have hi := hs i (List.mem_append_right _ List.mem_cons_self)
    rw [eval, eval,
      evalReceiver_passed hΓ h receiver he.1.1 fun j hj => hs j (List.mem_append_left _ hj),
      evalAll_passed hΓ h args he.1.2 fun j hj =>
        hs j (List.mem_append_right _ (List.mem_cons_of_mem _ hj))]
    simp only [callMethod_caller hi]
  | .new _ i _ _ args, he, hs => by
    have hi := hs i List.mem_cons_self
    rw [eval, eval, evalAll_passed hΓ h args he.1 fun j hj => hs j (List.mem_cons_of_mem _ hj)]
    simp only [construct_caller hi]
  | .newArray _ _ len, he, hs => by
    rw [eval, eval, eval_passed hΓ h len he.1.1 hs]

theorem evalReceiver_passed (hΓ : Γ.OfEntry) (h : SamePassed f g) : ∀ e : Option Expr, Expr.receiverFits env Γ e →
    (∀ i ∈ Expr.sitesOpt e, c.recheck f.decl i = c.recheck g.decl i) →
    evalReceiver env c f e = evalReceiver env c g e
  | none, _, _ => rfl
  | some e, he, hs => by
    rw [evalReceiver, evalReceiver, eval_passed hΓ h e he hs]

theorem evalAll_passed (hΓ : Γ.OfEntry) (h : SamePassed f g) : ∀ es : List Expr, Expr.argsFit env Γ es →
    (∀ i ∈ Expr.sitesAll es, c.recheck f.decl i = c.recheck g.decl i) →
    evalAll env c f es = evalAll env c g es
  | [], _, _ => rfl
  | e :: es, he, hs => by
    rw [evalAll, evalAll, eval_passed hΓ h e he.1 fun j hj => hs j (List.mem_append_left _ hj),
      evalAll_passed hΓ h es he.2 fun j hj => hs j (List.mem_append_right _ hj)]

end

end

/-! ## Clauses one after another -/

/-- What a computation yields, if it completes. -/
def answer? {α : Type} (x : Run α) (μ : Machine) : Option α :=
  match x.ends μ with
  | some (.ok a, _) => some a
  | _ => none

theorem answer?_eq_some {α : Type} {x : Run α} {μ : Machine} {a : α} :
    x.answer? μ = some a ↔ ∃ μ', x.ends μ = some (.ok a, μ') := by
  rw [answer?]
  split
  · next b μ' h => simp [h]
  · next h =>
      refine ⟨nofun, ?_⟩
      rintro ⟨μ', hends⟩
      exact absurd hends (h a μ')

/-- The evaluation of one of some clauses, which has a value, leads from a machine to another. -/
def Evaluates (env : Env) (c : Calls) (f : Frame) (clauses : List BoundClause) (μ ν : Machine) :
    Prop :=
  ∃ x ∈ clauses, ∃ v, (holds env c f x).ends μ = some (.ok v, ν)

/-- Some clauses say on a machine what they say after evaluations of them from there on. -/
def Undisturbed (env : Env) (c : Calls) (f : Frame) (clauses : List BoundClause) (μ : Machine) :
    Prop :=
  ∀ ν, ReflTransGen (Evaluates env c f clauses) μ ν → ∀ x ∈ clauses,
    (holds env c f x).answer? ν = (holds env c f x).answer? μ

variable {μ μ' ν : Machine} {clauses group : List BoundClause} {groups : List (List BoundClause)}

theorem eq_of_quiet (h : ∀ x ∈ clauses, QuietAt (holds env c f x) μ)
    (hν : ReflTransGen (Evaluates env c f clauses) μ ν) : ν = μ := by
  induction hν with
  | refl => rfl
  | tail _ hstep ih =>
      obtain ⟨x, hx, v, hends⟩ := hstep
      exact h x hx (ih ▸ hends)

/-- Clauses that leave the machine alone do not disturb each other. -/
theorem Undisturbed.of_quiet (h : ∀ x ∈ clauses, QuietAt (holds env c f x) μ) :
    Undisturbed env c f clauses μ := fun _ hν _ _ => by rw [eq_of_quiet h hν]

/-- A check of groups comes to a clause on a machine: the clauses of its group in front of it were
true, and in each group before that a clause was false. -/
inductive ComesTo (env : Env) (c : Calls) (f : Frame) :
    Machine → List (List BoundClause) → Machine → BoundClause → Prop
  | head {μ : Machine} {x : BoundClause} {xs : List BoundClause}
      {groups : List (List BoundClause)} : ComesTo env c f μ ((x :: xs) :: groups) μ x
  | next {μ μ' ν : Machine} {x y : BoundClause} {xs : List BoundClause}
      {groups : List (List BoundClause)} (hx : (holds env c f x).ends μ = some (.ok true, μ'))
      (hy : ComesTo env c f μ' (xs :: groups) ν y) : ComesTo env c f μ ((x :: xs) :: groups) ν y
  | skip {μ μ' ν : Machine} {x y : BoundClause} {xs : List BoundClause}
      {groups : List (List BoundClause)} (hx : (holds env c f x).ends μ = some (.ok false, μ'))
      (hy : ComesTo env c f μ' groups ν y) : ComesTo env c f μ ((x :: xs) :: groups) ν y

theorem ComesTo.steps {x : BoundClause} (h : ComesTo env c f μ groups ν x) :
    x ∈ groups.flatten ∧ ((∀ g ∈ groups, ∀ y ∈ g, y ∈ clauses) →
      ReflTransGen (Evaluates env c f clauses) μ ν) := by
  induction h with
  | head => exact ⟨by simp, fun _ => .refl⟩
  | next hx _ ih =>
      refine ⟨by simpa using Or.inr (by simpa using ih.1), fun hsub => ?_⟩
      have hgroup := hsub _ List.mem_cons_self
      refine .head ⟨_, hgroup _ List.mem_cons_self, _, hx⟩ (ih.2 (List.forall_mem_cons.mpr ⟨?_, ?_⟩))
      · exact fun y hy => hgroup y (List.mem_cons_of_mem _ hy)
      · exact fun g hg => hsub g (List.mem_cons_of_mem _ hg)
  | skip hx _ ih =>
      refine ⟨by simpa using Or.inr (Or.inr (by simpa using ih.1)), fun hsub => ?_⟩
      refine .head ⟨_, hsub _ List.mem_cons_self _ List.mem_cons_self, _, hx⟩ (ih.2 ?_)
      exact fun g hg => hsub g (List.mem_cons_of_mem _ hg)

/-- Whether all clauses to which a check of groups comes have values there. -/
def Valued (env : Env) (c : Calls) (f : Frame) (μ : Machine) (groups : List (List BoundClause)) :
    Prop :=
  ∀ ⦃ν x⦄, ComesTo env c f μ groups ν x → ∃ v, (holds env c f x).answer? ν = some v

/-- Clauses that leave the machine alone and have values there have them wherever a check comes to
them. -/
theorem Valued.of_quiet (h : ∀ x ∈ groups.flatten, QuietAt (holds env c f x) μ)
    (hvalues : ∀ x ∈ groups.flatten, ∃ v, (holds env c f x).answer? μ = some v) :
    Valued env c f μ groups := by
  intro ν x hx
  obtain ⟨hin, hsteps⟩ := hx.steps
  rw [eq_of_quiet h (hsteps fun g hg y hy => List.mem_flatten.mpr ⟨g, hg, hy⟩)]
  exact hvalues x hin

/-- What is known of a group that was gone through: all its clauses were true, or it was left behind
at one that was false. -/
theorem firstFalse_ok (hsub : ∀ x ∈ group, x ∈ clauses) {r : Option BoundClause}
    (h : (firstFalse env c f group).ends μ = some (.ok r, μ')) :
    ReflTransGen (Evaluates env c f clauses) μ μ' ∧ match r with
      | none => ∀ x ∈ group, ∃ ν, ReflTransGen (Evaluates env c f clauses) μ ν ∧
          (holds env c f x).answer? ν = some true
      | some x => x ∈ group ∧ ∃ ν, ReflTransGen (Evaluates env c f clauses) μ ν ∧
          (holds env c f x).answer? ν = some false := by
  induction group generalizing μ with
  | nil =>
      cases h
      exact ⟨.refl, fun x hx => absurd hx List.not_mem_nil⟩
  | cons x xs ih =>
      obtain ⟨_, _, hr⟩ | ⟨v, μ₁, hx, hrest⟩ := ends_bind_eq_some.mp h
      · cases hr
      · have hstep : Evaluates env c f clauses μ μ₁ := ⟨x, hsub x List.mem_cons_self, v, hx⟩
        cases v with
        | false =>
            cases hrest
            exact ⟨.single hstep, List.mem_cons_self, μ, .refl, answer?_eq_some.mpr ⟨_, hx⟩⟩
        | true =>
            obtain ⟨hsteps, hsaid⟩ := ih (fun y hy => hsub y (List.mem_cons_of_mem _ hy)) hrest
            refine ⟨.head hstep hsteps, ?_⟩
            cases r with
            | none =>
                refine List.forall_mem_cons.mpr ⟨⟨μ, .refl, answer?_eq_some.mpr ⟨_, hx⟩⟩, ?_⟩
                intro y hy
                obtain ⟨ν, hν, htrue⟩ := hsaid y hy
                exact ⟨ν, .head hstep hν, htrue⟩
            | some y =>
                obtain ⟨hy, ν, hν, hfalse⟩ := hsaid
                exact ⟨List.mem_cons_of_mem _ hy, ν, .head hstep hν, hfalse⟩

/-- If the clauses to which the check comes have values, it gets through a group, and comes to all
clauses of the groups behind to which it comes from there. -/
theorem firstFalse_of_valued (h : Valued env c f μ (group :: groups)) :
    ∃ r μ', (firstFalse env c f group).ends μ = some (.ok r, μ') ∧
      (r ≠ none → Valued env c f μ' groups) := by
  induction group generalizing μ with
  | nil => exact ⟨none, μ, rfl, fun hr => absurd rfl hr⟩
  | cons x xs ih =>
      obtain ⟨v, hv⟩ := h .head
      obtain ⟨μ₁, hx⟩ := answer?_eq_some.mp hv
      rw [firstFalse, ends_bind_ok hx]
      cases v with
      | false => exact ⟨some x, μ₁, rfl, fun _ _ _ hy => h (.skip hx hy)⟩
      | true => exact ih fun _ _ hy => h (.next hx hy)

/-- One group none of whose clauses is ever false is enough, if the clauses to which the check comes
have values. -/
theorem failures_of_valued (h : Valued env c f μ groups)
    (hsub : ∀ g ∈ groups, ∀ x ∈ g, x ∈ clauses) (hgroup : group ∈ groups)
    (htrue : ∀ ν, ReflTransGen (Evaluates env c f clauses) μ ν → ∀ x ∈ group,
      (holds env c f x).answer? ν ≠ some false) :
    ∃ μ', (failures env c f groups).ends μ = some (.ok none, μ') := by
  induction groups generalizing μ with
  | nil => exact absurd hgroup List.not_mem_nil
  | cons first groups ih =>
      obtain ⟨r, μ₁, hends, hrest⟩ := firstFalse_of_valued h
      obtain ⟨hsteps, hsaid⟩ := firstFalse_ok (hsub first List.mem_cons_self) hends
      rw [failures, ends_bind_ok hends]
      cases r with
      | none => exact ⟨μ₁, rfl⟩
      | some x =>
          obtain ⟨hx, ν, hν, hfalse⟩ := hsaid
          have hgroup : group ∈ groups := by
            refine (List.mem_cons.mp hgroup).resolve_left ?_
            rintro rfl
            exact htrue ν hν x hx hfalse
          obtain ⟨μ₂, hends⟩ := ih (hrest nofun) (fun g hg => hsub g (List.mem_cons_of_mem _ hg))
            hgroup fun ν hν => htrue ν (hsteps.trans hν)
          exact ⟨μ₂, by rw [ends_bind_ok hends]; rfl⟩

/-- A check that comes to a clause whose evaluation stops early stops in the same way. -/
theorem failures_of_error {x : BoundClause} (hx : ComesTo env c f μ groups ν x) {u : Unwind}
    (hu : (holds env c f x).ends ν = some (.error u, μ')) :
    (failures env c f groups).ends μ = some (.error u, μ') := by
  induction hx with
  | head => rw [failures, firstFalse, bind_assoc, ends_bind_error hu]
  | next hx _ ih =>
      have hrest := ih hu
      rw [failures] at hrest
      rw [failures, firstFalse, bind_assoc, ends_bind_ok hx]
      exact hrest
  | skip hx _ ih =>
      rw [failures, firstFalse, bind_assoc, ends_bind_ok hx]
      show ((failures env c f _ >>= _ : Run (Option (List BoundClause)))).ends _ = _
      exact ends_bind_error (ih hu)

theorem failures_of_none {x : BoundClause} (hx : ComesTo env c f μ groups ν x)
    (hnone : (holds env c f x).ends ν = none) : (failures env c f groups).ends μ = none := by
  induction hx with
  | head => rw [failures, firstFalse, bind_assoc, ends_bind_none hnone]
  | next hx _ ih =>
      have hrest := ih hnone
      rw [failures] at hrest
      rw [failures, firstFalse, bind_assoc, ends_bind_ok hx]
      exact hrest
  | skip hx _ ih =>
      rw [failures, firstFalse, bind_assoc, ends_bind_ok hx]
      show ((failures env c f _ >>= _ : Run (Option (List BoundClause)))).ends _ = _
      exact ends_bind_none (ih hnone)

/-- A check finds no failed groups only if all clauses of some group were true. -/
theorem exists_true_of_failures (hsub : ∀ g ∈ groups, ∀ x ∈ g, x ∈ clauses)
    (h : (failures env c f groups).ends μ = some (.ok none, μ')) :
    ∃ group ∈ groups, ∀ x ∈ group, ∃ ν, ReflTransGen (Evaluates env c f clauses) μ ν ∧
      (holds env c f x).answer? ν = some true := by
  induction groups generalizing μ with
  | nil => cases h
  | cons first groups ih =>
      obtain ⟨_, _, hr⟩ | ⟨r, μ₁, hfirst, hrest⟩ := ends_bind_eq_some.mp h
      · cases hr
      obtain ⟨hsteps, hsaid⟩ := firstFalse_ok (hsub first List.mem_cons_self) hfirst
      cases r with
      | none => exact ⟨first, List.mem_cons_self, hsaid⟩
      | some x =>
          obtain ⟨_, _, hr⟩ | ⟨r, μ₂, hfailures, hend⟩ := ends_bind_eq_some.mp hrest
          · cases hr
          cases r with
          | some failed => cases hend
          | none =>
              cases hend
              obtain ⟨group, hgroup, hall⟩ :=
                ih (fun g hg => hsub g (List.mem_cons_of_mem _ hg)) hfailures
              refine ⟨group, List.mem_cons_of_mem _ hgroup, fun y hy => ?_⟩
              obtain ⟨ν, hν, htrue⟩ := hall y hy
              exact ⟨ν, hsteps.trans hν, htrue⟩

theorem checkPrecondition_ok : (checkPrecondition env c f groups).ends μ = some (.ok (), μ') ↔
    (failures env c f groups).ends μ = some (.ok none, μ') := by
  rw [checkPrecondition, ends_bind_eq_some]
  constructor
  · rintro (⟨_, _, hr⟩ | ⟨r, μ₁, hfailures, hend⟩)
    · cases hr
    · cases r with
      | none =>
          cases hend
          exact hfailures
      | some failed => cases hend
  · exact fun h => .inr ⟨none, μ', h, rfl⟩

/-- A check that comes to a clause without a value ends as the evaluation of the clause does. -/
theorem checkPrecondition_of_stuck {x : BoundClause} (hx : ComesTo env c f μ groups ν x)
    (hno : (holds env c f x).answer? ν = none) :
    (checkPrecondition env c f groups).ends μ =
      ((holds env c f x).ends ν).map fun (r, μ') => (r.map fun _ => (), μ') := by
  cases hends : (holds env c f x).ends ν with
  | none => exact ends_bind_none (failures_of_none hx hends)
  | some o =>
      obtain ⟨u | v, μ'⟩ := o
      · exact ends_bind_error (failures_of_error hx hends)
      · rw [answer?_eq_some.mpr ⟨μ', hends⟩] at hno
        cases hno

/-- A check one of whose groups is true, and stays so while its clauses are evaluated, passes exactly
if each clause to which it comes has a value. -/
theorem checkPrecondition_of_true (hgroup : group ∈ groups)
    (htrue : ∀ ν, ReflTransGen (Evaluates env c f groups.flatten) μ ν → ∀ x ∈ group,
      (holds env c f x).answer? ν = some true) :
    (∃ μ', (checkPrecondition env c f groups).ends μ = some (.ok (), μ')) ↔
      Valued env c f μ groups := by
  constructor
  · rintro ⟨μ', hpass⟩ ν x hx
    by_contra hno
    have hnone : (holds env c f x).answer? ν = none := by
      simpa [← Option.isSome_iff_exists] using hno
    rw [checkPrecondition_of_stuck hx hnone, Option.map_eq_some_iff] at hpass
    obtain ⟨⟨r, μ₁⟩, hr, heq⟩ := hpass
    cases r with
    | ok v =>
        rw [answer?_eq_some.mpr ⟨_, hr⟩] at hnone
        cases hnone
    | error u => cases heq
  · intro hvalued
    have hsub : ∀ g ∈ groups, ∀ x ∈ g, x ∈ groups.flatten :=
      fun g hg x hx => List.mem_flatten.mpr ⟨g, hg, hx⟩
    obtain ⟨μ', hends⟩ := failures_of_valued hvalued hsub hgroup
      fun ν hν x hx hfalse => by simp [htrue ν hν x hx] at hfalse
    exact ⟨μ', checkPrecondition_ok.mpr hends⟩

end Run

/-! ## What a method takes over -/

namespace Contract

/-- Only methods that are called on objects override others. -/
theorem dynamic_of_ancestor {env : Env} {m : MethodInfo} {a : DeclId} (ha : a ∈ ancestors env m) :
    m.isStatic = false ∧ m.isConstructor = false := by
  rw [ancestors] at ha
  split at ha
  · exact absurd ha List.not_mem_nil
  · next h => exact ⟨by simp_all, by simp_all⟩

section

variable {source : String} {checks : Checks} {b : Build} {id : DeclId} {t : Specification}

/-- A method has a specification, with all groups of preconditions of a method that it overrides. -/
theorem exists_specs_of_ancestor (h : build source checks = .ok b) {d : MethodInfo}
    (hd : b.program.env.method? d.id = some d) (hbase : id ∈ ancestors b.program.env d)
    (ht : b.plan.specs.get? id = some t) (hne : t.preconditions ≠ []) :
    ∃ s, b.plan.specs.get? d.id = some s ∧ ∀ g ∈ t.preconditions, g ∈ s.preconditions := by
  have hn := (methodsKeyed_of_build h).nodup
  obtain ⟨p, m, _, hp, hm, rfl, rfl, _⟩ := specs_of_build h ht
  obtain ⟨hcheck, hplan, _⟩ := analysis_of_build h hp
  have hdecl := Env.declaredBy_of_check (Parse.program_wellFormed hp) hcheck
  obtain rfl := (hdecl.method_cases _ m hm).1
  obtain ⟨hs, hc⟩ := dynamic_of_ancestor hbase
  obtain ⟨m', hm', hmc, hms, hsig, _, hsub⟩ := (hdecl.mem_ancestors hd hs hc).mp hbase
  obtain rfl := Option.some.inj (hm.symm.trans hm')
  have hcovers := (hdecl.fulfils_of_isSubtype
    (bind_signed b.program.env (Clause.ofProgram p) p.siteCount) hm hms hmc hd hs hc
    (MethodInfo.sameSignature_comm m d ▸ hsig) hsub).covers
  obtain ⟨g, hg⟩ := List.exists_mem_of_ne_nil _ hne
  have hnonempty : (specificationOf b.program.env
      (bind b.program.env (Clause.ofProgram p) p.siteCount).decls d).preconditions.isEmpty = false :=
    List.isEmpty_eq_false_iff.mpr (List.ne_nil_of_mem (hcovers.preconditions g hg))
  refine ⟨(scheduleOne (specificationOf b.program.env _ d)).1, ?_, hcovers.preconditions⟩
  rw [hplan]
  change (schedule b.program.env (specifications b.program.env _)).1.get? d.id = _
  rw [get?_schedule_specs, get?_specifications_eq hn, hd, Option.map_some,
    Option.filter_some_pos (by simp [Specification.isEmpty, hnonempty]), Option.map_some]

/-- A precondition reads nothing but the receiver and what was passed, and nothing is checked behind
its calls. -/
theorem passed_of_precondition (h : build source checks = .ok b)
    (ht : b.plan.specs.get? id = some t) {group : List BoundClause} (hg : group ∈ t.preconditions)
    {x : BoundClause} (hx : x ∈ group) :
    (∃ Γ : Context, Γ.OfEntry ∧ x.expr.Fits b.program.env Γ) ∧
      ∀ i ∈ x.expr.sites, ∀ limit n d d',
        (Run.calls b.program limit n).recheck d i = (Run.calls b.program limit n).recheck d' i := by
  obtain ⟨p, m, _, hp, hm, rfl, rfl, _⟩ := specs_of_build h ht
  obtain ⟨hcheck, _, hprogram⟩ := analysis_of_build h hp
  obtain ⟨own, hown, rfl⟩ := List.mem_map.mp (List.mem_filter.mp hg).1
  obtain ⟨_, _, hfrom⟩ := mem_lineage (bind_fromRecords b.program.env _ p.siteCount).own hown
  obtain ⟨r, _, htag, hr⟩ := hfrom.pre x hx
  have hwf := Parse.program_wellFormed hp
  refine ⟨?_, fun i hi limit n d d' => ?_⟩
  · obtain ⟨s, hs, hfits, _⟩ := hr.fits hwf hcheck
    obtain ⟨_, _, rfl⟩ := method_of_scope (by simp [htag]) hs
    exact ⟨_, ⟨rfl, rfl, by rw [htag]; rfl⟩, hfits⟩
  · have hsites : ∀ c ∈ b.program.env.callSites.values, c.id < p.siteCount := fun c hc =>
      Typing.callSites_lt hwf hcheck hc
    have hi : p.siteCount ≤ i := by
      cases hr with
      | mk _ _ he _ hn => exact hn i (he.sites_subset i hi)
    rw [hprogram, Run.recheck_fresh hsites hi limit n d d, ← Run.recheck_fresh hsites hi limit n d' d]

end

end Contract

namespace Run

/-- A precondition says the same at the entries of all members that take it over. -/
theorem holds_passed {source : String} {checks : Checks} {b : Build}
    (h : build source checks = .ok b) {id : DeclId} {t : Specification}
    (ht : b.plan.specs.get? id = some t) {group : List BoundClause} (hg : group ∈ t.preconditions)
    {x : BoundClause} (hx : x ∈ group) {f g : Frame} (hfg : SamePassed f g) (limit n : Nat) :
    holds b.program.env (calls b.program limit n) f x =
      holds b.program.env (calls b.program limit n) g x := by
  obtain ⟨⟨Γ, hΓ, hfits⟩, hsites⟩ := Contract.passed_of_precondition h ht hg hx
  rw [holds, holds, eval_passed hΓ hfg x.expr hfits fun i hi => hsites i hi limit n _ _]

end Run

/-- A method takes over the preconditions of a method that it overrides, and one of their groups is
enough for it, as far as they can be evaluated. If the check of the overridden method passes, and
the clauses of the overriding one do not disturb each other, its check on the same machine passes
exactly if each clause to which it comes has a value, and otherwise ends as the evaluation of a
clause does that has none. -/
theorem precondition_weakened {source : String} {checks : Checks} {b : Build}
    (h : build source checks = .ok b) {d base : MethodInfo}
    (hd : b.program.env.method? d.id = some d)
    (hbase : base.id ∈ Contract.ancestors b.program.env d) {t : Specification}
    (ht : b.plan.specs.get? base.id = some t) {limit n : Nat} {this : Option Ref}
    {args : List Value} {μ μ' : Machine}
    (hpass : (checkPrecondition b.program.env (Run.calls b.program limit n)
      (entryFrame base this args .empty) t.preconditions).ends μ = some (.ok (), μ')) :
    ∃ s, b.plan.specs.get? d.id = some s ∧
      (checks.preconditions = true →
        (b.program.codesAt d.id .entry).head? = some (.precondition s.preconditions)) ∧
      (∀ g ∈ t.preconditions, g ∈ s.preconditions) ∧
      ∀ f, f = entryFrame d this args .empty →
        Undisturbed b.program.env (Run.calls b.program limit n) f s.preconditions.flatten μ →
        ((∃ μ₁, (checkPrecondition b.program.env (Run.calls b.program limit n) f
            s.preconditions).ends μ = some (.ok (), μ₁)) ↔
          Valued b.program.env (Run.calls b.program limit n) f μ s.preconditions) ∧
        ∀ ν x, ComesTo b.program.env (Run.calls b.program limit n) f μ s.preconditions ν x →
          (holds b.program.env (Run.calls b.program limit n) f x).answer? ν = none →
          (checkPrecondition b.program.env (Run.calls b.program limit n) f s.preconditions).ends μ =
            ((holds b.program.env (Run.calls b.program limit n) f x).ends ν).map
              fun (r, μ₁) => (r.map fun _ => (), μ₁) := by
  have hsub : ∀ g ∈ t.preconditions, ∀ x ∈ g, x ∈ t.preconditions.flatten :=
    fun g hg x hx => List.mem_flatten.mpr ⟨g, hg, hx⟩
  obtain ⟨group, hgroup, hsaid⟩ := exists_true_of_failures hsub (checkPrecondition_ok.mp hpass)
  obtain ⟨s, hs, hgroups⟩ := Contract.exists_specs_of_ancestor h hd hbase ht
    (List.ne_nil_of_mem hgroup)
  refine ⟨s, hs, fun hchecks => ?_, hgroups, ?_⟩
  · have hpre : s.preconditions.isEmpty = false :=
      List.isEmpty_eq_false_iff.mpr (List.ne_nil_of_mem (hgroups group hgroup))
    rw [codesAt_of_build h d.id (by simp), hs, Option.elim, memberCodes_entry, hd,
      Option.any_some, (Contract.dynamic_of_ancestor hbase).2]
    simp only [Contract.entryCodes, hchecks, hpre]
    rfl
  rintro f rfl hundisturbed
  refine ⟨checkPrecondition_of_true (hgroups group hgroup) ?_,
    fun ν x hx hno => checkPrecondition_of_stuck hx hno⟩
  have hpassed : SamePassed (entryFrame base this args .empty) (entryFrame d this args .empty) :=
    ⟨rfl, rfl⟩
  have hsame : ∀ g ∈ t.preconditions, ∀ x ∈ g,
      holds b.program.env (Run.calls b.program limit n) (entryFrame base this args .empty) x =
        holds b.program.env (Run.calls b.program limit n) (entryFrame d this args .empty) x :=
    fun g hg x hx => holds_passed h ht hg hx hpassed limit n
  have hsteps : ∀ ν, ReflTransGen (Evaluates b.program.env (Run.calls b.program limit n)
      (entryFrame base this args .empty) t.preconditions.flatten) μ ν →
      ReflTransGen (Evaluates b.program.env (Run.calls b.program limit n)
        (entryFrame d this args .empty) s.preconditions.flatten) μ ν := by
    intro ν hν
    refine hν.lift id ?_
    rintro μ₁ μ₂ ⟨x, hx, v, hends⟩
    obtain ⟨g, hg, hx⟩ := List.mem_flatten.mp hx
    exact ⟨x, List.mem_flatten.mpr ⟨g, hgroups g hg, hx⟩, v, hsame g hg x hx ▸ hends⟩
  intro ν hν x hx
  have hin : x ∈ s.preconditions.flatten := List.mem_flatten.mpr ⟨group, hgroups group hgroup, hx⟩
  obtain ⟨ν₁, hν₁, htrue⟩ := hsaid x hx
  rw [hsame group hgroup x hx, hundisturbed ν₁ (hsteps ν₁ hν₁) x hin] at htrue
  exact (hundisturbed ν hν x hin).trans htrue

/-- An override with a precondition of its own, which does not hold where the inherited one does. -/
def boundedSource : String :=
  "class Base { int low = 2;
     /** @pre | x > low
      * @pre | x < 9 */ int f(int x) { return x; } }
   class Sub extends Base { /** @pre | x == 0 */ int f(int x) { return x; } }
   class M { static int main() { Base b = new Sub(); return b.f(5); } }"

/-- Evaluates what is said of `boundedSource`. -/
def boundedCheck : Option Bool := do
  let b ← (build boundedSource {}).toOption
  let main ← b.program.env.methodNamed? "M.main"
  let d ← b.program.env.methodNamed? "Sub.f"
  let base ← b.program.env.methodNamed? "Base.f"
  let (_, μ) ← stateAt? b.program (Run.calls b.program 8 8) main 1
  let t ← b.plan.specs.get? base.id
  let s ← b.plan.specs.get? d.id
  return decide (b.program.env.method? d.id = some d ∧
    base.id ∈ Contract.ancestors b.program.env d ∧
    (checkPrecondition b.program.env (Run.calls b.program 8 8)
      (entryFrame base (some 0) [.int 5] .empty) t.preconditions).ends μ = some (.ok (), μ) ∧
    s.preconditions.length = 2 ∧
    ∀ x ∈ s.preconditions.flatten, x.expr.callFree = true ∧
      ((holds b.program.env (Run.calls b.program 8 8)
        (entryFrame d (some 0) [.int 5] .empty) x).answer? μ).isSome = true)

theorem precondition_weakened_bounded :
    ∃ (b : Build) (d base : MethodInfo) (t s : Specification) (μ μ' μ₁ : Machine),
      build boundedSource {} = .ok b ∧ b.program.env.method? d.id = some d ∧
        base.id ∈ Contract.ancestors b.program.env d ∧ b.plan.specs.get? base.id = some t ∧
        (checkPrecondition b.program.env (Run.calls b.program 8 8)
          (entryFrame base (some 0) [.int 5] .empty) t.preconditions).ends μ = some (.ok (), μ') ∧
        b.plan.specs.get? d.id = some s ∧ s.preconditions.length = 2 ∧
        (checkPrecondition b.program.env (Run.calls b.program 8 8)
          (entryFrame d (some 0) [.int 5] .empty) s.preconditions).ends μ = some (.ok (), μ₁) := by
  have h : boundedCheck = some true := by
    set_option maxRecDepth 20000 in
    rw [boundedCheck, show boundedSource = String.ofList _ from rfl, build_ofList]
    decide +kernel
  simp only [boundedCheck, Option.bind_eq_bind, Option.bind_eq_some_iff] at h
  obtain ⟨b, hb, main, _, d, _, base, _, ⟨_, μ⟩, _, t, ht, s, hs, h⟩ := h
  simp only [Option.pure_def, Option.some.injEq, decide_eq_true_eq] at h
  obtain ⟨hd, hbase, hpass, hlength, hall⟩ := h
  obtain ⟨s', hs', _, _, hweakened⟩ := precondition_weakened (ok_of_toOption hb) hd hbase ht hpass
  obtain rfl := Option.some.inj (hs.symm.trans hs')
  have hquiet : ∀ x ∈ s.preconditions.flatten, QuietAt (holds b.program.env
      (Run.calls b.program 8 8) (entryFrame d (some 0) [.int 5] .empty) x) μ := fun x hx =>
    (holds_traceless (hall x hx).1).quietAt
  obtain ⟨μ₁, hends⟩ := (hweakened _ rfl (.of_quiet hquiet)).1.mpr
    (.of_quiet hquiet fun x hx => Option.isSome_iff_exists.mp (hall x hx).2)
  exact ⟨b, d, base, t, s, μ, μ, μ₁, ok_of_toOption hb, hd, hbase, ht, hpass, hs, hlength, hends⟩

/-- An override has a precondition that cannot be evaluated where the inherited one holds. -/
def dividingSource : String :=
  "class Base { /** @pre | true */ int f(int x) { return x; } }
   class Sub extends Base { /** @pre | 1 / x > 0 */ int f(int x) { return x; } }
   class M { static int main() { Base b = new Sub(); return b.f(0); } }"

/-- An override has a precondition whose evaluation makes the inherited one false. -/
def bumpingSource : String :=
  "class Base { int n; /** @pre | n == 0 */ int f(int x) { return 0; } }
   class Sub extends Base {
     int bump() { n = n + 1; return n; }
     /** @pre | bump() < 0 */ int f(int x) { return 0; }
   }
   class M { static int main() { Base b = new Sub(); return b.f(0); } }"

/-- On some machine the precondition of `Base.f` passes for an object and an argument, and that of
`Sub.f`, which overrides it, stops early. -/
def Strengthens (source : String) (stops : Unwind → Bool) : Prop :=
  ∃ (b : Build) (d base : MethodInfo) (t s : Specification) (μ μ' μ₁ : Machine) (u : Unwind),
    build source {} = .ok b ∧ b.program.env.method? d.id = some d ∧
      base.id ∈ Contract.ancestors b.program.env d ∧ b.plan.specs.get? base.id = some t ∧
      (checkPrecondition b.program.env (Run.calls b.program 8 8)
        (entryFrame base (some 0) [.int 0] .empty) t.preconditions).ends μ = some (.ok (), μ') ∧
      b.plan.specs.get? d.id = some s ∧
      (checkPrecondition b.program.env (Run.calls b.program 8 8)
        (entryFrame d (some 0) [.int 0] .empty) s.preconditions).ends μ = some (.error u, μ₁) ∧
      stops u = true

theorem strengthens_of_eval {source : String} {stops : Unwind → Bool} (h : (do
      let b ← (build source {}).toOption
      let main ← b.program.env.methodNamed? "M.main"
      let d ← b.program.env.methodNamed? "Sub.f"
      let base ← b.program.env.methodNamed? "Base.f"
      let (_, μ) ← stateAt? b.program (Run.calls b.program 8 8) main 1
      let t ← b.plan.specs.get? base.id
      let s ← b.plan.specs.get? d.id
      let (r, _) ← (checkPrecondition b.program.env (Run.calls b.program 8 8)
        (entryFrame base (some 0) [.int 0] .empty) t.preconditions).ends μ
      let (r₁, _) ← (checkPrecondition b.program.env (Run.calls b.program 8 8)
        (entryFrame d (some 0) [.int 0] .empty) s.preconditions).ends μ
      match r, r₁ with
      | .ok (), .error u => return decide (b.program.env.method? d.id = some d ∧
          base.id ∈ Contract.ancestors b.program.env d ∧ stops u = true)
      | _, _ => none) = some true) : Strengthens source stops := by
  simp only [Option.bind_eq_bind, Option.bind_eq_some_iff] at h
  obtain ⟨b, hb, main, _, d, _, base, _, ⟨_, μ⟩, _, t, ht, s, hs, ⟨r, μ'⟩, hr, ⟨r₁, μ₁⟩, hr₁, h⟩ := h
  cases r with
  | error => cases h
  | ok =>
      cases r₁ with
      | ok => cases h
      | error u =>
          simp only [Option.pure_def, Option.some.injEq, decide_eq_true_eq] at h
          obtain ⟨hd, hbase, hstops⟩ := h
          exact ⟨b, d, base, t, s, μ, μ', μ₁, u, ok_of_toOption hb, hd, hbase, ht, hr, hs, hr₁,
            hstops⟩

/-- The check of an override can throw where the check of what it overrides passes, and a clause that
changes the machine can turn it into a violation. -/
theorem precondition_strengthened :
    Strengthens dividingSource (fun u => u matches .throw _) ∧
      Strengthens bumpingSource (fun u => u matches .violation _) := by
  constructor
  · refine strengthens_of_eval ?_
    set_option maxRecDepth 20000 in
    rw [show dividingSource = String.ofList _ from rfl, build_ofList]
    decide +kernel
  · refine strengthens_of_eval ?_
    set_option maxRecDepth 20000 in
    rw [show bumpingSource = String.ofList _ from rfl, build_ofList]
    decide +kernel

end Covenant
