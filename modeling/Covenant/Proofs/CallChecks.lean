import Covenant.Proofs.CallSites
import Covenant.Proofs.Covered

/-!
# Checks behind a call

Which invariants are checked behind a call is read off the call itself, and so is
what happens there: each obligation leads to objects, and its invariant is
evaluated on them. If nothing stops early, the call passes on how its callee
ended.
-/

namespace Covenant

/-- The invariants that are checked behind a call at a site of a declaration. -/
def WovenProgram.obligationsAt (p : WovenProgram) (caller : DeclId) (site : SiteId) :
    List Obligation :=
  (p.codesAt caller (.afterCall site)).flatMap CheckCode.obligations

/-! ## Where checks are placed -/

namespace Contract

variable {env : Env} {plan : ContractPlan}

theorem obligations_siteCodes (c : CallSite) :
    ((siteCodes env plan c).map (·.code)).flatMap CheckCode.obligations =
      siteObligations env plan c := by
  rw [siteCodes]
  split
  · next h => exact h.symm
  · exact List.append_nil _

theorem filter_siteCodes (c : CallSite) (decl : DeclId) (site : SiteId) :
    (siteCodes env plan c).filter (fun x => x.decl == decl && x.point == .afterCall site) =
      if c.caller = decl ∧ c.id = site then siteCodes env plan c else [] := by
  rw [siteCodes]
  split
  · simp
  · by_cases h : c.caller = decl ∧ c.id = site
    · simp [h]
    · rw [if_neg h, List.filter_cons, if_neg (by simpa using h), List.filter_nil]

/-- Among calls with different numbers, what stands behind a call belongs to this call. -/
theorem filter_flatMap_siteCodes {cs : List CallSite} (hn : (cs.map (·.id)).Nodup) {c : CallSite}
    (hc : c ∈ cs) :
    (cs.flatMap (siteCodes env plan)).filter
        (fun x => x.decl == c.caller && x.point == .afterCall c.id) = siteCodes env plan c := by
  induction cs with
  | nil => exact absurd hc List.not_mem_nil
  | cons d cs ih =>
      obtain ⟨hd, hn⟩ := List.nodup_cons.mp hn
      rw [List.flatMap_cons, List.filter_append, filter_siteCodes]
      rcases List.mem_cons.mp hc with rfl | hc
      · have hrest : (cs.flatMap (siteCodes env plan)).filter
            (fun x => x.decl == c.caller && x.point == .afterCall c.id) = [] := by
          rw [List.filter_flatMap]
          refine List.flatMap_eq_nil_iff.mpr fun d hmem => ?_
          rw [filter_siteCodes, if_neg]
          exact fun h => hd (List.mem_map.mpr ⟨d, hmem, h.2⟩)
        rw [if_pos ⟨rfl, rfl⟩, hrest, List.append_nil]
      · have hne : ¬(d.caller = c.caller ∧ d.id = c.id) :=
          fun h => hd (List.mem_map.mpr ⟨c, hc, h.2.symm⟩)
        rw [if_neg hne, List.nil_append, ih hn hc]

/-- What a callee can break is checked behind every call of it that is not the call of a superclass
constructor. -/
theorem exists_mem_siteObligations {c : CallSite} (hk : c.kind ≠ .super) {o : Obligation}
    (ho : o ∈ (plan.effects.obligations.get? c.callee).getD []) :
    ∃ o' ∈ siteObligations env plan c, o'.same o = true := by
  rw [siteObligations]
  split
  · next h => exact absurd h hk
  · exact Effect.exists_mem_firsts Obligation.same_refl ho
  · exact Effect.exists_mem_foldl_addNew Obligation.same_refl ho _

end Contract

section

variable {source : String} {checks : Checks} {b : Build} (h : build source checks = .ok b)
  (hi : checks.invariants = true)

include h hi

theorem obligationsAt_of_callSite {c : CallSite}
    (hc : b.program.env.callSites.get? c.id = some c) :
    b.program.obligationsAt c.caller c.id = Contract.siteObligations b.program.env b.plan c := by
  obtain ⟨p, hp, hcheck⟩ := checkProgram_of_build h
  obtain ⟨_, _, _, _, _, _, hprog⟩ := build_eq_ok h
  obtain ⟨hkeys, hid⟩ := Typing.nodup_callSites hp hcheck
  have hn : (b.program.env.callSites.values.map (·.id)).Nodup := by
    have hsame : b.program.env.callSites.values.map (·.id) = b.program.env.callSites.keys := by
      rw [Table.values, Table.keys, List.map_map]
      exact List.map_congr_left fun x hx => (hid x hx).symm
    rw [hsame]
    exact hkeys
  have hmem : c ∈ b.program.env.callSites.values :=
    List.mem_map.mpr ⟨(c.id, c), Table.mem_of_get? hc, rfl⟩
  rw [WovenProgram.obligationsAt, hprog] at *
  rw [Contract.codesAt_afterCall, if_pos hi, Contract.filter_flatMap_siteCodes hn hmem,
    Contract.obligations_siteCodes]

/-- What is checked behind a call that a body or a first value contains. -/
theorem obligationsAt_of_part {decl : DeclId} {e : Typed.Expr}
    (he : e ∈ b.program.env.partsOf decl) {c : CallSite} (hc : e.callSite? decl = some c) :
    b.program.obligationsAt c.caller c.id = Contract.siteObligations b.program.env b.plan c := by
  obtain ⟨p, hp, hcheck⟩ := checkProgram_of_build h
  exact obligationsAt_of_callSite h hi (Typing.callSite_of_part hp hcheck he hc)

/-- Nothing is checked behind the call of a superclass constructor. -/
theorem obligationsAt_super {decl ctor : DeclId} {span : Span} {site : SiteId}
    {args : List Typed.Expr} {rest : List Typed.Stmt}
    (hb : b.program.env.body? decl = some (.superCall span site ctor args :: rest)) :
    b.program.obligationsAt decl site = [] := by
  obtain ⟨p, hp, hcheck⟩ := checkProgram_of_build h
  have hmem : .superCall span site ctor args ∈ b.program.env.stmtsOf decl := by
    rw [Env.stmtsOf, hb]
    exact List.mem_cons_self
  obtain ⟨_, hc⟩ := Typing.callSite_of_superCall hp hcheck hmem
  exact obligationsAt_of_callSite h hi (c := ⟨site, decl, ctor, .super, _, args, span⟩) hc

end

/-! ## What the checks do -/

namespace Run

variable {env : Env} {calls : Calls} {this : Option Ref} {args : List Value} {site : SiteId}
  {o : Obligation} {μ μ' : Machine} {u : Unwind}

/-- A clause is evaluated on objects, one after the other, and is true on each. -/
def HoldsOn (env : Env) (calls : Calls) (clause : BoundClause) :
    List Ref → Machine → Machine → Prop
  | [], μ, μ' => μ = μ'
  | r :: rs, μ, μ' => ∃ μ₁,
      (holds env calls (Frame.start clause.origin (some r) []) clause).ends μ =
        some (.ok true, μ₁) ∧ HoldsOn env calls clause rs μ₁ μ'

/-- Checks that went well, one after the other: each obligation led to objects, and its invariant
was true on each of them. -/
def Verified (env : Env) (calls : Calls) (this : Option Ref) (args : List Value) :
    List (Obligation × List Ref) → Machine → Machine → Prop
  | [], μ, μ' => μ = μ'
  | (o, rs) :: log, μ, μ' => ∃ μ₁ μ₂,
      (reach env calls o.object this args).ends μ = some (.ok rs, μ₁) ∧
        HoldsOn env calls o.clause rs μ₁ μ₂ ∧ Verified env calls this args log μ₂ μ'

/-- An invariant was evaluated on an object, by one of the checks that went well. -/
def EvaluatedOn (log : List (Obligation × List Ref)) (r : Ref) (clause : BoundClause) : Prop :=
  ∃ x ∈ log, x.1.clause = clause ∧ r ∈ x.2

theorem checkObjects_ok {rs : List Ref} :
    (checkObjects env calls site o rs).ends μ = some (.ok (), μ') ↔
      HoldsOn env calls o.clause rs μ μ' := by
  induction rs generalizing μ with
  | nil => simp [checkObjects, HoldsOn]
  | cons r rs ih =>
      rw [checkObjects, ends_bind_eq_some, HoldsOn]
      constructor
      · rintro (⟨_, _, hr⟩ | ⟨b, μ₁, hb, hrest⟩)
        · cases hr
        · cases b with
          | true => exact ⟨μ₁, hb, ih.mp hrest⟩
          | false => exact absurd hrest (by simp)
      · rintro ⟨μ₁, hb, hrest⟩
        exact .inr ⟨true, μ₁, hb, ih.mpr hrest⟩

/-- Each check that went well reached its objects on some machine. -/
theorem Verified.reached {log : List (Obligation × List Ref)}
    (h : Verified env calls this args log μ μ') {x : Obligation × List Ref} (hx : x ∈ log) :
    ∃ μ₁ μ₂, (reach env calls x.1.object this args).ends μ₁ = some (.ok x.2, μ₂) := by
  induction log generalizing μ with
  | nil => exact absurd hx List.not_mem_nil
  | cons y log ih =>
      obtain ⟨μ₁, μ₂, hreach, _, hrest⟩ := h
      rcases List.mem_cons.mp hx with rfl | hx
      · exact ⟨μ, μ₁, hreach⟩
      · exact ih hrest hx

/-- The check of one obligation. -/
def checkObligation (env : Env) (calls : Calls) (site : SiteId) (this : Option Ref)
    (args : List Value) (o : Obligation) : Run Unit := do
  checkObjects env calls site o (← reach env calls o.object this args)

theorem checkObligation_ok :
    (checkObligation env calls site this args o).ends μ = some (.ok (), μ') ↔
      ∃ rs μ₁, (reach env calls o.object this args).ends μ = some (.ok rs, μ₁) ∧
        HoldsOn env calls o.clause rs μ₁ μ' := by
  rw [checkObligation, ends_bind_eq_some]
  constructor
  · rintro (⟨_, _, hr⟩ | ⟨rs, μ₁, hrs, hrest⟩)
    · cases hr
    · exact ⟨rs, μ₁, hrs, checkObjects_ok.mp hrest⟩
  · rintro ⟨rs, μ₁, hrs, hrest⟩
    exact .inr ⟨rs, μ₁, hrs, checkObjects_ok.mpr hrest⟩

theorem checkObligations_cons (os : List Obligation) :
    checkObligations env calls site this args (o :: os) = (do
      checkObligation env calls site this args o
      checkObligations env calls site this args os) := by
  rw [checkObligations, checkObligation, bind_assoc]

/-- The checks of obligations end well if each of them goes well in its turn. -/
theorem checkObligations_ok {os : List Obligation} :
    (checkObligations env calls site this args os).ends μ = some (.ok (), μ') ↔
      ∃ log, log.map (·.1) = os ∧ Verified env calls this args log μ μ' := by
  induction os generalizing μ with
  | nil =>
      constructor
      · intro h
        obtain ⟨_, rfl⟩ := Prod.mk.inj (Option.some.inj h)
        exact ⟨[], rfl, rfl⟩
      · rintro ⟨log, hlog, hv⟩
        rw [List.map_eq_nil_iff.mp hlog] at hv
        rw [checkObligations, ends_pure, show μ = μ' from hv]
  | cons o os ih =>
      rw [checkObligations_cons, ends_bind_eq_some]
      constructor
      · rintro (⟨_, _, hr⟩ | ⟨_, μ₂, ho, hrest⟩)
        · cases hr
        · obtain ⟨rs, μ₁, hrs, hholds⟩ := checkObligation_ok.mp ho
          obtain ⟨log, hlog, hv⟩ := ih.mp hrest
          exact ⟨(o, rs) :: log, congrArg (o :: ·) hlog, μ₁, μ₂, hrs, hholds, hv⟩
      · rintro ⟨log, hlog, hv⟩
        obtain ⟨⟨o', rs⟩, log', rfl, rfl, hrest⟩ := List.map_eq_cons_iff.mp hlog
        obtain ⟨μ₁, μ₂, hrs, hholds, hv⟩ := hv
        exact .inr ⟨(), μ₂, checkObligation_ok.mpr ⟨rs, μ₁, hrs, hholds⟩, ih.mpr ⟨log', hrest, hv⟩⟩

/-- If the checks of obligations stop early, those in front of the one that stopped went well. -/
theorem checkObligations_error {os : List Obligation}
    (h : (checkObligations env calls site this args os).ends μ = some (.error u, μ')) :
    ∃ log o rest μ₁, os = log.map (·.1) ++ o :: rest ∧ Verified env calls this args log μ μ₁ ∧
      (checkObligation env calls site this args o).ends μ₁ = some (.error u, μ') := by
  induction os generalizing μ with
  | nil => exact absurd h (by simp [checkObligations])
  | cons o os ih =>
      rw [checkObligations_cons, ends_bind_eq_some] at h
      rcases h with ⟨_, ho, hr⟩ | ⟨_, μ₂, ho, hrest⟩
      · cases hr
        exact ⟨[], o, os, μ, rfl, rfl, ho⟩
      · obtain ⟨rs, μ₁, hrs, hholds⟩ := checkObligation_ok.mp ho
        obtain ⟨log, o', rest, μ₃, rfl, hv, hstop⟩ := ih hrest
        exact ⟨(o, rs) :: log, o', rest, μ₃, rfl, ⟨μ₁, μ₂, hrs, hholds, hv⟩, hstop⟩

/-- Types of paths do not matter for where they lead. -/
theorem reach_same {p q : Effect.Path} (h : p.same q = true) (this : Option Ref)
    (args : List Value) : reach env calls p this args = reach env calls q this args := by
  obtain ⟨hroot, htrail⟩ := Effect.Path.same_iff.mp h
  rw [reach, reach, startOf, startOf, hroot, htrail]

end Run

/-! ## Calls whose callee has ended -/

/-- The member that runs if a method is called on an object, or on none. -/
def Env.target (env : Env) (μ : Machine) (method : DeclId) : Option Ref → DeclId
  | some r => env.dispatch ((μ.heap.className? r).getD "") method
  | none => method

namespace Run

/-- The evaluation of a call has come so far that the callee has ended: the call was made with an
object and arguments, and the callee left a result and a machine. -/
inductive CalleeEnds (env : Env) (calls : Calls) (f : Frame) (μ : Machine) :
    Typed.Expr → Option Ref → List Value → Except Unwind Value → Machine → Prop
  | call {span : Span} {t : Ty} {site : SiteId} {receiver : Option Typed.Expr} {method : DeclId}
      {name : String} {args : List Typed.Expr} {this : Option Ref} {vs : List Value}
      {x : Except Unwind Value} {μ₁ μ₂ μ₃ : Machine}
      (object : (evalReceiver env calls f receiver).ends μ = some (.ok this, μ₁))
      (arguments : (evalAll env calls f args).ends μ₁ = some (.ok vs, μ₂))
      (callee : (calls.invoke (env.target μ₂ method this) this vs).ends μ₂ = some (x, μ₃)) :
      CalleeEnds env calls f μ (.call span t site receiver method name args) this vs x μ₃
  | new {span : Span} {site : SiteId} {className : String} {ctor : DeclId}
      {args : List Typed.Expr} {r : Ref} {vs : List Value} {x : Except Unwind Value}
      {μ₁ μ₂ μ₃ : Machine}
      (arguments : (evalAll env calls f args).ends μ = some (.ok vs, μ₁))
      (object : (instantiate env className).ends μ₁ = some (.ok r, μ₂))
      (callee : (calls.invoke ctor (some r) vs).ends μ₂ = some (x, μ₃)) :
      CalleeEnds env calls f μ (.new span site className ctor args) (some r) vs x μ₃

/-- How far a call comes is computed from what it evaluates. -/
def calleeEnds? (env : Env) (calls : Calls) (f : Frame) (μ : Machine) :
    Typed.Expr → Option (Option Ref × List Value × Except Unwind Value × Machine)
  | .call _ _ _ receiver method _ args =>
    match (evalReceiver env calls f receiver).ends μ with
    | some (.ok this, μ₁) =>
      match (evalAll env calls f args).ends μ₁ with
      | some (.ok vs, μ₂) =>
        ((calls.invoke (env.target μ₂ method this) this vs).ends μ₂).map fun (x, μ₃) =>
          (this, vs, x, μ₃)
      | _ => none
    | _ => none
  | .new _ _ className ctor args =>
    match (evalAll env calls f args).ends μ with
    | some (.ok vs, μ₁) =>
      match (instantiate env className).ends μ₁ with
      | some (.ok r, μ₂) =>
        ((calls.invoke ctor (some r) vs).ends μ₂).map fun (x, μ₃) => (some r, vs, x, μ₃)
      | _ => none
    | _ => none
  | _ => none

theorem calleeEnds_of_eq {env : Env} {calls : Calls} {f : Frame} {μ μ' : Machine} {e : Typed.Expr}
    {this : Option Ref} {vs : List Value} {x : Except Unwind Value}
    (h : calleeEnds? env calls f μ e = some (this, vs, x, μ')) :
    CalleeEnds env calls f μ e this vs x μ' := by
  unfold calleeEnds? at h
  split at h
  · split at h
    · next hobject =>
        split at h
        · next harguments =>
            obtain ⟨_, hcallee, heq⟩ := Option.map_eq_some_iff.mp h
            cases heq
            exact .call hobject harguments hcallee
        · cases h
    · cases h
  · split at h
    · next harguments =>
        split at h
        · next hobject =>
            obtain ⟨_, hcallee, heq⟩ := Option.map_eq_some_iff.mp h
            cases heq
            exact .new harguments hobject hcallee
        · cases h
    · cases h
  · cases h

/-- The ways in which a callee ends that lead to the checks behind a call. -/
inductive LeadsToChecks : Typed.Expr → Except Unwind Value → Prop
  | returned {span : Span} {t : Ty} {site : SiteId} {receiver : Option Typed.Expr}
      {method : DeclId} {name : String} {args : List Typed.Expr} (v : Value) :
      LeadsToChecks (.call span t site receiver method name args) (.ok v)
  | threw {span : Span} {t : Ty} {site : SiteId} {receiver : Option Typed.Expr}
      {method : DeclId} {name : String} {args : List Typed.Expr} (e : Ref) :
      LeadsToChecks (.call span t site receiver method name args) (.error (.throw e))
  | made {span : Span} {site : SiteId} {className : String} {ctor : DeclId}
      {args : List Typed.Expr} (v : Value) :
      LeadsToChecks (.new span site className ctor args) (.ok v)

/-- What a call passes on of how its callee ended: a creation yields the new object. -/
def passedOn (this : Option Ref) : Typed.Expr → Except Unwind Value → Except Unwind Value
  | .new .., .ok v => .ok ((this.map .ref).getD v)
  | _, x => x

theorem passedOn_method {decl : DeclId} {e : Typed.Expr} {c : CallSite}
    (hc : e.callSite? decl = some c) (hk : c.kind = .method) (this : Option Ref)
    (x : Except Unwind Value) : passedOn this e x = x := by
  cases e with
  | new =>
      cases hc
      cases hk
  | _ => rfl

/-- The frame and the machine with which a method without parameters comes to a statement of its
body, if it runs on a fresh machine. -/
def stateAt? (p : WovenProgram) (calls : Calls) (m : MethodInfo) (k : Nat) :
    Option (Frame × Machine) :=
  let f := Frame.start m.id none []
  match (execAll p.env calls f (((p.env.body? m.id).getD []).take k)).ends f.scopes
    Machine.initial.enter with
  | some ((.ok .normal, scopes), μ) => some ({ f with scopes }, μ)
  | _ => none

variable {env : Env} {calls : Calls} {f : Frame} {e : Typed.Expr} {this : Option Ref}
  {vs : List Value} {x r : Except Unwind Value} {μ μ₁ μ' : Machine}

theorem ends_callMethod {site : SiteId} {method : DeclId} {μ₂ : Machine} :
    (callMethod env calls f.decl site method this vs).ends μ₂ =
      ((calls.invoke (env.target μ₂ method this) this vs).ends μ₂).bind fun
        | (.ok v, μ₃) => (do
            calls.recheck f.decl site this vs
            return v : Run Value).ends μ₃
        | (.error (.throw e), μ₃) => (do
            calls.recheck f.decl site this vs
            stop (.throw e) : Run Value).ends μ₃
        | (.error u, μ₃) => some (.error u, μ₃) := by
  cases this <;>
  · rw [callMethod]
    simp only [pure_bind, ends_bind_ok (ends_classOf _ μ₂), ends_bind _ _ μ₂, ends_lift,
      Env.target]
    cases (calls.invoke _ _ vs).ends μ₂ with
    | none => rfl
    | some y =>
        obtain ⟨x, μ₃⟩ := y
        cases x with
        | ok v => rfl
        | error u => cases u <;> rfl

/-- A call whose callee has ended is checked, and then passes on how the callee ended, unless the
checks stop early. -/
theorem ends_of_calleeEnds (h : CalleeEnds env calls f μ e this vs x μ₁) (hx : LeadsToChecks e x)
    {c : CallSite} (hc : e.callSite? f.decl = some c)
    (hr : (eval env calls f e).ends μ = some (r, μ')) :
    (∃ u, (calls.recheck f.decl c.id this vs).ends μ₁ = some (.error u, μ') ∧ r = .error u) ∨
      (calls.recheck f.decl c.id this vs).ends μ₁ = some (.ok (), μ') ∧
        r = passedOn this e x := by
  cases h with
  | call object arguments callee =>
      cases hc
      rw [eval, ends_bind_ok object, ends_bind_ok arguments, ends_callMethod, callee] at hr
      cases hx with
      | returned v | threw e =>
          rcases ends_bind_eq_some.mp hr with ⟨u, hu, rfl⟩ | ⟨_, _, hok, hend⟩
          · exact .inl ⟨u, hu, rfl⟩
          · cases hend
            exact .inr ⟨hok, rfl⟩
  | new arguments object callee =>
      cases hc
      cases hx with
      | made v =>
          rw [eval, ends_bind_ok arguments, construct, ends_bind_ok object,
            ends_bind_ok callee] at hr
          rcases ends_bind_eq_some.mp hr with ⟨u, hu, rfl⟩ | ⟨_, _, hok, hend⟩
          · exact .inl ⟨u, hu, rfl⟩
          · cases hend
            exact .inr ⟨hok, rfl⟩

/-- The checks behind a call stopped early: those in front of one went well, and this one did not
end well. -/
def StoppedBy (env : Env) (calls : Calls) (site : SiteId) (this : Option Ref) (args : List Value)
    (os : List Obligation) (u : Unwind) (μ μ' : Machine) : Prop :=
  ∃ log o rest μ₁, os = log.map (·.1) ++ o :: rest ∧ Verified env calls this args log μ μ₁ ∧
    (checkObligation env calls site this args o).ends μ₁ = some (.error u, μ')

/-- What stands behind a call whose callee has ended is checked in its order. Then the call passes on
how the callee ended, unless a check stopped early. -/
theorem checked_of_calleeEnds {p : WovenProgram} {limit n : Nat}
    (h : CalleeEnds p.env (Run.calls p limit (n + 1)) f μ e this vs x μ₁) (hx : LeadsToChecks e x)
    {c : CallSite} (hc : e.callSite? f.decl = some c)
    (hr : (eval p.env (Run.calls p limit (n + 1)) f e).ends μ = some (r, μ')) :
    (∃ u, StoppedBy p.env (Run.calls p limit n) c.id this vs (p.obligationsAt f.decl c.id) u μ₁ μ' ∧
        r = .error u) ∨
      ∃ log, log.map (·.1) = p.obligationsAt f.decl c.id ∧
        Verified p.env (Run.calls p limit n) this vs log μ₁ μ' ∧ r = passedOn this e x := by
  rcases ends_of_calleeEnds h hx hc hr with ⟨u, hstop, hpass⟩ | ⟨hok, hpass⟩
  · exact .inl ⟨u, checkObligations_error hstop, hpass⟩
  · obtain ⟨log, hlog, hv⟩ := checkObligations_ok.mp hok
    exact .inr ⟨log, hlog, hv, hpass⟩

end Run

end Covenant
