import Covenant.Proofs.ElaboratedParts
import Covenant.Proofs.FittedChecks
import Covenant.Proofs.ProgramJourneys

/-!
# Calls have as many arguments as their callees have parameters

Neither what is evaluated of a body nor what is evaluated of a clause calls anything
with too few or too many arguments, and what is called in place of a method on an
object has the same parameters. Nothing has to be known of the values that there are
in a run.
-/

namespace Covenant

open Typed (Expr Context)

/-- What takes some number of arguments. -/
def Env.Takes (env : Env) (id : DeclId) (n : Nat) : Prop :=
  ∃ m, env.method? id = some m ∧ m.params.length = n

theorem Env.SameDecls.takes {env₀ env : Env} (h : env₀.SameDecls env) {id : DeclId} {n : Nat} :
    env₀.Takes id n → env.Takes id n
  | ⟨m, hm, hn⟩ => ⟨m, (h.method? _).trans hm, hn⟩

/-- If the expression calls something, then with an argument for each parameter. -/
def Typed.Expr.Counts (env : Env) : Expr → Prop
  | .call _ _ _ _ method _ args => env.Takes method args.length
  | .new _ _ _ ctor args => env.Takes ctor args.length
  | _ => True

theorem Typed.ArgsFit.length {env : Env} {args : List Expr} {m : MethodInfo}
    (h : ArgsFit env args m.paramTypes) : m.params.length = args.length := by
  have h := List.Forall₂.length_eq h
  rw [MethodInfo.paramTypes, List.length_map] at h
  exact h.symm

/-! ## Parts of what fits -/

mutual

/-- All parts of an expression that fits do so, perhaps in other contexts. -/
theorem Typed.Expr.Fits.parts {env : Env} {Γ : Context} : ∀ {e : Expr}, e.Fits env Γ →
    ∀ x ∈ e.parts, ∃ Δ, x.Fits env Δ
  | .int .., h | .bool .., h | .null .., h | .this .., h | .var .., h | .param .., h
  | .staticField .., h | .result .., h | .slot .., h => List.forall_mem_singleton.mpr ⟨Γ, h⟩
  | .field .., h | .length .., h | .unary .., h => List.forall_mem_cons.mpr ⟨⟨Γ, h⟩, h.1.parts⟩
  | .newArray .., h => List.forall_mem_cons.mpr ⟨⟨Γ, h⟩, h.1.1.parts⟩
  | .old .., h | .spread .., h => List.forall_mem_cons.mpr ⟨⟨Γ, h⟩, h.2.parts⟩
  | .index .., h => List.forall_mem_cons.mpr
      ⟨⟨Γ, h⟩, List.forall_mem_append.mpr ⟨h.1.1.parts, h.2.1.parts⟩⟩
  | .binary .., h => List.forall_mem_cons.mpr
      ⟨⟨Γ, h⟩, List.forall_mem_append.mpr ⟨h.1.1.parts, h.1.2.parts⟩⟩
  | .call .., h => List.forall_mem_cons.mpr ⟨⟨Γ, h⟩, List.forall_mem_append.mpr
      ⟨Expr.receiverFits_parts h.1.1, Expr.argsFit_parts h.1.2⟩⟩
  | .new .., h => List.forall_mem_cons.mpr ⟨⟨Γ, h⟩, Expr.argsFit_parts h.1⟩

theorem Typed.Expr.receiverFits_parts {env : Env} {Γ : Context} : ∀ {e : Option Expr},
    Expr.receiverFits env Γ e → ∀ x ∈ Expr.partsOpt e, ∃ Δ, x.Fits env Δ
  | none, _ => fun _ hx => absurd hx List.not_mem_nil
  | some _, h => Expr.Fits.parts h

theorem Typed.Expr.argsFit_parts {env : Env} {Γ : Context} : ∀ {es : List Expr},
    Expr.argsFit env Γ es → ∀ x ∈ Expr.partsAll es, ∃ Δ, x.Fits env Δ
  | [], _ => fun _ hx => absurd hx List.not_mem_nil
  | _ :: _, h => List.forall_mem_append.mpr ⟨h.1.parts, Expr.argsFit_parts h.2⟩

end

theorem Typed.Expr.Fits.counts {env : Env} {Γ : Context} {e : Expr} (h : e.Fits env Γ) :
    e.Counts env := by
  cases e with
  | call =>
      obtain ⟨_, m, hm⟩ := h
      exact ⟨m, hm.method, hm.args.length⟩
  | new =>
      obtain ⟨_, m, hm⟩ := h
      exact ⟨m, hm.method, hm.args.length⟩
  | _ => trivial

/-! ## Bodies -/

namespace Typing

theorem takes_of_selected {env : Env} {candidates : List MethodInfo} {args : List Expr}
    {m : MethodInfo} (hget : env.method? m.id = some m)
    (h : selectOverload? env candidates (args.map (·.type)) = some m) :
    env.Takes m.id args.length := by
  obtain ⟨_, happ⟩ := selectOverload?_ok h
  rw [isApplicable, Bool.and_eq_true, beq_iff_eq, List.length_map] at happ
  exact ⟨m, hget, happ.1⟩

section

variable {p : Surface.Program} (hp : p.WellFormed) {env : Env} (h : checkProgram p = .ok env)
  {decl : DeclId}

include hp h

theorem counts_of_part {e : Expr} (he : e ∈ env.partsOf decl) : e.Counts env := by
  obtain ⟨s, _, _, h₀, hdecls, helaborated⟩ := elaborated_part hp h he
  cases helaborated with
  | new _ _ _ hm => exact hdecls.takes (takes_of_selected (h₀.mem_constructors (selectOverload?_ok hm).1).1 hm)
  | staticCall _ hm | classCall _ _ hm | droppedCall _ _ _ hm | ownCall _ hm
  | methodCall _ _ _ hm =>
      exact hdecls.takes (takes_of_selected (h₀.mem_lookupMethods.mp (selectOverload?_ok hm).1).1 hm)
  | _ => trivial

end

end Typing

/-! ## Dispatch -/

/-- What is called in place of a method has its parameters, whatever the object is. -/
theorem Env.DeclaredBy.takes_dispatch {env : Env} {p : Surface.Program} (hd : env.DeclaredBy p)
    {id : DeclId} {n : Nat} (className : String) (h : env.Takes id n) :
    env.Takes (env.dispatch className id) n := by
  obtain ⟨m, hm, hn⟩ := h
  rw [Env.dispatch, hm]
  dsimp only
  split
  · exact ⟨m, hm, hn⟩
  · cases hfind : List.find? _ _ with
    | none => exact ⟨m, hm, hn⟩
    | some d =>
        obtain ⟨id', _, hget⟩ := List.mem_filterMap.mp (List.mem_of_find?_eq_some hfind)
        obtain rfl := (hd.method_cases id' d hget).1
        have hprop := List.find?_some hfind
        rw [Bool.and_eq_true] at hprop
        refine ⟨d, hget, ?_⟩
        have htypes := congrArg List.length (MethodInfo.sameSignature_iff.mp hprop.2).2
        rw [MethodInfo.paramTypes, MethodInfo.paramTypes, List.length_map, List.length_map] at htypes
        exact htypes.trans hn

/-! ## Clauses -/

namespace Contract

variable {env : Env} {m : MethodInfo} {s : Specification}

/-- Whatever a member evaluates in its own frame fits a context. -/
theorem SpecFits.fits_of_codes (hfits : SpecFits env m s) (hfresh : FreshSpec s)
    {checks : Checks} {isConstructor : Bool} {snapshot : Option Snapshot}
    (hslots : ∀ x, snapshot = some x → x.slots = (scheduleOne s).2) {point : ProgramPoint}
    {code : CheckCode}
    (hcode : (point, code) ∈ memberCodes checks isConstructor (scheduleOne s).1 snapshot)
    {x : Expr} (hx : x ∈ code.exprs) : ∃ Γ, x.Fits env Γ := by
  rcases mem_memberCodes hcode with ⟨site, hs, _, heq⟩ | heq | ⟨_, heq⟩ | heq | heq <;> cases heq
  · rw [CheckCode.exprs, hslots site hs] at hx
    rcases stored_cases hfresh hx with ⟨t, ht, rfl⟩ | ⟨c, hc, hold⟩
    · exact ⟨_, (hfits.conditions t ht).1⟩
    · exact ⟨_, (hfits.postconditions c hc).1.oldTerms x hold⟩
  · obtain ⟨c, hc, rfl⟩ := List.mem_map.mp hx
    obtain ⟨group, hgroup, hc⟩ := List.mem_flatten.mp hc
    exact ⟨_, (hfits.preconditions group hgroup c hc).1⟩
  · obtain ⟨c, hc, rfl⟩ := List.mem_map.mp hx
    exact ⟨_, (hfits.left hfresh hc).1⟩
  all_goals exact absurd hx List.not_mem_nil

end Contract

section

variable {source : String} {checks : Checks} {b : Build} (h : build source checks = .ok b)

include h

open Contract

/-- What is checked behind a call is an invariant of a class. -/
theorem invariant_of_siteObligation {site : CallSite} {o : Obligation}
    (ho : o ∈ siteObligations b.program.env b.plan site) :
    ∃ c, (o.className, o.clause) ∈ Effect.classInvariants b.program.env b.plan.invariants c := by
  rcases mem_siteObligations ho with ⟨os, hos, ho⟩ | ⟨_, _, _, _, ho⟩
  · rw [effects_of_build h] at hos
    rcases Effect.mem_obligations hos ho with ⟨_, _, _, _, _, hat⟩ | ⟨_, _, _, hat⟩
    all_goals
      obtain ⟨_, c, _, hc⟩ := Effect.mem_invariantsAt hat
      exact ⟨c, hc⟩
  · exact ⟨_, ho⟩

/-- What is checked behind a call fits the objects of a class. -/
theorem fits_of_siteObligation {site : CallSite} {o : Obligation}
    (ho : o ∈ siteObligations b.program.env b.plan site) :
    ∃ Γ, o.clause.expr.Fits b.program.env Γ := by
  obtain ⟨p, _, hp, _⟩ := build_eq_ok h
  have hwf := Parse.program_wellFormed hp
  obtain ⟨hcheck, _, _⟩ := analysis_of_build h hp
  obtain ⟨c, hc⟩ := invariant_of_siteObligation h ho
  exact ⟨_, (Effect.invariant_fits hwf hcheck
    (fun _ _ hcs => invariantsOf_of_build h hp hcs) hc).1⟩

/-- Whatever is evaluated of a clause fits a context. -/
theorem fits_of_evaluates {decl : DeclId} {x : Expr} (hx : b.program.Evaluates decl x) :
    ∃ Γ, x.Fits b.program.env Γ := by
  obtain ⟨p, _, hp, _⟩ := build_eq_ok h
  have hwf := Parse.program_wellFormed hp
  obtain ⟨hcheck, _, hprogram⟩ := analysis_of_build h hp
  cases hx with
  | own hplaced he =>
      rw [hprogram] at hplaced
      rcases mem_weave hplaced with ⟨s, hs, hcode⟩ | ⟨site, _, rfl⟩
      · obtain ⟨p', m, s₀, hp', hm, rfl, rfl, hsnapshot⟩ :=
          specs_of_build h (Table.get?_of_mem (nodup_keys_specs h) hs)
        obtain rfl := Except.ok.inj (hp.symm.trans hp')
        have hm : b.program.env.method? m.id = some m :=
          (methodsKeyed_of_build h).id_eq hm ▸ hm
        refine (specFits_of_bind hwf hcheck (Clause.ofProgram p) hm).fits_of_codes
          (freshSpec_of_bind (owners_words hwf hcheck) _ _ m) (fun snapshot hx => ?_) hcode he
        rw [hsnapshot] at hx
        split at hx <;> cases hx
        rfl
      · exact absurd he List.not_mem_nil
  | @invariant c o hplaced ho =>
      rw [hprogram] at hplaced
      rcases mem_weave hplaced with ⟨s, _, hcode⟩ | ⟨site, _, rfl⟩
      · -- The checks of a member are of other forms.
        generalize hx : (c.point, c.code) = x at hcode
        rcases mem_memberCodes hcode with ⟨_, _, _, rfl⟩ | rfl | ⟨_, rfl⟩ | rfl | rfl
        all_goals
          rw [(Prod.mk.inj hx).2] at ho
          exact absurd ho List.not_mem_nil
      · exact fits_of_siteObligation h ho

/-- Whatever can begin in a frame calls with an argument for each parameter. -/
theorem counts_of_places {decl : DeclId} {e : Expr} (he : b.program.Places decl (.expr e)) :
    e.Counts b.program.env := by
  obtain ⟨p, hp, hcheck⟩ := checkProgram_of_build h
  rcases he with he | ⟨x, hx, he⟩
  · exact Typing.counts_of_part hp hcheck he
  · obtain ⟨Γ, hfits⟩ := fits_of_evaluates h hx
    obtain ⟨Δ, hpart⟩ := hfits.parts e he
    exact hpart.counts

end

end Covenant
