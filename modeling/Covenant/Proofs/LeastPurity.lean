import Covenant.Proofs.Inheritance
import Covenant.Proofs.Searches
import Mathlib.Order.Bounds.Basic

/-!
# Purity is the least that its rule allows

A rule says which members are pure, given that some are: those that only declare what
they inspect, and accessors that call pure members only. The members that the test
takes for pure are the least set that is closed under the rule. Whatever is pure is so
by a derivation of some height. If none of the members on the way is pure by a lower
one, the test follows the derivation down and is never cut, since the members on the
way only grow by those that need the height that is being left: `isPureFrom_of_mem`.
So cutting what leads back to a member on the way loses nothing.
-/

namespace Covenant

namespace Effect

variable {env : Env} {specs : Table DeclId Specification} {id : DeclId}

/-- The rule for purity, given the members of `P`. -/
inductive PureBy (env : Env) (specs : Table DeclId Specification) (P : Set DeclId) (id : DeclId) :
    Prop
  | inspects (only : InspectsOnly specs id)
  | accessor {returned} (undeclared : declaredEffects? specs id = none)
      (form : PureForm env specs id returned)
      (callees : ∀ e, returned = some e → ∀ x ∈ e.parts, ∀ d, callee? x = some d → d ∈ P)

theorem PureBy.mono {P Q : Set DeclId} (hPQ : P ⊆ Q) (h : PureBy env specs P id) :
    PureBy env specs Q id := by
  cases h with
  | inspects only => exact .inspects only
  | accessor undeclared form callees =>
      exact .accessor undeclared form fun e he x hx d hd => hPQ (callees e he x hx d hd)

/-- What is pure by derivations of a height below `k`. -/
def pureBelow (env : Env) (specs : Table DeclId Specification) : Nat → Set DeclId
  | 0 => ∅
  | k + 1 => {id | PureBy env specs (pureBelow env specs k) id}

theorem pureBelow_succ (k : Nat) : pureBelow env specs k ⊆ pureBelow env specs (k + 1) := by
  induction k with
  | zero => exact Set.empty_subset _
  | succ k ih => exact fun _ h => PureBy.mono ih h

/-- A set that is closed under the rule has all that is pure by derivations. -/
theorem pureBelow_subset {P : Set DeclId} (hP : ∀ id, PureBy env specs P id → id ∈ P) (k : Nat) :
    pureBelow env specs k ⊆ P := by
  induction k with
  | zero => exact Set.empty_subset _
  | succ k ih => exact fun id h => hP id (h.mono ih)

/-- What the test takes for pure is so by a derivation. -/
theorem mem_pureBelow {n : Nat} {visiting : List DeclId}
    (h : isPureFrom env specs n visiting id = true) : id ∈ pureBelow env specs n := by
  induction n generalizing visiting id with
  | zero => cases h
  | succ n ih =>
      rcases isPureFrom_succ.mp h with only | ⟨undeclared, returned, form, hcalls⟩
      · exact .inspects only
      · exact .accessor undeclared form fun e he x hx d hd => ih ((hcalls e he).2 x hx d hd)

/-- The test finds a derivation, if no member on the way has one that is as low. -/
theorem isPureFrom_of_mem {k n : Nat} {visiting : List DeclId} (h : id ∈ pureBelow env specs k)
    (hway : ∀ v ∈ visiting, v ∉ pureBelow env specs k) (hn : k ≤ n) :
    isPureFrom env specs n visiting id = true := by
  induction k generalizing n visiting id with
  | zero => cases h
  | succ k ih =>
      have hbelow : ∀ v ∈ visiting, v ∉ pureBelow env specs k :=
        fun v hv hlow => hway v hv (pureBelow_succ k hlow)
      -- A lower derivation serves as well; if there is none, the member itself may go on the way.
      by_cases hlow : id ∈ pureBelow env specs k
      · exact ih hlow hbelow (Nat.le_of_succ_le hn)
      · obtain ⟨n, rfl⟩ : ∃ m, n = m + 1 := ⟨n - 1, by omega⟩
        refine isPureFrom_succ.mpr ?_
        have hrule : PureBy env specs (pureBelow env specs k) id := h
        cases hrule with
        | inspects only => exact .inl only
        | @accessor returned undeclared form callees =>
            refine .inr ⟨undeclared, returned, form, fun e he => ⟨fun hv => hway id hv h, ?_⟩⟩
            exact fun x hx d hd => ih (callees e he x hx d hd)
              (List.forall_mem_cons.mpr ⟨hlow, hbelow⟩) (Nat.le_of_succ_le_succ hn)

theorem isPure_of_mem {k : Nat} (h : id ∈ pureBelow env specs k) : isPure env specs id = true := by
  have hlarge : isPureFrom env specs (k + env.methods.size + 1) [] id = true :=
    isPureFrom_of_mem h nofun (by omega)
  rw [isPure, isPureFrom_of_bound (.nil env) (k := k + env.methods.size + 1)]
  · exact hlarge
  · exact Nat.lt_succ_self _
  · rw [List.length_nil]
    omega

/-- What is taken for pure is the least set that is closed under the rule for purity. The search
with one set of members on the way comes to an end with this answer, in whatever order it goes to
callees, and leaves none on the way. -/
theorem isLeast_isPure (env : Env) (specs : Table DeclId Specification) :
    IsLeast {P : Set DeclId | ∀ id, PureBy env specs P id → id ∈ P}
        {id | isPure env specs id = true} ∧
      ∀ order : List DeclId → List DeclId → List DeclId, (∀ way ids, (order way ids).Perm ids) →
        ∀ n, env.methods.size < n → ∀ id,
          (searchPure env specs order n id).run [] = some (isPure env specs id, []) := by
  refine ⟨⟨fun id h => ?_, fun P hP id h => pureBelow_subset hP _ (mem_pureBelow h)⟩, ?_⟩
  · have hstep : id ∈ pureBelow env specs (env.methods.size + 1 + 1) :=
      h.mono fun d hd => mem_pureBelow hd
    exact isPure_of_mem hstep
  · intro order horder n hn id
    rw [searchPure_run horder (.nil env) hn, isPure,
      isPureFrom_of_bound (.nil env) hn (Nat.lt_succ_self _)]

end Effect

open Effect

/-- Two accessors share a callee, and two call each other. -/
def circleSource : String :=
  "class Circle {
     int size;
     int get() { return size; }
     int twice() { return get() + get(); }
     int left() { return get() + right(); }
     int right() { return left() + get(); }
   }"

/-- Evaluates what is said of `circleSource`. -/
def circleCheck : Option Bool := do
  let b ← (build circleSource {}).toOption
  let twice ← b.program.env.methodNamed? "Circle.twice"
  let left ← b.program.env.methodNamed? "Circle.left"
  return isPure b.program.env b.plan.specs twice.id && !isPure b.program.env b.plan.specs left.id

/-- Callees from the last to the first. -/
theorem isLeast_isPure_circle :
    ∃ (b : Build) (twice left : MethodInfo), build circleSource {} = .ok b ∧
      let search := searchPure b.program.env b.plan.specs (fun _ ids => ids.reverse)
        (b.program.env.methods.size + 1)
      (search twice.id).run [] = some (true, []) ∧ (search left.id).run [] = some (false, []) := by
  have h : circleCheck = some true := by
    set_option maxRecDepth 20000 in
    rw [circleCheck, show circleSource = String.ofList _ from rfl, build_ofList]
    decide +kernel
  simp only [circleCheck, Option.bind_eq_bind, Option.bind_eq_some_iff] at h
  obtain ⟨b, hb, twice, _, left, _, h⟩ := h
  simp only [Option.pure_def, Option.some.injEq, Bool.and_eq_true, Bool.not_eq_true'] at h
  have hsearch := (isLeast_isPure b.program.env b.plan.specs).2 (fun _ ids => ids.reverse)
    (fun _ ids => ids.reverse_perm) _ (Nat.lt_succ_self _)
  refine ⟨b, twice, left, ok_of_toOption hb, (hsearch twice.id).trans ?_,
    (hsearch left.id).trans ?_⟩
  · rw [h.1]
  · rw [h.2]

end Covenant
