import Covenant.Proofs.Built
import Covenant.Proofs.Ends

/-!
# The exceptional contract at the exits of a member

A `throws` clause whose condition was true at entry demands an exception of its
class, and an exception that some `throws` clause is about needs a reason. Both
are checked at the two exits of a member, from the slots that its entry has
filled. The exits see everything that comes out of the entry checks and of the
body. What they do not see is an exception that the evaluation of a
postcondition throws: it leaves the member from its normal exit, and no check
follows. `exceptional_contract_iff` says that this is the only way around the
contract, and `exceptional_contract_evaded` that it is one.
-/

namespace Covenant

/-- The class of an exception object. -/
def Machine.classOf (μ : Machine) (e : Ref) : String := (μ.heap.className? e).getD ""

@[simp] theorem Machine.classOf_leave (μ : Machine) (e : Ref) : μ.leave.classOf e = μ.classOf e :=
  rfl

namespace Contract

/-- What a specification says of a member that throws an exception of class `c`, where `slots` are
its entry values. -/
structure Fits (env : Env) (s : Specification) (slots : Slots) (c : String) : Prop where
  /-- It is what every clause demands whose condition was true. -/
  demanded : ∀ i t, s.throws[i]? = some t → slots.get? i = some (.bool true) →
    env.isSubtype c t.exception = true
  /-- If some clause is about it, then the condition of such a clause was true or was not
  evaluated, or the member may throw it. -/
  licensed : (∃ t ∈ s.throws, env.isSubtype c t.exception = true) →
    (∃ i t, s.throws[i]? = some t ∧ env.isSubtype c t.exception = true ∧
      (slots.get? i = some (.bool true) ∨ slots.get? i = none)) ∨
    ∃ t ∈ s.mayThrow, env.isSubtype c t.exception = true

/-- What a specification says of exceptions when an invocation ends with `r` and leaves `μ`. -/
structure Upheld (env : Env) (s : Specification) (slots : Slots) (r : Except Unwind Value)
    (μ : Machine) : Prop where
  demanded : ∀ i t, s.throws[i]? = some t → slots.get? i = some (.bool true) →
    (∀ v, r ≠ .ok v) ∧
      ∀ e, r = .error (.throw e) → env.isSubtype (μ.classOf e) t.exception = true
  licensed : ∀ e, r = .error (.throw e) →
    (∃ t ∈ s.throws, env.isSubtype (μ.classOf e) t.exception = true) →
    (∃ i t, s.throws[i]? = some t ∧ env.isSubtype (μ.classOf e) t.exception = true ∧
      (slots.get? i = some (.bool true) ∨ slots.get? i = none)) ∨
    ∃ t ∈ s.mayThrow, env.isSubtype (μ.classOf e) t.exception = true

section

variable {env : Env} {s : Specification} {slots : Slots} {μ : Machine}

theorem upheld_throw {e : Ref} :
    Upheld env s slots (.error (.throw e)) μ ↔ Fits env s slots (μ.classOf e) := by
  constructor
  · intro h
    exact ⟨fun i t ht hi => (h.demanded i t ht hi).2 e rfl, h.licensed e rfl⟩
  · intro h
    refine ⟨fun i t ht hi => ⟨by simp, fun e' he' => ?_⟩, fun e' he' => ?_⟩
    · cases he'
      exact h.demanded i t ht hi
    · cases he'
      exact h.licensed

theorem upheld_ok {v : Value} :
    Upheld env s slots (.ok v) μ ↔
      ∀ i t, s.throws[i]? = some t → slots.get? i ≠ some (.bool true) := by
  constructor
  · intro h i t ht hi
    exact (h.demanded i t ht hi).1 v rfl
  · intro h
    exact ⟨fun i t ht hi => absurd hi (h i t ht), fun e he => absurd he (by simp)⟩

theorem upheld_of_stop {u : Unwind} (h : ∀ e, u ≠ .throw e) :
    Upheld env s slots (.error u) μ :=
  ⟨fun _ _ _ _ => ⟨by simp, fun e he => absurd (Except.error.inj he) (h e)⟩,
    fun e he => absurd (Except.error.inj he) (h e)⟩

/-- The depth of calls plays no part in it. -/
theorem upheld_leave {r : Except Unwind Value} :
    Upheld env s slots r μ.leave ↔ Upheld env s slots r μ :=
  ⟨fun h => ⟨h.demanded, h.licensed⟩, fun h => ⟨h.demanded, h.licensed⟩⟩

/-! ## What the check of an exit decides -/

/-- The clauses as the exits see them. -/
def throwsChecks (s : Specification) : List ThrowsCheck :=
  (s.throws.zip s.throwsSlots).map fun (t, slot) => ⟨t.exception, slot, t.condition⟩

theorem mem_throwsChecks (hs : s.throwsSlots = List.range s.throws.length) {c : ThrowsCheck} :
    c ∈ throwsChecks s ↔ ∃ i t, s.throws[i]? = some t ∧ c = ⟨t.exception, i, t.condition⟩ := by
  rw [throwsChecks, hs, List.mem_map]
  constructor
  · rintro ⟨⟨t, i⟩, hmem, rfl⟩
    obtain ⟨j, hj⟩ := List.mem_iff_getElem?.mp hmem
    rw [List.getElem?_zip_eq_some] at hj
    obtain ⟨ht, hi⟩ := hj
    rw [List.getElem?_range (List.getElem?_eq_some_iff.mp ht).1] at hi
    obtain rfl := Option.some.inj hi
    exact ⟨j, t, ht, rfl⟩
  · rintro ⟨i, t, ht, rfl⟩
    refine ⟨(t, i), List.mem_iff_getElem?.mpr ⟨i, ?_⟩, rfl⟩
    rw [List.getElem?_zip_eq_some]
    exact ⟨ht, List.getElem?_range (List.getElem?_eq_some_iff.mp ht).1⟩

theorem brokenThrows?_normal (hs : s.throwsSlots = List.range s.throws.length)
    (mayThrow : List String) :
    Run.brokenThrows? env slots none (throwsChecks s) mayThrow = none ↔
      ∀ i t, s.throws[i]? = some t → slots.get? i ≠ some (.bool true) := by
  rw [Run.brokenThrows?]
  simp only [Option.map_eq_none_iff, List.head?_eq_none_iff, List.filter_eq_nil_iff]
  constructor
  · intro h i t ht hi
    refine h _ ((mem_throwsChecks hs).mpr ⟨i, t, ht, rfl⟩) ?_
    simp [ThrowsCheck.held, hi]
  · intro h c hc hheld
    obtain ⟨i, t, ht, rfl⟩ := (mem_throwsChecks hs).mp hc
    exact h i t ht (by simpa [ThrowsCheck.held] using hheld)

theorem find?_held_eq_none (hs : s.throwsSlots = List.range s.throws.length) {c : String} :
    ((throwsChecks s).filter (ThrowsCheck.held slots)).find? (!env.isSubtype c ·.exception) = none ↔
      ∀ i t, s.throws[i]? = some t → slots.get? i = some (.bool true) →
        env.isSubtype c t.exception = true := by
  rw [List.find?_eq_none]
  constructor
  · intro h i t ht hi
    have hmem : (⟨t.exception, i, t.condition⟩ : ThrowsCheck) ∈
        (throwsChecks s).filter (ThrowsCheck.held slots) := by
      refine List.mem_filter.mpr ⟨(mem_throwsChecks hs).mpr ⟨i, t, ht, rfl⟩, ?_⟩
      simp [ThrowsCheck.held, hi]
    simpa using h _ hmem
  · intro h x hx
    obtain ⟨hx, hheld⟩ := List.mem_filter.mp hx
    obtain ⟨i, t, ht, rfl⟩ := (mem_throwsChecks hs).mp hx
    have := h i t ht (by simpa [ThrowsCheck.held] using hheld)
    simpa using this

/-- The clauses that are about exceptions of a class and of which `p` holds. -/
theorem any_about (hs : s.throwsSlots = List.range s.throws.length) {c : String}
    (p : ThrowsCheck → Bool) :
    (((throwsChecks s).filter (env.isSubtype c ·.exception)).any p = true) ↔
      ∃ i t, s.throws[i]? = some t ∧ env.isSubtype c t.exception = true ∧
        p ⟨t.exception, i, t.condition⟩ = true := by
  rw [List.any_eq_true]
  constructor
  · rintro ⟨x, hx, hp⟩
    obtain ⟨hx, hc⟩ := List.mem_filter.mp hx
    obtain ⟨i, t, ht, rfl⟩ := (mem_throwsChecks hs).mp hx
    exact ⟨i, t, ht, hc, hp⟩
  · rintro ⟨i, t, ht, hc, hp⟩
    exact ⟨_, List.mem_filter.mpr ⟨(mem_throwsChecks hs).mpr ⟨i, t, ht, rfl⟩, hc⟩, hp⟩

theorem about_eq_nil (hs : s.throwsSlots = List.range s.throws.length) {c : String} :
    (throwsChecks s).filter (env.isSubtype c ·.exception) = [] ↔
      ¬ ∃ t ∈ s.throws, env.isSubtype c t.exception = true := by
  rw [List.filter_eq_nil_iff]
  constructor
  · rintro h ⟨t, ht, hc⟩
    obtain ⟨i, hi⟩ := List.mem_iff_getElem?.mp ht
    exact h _ ((mem_throwsChecks hs).mpr ⟨i, t, hi, rfl⟩) hc
  · intro h x hx hc
    obtain ⟨i, t, ht, rfl⟩ := (mem_throwsChecks hs).mp hx
    exact h ⟨t, List.mem_iff_getElem?.mpr ⟨i, ht⟩, hc⟩

/-- The check of an exceptional exit finds nothing exactly if the exception fits. -/
theorem brokenThrows?_exceptional (hs : s.throwsSlots = List.range s.throws.length)
    (c : String) :
    Run.brokenThrows? env slots (some c) (throwsChecks s) (s.mayThrow.map (·.exception)) = none ↔
      Fits env s slots c := by
  simp only [Run.brokenThrows?]
  split
  · next x hx =>
      constructor
      · intro h
        exact absurd h (by simp)
      · intro h
        exact absurd ((find?_held_eq_none hs).mpr h.demanded) (by rw [hx]; simp)
  · next hx =>
      have hdemanded := (find?_held_eq_none hs).mp hx
      have hreason : ((((throwsChecks s).filter (env.isSubtype c ·.exception)).any
          (ThrowsCheck.unknown slots) || ((throwsChecks s).filter
          (env.isSubtype c ·.exception)).any (ThrowsCheck.held slots) ||
          (s.mayThrow.map (·.exception)).any (env.isSubtype c)) = true) ↔
        ((∃ i t, s.throws[i]? = some t ∧ env.isSubtype c t.exception = true ∧
          (slots.get? i = some (.bool true) ∨ slots.get? i = none)) ∨
          ∃ t ∈ s.mayThrow, env.isSubtype c t.exception = true) := by
        rw [Bool.or_eq_true, Bool.or_eq_true, any_about hs, any_about hs]
        simp only [ThrowsCheck.unknown, ThrowsCheck.held, Option.isNone_iff_eq_none, beq_iff_eq,
          List.any_map, List.any_eq_true, Function.comp_apply]
        constructor
        · rintro ((⟨i, t, ht, hc, hi⟩ | ⟨i, t, ht, hc, hi⟩) | hm)
          · exact Or.inl ⟨i, t, ht, hc, Or.inr hi⟩
          · exact Or.inl ⟨i, t, ht, hc, Or.inl hi⟩
          · exact Or.inr hm
        · rintro (⟨i, t, ht, hc, hi | hi⟩ | hm)
          · exact Or.inl (Or.inr ⟨i, t, ht, hc, hi⟩)
          · exact Or.inl (Or.inl ⟨i, t, ht, hc, hi⟩)
          · exact Or.inr hm
      split
      · next hlicensed => exact iff_of_true rfl ⟨hdemanded, fun _ => hreason.mp hlicensed⟩
      · next hunlicensed =>
          rw [Option.map_eq_none_iff, List.head?_eq_none_iff, about_eq_nil hs]
          constructor
          · intro habout
            exact ⟨hdemanded, fun h => absurd h habout⟩
          · intro h habout
            exact hunlicensed (hreason.mpr (h.licensed habout))

end

end Contract

namespace Run

/-! ## An activation before its exit -/

/-- The first part of an activation: the entry checks, and unless one of them stops early the body.
Yields the frame, which has the entry values, and how the way to the exit ended. -/
def arrive (p : WovenProgram) (calls : Calls) (m : MethodInfo) (this : Option Ref)
    (args : List Value) : Run (Frame × Except Unwind Flow) := do
  let f := { Frame.start m.id this args with scopes := paramScopes m args }
  let (entered, slots) ← withState (runCodes p.env calls f (p.codesAt m.id .entry)) .empty
  let f := { f with slots }
  match entered with
  | .ok () =>
    let (completed, scopes) ← withState (runBody p.env calls f m) f.scopes
    return ({ f with scopes }, completed)
  | .error u => return (f, .error u)

theorem activate_eq (p : WovenProgram) (calls : Calls) (m : MethodInfo) (this : Option Ref)
    (args : List Value) :
    activate p calls m this args =
      arrive p calls m this args >>= fun (f, c) => leave p calls f c := by
  refine ext_ends fun μ => ?_
  simp only [activate, arrive, ends_bind, ends_withState]
  cases RunWith.ends _ Table.empty μ with
  | none => rfl
  | some o =>
      obtain ⟨⟨entered, slots⟩, μ₁⟩ := o
      cases entered with
      | error u => rfl
      | ok _ =>
          simp only [Option.map_some, Option.bind_some, ends_bind, ends_withState]
          cases RunWith.ends _ _ μ₁ with
          | none => rfl
          | some o => rfl

/-- The way to the exit does not stop early itself: it hands over how it ended. -/
theorem arrive_ok {p : WovenProgram} {calls : Calls} {m : MethodInfo} {this : Option Ref}
    {args : List Value} {μ μ₁ : Machine} {o : Except Unwind (Frame × Except Unwind Flow)}
    (h : (arrive p calls m this args).ends μ = some (o, μ₁)) :
    ∃ f c, o = .ok (f, c) ∧ f.decl = m.id ∧ f.thrown = none := by
  obtain ⟨entered, slots, μ₂, _, h⟩ := ends_withState_bind.mp h
  cases entered with
  | error u =>
      cases h
      exact ⟨_, _, rfl, rfl, rfl⟩
  | ok _ =>
      obtain ⟨completed, scopes, _, _, h⟩ := ends_withState_bind.mp h
      cases h
      exact ⟨_, _, rfl, rfl, rfl⟩

/-! ## The two exits -/

theorem ends_checkThrows (env : Env) (f : Frame) (checks : List ThrowsCheck)
    (mayThrow : List String) (μ : Machine) :
    (checkThrows env f checks mayThrow).ends μ =
      match brokenThrows? env f.slots (f.thrown.map μ.classOf) checks mayThrow with
      | none => some (.ok (), μ)
      | some (t, detail) =>
        some (.error (.violation
          (exitViolation env .exceptionalPostcondition f t.clause detail)), μ) := by
  obtain ⟨decl, this, args, scopes, slots, result, exit, thrown⟩ := f
  cases thrown with
  | none =>
      simp only [checkThrows, Option.map_none, ends_bind, ends_pure, Option.bind_some]
      split <;> simp_all
  | some e =>
      simp only [checkThrows, Option.map_some, ends_bind]
      have hclass : (some <$> classOf e).ends μ = some (.ok (some (μ.classOf e)), μ) := rfl
      rw [hclass]
      simp only [Option.bind_some]
      split <;> simp_all

variable {p : WovenProgram} {calls : Calls} {f : Frame} {s : Specification} {posts : Bool}
  {μ μ' : Machine} {r : Except Unwind Value}

/-- The check of the clauses about exceptions, where it stands last at an exit. -/
theorem ends_throwsCode {c : Except Unwind Unit} {slots : Slots}
    (h : (runCodes p.env calls f [Contract.throwsCode s]).ends f.slots μ =
      some ((c, slots), μ')) :
    (∃ v, c = .error (.violation v)) ∨
      c = .ok () ∧ μ' = μ ∧
        brokenThrows? p.env f.slots (f.thrown.map μ.classOf) (Contract.throwsChecks s)
          (s.mayThrow.map (·.exception)) = none := by
  have hcheck : (runCode p.env calls f (Contract.throwsCode s)).ends f.slots μ =
      some ((c, slots), μ') := by
    rcases RunWith.ends_bind_eq_some.mp h with ⟨u, h₁, rfl⟩ | ⟨_, _, _, h₁, h₂⟩
    · exact h₁
    · cases h₂
      exact h₁
  rw [Contract.throwsCode, runCode, RunWith.ends_withSlots_eq_some, ends_checkThrows] at hcheck
  obtain ⟨hcheck, _⟩ := hcheck
  change (match brokenThrows? p.env f.slots (f.thrown.map μ.classOf) (Contract.throwsChecks s)
      (s.mayThrow.map (·.exception)) with
    | none => _
    | some (t, detail) => _) = _ at hcheck
  split at hcheck
  · next hb =>
      cases hcheck
      exact Or.inr ⟨rfl, rfl, hb⟩
  · cases hcheck
    exact Or.inl ⟨_, rfl⟩

/-- What a member comes to that leaves by its exceptional exit. -/
theorem ends_leave_throw {e : Ref}
    (hcodes : p.codesAt f.decl .exceptionalExit = [Contract.throwsCode s])
    (h : (leave p calls f (.error (.throw e))).ends μ = some (r, μ')) :
    (∃ v, r = .error (.violation v)) ∨
      r = .error (.throw e) ∧ μ' = μ ∧
        brokenThrows? p.env f.slots (some (μ.classOf e)) (Contract.throwsChecks s)
          (s.mayThrow.map (·.exception)) = none := by
  obtain ⟨c, s', μ₁, hc, hend⟩ := ends_withState_bind.mp h
  rw [hcodes] at hc
  rcases ends_throwsCode hc with ⟨v, rfl⟩ | ⟨rfl, rfl, hb⟩
  · cases hend
    exact Or.inl ⟨v, rfl⟩
  · cases hend
    exact Or.inr ⟨rfl, rfl, hb⟩

/-- What a member comes to that leaves by its normal exit: a postcondition may stop it, and behind
the postconditions the clauses about exceptions may. -/
theorem ends_leave_flow {flow : Flow} (hthrown : f.thrown = none)
    (hcodes : p.codesAt f.decl .normalExit =
      Contract.listIf posts (.postcondition s.postconditions) ++ [Contract.throwsCode s])
    (h : (leave p calls f (.ok flow)).ends μ = some (r, μ')) :
    (∃ u, r = .error u ∧
      (checkPostcondition p.env calls (Frame.returning f flow) s.postconditions).ends μ =
        some (.error u, μ')) ∨
    (∃ v, r = .error (.violation v)) ∨
    (∃ v, r = .ok v) ∧
      brokenThrows? p.env f.slots none (Contract.throwsChecks s)
        (s.mayThrow.map (·.exception)) = none := by
  obtain ⟨f', hf'⟩ : ∃ f', f' = Frame.returning f flow := ⟨_, rfl⟩
  have hdecl : f.decl = f'.decl := by subst hf'; cases flow <;> rfl
  have hslots : f.slots = f'.slots := by subst hf'; cases flow <;> rfl
  have hthrown : f'.thrown = none := by subst hf'; cases flow <;> exact hthrown
  rw [← hf', hslots]
  simp only [leave, ← hf'] at h
  obtain ⟨c, s', μ₁, hc, hend⟩ := ends_withState_bind.mp h
  rw [← hdecl, hcodes] at hc
  -- Behind the postconditions only the clauses about exceptions are left.
  have last {μ₀ : Machine} (hc : (runCodes p.env calls f' [Contract.throwsCode s]).ends f'.slots μ₀ =
      some ((c, s'), μ₁)) : (∃ v, r = .error (.violation v)) ∨ (∃ v, r = .ok v) ∧
        brokenThrows? p.env f'.slots none (Contract.throwsChecks s)
          (s.mayThrow.map (·.exception)) = none := by
    rcases ends_throwsCode hc with ⟨v, rfl⟩ | ⟨rfl, rfl, hb⟩
    · cases hend
      exact Or.inl ⟨v, rfl⟩
    · cases hend
      rw [hthrown] at hb
      exact Or.inr ⟨⟨_, rfl⟩, hb⟩
  cases posts with
  | false => exact Or.inr (last hc)
  | true =>
      rcases RunWith.ends_bind_eq_some.mp hc with ⟨u, hpost, rfl⟩ | ⟨_, s₁, μ₂, hpost, hrest⟩
      · rw [runCode, RunWith.ends_withSlots_eq_some] at hpost
        obtain ⟨hpost, rfl⟩ := hpost
        cases hend
        exact Or.inl ⟨u, rfl, hpost⟩
      · rw [runCode, RunWith.ends_withSlots_eq_some] at hpost
        obtain ⟨_, rfl⟩ := hpost
        exact Or.inr (last hrest)

/-- Whether the evaluation of a postcondition threw the exception that leaves a member, where the
way to the exit ended with `c` in the frame `f`. -/
def ThrownByPostcondition (p : WovenProgram) (calls : Calls) (s : Specification) (f : Frame)
    (c : Except Unwind Flow) (μ : Machine) (e : Ref) : Prop :=
  ∃ flow μ', c = .ok flow ∧
    (checkPostcondition p.env calls (Frame.returning f flow) s.postconditions).ends μ =
      some (.error (.throw e), μ')

/-- Once a member has arrived at an exit, its contract about exceptions is upheld exactly if it fits
whatever a postcondition throws there. -/
theorem upheld_leave_iff {c : Except Unwind Flow} (hthrown : f.thrown = none)
    (hslots : s.throwsSlots = List.range s.throws.length)
    (hnormal : p.codesAt f.decl .normalExit =
      Contract.listIf posts (.postcondition s.postconditions) ++ [Contract.throwsCode s])
    (hexceptional : p.codesAt f.decl .exceptionalExit = [Contract.throwsCode s])
    (h : (leave p calls f c).ends μ = some (r, μ')) :
    Contract.Upheld p.env s f.slots r μ' ↔
      ∀ e, r = .error (.throw e) → ThrownByPostcondition p calls s f c μ e →
        Contract.Fits p.env s f.slots (μ'.classOf e) := by
  have hforward (hup : Contract.Upheld p.env s f.slots r μ') (e : Ref)
      (he : r = .error (.throw e)) : Contract.Fits p.env s f.slots (μ'.classOf e) := by
    subst he
    exact Contract.upheld_throw.mp hup
  refine ⟨fun hup e he _ => hforward hup e he, fun hfits => ?_⟩
  cases c with
  | ok flow =>
      rcases ends_leave_flow hthrown hnormal h with ⟨u, rfl, hpost⟩ | ⟨v, rfl⟩ | ⟨⟨v, rfl⟩, hb⟩
      · cases u with
        | throw e => exact Contract.upheld_throw.mpr (hfits e rfl ⟨flow, μ', rfl, hpost⟩)
        | violation v => exact Contract.upheld_of_stop (by simp)
        | fatal e => exact Contract.upheld_of_stop (by simp)
      · exact Contract.upheld_of_stop (by simp)
      · exact Contract.upheld_ok.mpr ((Contract.brokenThrows?_normal hslots _).mp hb)
  | error u =>
      cases u with
      | throw e =>
          rcases ends_leave_throw hexceptional h with ⟨v, rfl⟩ | ⟨rfl, rfl, hb⟩
          · exact Contract.upheld_of_stop (by simp)
          · exact Contract.upheld_throw.mpr ((Contract.brokenThrows?_exceptional hslots _).mp hb)
      | violation v =>
          cases h
          exact Contract.upheld_of_stop (by simp)
      | fatal e =>
          cases h
          exact Contract.upheld_of_stop (by simp)

/-- Every invocation of a member whose checks of exceptions are placed, on every machine, is refused
for its depth, or it arrives at an exit with entry values for which its contract about exceptions is
upheld, unless the evaluation of a postcondition throws an exception that does not fit. -/
theorem exceptional_contract_iff {source : String} {checks : Checks} {b : Build}
    (hb : build source checks = .ok b) (hx : checks.exceptional = true) {id : DeclId}
    {s : Specification} (hs : b.plan.specs.get? id = some s) (ht : s.throws ≠ [])
    {m : MethodInfo} (hm : b.program.env.method? id = some m) {limit n : Nat}
    {this : Option Ref} {args : List Value} {μ μ' : Machine} {r : Except Unwind Value}
    (hr : ((Run.calls b.program limit (n + 1)).invoke id this args).ends μ = some (r, μ')) :
    (limit ≤ μ.depth ∧ r = .error (.fatal (.recursionLimit m.qualifiedName limit))) ∨
      ∃ f c μ₁, (arrive b.program (Run.calls b.program limit n) m this args).ends μ.enter =
          some (.ok (f, c), μ₁) ∧
        (Contract.Upheld b.program.env s f.slots r μ' ↔
          ∀ e, r = .error (.throw e) →
            ThrownByPostcondition b.program (Run.calls b.program limit n) s f c μ₁ e →
              Contract.Fits b.program.env s f.slots (μ'.classOf e)) := by
  change (invokeWith b.program limit (Run.calls b.program limit n) id this args).ends μ = _ at hr
  simp only [invokeWith, hm, ends_bind, ends_get, Option.bind_some] at hr
  by_cases hd : limit ≤ μ.depth
  · rw [if_pos hd] at hr
    cases hr
    exact Or.inl ⟨hd, rfl⟩
  · rw [if_neg hd, ends_deeper, Option.map_eq_some_iff] at hr
    obtain ⟨⟨r', μ₂⟩, hr, heq⟩ := hr
    cases heq
    rw [activate_eq, ends_bind_eq_some] at hr
    rcases hr with ⟨u, hstop, _⟩ | ⟨⟨f, c⟩, μ₁, harrive, hleave⟩
    · obtain ⟨_, _, habsurd, _⟩ := arrive_ok hstop
      exact absurd habsurd (by simp)
    · refine Or.inr ⟨f, c, μ₁, harrive, ?_⟩
      obtain ⟨_, _, heq, hdecl, hthrown⟩ := arrive_ok harrive
      cases heq
      have hid : f.decl = id := hdecl.trans ((methodsKeyed_of_build hb).id_eq hm)
      have hexceptional : (checks.exceptional && !s.throws.isEmpty) = true := by
        simp [hx, ht]
      obtain ⟨_, _, s₀, _, _, _, rfl, _⟩ := specs_of_build hb hs
      have hnormal : b.program.codesAt f.decl .normalExit = Contract.listIf
          (checks.postconditions && !(Contract.scheduleOne s₀).1.postconditions.isEmpty)
          (.postcondition (Contract.scheduleOne s₀).1.postconditions) ++
            [Contract.throwsCode (Contract.scheduleOne s₀).1] := by
        rw [hid, codesAt_of_build hb id (by simp), hs, Option.elim, memberCodes_normalExit,
          hexceptional]
        rfl
      have hexits : b.program.codesAt f.decl .exceptionalExit =
          [Contract.throwsCode (Contract.scheduleOne s₀).1] := by
        rw [hid, codesAt_of_build hb id (by simp), hs, Option.elim, memberCodes_exceptionalExit,
          hexceptional]
        rfl
      rw [Contract.upheld_leave]
      refine upheld_leave_iff hthrown ?_ hnormal hexits hleave
      show List.range (List.map _ s₀.throws).length = _
      rw [List.length_map]
      rfl

/-! ## A way around the contract -/

/-- A member that has to throw one exception while the evaluation of its postcondition throws
another. -/
def evasiveSource : String :=
  "class Main {
    /** @throws IllegalStateException | true
     *  @post | 1 / 0 == 0 */
    static int f() { return 0; }
  }"

/-- The exception that a computation ended with. -/
def thrown? : Except Unwind Value → Option Ref
  | .error (.throw e) => some e
  | _ => none

theorem thrown?_eq_some {r : Except Unwind Value} {e : Ref} (h : thrown? r = some e) :
    r = .error (.throw e) := by
  cases r with
  | ok v => cases h
  | error u =>
      cases u with
      | throw e' =>
          cases h
          rfl
      | violation _ | fatal _ => cases h

/-- Evaluates what is said of `evasiveSource`. -/
def evasiveCheck : Option Bool := do
  let b ← (build evasiveSource {}).toOption
  let s ← b.plan.specs.get? 1
  let m ← b.program.env.method? 1
  let t ← s.throws[0]?
  let a ← (arrive b.program (Run.calls b.program 8 2) m none []).ends Machine.initial.enter
  let (f, _) ← a.1.toOption
  let o ← ((Run.calls b.program 8 3).invoke 1 none []).ends .initial
  let e ← thrown? o.1
  some (f.slots.get? 0 == some (.bool true)
    && !b.program.env.isSubtype (o.2.classOf e) t.exception)

/-- The condition is true at entry, and what leaves the member is no exception of the class. -/
theorem evasiveSource_run :
    ∃ b s m t e f c μ₁ μ₂, build evasiveSource {} = .ok b ∧ b.plan.specs.get? 1 = some s ∧
      b.program.env.method? 1 = some m ∧ s.throws[0]? = some t ∧
      (arrive b.program (Run.calls b.program 8 2) m none []).ends Machine.initial.enter =
        some (.ok (f, c), μ₁) ∧
      ((Run.calls b.program 8 3).invoke 1 none []).ends .initial =
        some (.error (.throw e), μ₂) ∧
      f.slots.get? 0 = some (.bool true) ∧
      b.program.env.isSubtype (μ₂.classOf e) t.exception = false := by
  have h : evasiveCheck = some true := by
    set_option maxRecDepth 20000 in
    rw [evasiveCheck, show evasiveSource = String.ofList _ from rfl, build_ofList]
    decide +kernel
  simp only [evasiveCheck, Option.bind_eq_bind, Option.bind_eq_some_iff] at h
  obtain ⟨b, hb, s, hs, m, hm, t, ht, ⟨a, μ₁⟩, ha, ⟨f, c⟩, hf, ⟨o, μ₂⟩, ho, e, he, h⟩ := h
  cases a with
  | error u => exact absurd hf (by simp [Except.toOption])
  | ok fc =>
      obtain rfl : fc = (f, c) := by simpa [Except.toOption] using hf
      obtain rfl := thrown?_eq_some he
      rw [Option.some.injEq, Bool.and_eq_true, beq_iff_eq, Bool.not_eq_true'] at h
      have hb : build evasiveSource {} = .ok b := by
        cases hbuild : build evasiveSource {} <;> simp_all [Except.toOption]
      exact ⟨b, s, m, t, e, f, c, μ₁, μ₂, hb, hs, hm, ht, ha, ho, h.1, h.2⟩

theorem exceptional_contract_iff_evasive :
    ∃ b s m r μ', build evasiveSource {} = .ok b ∧ b.plan.specs.get? 1 = some s ∧
      s.throws ≠ [] ∧ b.program.env.method? 1 = some m ∧
      ((Run.calls b.program 8 3).invoke 1 none []).ends .initial = some (r, μ') ∧
      ∃ f c μ₁, (arrive b.program (Run.calls b.program 8 2) m none []).ends
          Machine.initial.enter = some (.ok (f, c), μ₁) ∧
        (Contract.Upheld b.program.env s f.slots r μ' ↔
          ∀ e, r = .error (.throw e) →
            ThrownByPostcondition b.program (Run.calls b.program 8 2) s f c μ₁ e →
              Contract.Fits b.program.env s f.slots (μ'.classOf e)) := by
  obtain ⟨b, s, m, t, e, f, c, μ₁, μ₂, hb, hs, hm, ht, ha, ho, _, _⟩ := evasiveSource_run
  have hne : s.throws ≠ [] := by
    rintro hnil
    exact absurd ht (by simp [hnil])
  refine ⟨b, s, m, _, μ₂, hb, hs, hne, hm, ho, ?_⟩
  rcases exceptional_contract_iff hb rfl hs hne hm ho with ⟨_, h⟩ | h
  · exact absurd h (by simp)
  · exact h

/-- So the contract is not upheld by every invocation. -/
theorem exceptional_contract_evaded :
    ∃ b s m f c μ₁ r μ₂, build evasiveSource {} = .ok b ∧ b.plan.specs.get? 1 = some s ∧
      s.throws ≠ [] ∧ b.program.env.method? 1 = some m ∧
      (arrive b.program (Run.calls b.program 8 2) m none []).ends Machine.initial.enter =
        some (.ok (f, c), μ₁) ∧
      ((Run.calls b.program 8 3).invoke 1 none []).ends .initial = some (r, μ₂) ∧
      ¬ Contract.Upheld b.program.env s f.slots r μ₂ := by
  obtain ⟨b, s, m, t, e, f, c, μ₁, μ₂, hb, hs, hm, ht, ha, ho, hslot, hclass⟩ := evasiveSource_run
  have hne : s.throws ≠ [] := by
    rintro hnil
    exact absurd ht (by simp [hnil])
  refine ⟨b, s, m, f, c, μ₁, _, μ₂, hb, hs, hne, hm, ha, ho, fun hup => ?_⟩
  have hsub := (hup.demanded 0 t ht hslot).2 e rfl
  rw [hclass] at hsub
  exact absurd hsub (by simp)

end Run

end Covenant
