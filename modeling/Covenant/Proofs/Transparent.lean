import Covenant.Proofs.CallScopes
import Covenant.Proofs.Refinement
import Covenant.Proofs.Traceless

/-!
# Checks are transparent

`settledRun` is the run with checks in which every check has to complete: if a
clause is false or throws, or the way to an object does not lead there, there is
no result. As long as the clauses contain no calls and creations, a result of it
is the result of the run with checks, and `checks_transparent` says that it is
also that of the run without any.

Clauses are not all that a check runs. The way to an object behind a call can go
through accessors, and nothing keeps an accessor from writing. So the accessors
on the way have to be `undisturbing`: `accessor_leaves_trace` is a program in
which one is not.
-/

namespace Covenant

open Typed (Expr Stmt)

/-! ## Bodies read no entry values -/

namespace Typing

mutual

theorem ElabStmt.slotNumbers {k : BodyKind} {s s' : Scope} {c : Surface.Stmt} {t : Stmt}
    {cs : List CallSite} (h : ElabStmt k s c t s' cs) : t.slotNumbers = [] := by
  cases h with
  | declare | retVoid => rfl
  | declareInit _ hv | setVar hv | setStatic hv | expr hv | ret _ hv | throw hv =>
      exact hv.slotNumbers
  | setField hv ht =>
      have ho := ht.slotNumbers
      rw [Stmt.slotNumbers, hv.slotNumbers]
      exact (List.append_nil _).trans ho
  | setIndex hv ht =>
      have hai := ht.slotNumbers
      rw [Stmt.slotNumbers, hv.slotNumbers, List.append_nil]
      exact hai
  | branch hc _ ha hb =>
      rw [Stmt.slotNumbers, hc.slotNumbers, ha.slotNumbers, hb.slotNumbers]
      rfl
  | loop hc _ hb =>
      rw [Stmt.slotNumbers, hc.slotNumbers, hb.slotNumbers]
      rfl
  | attempt hb hh hc =>
      rw [Stmt.slotNumbers, hb.slotNumbers, hh.slotNumbers, hc.slotNumbers]
      rfl
  | block hb =>
      rw [Stmt.slotNumbers, hb.slotNumbers]

theorem ElabElse.slotNumbers {k : BodyKind} {s : Scope} {c : Option Surface.Stmt}
    {t : Option Stmt} {cs : List CallSite} (h : ElabElse k s c t cs) :
    Typed.elseSlotNumbers t = [] := by
  cases h with
  | none => rfl
  | some hb =>
      rw [Typed.elseSlotNumbers, hb.slotNumbers]

theorem ElabStmts.slotNumbers {k : BodyKind} {s : Scope} {cs : List Surface.Stmt}
    {ts : List Stmt} {ds : List CallSite} (h : ElabStmts k s cs ts ds) :
    Typed.stmtsSlotNumbers ts = [] := by
  cases h with
  | nil => rfl
  | cons hc hr =>
      rw [Typed.stmtsSlotNumbers, hc.slotNumbers, hr.slotNumbers]
      rfl

theorem ElabCleanup.slotNumbers {k : BodyKind} {s : Scope} {b : Option Surface.Block}
    {t : Option (List Stmt)} {cs : List CallSite} (h : ElabCleanup k s b t cs) :
    Typed.cleanupSlotNumbers t = [] := by
  cases h with
  | none => rfl
  | some hb =>
      rw [Typed.cleanupSlotNumbers, hb.slotNumbers]

theorem ElabHandlers.slotNumbers {k : BodyKind} {s : Scope} {hs : List Surface.Handler}
    {ts : List Typed.Handler} {cs : List CallSite} (h : ElabHandlers k s hs ts cs) :
    Typed.handlersSlotNumbers ts = [] := by
  cases h with
  | nil => rfl
  | cons _ _ hb hr =>
      rw [Typed.handlersSlotNumbers, hb.slotNumbers, hr.slotNumbers]
      rfl

end

theorem ElabBody.slotNumbers {k : BodyKind} {s : Scope} {b : List Surface.Stmt} {ts : List Stmt}
    {cs : List CallSite} (h : ElabBody k s b ts cs) : Typed.stmtsSlotNumbers ts = [] := by
  cases h with
  | plain hs => exact hs.slotNumbers
  | super _ _ _ ha _ hr =>
      rw [Typed.stmtsSlotNumbers, Stmt.slotNumbers, ha.slotNumbers, hr.slotNumbers]
      rfl

/-- The body of a member or of an initializer block reads no entry values. -/
theorem body_slotNumbers {p : Surface.Program} (hp : p.WellFormed) {env : Env}
    (h : checkProgram p = .ok env) {id : DeclId} {body : List Stmt}
    (hb : env.body? id = some body) : Typed.stmtsSlotNumbers body = [] := by
  rcases body_cases hp h hb with ⟨_, rfl⟩ | ⟨t, m, _, hmade⟩
  · rfl
  · obtain ⟨_, _, _, _, hm, _⟩ := hmade.rules
    cases hm with
    | body _ _ _ he => exact he.slotNumbers
    | block he => exact he.slotNumbers

end Typing

/-! ## Runs in which every check completes -/

namespace Run

variable {α : Type}

/-- The computation with those of its results only in which it completes. -/
def completing (x : Run α) : Run α := ExceptT.mk fun μ =>
  match x.ends μ with
  | some (.ok a, μ') => some (.ok a, μ')
  | _ => none

theorem ends_completing {x : Run α} {μ : Machine} {o : Except Unwind α × Machine} :
    (completing x).ends μ = some o ↔ x.ends μ = some o ∧ ∃ a, o.1 = .ok a := by
  show (match x.ends μ with
    | some (.ok a, μ') => some (.ok a, μ')
    | _ => none) = some o ↔ _
  split
  · next a μ' h =>
      constructor
      · rintro ⟨⟩
        exact ⟨h, a, rfl⟩
      · rintro ⟨ho, _⟩
        rw [h] at ho
        exact ho
  · next hne =>
      constructor
      · intro ho
        cases ho
      · rintro ⟨ho, a, ha⟩
        obtain ⟨r, μ'⟩ := o
        cases ha
        exact absurd ho (hne a μ')

/-- The computation with those of its results only in which it completes and leaves no trace. -/
def undisturbing (x : Run α) : Run α := ExceptT.mk fun μ =>
  match (completing x).ends μ with
  | some (r, μ') => if μ' = μ then some (r, μ') else none
  | none => none

theorem ends_undisturbing {x : Run α} {μ : Machine} {o : Except Unwind α × Machine}
    (h : (undisturbing x).ends μ = some o) : x.ends μ = some o ∧ o.2 = μ := by
  change (match (completing x).ends μ with
    | some (r, μ') => if μ' = μ then some (r, μ') else none
    | none => none) = some o at h
  split at h
  · next r μ' hx =>
      split at h
      · next hμ =>
          cases h
          exact ⟨(ends_completing.mp hx).1, hμ⟩
      · cases h
  · cases h

theorem completes_of_undisturbing {x : Run α} {μ : Machine} {o : Except Unwind α × Machine}
    (h : (undisturbing x).ends μ = some o) : ∃ a, o.1 = .ok a := by
  change (match (completing x).ends μ with
    | some (r, μ') => if μ' = μ then some (r, μ') else none
    | none => none) = some o at h
  split at h
  · next r μ' hx =>
      split at h
      · cases h
        exact (ends_completing.mp hx).2
      · cases h
  · cases h

end Run

/-- Calls that have no effect but their value. -/
def Calls.undisturbing (c : Calls) : Calls :=
  { c with invoke := fun id this args => Run.undisturbing (c.invoke id this args) }

theorem Calls.undisturbing_refines (c : Calls) : c.undisturbing.Refines c :=
  ⟨fun _ _ _ _ _ h => (Run.ends_undisturbing h).1, fun _ _ _ _ => .refl _, Nat.le_refl _⟩

namespace Run

/-- The checks of a member at a point, which have to complete. Yields the entry values. -/
def settledChecks (p : WovenProgram) (calls : Calls) (f : Frame) (point : ProgramPoint) :
    Run Slots :=
  completing do
    let (checked, slots) ← withState (runCodes p.env calls f (p.codesAt f.decl point)) f.slots
    ofResult checked
    return slots

/-- Leaves a member by checks that have to complete. -/
def settledLeave (p : WovenProgram) (calls : Calls) (f : Frame) : Except Unwind Flow → Run Value
  | .ok flow => do
    let f := Frame.returning f flow
    let _ ← settledChecks p calls f .normalExit
    return f.result
  | .error (.throw e) => do
    let _ ← settledChecks p calls { f with thrown := some e } .exceptionalExit
    stop (.throw e)
  | .error u => stop u

/-- Runs a member whose checks have to complete. -/
def settledActivate (p : WovenProgram) (calls : Calls) (m : MethodInfo) (this : Option Ref)
    (args : List Value) : Run Value := do
  let f := { Frame.start m.id this args with scopes := paramScopes m args }
  let slots ← settledChecks p calls f .entry
  let f := { f with slots }
  let (completed, scopes) ← withState (runBody p.env calls f m) f.scopes
  settledLeave p calls { f with scopes } completed

def settledInvoke (p : WovenProgram) (limit : Nat) (calls : Calls) (id : DeclId)
    (this : Option Ref) (args : List Value) : Run Value := do
  match p.env.method? id with
  | none => defect (.unknownMember id)
  | some m =>
    if limit ≤ (← get).depth then fatal (.recursionLimit m.qualifiedName limit)
    else deeper (settledActivate p calls m this args)

/-- What happens behind calls if every check has to complete. The checks behind a call go through
accessors as `accessors` says. -/
def settledCalls (p : WovenProgram) (limit : Nat) (accessors : Calls → Calls) : Nat → Calls
  | 0 => ⟨fun _ _ _ => exhausted, fun _ _ _ _ => exhausted, 0⟩
  | n + 1 => {
    invoke := fun id this args =>
      settledInvoke p limit (settledCalls p limit accessors n) id this args
    recheck := fun caller site this args => completing
      (recheckWith p (accessors (settledCalls p limit accessors n)) caller site this args)
    rounds := n }

end Run

/-- The run from an entry point in which every check has to complete. -/
def WovenProgram.settledRun (p : WovenProgram) (accessors : Calls → Calls) (limit bound : Nat)
    (entry : String) : Steps (Except RunError Outcome) :=
  match Run.findEntry p.env entry with
  | .error e => return .error e
  | .ok id => do
    let r ← ExceptT.run (Run.runFrom p.env (Run.settledCalls p limit accessors bound) id)
    Run.toOutcome r

namespace Run

variable {p q : WovenProgram} {c d : Calls}

theorem ends_settledChecks {f : Frame} {point : ProgramPoint} {μ μ' : Machine}
    {r : Except Unwind Slots} (h : (settledChecks p c f point).ends μ = some (r, μ')) :
    ∃ slots, r = .ok slots ∧
      (runCodes p.env c f (p.codesAt f.decl point)).ends f.slots μ =
        some ((.ok (), slots), μ') := by
  obtain ⟨h, slots, hr⟩ := ends_completing.mp h
  obtain ⟨checked, slots', μ₁, hcodes, h⟩ := ends_withState_bind.mp h
  rcases checked with u | _
  · cases h
    exact absurd hr (by simp)
  · cases h
    exact ⟨slots', rfl, hcodes⟩

theorem settledInvoke_refines {limit : Nat} {id : DeclId} {this : Option Ref} {args : List Value}
    (henv : q.env = p.env) (h : ∀ m, p.env.method? id = some m →
      (settledActivate p c m this args).Refines (activate q d m this args)) :
    (settledInvoke p limit c id this args).Refines (invokeWith q limit d id this args) := by
  rw [settledInvoke, invokeWith, henv]
  cases hm : p.env.method? id with
  | none => exact .refl _
  | some m =>
      refine .bind (.refl _) fun μ => ?_
      by_cases hlimit : limit ≤ μ.depth
      · simp only [hlimit, if_true]
        exact .refl _
      · simp only [hlimit, if_false]
        exact (h m hm).deeper

/-! ### The run with checks -/

theorem settledLeave_refines_leave (hc : c.Refines d) (f : Frame) (r : Except Unwind Flow) :
    (settledLeave p c f r).Refines (leave p d f r) := by
  rintro μ ⟨o, μ'⟩ h
  rcases r with (e | v | e) | flow
  · rcases ends_bind_eq_some.mp h with ⟨u, hu, _⟩ | ⟨slots, μ₁, hchecks, hend⟩
    · obtain ⟨slots, hs, _⟩ := ends_settledChecks hu
      cases hs
    · obtain ⟨slots', _, hcodes⟩ := ends_settledChecks hchecks
      rw [leave, ends_withState_bind]
      exact ⟨_, slots', μ₁, runCodes_refines hc _ _ hcodes, hend⟩
  · exact h
  · exact h
  · rcases ends_bind_eq_some.mp h with ⟨u, hu, _⟩ | ⟨slots, μ₁, hchecks, hend⟩
    · obtain ⟨slots, hs, _⟩ := ends_settledChecks hu
      cases hs
    · obtain ⟨slots', _, hcodes⟩ := ends_settledChecks hchecks
      rw [leave, ends_withState_bind]
      exact ⟨_, slots', μ₁, runCodes_refines hc _ _ hcodes, hend⟩

theorem settledActivate_refines_activate (hc : c.Refines d) (m : MethodInfo)
    (this : Option Ref) (args : List Value) :
    (settledActivate p c m this args).Refines (activate p d m this args) := by
  rintro μ ⟨o, μ'⟩ h
  rcases ends_bind_eq_some.mp h with ⟨u, hu, _⟩ | ⟨slots, μ₁, hchecks, h⟩
  · obtain ⟨slots, hs, _⟩ := ends_settledChecks hu
    cases hs
  · obtain ⟨slots', hs, hcodes⟩ := ends_settledChecks hchecks
    cases hs
    obtain ⟨completed, scopes, μ₂, hbody, hend⟩ := ends_withState_bind.mp h
    rw [activate, ends_withState_bind]
    refine ⟨_, slots, μ₁, runCodes_refines hc _ _ hcodes, ?_⟩
    rw [ends_withState_bind]
    exact ⟨completed, scopes, μ₂, runBody_refines_same hc _ m hbody,
      settledLeave_refines_leave hc _ completed hend⟩

/-- What happens in a settled run happens in the run with checks. -/
theorem settledCalls_refines_calls {limit : Nat} {accessors : Calls → Calls}
    (ha : ∀ c, (accessors c).Refines c) (n : Nat) :
    (settledCalls p limit accessors n).Refines (calls p limit n) := by
  induction n with
  | zero => exact ⟨fun _ _ _ => .refl _, fun _ _ _ _ => .refl _, Nat.le_refl 0⟩
  | succ n ih =>
      refine ⟨fun id this args => ?_, fun caller site this args => ?_, Nat.le_refl n⟩
      · exact settledInvoke_refines rfl fun m _ => settledActivate_refines_activate ih m this args
      · intro μ o h
        obtain ⟨h, _⟩ := ends_completing.mp h
        have hcalls : (accessors (settledCalls p limit accessors n)).Refines (calls p limit n) :=
          ⟨fun id this args => ((ha _).invoke id this args).trans (ih.invoke id this args),
            fun caller site this args =>
              ((ha _).recheck caller site this args).trans (ih.recheck caller site this args),
            Nat.le_trans (ha _).rounds ih.rounds⟩
        exact checkObligations_refines hcalls site this args _ h

/-! ### The run without checks -/

/-- The program with the same declarations and no checks. -/
def unchecked (p : WovenProgram) : WovenProgram := ⟨p.env, []⟩

variable (hfree : ∀ code ∈ p.checks, code.code.CallFree)

include hfree

theorem codesAt_callFree (id : DeclId) (point : ProgramPoint) :
    ∀ code ∈ p.codesAt id point, code.CallFree := by
  intro code hcode
  obtain ⟨placed, hplaced, rfl⟩ := List.mem_map.mp hcode
  exact hfree placed (List.mem_filter.mp hplaced).1

/-- A check that completes leaves the machine as it was. -/
theorem settledChecks_traceless (f : Frame) (point : ProgramPoint) :
    (settledChecks p c f point).Traceless := by
  intro μ slots μ' h
  obtain ⟨slots', _, hcodes⟩ := ends_settledChecks h
  exact runCodes_traceless (codesAt_callFree hfree f.decl point) hcodes

theorem settledLeave_refines_unchecked (f : Frame) (t : Slots) (r : Except Unwind Flow) :
    (settledLeave p c f r).Refines (leave (unchecked p) d { f with slots := t } r) := by
  rintro μ ⟨o, μ'⟩ h
  rcases r with (e | v | e) | flow
  · rcases ends_bind_eq_some.mp h with ⟨u, hu, _⟩ | ⟨slots, μ₁, hchecks, hend⟩
    · obtain ⟨slots, hs, _⟩ := ends_settledChecks hu
      cases hs
    · obtain rfl := settledChecks_traceless hfree _ _ hchecks
      exact hend
  · exact h
  · exact h
  · rcases ends_bind_eq_some.mp h with ⟨u, hu, _⟩ | ⟨slots, μ₁, hchecks, hend⟩
    · obtain ⟨slots, hs, _⟩ := ends_settledChecks hu
      cases hs
    · obtain rfl := settledChecks_traceless hfree _ _ hchecks
      cases flow with
      | normal => exact hend
      | ret v span => exact hend

theorem settledActivate_refines_unchecked (hc : c.Refines d) {m : MethodInfo}
    (hbody : ∀ body, p.env.body? m.id = some body → Typed.stmtsSlotNumbers body = [])
    (this : Option Ref) (args : List Value) :
    (settledActivate p c m this args).Refines (activate (unchecked p) d m this args) := by
  rintro μ ⟨o, μ'⟩ h
  rcases ends_bind_eq_some.mp h with ⟨u, hu, _⟩ | ⟨slots, μ₁, hchecks, h₁⟩
  · obtain ⟨slots, hs, _⟩ := ends_settledChecks hu
    cases hs
  · obtain rfl := settledChecks_traceless hfree _ _ hchecks
    obtain ⟨completed, scopes, μ₂, hrun, hend⟩ := ends_withState_bind.mp h₁
    rw [activate, ends_withState_bind]
    refine ⟨.ok (), .empty, μ₁, rfl, ?_⟩
    rw [ends_withState_bind]
    have hagrees : ∀ body, p.env.body? m.id = some body →
        AgreesOn slots .empty (Typed.stmtsSlotNumbers body) := by
      intro body hb
      rw [hbody body hb]
      exact .nil _ _
    have hsame : RunWith.Refines
        (runBody p.env c ⟨m.id, this, args, paramScopes m args, slots, .void, none, none⟩ m)
        (runBody p.env d ⟨m.id, this, args, paramScopes m args, .empty, .void, none, none⟩ m) :=
      runBody_refines hc m hagrees
    exact ⟨completed, scopes, μ₂, hsame hrun,
      settledLeave_refines_unchecked hfree _ _ completed hend⟩

/-- What happens in a settled run happens in the run without checks. -/
theorem settledCalls_refines_unchecked {limit : Nat}
    (hbodies : ∀ id body, p.env.body? id = some body → Typed.stmtsSlotNumbers body = [])
    (n : Nat) :
    (settledCalls p limit Calls.undisturbing n).Refines (calls (unchecked p) limit n) := by
  induction n with
  | zero => exact ⟨fun _ _ _ => .refl _, fun _ _ _ _ => .refl _, Nat.le_refl 0⟩
  | succ n ih =>
      refine ⟨fun id this args => ?_, fun caller site this args => ?_, Nat.le_refl n⟩
      · exact settledInvoke_refines rfl fun m _ =>
          settledActivate_refines_unchecked hfree ih (hbodies m.id) this args
      · rintro μ ⟨r, μ'⟩ h
        obtain ⟨h, _, rfl⟩ := ends_completing.mp h
        have haccessors : ∀ id this args,
            ((Calls.undisturbing (settledCalls p limit Calls.undisturbing n)).invoke id this
              args).Traceless := fun id this args μ v μ' hv => (ends_undisturbing hv).2
        have hobligations : ∀ o ∈ (p.codesAt caller (.afterCall site)).flatMap
            CheckCode.obligations, o.clause.expr.callFree = true := by
          intro o ho
          obtain ⟨code, hcode, ho⟩ := List.mem_flatMap.mp ho
          have hcf := codesAt_callFree hfree caller (.afterCall site) code hcode
          cases code with
          | reverify os => exact hcf o ho
          | _ => exact absurd ho List.not_mem_nil
        obtain rfl := checkObligations_traceless haccessors hobligations h
        rfl

end Run

/-- How a settled run ends. -/
theorem WovenProgram.settledRun_eq (p : WovenProgram) (accessors : Calls → Calls)
    (limit bound : Nat) {entry : String} {id : DeclId}
    (h : Run.findEntry p.env entry = .ok id) (μ : Machine) :
    (p.settledRun accessors limit bound entry) μ =
      ((Run.runFrom p.env (Run.settledCalls p limit accessors bound) id).ends μ).bind
        fun (r, μ') => (Run.toOutcome r) μ' := by
  rw [settledRun, h]
  rfl

/-- A settled run goes as another run goes from its entry point, if what happens behind its calls
happens there too. -/
theorem WovenProgram.run_of_settledRun {p q : WovenProgram} {accessors : Calls → Calls}
    {limit bound : Nat} {entry : String} {μ : Machine} {o : Except RunError Outcome × Machine}
    (hq : q.env = p.env)
    (hc : (Run.settledCalls p limit accessors bound).Refines (Run.calls q limit bound))
    (h : p.settledRun accessors limit bound entry μ = some o) :
    q.run limit bound entry μ = some o := by
  cases he : Run.findEntry p.env entry with
  | error e =>
      rw [settledRun, he] at h
      rw [run, hq, he]
      exact h
  | ok id =>
      rw [settledRun_eq _ _ _ _ he] at h
      obtain ⟨r, hr, hend⟩ := Option.bind_eq_some_iff.mp h
      rw [run_eq _ _ _ (hq ▸ he), hq, Run.runFrom_refines hc id hr]
      exact hend

/-- A program whose clauses contain no calls and creations, run with checks each of which completes
and whose accessors only yield values, ends as it does without checks: with the same outcome, heap
and static fields. -/
theorem checks_transparent {source : String} {checks : Checks} {b : Build}
    (h : build source checks = .ok b) {p : Surface.Program} (hp : Parse.program source = .ok p)
    (hfree : Contract.CallFree
      (Contract.bind b.program.env (Clause.ofProgram p) p.siteCount).clauses)
    (limit bound : Nat) (entry : String) {μ : Machine} {o : Except RunError Outcome × Machine}
    (hrun : b.program.settledRun Calls.undisturbing limit bound entry μ = some o) :
    b.program.run limit bound entry μ = some o ∧
      ∃ b₀, build source ⟨false, false, false, false⟩ = .ok b₀ ∧
        b₀.program.run limit bound entry μ = some o := by
  have hbodies : ∀ id body, b.program.env.body? id = some body →
      Typed.stmtsSlotNumbers body = [] := by
    obtain ⟨p', env, hp', henv, _, _, hprog⟩ := build_eq_ok h
    intro id body hb
    rw [hprog] at hb
    exact Typing.body_slotNumbers (Parse.program_wellFormed hp') henv hb
  have hchecks := checks_callFree h hp hfree
  obtain ⟨b₀, hb₀, hoff⟩ := build_off h
  refine ⟨?_, b₀, hb₀, ?_⟩
  · exact WovenProgram.run_of_settledRun rfl
      (Run.settledCalls_refines_calls Calls.undisturbing_refines bound) hrun
  · rw [hoff]
    have hcalls : (Run.settledCalls b.program limit Calls.undisturbing bound).Refines
        (Run.calls ⟨b.program.env, []⟩ limit bound) :=
      Run.settledCalls_refines_unchecked hchecks hbodies bound
    exact WovenProgram.run_of_settledRun (p := b.program) rfl hcalls hrun

/-- A program with a check at an entry and checks behind two calls. -/
def countingSource : String :=
  "/** @invar | v >= 0 */ class C { int v;
   /** @pre | n > 0
    * @mutates | this.v */ void add(int n) { v = v + n; } }
   class M { static int f() { C c = new C(); c.add(3); return c.v; } }"

theorem checks_transparent_counting :
    ∃ b p o b₀, build countingSource {} = .ok b ∧ Parse.program countingSource = .ok p ∧
      Contract.CallFree (Contract.bind b.program.env (Clause.ofProgram p) p.siteCount).clauses ∧
      b.program.settledRun Calls.undisturbing 8 4 "M.f" .initial = some o ∧
      b.program.run 8 4 "M.f" .initial = some o ∧
      build countingSource ⟨false, false, false, false⟩ = .ok b₀ ∧
      b₀.program.run 8 4 "M.f" .initial = some o := by
  have h : (do
      let b ← (build countingSource {}).toOption
      let p ← (Parse.program countingSource).toOption
      let o ← b.program.settledRun Calls.undisturbing 8 4 "M.f" .initial
      return (Contract.bind b.program.env (Clause.ofProgram p) p.siteCount).clauses.all
        (·.expr.callFree) && o.1 == .ok (.returned (.int 3))) = some true := by
    set_option maxRecDepth 20000 in
    rw [show countingSource = String.ofList _ from rfl, build_ofList, Parse.program_ofList]
    decide +kernel
  simp only [Option.bind_eq_bind, Option.bind_eq_some_iff] at h
  obtain ⟨b, hb, p, hp, o, ho, h⟩ := h
  rw [Option.pure_def, Option.some.injEq, Bool.and_eq_true, List.all_eq_true] at h
  obtain ⟨hrun, b₀, hb₀, hoff⟩ :=
    checks_transparent (ok_of_toOption hb) (ok_of_toOption hp) h.1 8 4 "M.f" ho
  exact ⟨b, p, o, b₀, ok_of_toOption hb, ok_of_toOption hp, h.1, ho, hrun, hb₀, hoff⟩

/-- A program in which the way to an object that is checked behind a call writes a static field. -/
def tracedSource : String :=
  "/** @invar | v > 0 */ class I { int v = 1;
    /** @mutates | this.v */ void set(int n) { v = n; } }
   class O { static int k; I i = new I(); I get() { k = k + 1; return i; }
    /** @mutates_properties | this */ void run() { get().set(3); } }
   class M { static int f() { O o = new O(); o.run(); return O.k; } }"

/-- Its clauses contain no calls and every check completes, yet without checks it ends with another
value. -/
theorem accessor_leaves_trace :
    ∃ b p o b₀ o₀, build tracedSource {} = .ok b ∧ Parse.program tracedSource = .ok p ∧
      Contract.CallFree (Contract.bind b.program.env (Clause.ofProgram p) p.siteCount).clauses ∧
      b.program.settledRun id 8 4 "M.f" .initial = some o ∧
      b.program.run 8 4 "M.f" .initial = some o ∧
      build tracedSource ⟨false, false, false, false⟩ = .ok b₀ ∧
      b₀.program.run 8 4 "M.f" .initial = some o₀ ∧ o.1 ≠ o₀.1 := by
  have h : (do
      let b ← (build tracedSource {}).toOption
      let p ← (Parse.program tracedSource).toOption
      let o ← b.program.settledRun id 8 4 "M.f" .initial
      let b₀ ← (build tracedSource ⟨false, false, false, false⟩).toOption
      let o₀ ← b₀.program.run 8 4 "M.f" .initial
      return (Contract.bind b.program.env (Clause.ofProgram p) p.siteCount).clauses.all
        (·.expr.callFree) && o.1 != o₀.1) = some true := by
    set_option maxRecDepth 20000 in
    rw [show tracedSource = String.ofList _ from rfl, build_ofList, build_ofList,
      Parse.program_ofList]
    decide +kernel
  simp only [Option.bind_eq_bind, Option.bind_eq_some_iff] at h
  obtain ⟨b, hb, p, hp, o, ho, b₀, hb₀, o₀, ho₀, h⟩ := h
  rw [Option.pure_def, Option.some.injEq, Bool.and_eq_true, bne_iff_ne, List.all_eq_true] at h
  have hrun := WovenProgram.run_of_settledRun rfl
    (Run.settledCalls_refines_calls (fun c => ⟨fun _ _ _ => .refl _, fun _ _ _ _ => .refl _,
      Nat.le_refl _⟩) 4) ho
  exact ⟨b, p, o, b₀, o₀, ok_of_toOption hb, ok_of_toOption hp, h.1, ho, hrun,
    ok_of_toOption hb₀, ho₀, h.2⟩

end Covenant
