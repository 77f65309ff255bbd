import Covenant.Proofs.Built
import Covenant.Proofs.CallSites
import Covenant.Proofs.Chronicles
import Covenant.Proofs.FittedBodies
import Covenant.Proofs.ParsedProgram

/-!
# Where the values of methods come from

Two facts stand behind the rule that a method with a value returns one. Statements
that exit never run off their end, whatever the environment and the calls behind
them do; and a body that is left by a `return` has run that statement, in a state
of its own, and whatever else was to do behind it was done by `finally` blocks that
ended normally. A checked body that has to return a value exits, and no `return` in
it stands without one, so both together leave only one way to end.
-/

namespace Covenant

open Typed (Stmt Handler exitsAll exitsOpt exitsHandlers)

/-! ## Normal ends of handlers and cleanups -/

namespace Run

theorem ends_catching_ok {body : RunWith Scopes Flow} {handle : Ref → RunWith Scopes Flow}
    {s s' : Scopes} {μ μ' : Machine} {flow : Flow}
    (h : (catching body handle).ends s μ = some ((.ok flow, s'), μ')) :
    body.ends s μ = some ((.ok flow, s'), μ') ∨
      ∃ e s₁ μ₁, body.ends s μ = some ((.error (.throw e), s₁), μ₁) ∧
        (handle e).ends s₁ μ₁ = some ((.ok flow, s'), μ') := by
  rw [catching, RunWith.ends_bind, RunWith.ends_observe] at h
  cases hb : body.ends s μ with
  | none => simp [hb] at h
  | some o =>
      obtain ⟨⟨r, s₁⟩, μ₁⟩ := o
      rw [hb] at h
      cases r with
      | ok flow' => exact .inl h
      | error u =>
          cases u with
          | throw e => exact .inr ⟨e, s₁, μ₁, rfl, h⟩
          | violation | fatal => cases h

/-- A statement with a `finally` block ends as it does without the block, or as the block. -/
theorem afterCleanup_ok {r c : Except Unwind Flow} {flow : Flow}
    (h : afterCleanup r c = .ok flow) :
    (r = .ok flow ∧ c = .ok .normal) ∨
      (c = .ok flow ∧ flow ≠ .normal ∧ uncatchable? r = none) := by
  rcases r with (_ | _ | _) | _ <;> rcases c with _ | _ | _ <;> cases h <;>
    simp [uncatchable?, Unwind.uncatchable?]

theorem ends_withCleanup_ok {body cleanup : RunWith Scopes Flow} {s s' : Scopes} {μ μ' : Machine}
    {flow : Flow} (h : (withCleanup body cleanup).ends s μ = some ((.ok flow, s'), μ')) :
    ∃ r c s₁ μ₁, body.ends s μ = some ((r, s₁), μ₁) ∧
      cleanup.ends s₁ μ₁ = some ((c, s'), μ') ∧ afterCleanup r c = .ok flow := by
  rw [withCleanup, RunWith.ends_bind, RunWith.ends_observe] at h
  cases hb : body.ends s μ with
  | none => simp [hb] at h
  | some o =>
      obtain ⟨⟨r, s₁⟩, μ₁⟩ := o
      rw [hb] at h
      change RunWith.ends (_ >>= _) s₁ μ₁ = _ at h
      rw [RunWith.ends_bind, RunWith.ends_observe] at h
      cases hc : cleanup.ends s₁ μ₁ with
      | none => simp [hc] at h
      | some o =>
          obtain ⟨⟨c, s₂⟩, μ₂⟩ := o
          rw [hc] at h
          obtain ⟨hends, rfl⟩ := RunWith.ends_keep_eq_some.mp h
          obtain ⟨heq, rfl⟩ := Prod.mk.inj (Option.some.inj hends)
          exact ⟨r, c, s₁, μ₁, rfl, hc, heq⟩

end Run

/-! ## Statements that exit -/

/-- Where control goes behind a computation, if that does not stop early. -/
def RunWith.Leads (x : RunWith Scopes Flow) (P : Flow → Prop) : Prop :=
  ∀ s μ flow s' μ', x.ends s μ = some ((.ok flow, s'), μ') → P flow

namespace RunWith.Leads

variable {x y : RunWith Scopes Flow} {P : Flow → Prop}

theorem bind {α : Type} {x : RunWith Scopes α} {g : α → RunWith Scopes Flow}
    (h : ∀ a, (g a).Leads P) : (x >>= g).Leads P := by
  intro s μ flow s' μ' hx
  rcases ends_bind_eq_some.mp hx with ⟨u, _, hu⟩ | ⟨a, s₁, μ₁, _, hg⟩
  · cases hu
  · exact h a _ _ _ _ _ hg

theorem inBlock {vars : Table String Value} (h : x.Leads P) : (Run.inBlock vars x).Leads P := by
  intro s μ flow s' μ' hx
  rw [ends_inBlock] at hx
  obtain ⟨⟨⟨r, s₁⟩, μ₁⟩, hx, heq⟩ := Option.map_eq_some_iff.mp hx
  cases heq
  exact h _ _ _ _ _ hx

theorem pure {flow : Flow} (h : P flow) : (pure flow : RunWith Scopes Flow).Leads P := by
  intro s μ flow' s' μ' hx
  cases hx
  exact h

theorem stop {u : Unwind} : (Run.keep (Run.stop u) : RunWith Scopes Flow).Leads P := by
  intro s μ flow s' μ' hx
  cases hx

theorem ret {v : Value} {span : Span} :
    (Pure.pure (.ret v span) : RunWith Scopes Flow).Leads (· ≠ .normal) :=
  .pure (by simp)

/-- Out of a loop whose condition never fails no way leads but a `return`. -/
theorem iterate {condition : RunWith Scopes Bool}
    (hc : ∀ s μ s' μ', condition.ends s μ ≠ some ((.ok false, s'), μ'))
    (body : RunWith Scopes Flow) : ∀ n, (Run.iterate condition body n).Leads (· ≠ .normal)
  | 0 => by
      intro s μ flow s' μ' hx
      cases hx
  | n + 1 => by
      intro s μ flow s' μ' hx
      rcases ends_bind_eq_some.mp hx with ⟨u, _, hu⟩ | ⟨b, s₁, μ₁, hb, hx⟩
      · cases hu
      · cases b with
        | false => exact absurd hb (hc _ _ _ _)
        | true =>
            rcases ends_bind_eq_some.mp hx with ⟨u, _, hu⟩ | ⟨flow₁, s₂, μ₂, _, hx⟩
            · cases hu
            · cases flow₁ with
              | normal => exact iterate hc body n _ _ _ _ _ hx
              | ret v span => exact Leads.ret _ _ _ _ _ hx

theorem catching {handle : Ref → RunWith Scopes Flow} (h : x.Leads P)
    (hh : ∀ e, (handle e).Leads P) : (Run.catching x handle).Leads P := by
  intro s μ flow s' μ' hx
  rcases Run.ends_catching_ok hx with hx | ⟨e, s₁, μ₁, _, hx⟩
  · exact h _ _ _ _ _ hx
  · exact hh e _ _ _ _ _ hx

theorem withCleanup (h : x.Leads (· ≠ .normal) ∨ y.Leads (· ≠ .normal)) :
    (Run.withCleanup x y).Leads (· ≠ .normal) := by
  intro s μ flow s' μ' hx
  obtain ⟨r, c, s₁, μ₁, hx, hy, hends⟩ := Run.ends_withCleanup_ok hx
  rcases Run.afterCleanup_ok hends with ⟨rfl, rfl⟩ | ⟨_, hne, _⟩
  · rcases h with h | h
    · exact h _ _ _ _ _ hx
    · exact absurd rfl (h _ _ _ _ _ hy)
  · exact hne

end RunWith.Leads

namespace Run

section

variable (env : Env) (calls : Calls) (f : Frame)

mutual

/-- What exits never ends normally. -/
theorem exec_exits : ∀ (st : Stmt), st.exits = true → (exec env calls f st).Leads (· ≠ .normal)
  | .ret _ value, _ => by
      rw [exec]
      exact .bind fun v => .ret
  | .throw _ value, _ => by
      rw [exec]
      exact .bind fun r => .stop
  | .block _ body, h => by
      rw [exec]
      exact .inBlock (execAll_exits body h)
  | .branch _ c a (some b), h => by
      obtain ⟨ha, hb⟩ := (Bool.and_eq_true _ _).mp h
      rw [exec]
      refine .bind fun
        | true => .inBlock (exec_exits a ha)
        | false => ?_
      simp only [Bool.false_eq_true, if_false, execElse]
      exact .inBlock (exec_exits b hb)
  | .loop _ (.bool _ true) body, _ => by
      rw [exec]
      refine .iterate (fun s μ s' μ' hc => ?_) _ _
      cases hc
  | .attempt _ body handlers cleanup, h => by
      rw [exec]
      refine .withCleanup ?_
      rcases Bool.or_eq_true_iff.mp h with h | h
      · exact .inr (execCleanup_exits cleanup h)
      · obtain ⟨hb, hh⟩ := (Bool.and_eq_true _ _).mp h
        exact .inl (.catching (.inBlock (execAll_exits body hb)) fun e =>
          .bind fun className => execHandlers_exits e className handlers hh)

theorem execAll_exits : ∀ (body : List Stmt), exitsAll body = true →
    (execAll env calls f body).Leads (· ≠ .normal)
  | [st], h => by
      have hst := exec_exits st h
      intro s μ flow s' μ' hx
      rw [execAll] at hx
      rcases RunWith.ends_bind_eq_some.mp hx with ⟨u, _, hu⟩ | ⟨flow', s₁, μ₁, hflow, hx⟩
      · cases hu
      · cases flow' with
        | normal => exact absurd rfl (hst _ _ _ _ _ hflow)
        | ret v span =>
            cases hx
            simp
  | st :: st' :: rest, h => by
      rw [execAll]
      exact .bind fun
        | .normal => execAll_exits (st' :: rest) h
        | .ret v span => .ret

theorem execHandlers_exits (e : Ref) (className : String) : ∀ (handlers : List Handler),
    exitsHandlers handlers = true → (execHandlers env calls f e className handlers).Leads (· ≠ .normal)
  | [], _ => by
      rw [execHandlers]
      exact .stop
  | .mk c var body :: rest, h => by
      obtain ⟨hbody, hrest⟩ := (Bool.and_eq_true _ _).mp h
      rw [execHandlers]
      split
      · exact .inBlock (execAll_exits body hbody)
      · exact execHandlers_exits e className rest hrest

theorem execCleanup_exits : ∀ (cleanup : Option (List Stmt)), exitsOpt cleanup = true →
    (execCleanup env calls f cleanup).Leads (· ≠ .normal)
  | some body, h => by
      rw [execCleanup]
      exact .inBlock (execAll_exits body h)

end

end

/-! ## Statements that return -/

/-- A `return` that is run: its place, what stands behind it, and the value that this has. -/
structure Returning where
  span : Span
  value : Option Typed.Expr
  result : Value

def Returning.flow (x : Returning) : Flow := .ret x.result x.span

mutual

/-- A statement that runs from a state on is left through a `return` in it. -/
inductive Returns (env : Env) (calls : Calls) (f : Frame) :
    Stmt → Scopes → Machine → Returning → Prop
  | ret {span value s μ v s' μ'}
      (evaluated : (evalOr env calls f .void value).ends s μ = some ((.ok v, s'), μ')) :
      Returns env calls f (.ret span value) s μ ⟨span, value, v⟩
  | thenBranch {span c a b s μ s₁ μ₁ x}
      (condition : (inScope f (evalBool env calls · c)).ends s μ = some ((.ok true, s₁), μ₁))
      (returns : Returns env calls f a (.empty :: s₁) μ₁ x) :
      Returns env calls f (.branch span c a b) s μ x
  | elseBranch {span c a b s μ s₁ μ₁ x}
      (condition : (inScope f (evalBool env calls · c)).ends s μ = some ((.ok false, s₁), μ₁))
      (returns : Returns env calls f b (.empty :: s₁) μ₁ x) :
      Returns env calls f (.branch span c a (some b)) s μ x
  | lastRound {span c body s μ s₁ μ₁ x}
      (condition : (inScope f (evalBool env calls · c)).ends s μ = some ((.ok true, s₁), μ₁))
      (returns : Returns env calls f body (.empty :: s₁) μ₁ x) :
      Returns env calls f (.loop span c body) s μ x
  | round {span c body s μ s₁ μ₁ s₂ μ₂ x}
      (condition : (inScope f (evalBool env calls · c)).ends s μ = some ((.ok true, s₁), μ₁))
      (normal : (inBlock .empty (exec env calls f body)).ends s₁ μ₁ =
        some ((.ok .normal, s₂), μ₂))
      (returns : Returns env calls f (.loop span c body) s₂ μ₂ x) :
      Returns env calls f (.loop span c body) s μ x
  | tried {span body handlers cleanup s μ s₁ μ₁ s₂ μ₂ x}
      (returns : ReturnsAll env calls f body (.empty :: s) μ x)
      (left : (inBlock .empty (execAll env calls f body)).ends s μ = some ((.ok x.flow, s₁), μ₁))
      (cleaned : (execCleanup env calls f cleanup).ends s₁ μ₁ = some ((.ok .normal, s₂), μ₂)) :
      Returns env calls f (.attempt span body handlers cleanup) s μ x
  | handled {span body handlers cleanup s μ e s₁ μ₁ s₂ μ₂ s₃ μ₃ x}
      (thrown : (inBlock .empty (execAll env calls f body)).ends s μ =
        some ((.error (.throw e), s₁), μ₁))
      (returns : ReturnsHandled env calls f e ((μ₁.heap.className? e).getD "") handlers s₁ μ₁ x)
      (left : (execHandlers env calls f e ((μ₁.heap.className? e).getD "") handlers).ends s₁ μ₁ =
        some ((.ok x.flow, s₂), μ₂))
      (cleaned : (execCleanup env calls f cleanup).ends s₂ μ₂ = some ((.ok .normal, s₃), μ₃)) :
      Returns env calls f (.attempt span body handlers cleanup) s μ x
  | cleanup {span body handlers final s μ r s₁ μ₁ x}
      (caught : (catching (inBlock .empty (execAll env calls f body)) fun e => do
        execHandlers env calls f e (← keep (classOf e)) handlers).ends s μ = some ((r, s₁), μ₁))
      (replaced : uncatchable? r = none)
      (returns : ReturnsAll env calls f final (.empty :: s₁) μ₁ x) :
      Returns env calls f (.attempt span body handlers (some final)) s μ x
  | block {span body s μ x} (returns : ReturnsAll env calls f body (.empty :: s) μ x) :
      Returns env calls f (.block span body) s μ x

/-- One of the statements returns, and those in front of it end normally. -/
inductive ReturnsAll (env : Env) (calls : Calls) (f : Frame) :
    List Stmt → Scopes → Machine → Returning → Prop
  | head {st rest s μ x} (returns : Returns env calls f st s μ x) :
      ReturnsAll env calls f (st :: rest) s μ x
  | tail {st rest s μ s₁ μ₁ x}
      (normal : (exec env calls f st).ends s μ = some ((.ok .normal, s₁), μ₁))
      (returns : ReturnsAll env calls f rest s₁ μ₁ x) : ReturnsAll env calls f (st :: rest) s μ x

/-- The handler that takes exceptions of the class returns. -/
inductive ReturnsHandled (env : Env) (calls : Calls) (f : Frame) :
    Ref → String → List Handler → Scopes → Machine → Returning → Prop
  | here {e className c var body rest s μ x} (takes : env.isSubtype className c = true)
      (returns : ReturnsAll env calls f body (.ofList [(var, .ref e)] :: s) μ x) :
      ReturnsHandled env calls f e className (.mk c var body :: rest) s μ x
  | later {e className c var body rest s μ x} (leaves : env.isSubtype className c = false)
      (returns : ReturnsHandled env calls f e className rest s μ x) :
      ReturnsHandled env calls f e className (.mk c var body :: rest) s μ x

end

section

variable {env : Env} {calls : Calls} {f : Frame}

theorem ends_inBlock_ok {vars : Table String Value} {x : RunWith Scopes Flow} {s s' : Scopes}
    {μ μ' : Machine} {flow : Flow}
    (h : (inBlock vars x).ends s μ = some ((.ok flow, s'), μ')) :
    ∃ s₁, x.ends (vars :: s) μ = some ((.ok flow, s₁), μ') := by
  rw [RunWith.ends_inBlock] at h
  obtain ⟨⟨⟨r, s₁⟩, μ₁⟩, hx, heq⟩ := Option.map_eq_some_iff.mp h
  cases heq
  exact ⟨s₁, hx⟩

/-- A loop that returns does so in one of its rounds. -/
theorem returns_of_iterate {span : Span} {c : Typed.Expr} {body : Stmt} {v : Value} {at_ : Span}
    (hbody : ∀ {s μ s' μ'}, (inBlock .empty (exec env calls f body)).ends s μ =
      some ((.ok (.ret v at_), s'), μ') →
        ∃ value, Returns env calls f body (.empty :: s) μ ⟨at_, value, v⟩) :
    ∀ (n : Nat) {s μ s' μ'}, (iterate (inScope f (evalBool env calls · c))
      (inBlock .empty (exec env calls f body)) n).ends s μ = some ((.ok (.ret v at_), s'), μ') →
        ∃ value, Returns env calls f (.loop span c body) s μ ⟨at_, value, v⟩
  | 0, _, _, _, _, h => by cases h
  | n + 1, _, _, _, _, h => by
      rcases RunWith.ends_bind_eq_some.mp h with ⟨u, _, hu⟩ | ⟨b, s₁, μ₁, hc, h⟩
      · cases hu
      · cases b with
        | false => cases h
        | true =>
            rcases RunWith.ends_bind_eq_some.mp h with ⟨u, _, hu⟩ | ⟨flow, s₂, μ₂, hflow, h⟩
            · cases hu
            · cases flow with
              | normal =>
                  obtain ⟨value, hreturns⟩ := returns_of_iterate hbody n h
                  exact ⟨value, .round hc hflow hreturns⟩
              | ret w span' =>
                  cases h
                  obtain ⟨value, hreturns⟩ := hbody hflow
                  exact ⟨value, .lastRound hc hreturns⟩

mutual

/-- A statement that ends with a value has come to a `return` in it. -/
theorem returns_of_exec {v : Value} {at_ : Span} : ∀ {st : Stmt} {s μ s' μ'},
    (exec env calls f st).ends s μ = some ((.ok (.ret v at_), s'), μ') →
      ∃ value, Returns env calls f st s μ ⟨at_, value, v⟩
  | .declare .., _, _, _, _, h | .setVar .., _, _, _, _, h | .setStatic .., _, _, _, _, h => by
      rw [exec] at h
      cases RunWith.Leads.bind (fun _ => .bind fun _ => .pure rfl) _ _ _ _ _ h
  | .setField .., _, _, _, _, h => by
      rw [exec] at h
      cases RunWith.Leads.bind (fun _ => .bind fun _ => .bind fun _ => .pure rfl) _ _ _ _ _ h
  | .setIndex .., _, _, _, _, h => by
      rw [exec] at h
      cases RunWith.Leads.bind (fun _ => .bind fun _ => .bind fun _ => .bind fun _ => .pure rfl)
        _ _ _ _ _ h
  | .expr .., _, _, _, _, h => by
      rw [exec] at h
      cases RunWith.Leads.bind (fun _ => .pure rfl) _ _ _ _ _ h
  | .throw .., _, _, _, _, h => by
      rw [exec] at h
      cases RunWith.Leads.bind (P := (· = .normal)) (fun _ => .stop) _ _ _ _ _ h
  | .superCall .., _, _, _, _, h => by
      rw [exec] at h
      cases h
  | .ret span value, _, _, _, _, h => by
      rw [exec] at h
      rcases RunWith.ends_bind_eq_some.mp h with ⟨u, _, hu⟩ | ⟨w, s₁, μ₁, hvalue, h⟩
      · cases hu
      · cases h
        exact ⟨value, .ret hvalue⟩
  | .branch _ c a b, _, _, _, _, h => by
      rw [exec] at h
      rcases RunWith.ends_bind_eq_some.mp h with ⟨u, _, hu⟩ | ⟨yes, s₁, μ₁, hc, h⟩
      · cases hu
      · cases yes with
        | true =>
            obtain ⟨s₂, ha⟩ := ends_inBlock_ok h
            obtain ⟨value, hreturns⟩ := returns_of_exec ha
            exact ⟨value, .thenBranch hc hreturns⟩
        | false =>
            cases b with
            | none =>
                rw [execElse] at h
                cases h
            | some b =>
                rw [execElse] at h
                obtain ⟨s₂, hb⟩ := ends_inBlock_ok h
                obtain ⟨value, hreturns⟩ := returns_of_exec hb
                exact ⟨value, .elseBranch hc hreturns⟩
  | .loop _ c body, _, _, _, _, h => by
      rw [exec] at h
      refine returns_of_iterate (fun hbody => ?_) calls.rounds h
      obtain ⟨s₁, hbody⟩ := ends_inBlock_ok hbody
      exact returns_of_exec hbody
  | .attempt _ body handlers cleanup, _, _, _, _, h => by
      rw [exec] at h
      obtain ⟨r, c, s₁, μ₁, hcaught, hcleanup, hends⟩ := ends_withCleanup_ok h
      rcases afterCleanup_ok hends with ⟨rfl, rfl⟩ | ⟨rfl, _, hr⟩
      · rcases ends_catching_ok hcaught with hbody | ⟨e, s₂, μ₂, hthrown, hhandled⟩
        · obtain ⟨s₂, hall⟩ := ends_inBlock_ok hbody
          obtain ⟨value, hreturns⟩ := returns_of_execAll hall
          exact ⟨value, .tried hreturns hbody hcleanup⟩
        · obtain ⟨value, hreturns⟩ := returns_of_execHandlers hhandled
          exact ⟨value, .handled hthrown hreturns hhandled hcleanup⟩
      · cases cleanup with
        | none =>
            rw [execCleanup] at hcleanup
            cases hcleanup
        | some final =>
            rw [execCleanup] at hcleanup
            obtain ⟨s₂, hall⟩ := ends_inBlock_ok hcleanup
            obtain ⟨value, hreturns⟩ := returns_of_execAll hall
            exact ⟨value, .cleanup hcaught hr hreturns⟩
  | .block _ body, _, _, _, _, h => by
      rw [exec] at h
      obtain ⟨s₁, hall⟩ := ends_inBlock_ok h
      obtain ⟨value, hreturns⟩ := returns_of_execAll hall
      exact ⟨value, .block hreturns⟩

theorem returns_of_execAll {v : Value} {at_ : Span} : ∀ {body : List Stmt} {s μ s' μ'},
    (execAll env calls f body).ends s μ = some ((.ok (.ret v at_), s'), μ') →
      ∃ value, ReturnsAll env calls f body s μ ⟨at_, value, v⟩
  | [], _, _, _, _, h => by
      rw [execAll] at h
      cases h
  | st :: rest, _, _, _, _, h => by
      rw [execAll] at h
      rcases RunWith.ends_bind_eq_some.mp h with ⟨u, _, hu⟩ | ⟨flow, s₁, μ₁, hst, h⟩
      · cases hu
      · cases flow with
        | normal =>
            obtain ⟨value, hreturns⟩ := returns_of_execAll h
            exact ⟨value, .tail hst hreturns⟩
        | ret w span =>
            cases h
            obtain ⟨value, hreturns⟩ := returns_of_exec hst
            exact ⟨value, .head hreturns⟩

theorem returns_of_execHandlers {v : Value} {at_ : Span} {e : Ref} {className : String} :
    ∀ {handlers : List Handler} {s μ s' μ'},
      (execHandlers env calls f e className handlers).ends s μ =
        some ((.ok (.ret v at_), s'), μ') →
      ∃ value, ReturnsHandled env calls f e className handlers s μ ⟨at_, value, v⟩
  | [], _, _, _, _, h => by
      rw [execHandlers] at h
      cases h
  | .mk c var body :: rest, _, _, _, _, h => by
      rw [execHandlers] at h
      split at h
      · next htakes =>
          obtain ⟨s₁, hall⟩ := ends_inBlock_ok h
          obtain ⟨value, hreturns⟩ := returns_of_execAll hall
          exact ⟨value, .here htakes hreturns⟩
      · next hleaves =>
          obtain ⟨value, hreturns⟩ := returns_of_execHandlers h
          exact ⟨value, .later (by simpa using hleaves) hreturns⟩

end

variable {s : Scopes} {μ : Machine} {x : Returning}

mutual

/-- The `return` that is run is one of those in the statement. -/
theorem Returns.mem {st : Stmt} {s : Scopes} {μ : Machine} :
    Returns env calls f st s μ x → .ret x.span x.value ∈ Stmt.inner st
  | .ret _ => List.mem_singleton.mpr rfl
  | .thenBranch _ h => List.mem_cons_of_mem _ (List.mem_append_left _ h.mem)
  | .elseBranch _ h => List.mem_cons_of_mem _ (List.mem_append_right _ h.mem)
  | .lastRound _ h => List.mem_cons_of_mem _ h.mem
  | .round _ _ h => h.mem
  | .tried h _ _ => List.mem_cons_of_mem _ (List.mem_append_left _ h.mem)
  | .handled _ h _ _ =>
      List.mem_cons_of_mem _ (List.mem_append_right _ (List.mem_append_left _ h.mem))
  | .cleanup _ _ h =>
      List.mem_cons_of_mem _ (List.mem_append_right _ (List.mem_append_right _ h.mem))
  | .block h => List.mem_cons_of_mem _ h.mem

theorem ReturnsAll.mem {body : List Stmt} {s : Scopes} {μ : Machine} :
    ReturnsAll env calls f body s μ x → .ret x.span x.value ∈ Typed.stmtsInner body
  | .head h => List.mem_append_left _ h.mem
  | .tail _ h => List.mem_append_right _ h.mem

theorem ReturnsHandled.mem {e : Ref} {className : String} {handlers : List Handler} {s : Scopes}
    {μ : Machine} : ReturnsHandled env calls f e className handlers s μ x →
      .ret x.span x.value ∈ Typed.handlersInner handlers
  | .here _ h => List.mem_append_left _ h.mem
  | .later _ h => List.mem_append_right _ h.mem

end

mutual

/-- Where a value has to be returned, no `return` that fits stands without one. -/
theorem Returns.value {ret : Ty} (hret : ret ≠ .void) {st : Stmt} {Γ : Typed.Context} {s : Scopes}
    {μ : Machine} : Returns env calls f st s μ x → st.Fits env ret Γ → ∃ e, x.value = some e
  | .ret _, hfits => Option.ne_none_iff_exists'.mp fun hnone => hret (hfits.1 hnone)
  | .thenBranch _ h, hfits => h.value hret hfits.2.1
  | .elseBranch _ h, hfits => h.value hret hfits.2.2
  | .lastRound _ h, hfits => h.value hret hfits.2
  | .round _ _ h, hfits => h.value hret hfits
  | .tried h _ _, hfits => h.value hret hfits.1
  | .handled _ h _ _, hfits => h.value hret hfits.2.1
  | .cleanup _ _ h, hfits => h.value hret hfits.2.2
  | .block h, hfits => h.value hret hfits

theorem ReturnsAll.value {ret : Ty} (hret : ret ≠ .void) {body : List Stmt} {Γ : Typed.Context}
    {s : Scopes} {μ : Machine} : ReturnsAll env calls f body s μ x →
      Typed.Stmt.allFit env ret Γ body → ∃ e, x.value = some e
  | .head h, hfits => h.value hret hfits.1
  | .tail _ h, hfits => h.value hret hfits.2

theorem ReturnsHandled.value {ret : Ty} (hret : ret ≠ .void) {e : Ref} {className : String}
    {handlers : List Handler} {Γ : Typed.Context} {s : Scopes} {μ : Machine} :
    ReturnsHandled env calls f e className handlers s μ x →
      Typed.Stmt.handlersFit env ret Γ handlers → ∃ e, x.value = some e
  | .here _ h, hfits => h.value hret hfits.1
  | .later _ h, hfits => h.value hret hfits.2

end

end

/-! ## Members that return a value -/

/-- A body that has to return a value is left through a `return` with one. -/
theorem returns_of_runBody {env : Env} {calls : Calls} {f : Frame} {m : MethodInfo}
    (hb : env.BodiesFit) (hm : env.method? m.id = some m) (hret : m.returnType ≠ .void)
    {s s' : Scopes} {μ μ' : Machine} {flow : Flow}
    (h : (runBody env calls f m).ends s μ = some ((.ok flow, s'), μ')) :
    ∃ body span e v, env.body? m.id = some body ∧ flow = .ret v span ∧
      .ret span (some e) ∈ Typed.stmtsInner body ∧
      ReturnsAll env calls f body s μ ⟨span, some e, v⟩ := by
  have hc : m.isConstructor = false := by
    cases hc : m.isConstructor with
    | false => rfl
    | true => exact absurd (hb.constructor m hm hc).1.2 hret
  rw [runBody, hc, if_neg Bool.false_ne_true, runMethod] at h
  split at h
  · next body hbody =>
      split at hbody
      · obtain ⟨hfits, hexits⟩ := hb.method m body hm hc hbody
        have hexits := hexits.resolve_left hret
        cases flow with
        | normal => exact absurd rfl (execAll_exits env calls f body hexits _ _ _ _ _ h)
        | ret v span =>
            obtain ⟨value, hreturns⟩ := returns_of_execAll h
            obtain ⟨e, rfl⟩ := hreturns.value hret hfits
            exact ⟨body, span, e, v, hbody, rfl, hreturns.mem, hreturns⟩
      · cases hbody
  · -- Without a body there is no normal end.
    obtain ⟨hends, _⟩ := RunWith.ends_keep_eq_some.mp h
    cases hthis : f.this with
    | none =>
        rw [hthis] at hends
        cases hends
    | some r =>
        rw [hthis] at hends
        cases hends

end Run

/-- Statements that exit never run off their end. So every normal completion of a method with a value
comes from a `return` in its body that is run and has the value. -/
theorem exits_and_returns :
    (∀ (env : Env) (calls : Calls) (f : Frame) (body : List Stmt), exitsAll body = true →
      ∀ s μ s' μ', (Run.execAll env calls f body).ends s μ ≠ some ((.ok .normal, s'), μ')) ∧
    ∀ (source : String) (p : Surface.Program) (program : WovenProgram),
      Parse.program source = .ok p → Typing.checkProgram p = .ok program.env →
      ∀ (id : DeclId) (m : MethodInfo), program.env.method? id = some m → m.returnType ≠ .void →
        ∀ (calls : Calls) (this : Option Ref) (args : List Value) (μ : Machine) (v : Value)
          (μ' : Machine), (Run.activate program calls m this args).ends μ = some (.ok v, μ') →
        ∃ body slots μ₀ span e, program.env.body? id = some body ∧
          .ret span (some e) ∈ Typed.stmtsInner body ∧
          (Run.runCodes program.env calls
            { Frame.start id this args with scopes := Run.paramScopes m args }
            (program.codesAt id .entry)).ends .empty μ = some ((.ok (), slots), μ₀) ∧
          Run.ReturnsAll program.env calls
            { Frame.start id this args with scopes := Run.paramScopes m args, slots } body
            (Run.paramScopes m args) μ₀ ⟨span, some e, v⟩ := by
  refine ⟨fun env calls f body h s μ s' μ' hx => ?_, ?_⟩
  · exact Run.execAll_exits env calls f body h _ _ _ _ _ hx rfl
  · intro source p program hparse hcheck id m hm hret calls this args μ v μ' h
    have hp := Parse.program_wellFormed hparse
    obtain rfl := ((Env.declaredBy_of_check hp hcheck).method_cases id m hm).1
    obtain ⟨slots, flow, s, μ₀, μ₁, hentry, hbody, rfl⟩ := Run.ends_activate_ok h
    obtain ⟨body, span, e, v, hb, rfl, hmem, hreturns⟩ :=
      Run.returns_of_runBody (Typing.bodiesFit hp hcheck) hm hret hbody
    exact ⟨body, slots, μ₀, span, e, hb, hmem, hentry, hreturns⟩

/-- A loop without an end that only the handler in it leaves. -/
def pickSource : String :=
  "class Main \x7b
     static int pick(int n) \x7b
       while (true) \x7b
         try \x7b if (n > 2) \x7b throw new RuntimeException(); \x7d n = n + 1; \x7d
         catch (RuntimeException e) \x7b return n; \x7d
         finally \x7b if (n == 9) \x7b return 0; \x7d \x7d
       \x7d
     \x7d
   \x7d"

/-- Evaluates what is said of `pickSource`. -/
def pickCheck : Option Bool := do
  let p ← (Parse.program pickSource).toOption
  let env ← (Typing.checkProgram p).toOption
  let m ← env.method? 1
  let body ← env.body? 1
  let (.ok (.int 3), _) ← (Run.activate ⟨env, []⟩ (Run.calls ⟨env, []⟩ 4 8) m none [.int 0]).ends
    .initial | none
  return m.returnType == .int && exitsAll body

/-- The value comes from the `return` in the handler, and nothing leads behind the loop. -/
theorem exits_and_returns_pick :
    ∃ p env m body, Parse.program pickSource = .ok p ∧ Typing.checkProgram p = .ok env ∧
      env.method? 1 = some m ∧ m.returnType ≠ .void ∧ env.body? 1 = some body ∧
      exitsAll body = true ∧
      (∀ calls f s μ s' μ',
        (Run.execAll env calls f body).ends s μ ≠ some ((.ok .normal, s'), μ')) ∧
      ∃ slots μ₀ span e, .ret span (some e) ∈ Typed.stmtsInner body ∧
        Run.ReturnsAll env (Run.calls ⟨env, []⟩ 4 8)
          { Frame.start 1 none [.int 0] with scopes := Run.paramScopes m [.int 0], slots } body
          (Run.paramScopes m [.int 0]) μ₀ ⟨span, some e, .int 3⟩ := by
  have h : pickCheck = some true := by
    set_option maxRecDepth 20000 in
    rw [pickCheck, show pickSource = String.ofList _ from rfl, Parse.program_ofList]
    decide +kernel
  rw [pickCheck] at h
  obtain ⟨p, hp, h⟩ := Option.bind_eq_some_iff.mp h
  obtain ⟨env, henv, h⟩ := Option.bind_eq_some_iff.mp h
  obtain ⟨m, hm, h⟩ := Option.bind_eq_some_iff.mp h
  obtain ⟨body, hbody, h⟩ := Option.bind_eq_some_iff.mp h
  obtain ⟨⟨r, μ⟩, hrun, h⟩ := Option.bind_eq_some_iff.mp h
  split at h
  · next heq =>
      obtain ⟨rfl, rfl⟩ := Prod.mk.inj heq
      obtain ⟨htype, hexits⟩ := (Bool.and_eq_true _ _).mp (Option.some.inj h)
      have hret : m.returnType ≠ .void := by
        rw [eq_of_beq htype]
        decide
      obtain ⟨hnormal, hreturns⟩ := exits_and_returns
      obtain ⟨body', slots, μ₀, span, e, hbody', hmem, _, hall⟩ := hreturns pickSource p ⟨env, []⟩
        (ok_of_toOption hp) (ok_of_toOption henv) 1 m hm hret _ none [.int 0] _ _ _ hrun
      obtain rfl := Option.some.inj (hbody.symm.trans hbody')
      exact ⟨p, env, m, body, ok_of_toOption hp, ok_of_toOption henv, hm, hret, hbody, hexits,
        fun calls f => hnormal env calls f body hexits, slots, μ₀, span, e, hmem, hall⟩
  · cases h

end Covenant
