import Covenant.Proofs.BegunMembers
import Covenant.Proofs.SeparateSpans
import Covenant.Proofs.SoundPrograms

/-!
# Scopes of a run

The checker and a run keep scopes of their own: the checker a list of the variables
that it has met, a run one table for each block that it is in. `scopes_coincide`
brings them together. In every run, whatever begins of a body or of a first value
does so in a frame whose scopes bind the names that were in scope when it was
checked, each of them once, and every statement leaves as many scopes as it found,
on whichever way it ends.
-/

namespace Covenant

open Typed (Expr Stmt)

theorem counted_of_build {source : String} {checks : Checks} {b : Build}
    (h : build source checks = .ok b) : Run.Counted b.program.env b.program.Places where
  parts _ _ he := counts_of_places h he
  dispatch _ _ className htakes := by
    obtain ⟨p, hd⟩ := declaredBy_of_build h
    exact hd.takes_dispatch className htakes

/-- On the whole journey of a run everything begins in its scope. -/
theorem WovenProgram.begins_journey {p : WovenProgram} {src : Surface.Program}
    (hcount : Run.Counted p.env p.Places) (hp : src.WellFormed)
    (h : Typing.checkProgram src = .ok p.env) (limit bound : Nat) (entry : String) :
    Run.Begins (p.Scoped src) (p.journey limit bound entry) := by
  rw [journey]
  split
  · exact .quiet fun _ => rfl
  · next id hid =>
      obtain ⟨m, hm, rfl, _, hparams⟩ := Run.findEntry_ok (Env.declaredBy_of_check hp h) hid
      exact .ofRun (Run.begins_runFrom hcount hp h (Run.begins_calls hcount hp h limit bound)
        ⟨m, hm, congrArg List.length hparams⟩)

namespace Run

variable {env : Env} {calls : Calls} {f : Frame} {s s' : Scopes} {μ μ' : Machine}

/-- A computation that binds names in the innermost scope only takes no scope away and adds none. -/
theorem length_of_keepsOuter {α : Type} {x : RunWith Scopes α} {r : Except Unwind α}
    (hx : x.KeepsOuter) (h : x.ends s μ = some ((r, s'), μ')) : s'.length = s.length := by
  have hlength := (hx (s, μ) r (s', μ') (by rw [RunWith.process, h]; rfl)).1
  rwa [Scopes.names, Scopes.names, List.length_map, List.length_map] at hlength

end Run

/-- In every run of a program that was built, whatever begins of a body or of a first value does so
in a frame whose scopes bind the names that the checker had in scope, and no two of these scopes
bind one name. However a statement ends, there are as many scopes behind it as in front of it; this
goes for a call of a superclass constructor too, which a constructor runs itself. -/
theorem scopes_coincide {source : String} {src : Surface.Program}
    (hsrc : Parse.program source = .ok src) {checks : Checks} {b : Build}
    (h : build source checks = .ok b) :
    (∀ limit bound entry μ, ∀ m ∈ b.program.moments limit bound entry μ,
      (∀ st, m.begun = some (.stmt st) → ∃ f rest s, m.frames = f :: rest ∧
        Typing.ProgramChecks src b.program.env f.decl s (.stmt st) ∧ s.Has f.scopes.names) ∧
      ∀ e, m.begun = some (.expr e) → ∃ f rest, m.frames = f :: rest ∧
        (e ∈ b.program.env.partsOf f.decl →
          ∃ s, Typing.ProgramChecks src b.program.env f.decl s (.expr e) ∧
            s.Has f.scopes.names)) ∧
    ∀ env calls f s s' μ μ',
      (∀ st r, (Run.exec env calls f st).ends s μ = some ((r, s'), μ') → s'.length = s.length) ∧
      ∀ this className body r, (Run.runSuper env calls f this className body).ends s μ =
        some ((r, s'), μ') → s'.length = s.length := by
  obtain ⟨hcheck, _, _⟩ := analysis_of_build h hsrc
  refine ⟨fun limit bound entry μ m hm => ?_, fun env calls f s s' μ μ' => ⟨fun st r hends => ?_,
    fun this className body r hends => ?_⟩⟩
  · have hbegun := WovenProgram.begins_journey (counted_of_build h)
      (Parse.program_wellFormed hsrc) hcheck limit bound entry μ trivial m hm
    refine ⟨fun st hst => ?_, fun e he => ?_⟩
    · obtain ⟨f, rest, hframes, s, hchecks, hs⟩ := hbegun _ hst
      exact ⟨f, rest, s, hframes, hchecks, hs⟩
    · obtain ⟨f, rest, hframes, hscoped⟩ := hbegun _ he
      refine ⟨f, rest, hframes, fun hbody => ?_⟩
      obtain hchecks | ⟨x, hx, hpart⟩ := hscoped
      · exact hchecks
      · exact absurd hpart (not_mem_evaluates h hsrc hbody hx)
  · exact Run.length_of_keepsOuter (Run.exec_outer env calls f st) hends
  · exact Run.length_of_keepsOuter (Run.runSuper_names env calls f this className body).outer hends

/-- A constructor with blocks in blocks, one of which an exception leaves. -/
def stepsSource : String :=
  "class Base { int n; Base(int k) { n = k; } }
  class Steps extends Base {
    int width = 2;
    Steps(int from) {
      super(from);
      int left = from;
      while (left > 0) {
        int step = width;
        try { int next = left - step; if (next < 0) { throw new RuntimeException(); } left = next; }
        catch (RuntimeException e) { int rest = left; left = rest - 1; }
      }
      n = left;
    }
  }
  class Main { static int main() { Steps s = new Steps(3); return s.n; } }"

/-- The names in the scopes that a statement begins in. -/
def Moment.namesAtStmt (m : Moment) : Option (List (List String)) :=
  match m.begun, m.frames with
  | some (.stmt _), f :: _ => some (f.scopes.map (·.keys))
  | _, _ => none

/-- The names in the scopes that an expression of a body begins in. -/
def Moment.namesAtExpr (env : Env) (m : Moment) : Option (List (List String)) :=
  match m.begun, m.frames with
  | some (.expr e), f :: _ =>
    if e ∈ env.partsOf f.decl then some (f.scopes.map (·.keys)) else none
  | _, _ => none

/-- Evaluates what is said of `stepsSource`. -/
def stepsCheck : Option Bool := do
  let _ ← (Parse.program stepsSource).toOption
  let b ← (build stepsSource {}).toOption
  let ms := b.program.moments 8 8 "Main.main" .initial
  let m ← ms.find? (·.namesAtStmt = some [["e", "rest"], ["step"], [], ["from", "left"]])
  let n ← ms.find? (·.namesAtExpr b.program.env = some [["next"], ["step"], [], ["from", "left"]])
  return decide (m.namesAtStmt = some [["e", "rest"], ["step"], [], ["from", "left"]] ∧
    n.namesAtExpr b.program.env = some [["next"], ["step"], [], ["from", "left"]])

/-- The second statement of the handler begins in four scopes, one of which binds nothing, and so
does an expression in the block that the exception leaves. -/
theorem scopes_coincide_steps :
    ∃ (src : Surface.Program) (b : Build) (st : Stmt) (e : Expr) (m n : Moment) (f g : Frame)
      (s t : Typing.Scope), Parse.program stepsSource = .ok src ∧ build stepsSource {} = .ok b ∧
      (m ∈ b.program.moments 8 8 "Main.main" .initial ∧ m.begun = some (.stmt st) ∧
        f ∈ m.frames.head? ∧
        f.scopes.map (·.keys) = [["e", "rest"], ["step"], [], ["from", "left"]] ∧
        Typing.ProgramChecks src b.program.env f.decl s (.stmt st) ∧ s.Has f.scopes.names) ∧
      n ∈ b.program.moments 8 8 "Main.main" .initial ∧ n.begun = some (.expr e) ∧
        g ∈ n.frames.head? ∧
        g.scopes.map (·.keys) = [["next"], ["step"], [], ["from", "left"]] ∧
        Typing.ProgramChecks src b.program.env g.decl t (.expr e) ∧ t.Has g.scopes.names := by
  have h : stepsCheck = some true := by
    set_option maxRecDepth 20000 in
    rw [stepsCheck, show stepsSource = String.ofList _ from rfl, build_ofList, Parse.program_ofList]
    decide +kernel
  rw [stepsCheck] at h
  obtain ⟨src, hsrc, h⟩ := Option.bind_eq_some_iff.mp h
  obtain ⟨b, hb, h⟩ := Option.bind_eq_some_iff.mp h
  obtain ⟨m, hm, h⟩ := Option.bind_eq_some_iff.mp h
  obtain ⟨n, hn, h⟩ := Option.bind_eq_some_iff.mp h
  obtain ⟨hnames, hnames'⟩ := of_decide_eq_true (Option.some.inj h)
  obtain ⟨hmoments, _⟩ := scopes_coincide (ok_of_toOption hsrc) (ok_of_toOption hb)
  have hm := List.mem_of_find?_eq_some hm
  have hn := List.mem_of_find?_eq_some hn
  rw [Moment.namesAtStmt] at hnames
  rw [Moment.namesAtExpr] at hnames'
  split at hnames
  · next st f rest hbegun hframes =>
      obtain ⟨_, _, s, hframes', hchecks, hs⟩ := (hmoments 8 8 "Main.main" .initial m hm).1 st hbegun
      obtain ⟨rfl, _⟩ := List.cons.inj (hframes.symm.trans hframes')
      split at hnames'
      · next e g rest' hbegun' hframes' =>
          obtain ⟨_, _, hframes'', hexpr⟩ := (hmoments 8 8 "Main.main" .initial n hn).2 e hbegun'
          obtain ⟨rfl, _⟩ := List.cons.inj (hframes'.symm.trans hframes'')
          split at hnames'
          · next hbody =>
              obtain ⟨t, hchecks', ht⟩ := hexpr hbody
              exact ⟨src, b, st, e, m, n, f, g, s, t, ok_of_toOption hsrc, ok_of_toOption hb,
                ⟨hm, hbegun, hframes ▸ rfl, Option.some.inj hnames, hchecks, hs⟩, hn, hbegun',
                hframes' ▸ rfl, Option.some.inj hnames', hchecks', ht⟩
          · cases hnames'
      · cases hnames'
  · cases hnames

end Covenant
