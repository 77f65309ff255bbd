import Covenant.Proofs.FittedChecks
import Covenant.Proofs.SoundPrograms

/-!
# What was built keeps types

A source that was built consists of bodies, initializers and checks that fit where
they stand, so evaluation yields values of the types that were found for the
expressions, and no run ends in a defect. Two things are not seen to when a source
is built. A class may inherit the implementation of a method of an interface from a
superclass that does not know the interface, and then nothing compares what the two
return. And a term in `old` may read the result, of which there is none when the term
is stored.
-/

namespace Covenant

section

variable {source : String} {checks : Checks} {b : Build} (h : build source checks = .ok b)
  (hresult : b.program.StoresNoResult)

include h hresult

/-- The checks of each member fit it. -/
theorem memberChecks_fit {m : MethodInfo} (hm : b.program.env.method? m.id = some m) :
    ∃ slots, b.program.MemberFits m slots := by
  have hk := methodsKeyed_of_build h
  obtain ⟨p, _, hp, _⟩ := build_eq_ok h
  have hwf := Parse.program_wellFormed hp
  obtain ⟨hcheck, hplan, hprogram⟩ := analysis_of_build h hp
  have hcodes {point : ProgramPoint} (hpoint : ∀ site, point ≠ .afterCall site) :=
    (codesAt_member (p := p) checks hk hm rfl hpoint).1
  rw [← hplan, ← hprogram] at hcodes
  exact WovenProgram.memberFits_of_scheduled
    (Contract.specFits_of_bind hwf hcheck (Clause.ofProgram p) hm)
    (Contract.freshSpec_of_bind (Contract.owners_words hwf hcheck) _ _ m) hresult fun _ => hcodes

/-- All that a built program consists of fits. -/
theorem fits_of_build : b.program.Fits where
  bodies := by
    obtain ⟨p, hp, hcheck⟩ := checkProgram_of_build h
    exact Typing.bodiesFit hp hcheck
  members _ hm := memberChecks_fit h hresult hm
  calls _ _ _ hm hsite := callChecks_fit h hm hsite

/-- If implementations return what the methods that they stand for return, and if no check stores a
result at an entry, then what was built is well typed: its parts fit, evaluation yields values of
the types of expressions, and no run ends in a defect, however many runs there were before on the
same heap. -/
theorem built_sound (hret : b.program.env.ReturnsAgree) (limit : Nat) :
    b.program.Fits ∧
    (∀ bound σ Γ f e, Frame.Typed b.program.env σ Γ f → e.Fits b.program.env Γ →
      Run.Sound b.program.env σ (Run.eval b.program.env (Run.calls b.program limit bound) f e)
        fun σ' v => v.HasType b.program.env σ' e.type) ∧
    ∀ μ, b.program.Reached limit μ → ∀ bound entry r μ',
      b.program.run limit bound entry μ = some (r, μ') → ∀ d, r ≠ .error (.internal d) := by
  obtain ⟨p, hd⟩ := declaredBy_of_build h
  have hfits := fits_of_build h hresult
  refine ⟨hfits, fun bound σ Γ f e hf he => ?_, fun μ hμ bound entry r μ' hrun => ?_⟩
  · exact Run.eval_sound hd hret (Run.calls_sound hd hret hfits limit bound) hf he
  · obtain ⟨σ, hσ⟩ := hμ.typed hd hret hfits
    exact (WovenProgram.run_sound hd hret hfits hσ hrun).2

end

/-- A method runs that implements one of an interface, with a check of a stored value. -/
def shapeSource : String :=
  "interface Shape { int area(); }
   class Square implements Shape {
     int side = 2;
     /** @post | result == old(side) * side */ int area() { return side * side; }
   }
   class Main { static int main() { Shape s = new Square(); return s.area(); } }"

/-- Evaluates what is said of `shapeSource`. -/
def shapeCheck : Option Bool := do
  let b ← (build shapeSource {}).toOption
  let env := b.program.env
  let main ← env.methodNamed? "Main.main"
  let body ← env.body? main.id
  match body with
  | .declare _ _ _ (some e) :: _ =>
    let x ← (Run.eval env (Run.calls b.program 8 8) (Frame.start main.id none []) e).ends .initial
    let o ← b.program.run 8 8 "Main.main" .initial
    let o' ← b.program.run 8 8 "Main.main" o.2
    return decide (env.method? main.id = some main ∧ main.isConstructor = false ∧
      main.isStatic = true ∧ main.params = [] ∧ Run.staticFields env = [] ∧
      x.1 = .ok (.ref 0) ∧ o'.1 = .ok (.returned (.int 4)) ∧ b.program.StoresNoResult ∧
      ∀ m ∈ env.methods.values, m.isStatic = false → m.isConstructor = false →
        ∀ r ∈ env.classes.keys, env.isSubtype r m.owner = true →
          ∀ d ∈ env.method? (env.dispatch r m.id), d.hasBody = true →
            env.isAssignable d.returnType m.returnType = true)
  | _ => none

/-- The object that is made is of the type of its expression, and a second run ends as it should. -/
theorem built_sound_shape :
    ∃ (b : Build) (main : MethodInfo) (e : Typed.Expr) (σ : Shapes) (μ μ₁ μ₂ : Machine)
      (o o' : Except RunError Outcome),
      build shapeSource {} = .ok b ∧ b.program.env.ReturnsAgree ∧ b.program.StoresNoResult ∧
        b.program.Fits ∧
        (Run.eval b.program.env (Run.calls b.program 8 8) (Frame.start main.id none []) e).ends
          .initial = some (.ok (.ref 0), μ) ∧ (Value.ref 0).HasType b.program.env σ e.type ∧
        b.program.run 8 8 "Main.main" .initial = some (o, μ₁) ∧
        b.program.run 8 8 "Main.main" μ₁ = some (o', μ₂) ∧ ∀ d, o' ≠ .error (.internal d) := by
  have h : shapeCheck = some true := by
    set_option maxRecDepth 20000 in
    rw [shapeCheck, show shapeSource = String.ofList _ from rfl, build_ofList]
    decide +kernel
  simp only [shapeCheck, Option.bind_eq_bind, Option.bind_eq_some_iff] at h
  obtain ⟨b, hb, main, _, body, hbody, h⟩ := h
  split at h
  · simp only [Option.bind_eq_some_iff] at h
    obtain ⟨⟨x, μ⟩, hx, ⟨o, μ₁⟩, ho, ⟨o', μ₂⟩, ho', h⟩ := h
    simp only [Option.pure_def, Option.some.injEq, decide_eq_true_eq] at h
    obtain ⟨hmain, hmethod, hstatic, hparams, hfields, rfl, _, hresult, hreturns⟩ := h
    have hb := ok_of_toOption hb
    obtain ⟨p, hd⟩ := declaredBy_of_build hb
    have hret := hd.returnsAgree hreturns
    obtain ⟨hfits, heval, hruns⟩ := built_sound hb hresult hret 8
    have hcontext : Typed.Context.ofMember main = .ofBody none [] := by
      simp [Typed.Context.ofMember, hstatic, hparams]
    have hframe : Frame.Typed b.program.env [] (.ofMember main) (Frame.start main.id none []) :=
      hcontext ▸ .start fun c hc => absurd hc (by simp)
    have hfit := ((hfits.bodies.method main _ hmain hmethod hbody).1.1.2 _ rfl).1
    have hinitial : Machine.Typed b.program.env [] .initial := by
      refine ⟨.empty, fun id f hf hs => ?_⟩
      obtain rfl := (hd.field_cases id f hf).1
      have hmem := (Run.mem_staticFields hd).mpr ⟨hf, hs⟩
      rw [hfields] at hmem
      exact absurd hmem List.not_mem_nil
    obtain ⟨σ, _, _, htype⟩ := heval 8 [] _ _ _ hframe hfit hinitial hx
    exact ⟨b, main, _, σ, μ, μ₁, μ₂, o, o', hb, hret, hresult, hfits, hx, htype, ho, ho',
      hruns μ₁ (.run .initial ho) 8 "Main.main" o' μ₂ ho'⟩
  · cases h

/-- A class inherits the implementation of a method of an interface from a superclass that returns
something else. -/
def conflictingSource : String :=
  "interface I { boolean m(); }
   class B { int m() { return 1; } }
   class C extends B implements I { }
   class Main { static int main() { I x = new C(); if (x.m()) { return 1; } return 2; } }"

/-- A term in `old` reads the result. -/
def storedResultSource : String :=
  "class Main {
     /** @post | old(result) + 1 == 2 */ static int f() { return 1; }
     static int main() { return f(); }
   }"

/-- How a source ends that can be built, if it ends in a defect. -/
def defect? (source : String) : Option Defect := do
  let b ← (build source {}).toOption
  match ← b.program.run 8 8 "Main.main" .initial with
  | (.error (.internal d), _) => return d
  | _ => none

theorem defect?_eq_some {source : String} {d : Defect} (h : defect? source = some d) :
    ∃ b μ, build source {} = .ok b ∧
      b.program.run 8 8 "Main.main" .initial = some (.error (.internal d), μ) := by
  simp only [defect?, Option.bind_eq_bind, Option.bind_eq_some_iff] at h
  obtain ⟨b, hb, ⟨o, μ⟩, hrun, h⟩ := h
  split at h
  · next d' _ heq =>
      cases heq
      cases h
      exact ⟨b, _, ok_of_toOption hb, hrun⟩
  · cases h

/-- Both run into a defect: the condition of a branch is a number, and an operand of an addition is
nothing at all. -/
theorem built_unsound :
    (∃ b μ, build conflictingSource {} = .ok b ∧ b.program.run 8 8 "Main.main" .initial =
      some (.error (.internal (.notBoolean (.int 1))), μ)) ∧
    ∃ b μ, build storedResultSource {} = .ok b ∧ b.program.run 8 8 "Main.main" .initial =
      some (.error (.internal (.binaryOperands .add .void (.int 1))), μ) := by
  constructor
  · refine defect?_eq_some ?_
    set_option maxRecDepth 20000 in
    rw [defect?, show conflictingSource = String.ofList _ from rfl, build_ofList]
    decide +kernel
  · refine defect?_eq_some ?_
    set_option maxRecDepth 20000 in
    rw [defect?, show storedResultSource = String.ofList _ from rfl, build_ofList]
    decide +kernel

end Covenant
