import Covenant.Proofs.Traceless

/-!
# Terms without effect

A computation that only looks at the machine comes to an end in one of three ways: with
a value, with a defect, or by throwing a new exception. It looks on as long as it has
values, so all that can be new behind it is that one exception, at the end of the heap.
Terms without calls and creations are such computations, whatever calls would do; the
frame that they are evaluated in is not theirs to change.
-/

namespace Covenant.Run

variable {α : Type} {μ : Machine}

/-- The machine with a new exception at the end of its heap. -/
def withException (className : String) (μ : Machine) : Machine :=
  { μ with heap := μ.heap.push (.inst className .empty) }

theorem ends_throwNew (className : String) (μ : Machine) :
    (throwNew className : Run α).ends μ =
      some (.error (.throw μ.heap.size), withException className μ) := rfl

/-- Looking comes to an end on the machine on which it began, or throws a new exception there. -/
theorem Looks.ends_cases {x : Run α} (h : Looks x) (μ : Machine) :
    (∃ a, x.ends μ = some (.ok a, μ)) ∨ (∃ d, x.ends μ = some (.error (.fatal (.internal d)), μ)) ∨
      ∃ className, x.ends μ = some (.error (.throw μ.heap.size), withException className μ) := by
  induction h with
  | pure a => exact .inl ⟨a, rfl⟩
  | throwNew className => exact .inr (.inr ⟨className, ends_throwNew className μ⟩)
  | defect d => exact .inr (.inl ⟨d, rfl⟩)
  | get _ ih =>
      rw [ends_bind_ok (ends_get μ)]
      exact ih μ
  | bind _ _ ihx ihf =>
      -- What looks first hands the same machine on if it has a value, and stops all if it has none.
      rcases ihx with ⟨a, ha⟩ | ⟨d, hd⟩ | ⟨className, hthrow⟩
      · rw [ends_bind_ok ha]
        exact ihf a
      · exact .inr (.inl ⟨d, ends_bind_error hd⟩)
      · exact .inr (.inr ⟨className, ends_bind_error hthrow⟩)

/-- The evaluation of a term without calls and creations comes to an end. It leaves the variables
and the slots of its frame alone, and of the machine the static fields, the depth and all objects
that were there; only if it throws there is one object more, the exception. -/
theorem callFree_effectless {e : Typed.Expr} (h : e.callFree = true) (env : Env) (c : Calls)
    (f : Frame) (μ : Machine) :
    ∃ r μ', (eval env c f e).ends μ = some (r, μ') ∧
      (inScope f (eval env c · e)).ends f.scopes μ = some ((r, f.scopes), μ') ∧
      (withSlots f (eval env c · e)).ends f.slots μ = some ((r, f.slots), μ') ∧
      μ'.statics = μ.statics ∧ μ'.depth = μ.depth ∧
      (∀ x < μ.heap.size, μ'.heap[x]? = μ.heap[x]?) ∧
      ((∀ x, r ≠ .error (.throw x)) → μ'.heap = μ.heap) ∧
      ∀ x, r = .error (.throw x) →
        x = μ.heap.size ∧ ∃ className, μ'.heap = μ.heap.push (.inst className .empty) := by
  have hframe {r μ'} (hends : (eval env c f e).ends μ = some (r, μ')) :
      (inScope f (eval env c · e)).ends f.scopes μ = some ((r, f.scopes), μ') ∧
        (withSlots f (eval env c · e)).ends f.slots μ = some ((r, f.slots), μ') := by
    refine ⟨?_, RunWith.ends_withSlots_eq_some.mpr ⟨hends, rfl⟩⟩
    rw [RunWith.ends_inScope, hends]
    rfl
  have hlooks : Looks (eval env c f e) := eval_looks e h
  rcases hlooks.ends_cases μ with ⟨v, hends⟩ | ⟨d, hends⟩ | ⟨className, hends⟩
  · refine ⟨_, _, hends, (hframe hends).1, (hframe hends).2, rfl, rfl, fun _ _ => rfl,
      fun _ => rfl, ?_⟩
    rintro _ ⟨⟩
  · refine ⟨_, _, hends, (hframe hends).1, (hframe hends).2, rfl, rfl, fun _ _ => rfl,
      fun _ => rfl, ?_⟩
    rintro _ ⟨⟩
  · refine ⟨_, _, hends, (hframe hends).1, (hframe hends).2, rfl, rfl, fun x hx => ?_,
      fun hno => absurd rfl (hno _), ?_⟩
    · show (μ.heap.push _)[x]? = μ.heap[x]?
      rw [Array.getElem?_push_lt hx, Array.getElem?_eq_getElem hx]
    · rintro _ ⟨⟩
      exact ⟨rfl, className, rfl⟩

/-- A condition that divides by zero behind a true one. -/
def hopeless : Typed.Expr :=
  .binary ⟨0, 20⟩ .and (.bool ⟨0, 4⟩ true)
    (.binary ⟨8, 20⟩ .eq (.binary ⟨8, 13⟩ .div (.int ⟨8, 9⟩ 6) (.int ⟨12, 13⟩ 0)) (.int ⟨17, 18⟩ 2))

/-- A machine in the middle of a run, with one object. -/
def inRun : Machine := ⟨#[.array #[]], .empty, 7⟩

/-- No call ends. -/
def noCalls : Calls := ⟨fun _ _ _ => exhausted, fun _ _ _ _ => exhausted, 0⟩

/-- The new exception stands behind the object that is there. -/
theorem callFree_effectless_hopeless : hopeless.callFree = true ∧
    ∃ μ', (eval default noCalls default hopeless).ends inRun = some (.error (.throw 1), μ') ∧
      μ'.depth = 7 ∧ μ'.heap[0]? = inRun.heap[0]? ∧
      ∃ className, μ'.heap = inRun.heap.push (.inst className .empty) := by
  obtain ⟨r, μ', hends, -, -, -, hdepth, hkept, -, hthrown⟩ :=
    callFree_effectless (e := hopeless) rfl default noCalls default inRun
  obtain rfl : r = .error (.throw 1) := by
    have hthrows : (eval default noCalls default hopeless).ends inRun =
        some (.error (.throw 1), withException "ArithmeticException" inRun) := rfl
    rw [hthrows] at hends
    cases hends
    rfl
  exact ⟨rfl, μ', hends, hdepth, hkept 0 (by decide), (hthrown 1 rfl).2⟩

end Covenant.Run
