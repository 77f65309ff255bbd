import Covenant.Run.Entry

/-!
# How computations end

A computation is known by how it ends: on which machines it has a result, what
the result is, and what machine it leaves. One equation for each primitive says
how it ends, and one for `bind` puts them together, so no later proof has to look
into the layers that a computation is made of.
-/

namespace Covenant

deriving instance DecidableEq for Table, Obj, Machine

variable {σ α β : Type}

/-- How a computation ends on a machine, and the machine that it leaves. -/
def Run.ends (x : Run α) (μ : Machine) : Option (Except Unwind α × Machine) := x.run μ

/-- The same for a computation with a local state, which is left too. -/
def RunWith.ends (x : RunWith σ α) (s : σ) (μ : Machine) :
    Option ((Except Unwind α × σ) × Machine) :=
  (x.run s) μ

namespace Run

/-- Two computations that end alike everywhere are the same. -/
theorem ext_ends {x y : Run α} (h : ∀ μ, x.ends μ = y.ends μ) : x = y := funext h

@[simp] theorem ends_pure (a : α) (μ : Machine) :
    (pure a : Run α).ends μ = some (.ok a, μ) := rfl

theorem ends_bind (x : Run α) (f : α → Run β) (μ : Machine) :
    (x >>= f).ends μ = (x.ends μ).bind fun
      | (.ok a, μ') => (f a).ends μ'
      | (.error u, μ') => some (.error u, μ') := by
  show (x.run μ).bind _ = (x.run μ).bind _
  congr 1
  funext r
  rcases r with ⟨_ | _, _⟩ <;> rfl

/-- A sequence ends in its first part by an early stop, or in its second part. -/
theorem ends_bind_eq_some {x : Run α} {f : α → Run β} {μ μ' : Machine} {r : Except Unwind β} :
    (x >>= f).ends μ = some (r, μ') ↔
      (∃ u, x.ends μ = some (.error u, μ') ∧ r = .error u) ∨
        ∃ a μ₁, x.ends μ = some (.ok a, μ₁) ∧ (f a).ends μ₁ = some (r, μ') := by
  rw [ends_bind]
  cases hx : x.ends μ with
  | none => simp
  | some o =>
      obtain ⟨c, μ₁⟩ := o
      cases c with
      | error u =>
          constructor
          · intro h
            cases h
            exact Or.inl ⟨u, rfl, rfl⟩
          · rintro (⟨_, h, rfl⟩ | ⟨_, _, h, _⟩)
            · cases h
              rfl
            · exact absurd h (by simp)
      | ok a =>
          constructor
          · intro h
            exact Or.inr ⟨a, μ₁, rfl, h⟩
          · rintro (⟨u, h, _⟩ | ⟨_, _, h, h'⟩)
            · exact absurd h (by simp)
            · cases h
              exact h'

theorem ends_bind_ok {x : Run α} {f : α → Run β} {μ μ₁ : Machine} {a : α}
    (h : x.ends μ = some (.ok a, μ₁)) : (x >>= f).ends μ = (f a).ends μ₁ := by
  simp [ends_bind, h]

theorem ends_bind_error {x : Run α} {f : α → Run β} {μ μ₁ : Machine} {u : Unwind}
    (h : x.ends μ = some (.error u, μ₁)) : (x >>= f).ends μ = some (.error u, μ₁) := by
  simp [ends_bind, h]

theorem ends_bind_none {x : Run α} {f : α → Run β} {μ : Machine} (h : x.ends μ = none) :
    (x >>= f).ends μ = none := by
  simp [ends_bind, h]

theorem ends_map (g : α → β) (x : Run α) (μ : Machine) :
    (g <$> x).ends μ = (x.ends μ).map fun (r, μ') => (r.map g, μ') := by
  rw [← bind_pure_comp, ends_bind]
  rcases x.ends μ with _ | ⟨_ | _, _⟩ <;> rfl

@[simp] theorem ends_stop (u : Unwind) (μ : Machine) :
    (stop u : Run α).ends μ = some (.error u, μ) := rfl

@[simp] theorem ends_fatal (e : RunError) (μ : Machine) :
    (fatal e : Run α).ends μ = some (.error (.fatal e), μ) := rfl

@[simp] theorem ends_defect (d : Defect) (μ : Machine) :
    (defect d : Run α).ends μ = some (.error (.fatal (.internal d)), μ) := rfl

@[simp] theorem ends_exhausted (μ : Machine) : (exhausted : Run α).ends μ = none := rfl

@[simp] theorem ends_ofResult (r : Except Unwind α) (μ : Machine) :
    (ofResult r : Run α).ends μ = some (r, μ) := rfl

@[simp] theorem ends_get (μ : Machine) : (get : Run Machine).ends μ = some (.ok μ, μ) := rfl

@[simp] theorem ends_set (μ μ' : Machine) :
    (set μ' : Run PUnit).ends μ = some (.ok (), μ') := rfl

@[simp] theorem ends_modify (f : Machine → Machine) (μ : Machine) :
    (modify f : Run PUnit).ends μ = some (.ok (), f μ) := rfl

@[simp] theorem ends_classOf (r : Ref) (μ : Machine) :
    (classOf r).ends μ = some (.ok ((μ.heap.className? r).getD ""), μ) := rfl

/-- Watching how a computation ends takes nothing from it and adds nothing to it. -/
theorem ends_lift (x : Run α) (μ : Machine) :
    (liftM x.run : Run (Except Unwind α)).ends μ = (x.ends μ).map fun (r, μ') => (.ok r, μ') := by
  show (x.run μ).bind _ = (x.run μ).map _
  cases x.run μ <;> rfl

theorem ends_withState (x : RunWith σ α) (s : σ) (μ : Machine) :
    (withState x s).ends μ = (x.ends s μ).map fun (r, μ') => (.ok r, μ') := by
  show (x.run s μ).bind _ = (x.run s μ).map _
  cases x.run s μ <;> rfl

/-- A computation with a local state never stops what it is a part of. -/
theorem ends_withState_bind {x : RunWith σ α} {s : σ} {f : Except Unwind α × σ → Run β}
    {μ μ' : Machine} {r : Except Unwind β} :
    (withState x s >>= f).ends μ = some (r, μ') ↔
      ∃ c s' μ₁, x.ends s μ = some ((c, s'), μ₁) ∧ (f (c, s')).ends μ₁ = some (r, μ') := by
  rw [ends_bind, ends_withState]
  cases hx : x.ends s μ with
  | none => simp
  | some o =>
      obtain ⟨⟨c, s₁⟩, μ₁⟩ := o
      constructor
      · intro h
        exact ⟨c, s₁, μ₁, rfl, h⟩
      · rintro ⟨_, _, _, h, h'⟩
        cases h
        exact h'

end Run

/-- The machine while one more member is active. -/
def Machine.enter (μ : Machine) : Machine := { μ with depth := μ.depth + 1 }

/-- The machine once that member has ended. -/
def Machine.leave (μ : Machine) : Machine := { μ with depth := μ.depth - 1 }

@[simp] theorem Machine.leave_enter (μ : Machine) : μ.enter.leave = μ := rfl

@[simp] theorem Machine.heap_enter (μ : Machine) : μ.enter.heap = μ.heap := rfl

@[simp] theorem Machine.heap_leave (μ : Machine) : μ.leave.heap = μ.heap := rfl

theorem Run.ends_deeper (x : Run α) (μ : Machine) :
    (deeper x).ends μ = (x.ends μ.enter).map fun (r, μ') => (r, μ'.leave) := by
  show (x.run μ.enter).bind _ = (x.run μ.enter).map _
  cases x.run μ.enter <;> rfl

namespace RunWith

@[simp] theorem ends_pure (a : α) (s : σ) (μ : Machine) :
    (pure a : RunWith σ α).ends s μ = some ((.ok a, s), μ) := rfl

theorem ends_bind (x : RunWith σ α) (f : α → RunWith σ β) (s : σ) (μ : Machine) :
    (x >>= f).ends s μ = (x.ends s μ).bind fun
      | ((.ok a, s'), μ') => (f a).ends s' μ'
      | ((.error u, s'), μ') => some ((.error u, s'), μ') := by
  show (x.run s μ).bind _ = (x.run s μ).bind _
  congr 1
  funext r
  rcases r with ⟨⟨_ | _, _⟩, _⟩ <;> rfl

/-- A sequence ends in its first part by an early stop, or in its second part. -/
theorem ends_bind_eq_some {x : RunWith σ α} {f : α → RunWith σ β} {s s' : σ} {μ μ' : Machine}
    {r : Except Unwind β} :
    (x >>= f).ends s μ = some ((r, s'), μ') ↔
      (∃ u, x.ends s μ = some ((.error u, s'), μ') ∧ r = .error u) ∨
        ∃ a s₁ μ₁, x.ends s μ = some ((.ok a, s₁), μ₁) ∧
          (f a).ends s₁ μ₁ = some ((r, s'), μ') := by
  rw [ends_bind]
  cases hx : x.ends s μ with
  | none => simp
  | some o =>
      obtain ⟨⟨c, s₁⟩, μ₁⟩ := o
      cases c with
      | error u =>
          constructor
          · intro h
            cases h
            exact Or.inl ⟨u, rfl, rfl⟩
          · rintro (⟨_, h, rfl⟩ | ⟨_, _, _, h, _⟩)
            · cases h
              rfl
            · exact absurd h (by simp)
      | ok a =>
          constructor
          · intro h
            exact Or.inr ⟨a, s₁, μ₁, rfl, h⟩
          · rintro (⟨u, h, _⟩ | ⟨_, _, _, h, h'⟩)
            · exact absurd h (by simp)
            · cases h
              exact h'

theorem ends_keep (x : Run α) (s : σ) (μ : Machine) :
    (Run.keep x : RunWith σ α).ends s μ = (x.ends μ).map fun (r, μ') => ((r, s), μ') := by
  show (x.run μ).bind _ = (x.run μ).map _
  cases x.run μ <;> rfl

theorem ends_keep_eq_some {x : Run α} {s s' : σ} {μ μ' : Machine} {r : Except Unwind α} :
    (Run.keep x : RunWith σ α).ends s μ = some ((r, s'), μ') ↔
      x.ends μ = some (r, μ') ∧ s' = s := by
  rw [ends_keep]
  cases x.ends μ with
  | none => simp
  | some o =>
      obtain ⟨c, μ₁⟩ := o
      simp only [Option.map_some, Option.some.injEq, Prod.mk.injEq]
      constructor
      · rintro ⟨⟨rfl, rfl⟩, rfl⟩
        exact ⟨⟨rfl, rfl⟩, rfl⟩
      · rintro ⟨⟨rfl, rfl⟩, rfl⟩
        exact ⟨⟨rfl, rfl⟩, rfl⟩

@[simp] theorem ends_getThe (s : σ) (μ : Machine) :
    (getThe σ : RunWith σ σ).ends s μ = some ((.ok s, s), μ) := rfl

@[simp] theorem ends_modifyThe (f : σ → σ) (s : σ) (μ : Machine) :
    (modifyThe σ f : RunWith σ PUnit).ends s μ = some ((.ok (), f s), μ) := rfl

@[simp] theorem ends_set (s s' : σ) (μ : Machine) :
    (set s' : RunWith σ PUnit).ends s μ = some ((.ok (), s'), μ) := rfl

theorem ends_observe (x : RunWith σ α) (s : σ) (μ : Machine) :
    (Run.observe x).ends s μ = (x.ends s μ).map fun ((r, s'), μ') => ((.ok r, s'), μ') := by
  show (x.run s μ).bind _ = (x.run s μ).map _
  cases x.run s μ <;> rfl

theorem ends_inBlock (vars : Table String Value) (x : RunWith Scopes α) (s : Scopes)
    (μ : Machine) :
    (Run.inBlock vars x).ends s μ =
      (x.ends (vars :: s) μ).map fun ((r, s'), μ') => ((r, s'.tail), μ') := by
  show (x.run (vars :: s) μ).bind _ = (x.run (vars :: s) μ).map _
  cases x.run (vars :: s) μ <;> rfl

theorem ends_inScope (f : Frame) (x : Frame → Run α) (s : Scopes) (μ : Machine) :
    (Run.inScope f x).ends s μ =
      ((x { f with scopes := s }).ends μ).map fun (r, μ') => ((r, s), μ') :=
  ends_keep (x { f with scopes := s }) s μ

theorem ends_withSlots_eq_some {f : Frame} {x : Frame → Run α} {s s' : Slots}
    {μ μ' : Machine} {r : Except Unwind α} :
    (Run.withSlots f x).ends s μ = some ((r, s'), μ') ↔
      (x { f with slots := s }).ends μ = some (r, μ') ∧ s' = s :=
  ends_keep_eq_some (x := x { f with slots := s })

end RunWith

/-! ## Normal ends of members -/

namespace Run

variable {p : WovenProgram} {calls : Calls} {f : Frame} {μ μ' : Machine} {v : Value}

theorem leave_error_ne_ok {u : Unwind} :
    (leave p calls f (.error u)).ends μ ≠ some (.ok v, μ') := by
  intro h
  cases u with
  | throw e =>
      obtain ⟨_, _, hr⟩ | ⟨x, μ₁, _, hrest⟩ := ends_bind_eq_some.mp h
      · cases hr
      · obtain ⟨_, _, hr⟩ | ⟨_, μ₂, _, hend⟩ := ends_bind_eq_some.mp hrest
        · cases hr
        · cases hend
  | violation => cases h
  | fatal => cases h

theorem ends_leave_ok {flow : Flow} (h : (leave p calls f (.ok flow)).ends μ = some (.ok v, μ')) :
    v = (Frame.returning f flow).result := by
  obtain ⟨_, _, hr⟩ | ⟨x, μ₁, _, hrest⟩ := ends_bind_eq_some.mp h
  · cases hr
  · obtain ⟨_, _, hr⟩ | ⟨_, μ₂, _, hend⟩ := ends_bind_eq_some.mp hrest
    · cases hr
    · cases hend
      rfl

/-- A member that yields a value has passed its entry checks and run its body to a normal end. -/
theorem ends_activate_ok {m : MethodInfo} {this : Option Ref} {args : List Value}
    (h : (activate p calls m this args).ends μ = some (.ok v, μ')) :
    ∃ slots flow s μ₀ μ₁,
      (runCodes p.env calls { Frame.start m.id this args with scopes := paramScopes m args }
        (p.codesAt m.id .entry)).ends .empty μ = some ((.ok (), slots), μ₀) ∧
      (runBody p.env calls
        { Frame.start m.id this args with scopes := paramScopes m args, slots } m).ends
          (paramScopes m args) μ₀ = some ((.ok flow, s), μ₁) ∧
      v = (Frame.returning (Frame.start m.id this args) flow).result := by
  obtain ⟨entered, slots, μ₀, hentry, h⟩ := ends_withState_bind.mp h
  cases entered with
  | error u => exact absurd h leave_error_ne_ok
  | ok =>
      obtain ⟨completed, s, μ₁, hbody, h⟩ := ends_withState_bind.mp h
      cases completed with
      | error u => exact absurd h leave_error_ne_ok
      | ok flow =>
          refine ⟨slots, flow, s, μ₀, μ₁, hentry, hbody, ?_⟩
          rw [ends_leave_ok h]
          cases flow <;> rfl

end Run

end Covenant
