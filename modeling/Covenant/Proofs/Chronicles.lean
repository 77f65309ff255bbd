import Covenant.Proofs.Ends

/-!
# What computations raise

A violation and a fatal error are raised where they arise, and nothing may catch
them. A chronicle tells which of them a computation raises on a machine, in their
order, also those that are raised in `finally` blocks on the way of an earlier
one. It comes with the proof that the first of them is how the computation ends,
if it has an end at all; for this it tells too where a `finally` block that starts
behind one of them goes on forever.

There is one way to put chronicles together for each way to put computations
together. A computation that does one thing only has `once` as its chronicle.
-/

namespace Covenant

/-- The unwind, if it is one that nothing may catch. -/
def Unwind.uncatchable? : Unwind → Option Unwind
  | .throw _ => none
  | u => some u

/-- The violation or the fatal error with which a computation ended. -/
def uncatchable? {α : Type} : Except Unwind α → Option Unwind
  | .ok _ => none
  | .error u => u.uncatchable?

theorem Unwind.eq_of_uncatchable? {u w : Unwind} (h : u.uncatchable? = some w) : u = w := by
  cases u with
  | throw => cases h
  | violation | fatal =>
      cases h
      rfl

variable {S S' T T' U α β σ : Type}

/-- How a computation goes from a state on: how it ends and the state that it leaves, if it has an
end. -/
abbrev Process (S T α : Type) := S → Option (Except Unwind α × T)

/-- Goes on from a value, and stops where the computation in front stopped. -/
def Process.orStop (f : α → Process T T β) : Except Unwind α → Process T T β
  | .ok a => f a
  | .error u => fun t => some (.error u, t)

/-- Goes on from an exception, and leaves everything else as it is. -/
def Process.caught (f : Ref → Process T T α) : Except Unwind α → Process T T α
  | .ok a => fun t => some (.ok a, t)
  | .error (.throw e) => f e
  | .error u => fun t => some (.error u, t)

theorem Process.caught_uncatchable {f : Ref → Process T T α} {u : Unwind}
    (hu : u.uncatchable? = some u) (t : T) : caught f (.error u) t = some (.error u, t) := by
  cases u with
  | throw => cases hu
  | violation | fatal => rfl

/-- What is raised in the course of a computation. -/
structure Chronicle (x : Process S T α) where
  /-- What is raised from a state on, in its order. -/
  raised : S → List Unwind
  /-- Whether a `finally` block has no end that starts behind something that was raised. -/
  hangs : S → Bool
  first : ∀ {s r t}, x s = some (r, t) → uncatchable? r = (raised s).head?
  ends : ∀ {s}, raised s ≠ [] → hangs s = false → ∃ o, x s = some o

namespace Chronicle

variable {x y : Process S T α}

/-- A computation that does one thing raises at most what it ends with. -/
def once (x : Process S T α) : Chronicle x where
  raised s := ((x s).bind fun o => uncatchable? o.1).toList
  hangs _ := false
  first {s r t} h := by
    rw [h, Option.bind_some]
    cases uncatchable? r <;> rfl
  ends {s} h _ := by
    cases hx : x s with
    | some o => exact ⟨o, rfl⟩
    | none => exact absurd (by rw [hx]; rfl) h

def ofEq (h : ∀ s, x s = y s) (c : Chronicle x) : Chronicle y where
  raised := c.raised
  hangs := c.hangs
  first hy := c.first ((h _).trans hy)
  ends hr hh := (c.ends hr hh).imp fun _ hx => (h _).symm.trans hx

/-- By what a look-up finds. -/
def byCases {γ : Type} (o : Option γ) (c : ∀ a, o = some a → Chronicle x)
    (d : o = none → Chronicle x) : Chronicle x :=
  match o, c, d with
  | some a, c, _ => c a rfl
  | none, _, d => d rfl

theorem ends_of_first {c : Chronicle x} {s : S} {u : Unwind} (h : (c.raised s).head? = some u)
    (hh : c.hangs s = false) : ∃ r t, x s = some (r, t) ∧ uncatchable? r = some u := by
  obtain ⟨⟨r, t⟩, hx⟩ := c.ends (fun hnil => by rw [hnil] at h; cases h) hh
  exact ⟨r, t, hx, (c.first hx).trans h⟩

/-- Between states of other kinds. -/
def within (c : Chronicle x) (f : S' → S) (g : S' → T → T') :
    Chronicle fun s => (x (f s)).map fun o => (o.1, g s o.2) where
  raised s := c.raised (f s)
  hangs s := c.hangs (f s)
  first {s r t} h := by
    obtain ⟨⟨r', t'⟩, hx, heq⟩ := Option.map_eq_some_iff.mp h
    obtain ⟨rfl, _⟩ := Prod.mk.inj heq
    exact c.first hx
  ends hr hh := by
    obtain ⟨o, hx⟩ := c.ends hr hh
    exact ⟨_, by rw [hx]; rfl⟩

/-- A computation that depends on a part of the state. -/
def family {x : σ → Process S T α} (c : ∀ k, Chronicle (x k)) :
    Chronicle fun s : σ × S => x s.1 s.2 where
  raised s := (c s.1).raised s.2
  hangs s := (c s.1).hangs s.2
  first h := (c _).first h
  ends hr hh := (c _).ends hr hh

section

variable {g : Except Unwind α → Process T U β}

/-- A computation that is watched, and what is done next. Only values and exceptions lead on; what
nothing may catch goes on as it is. -/
def andThen (c : Chronicle x) (hok : ∀ a, Chronicle (g (.ok a)))
    (hthrow : ∀ e, Chronicle (g (.error (.throw e))))
    (hstop : ∀ u t, u.uncatchable? = some u → ∃ t', g (.error u) t = some (.error u, t')) :
    Chronicle fun s => (x s).bind fun o => g o.1 o.2 where
  raised s := c.raised s ++ match x s with
    | some (.ok a, t) => (hok a).raised t
    | some (.error (.throw e), t) => (hthrow e).raised t
    | _ => []
  hangs s := c.hangs s || match x s with
    | some (.ok a, t) => (hok a).hangs t
    | some (.error (.throw e), t) => (hthrow e).hangs t
    | _ => false
  first {s r t} h := by
    obtain ⟨⟨r₁, t₁⟩, hx, hg⟩ := Option.bind_eq_some_iff.mp h
    have hfirst := c.first hx
    have rest {later : List Unwind} (hnone : uncatchable? r₁ = none)
        (hlater : uncatchable? r = later.head?) :
        uncatchable? r = (c.raised s ++ later).head? := by
      rw [hnone, eq_comm, List.head?_eq_none_iff] at hfirst
      rw [hfirst, List.nil_append]
      exact hlater
    have stopped {u : Unwind} (hu : u.uncatchable? = some u) (hr : r₁ = .error u) :
        uncatchable? r = (c.raised s ++ []).head? := by
      subst hr
      obtain ⟨t', hstop⟩ := hstop u t₁ hu
      cases hstop.symm.trans hg
      rw [List.append_nil]
      exact hfirst
    rw [hx]
    rcases r₁ with (e | v | e) | a
    · exact rest rfl ((hthrow e).first hg)
    · exact stopped rfl rfl
    · exact stopped rfl rfl
    · exact rest rfl ((hok a).first hg)
  ends {s} hr hh := by
    obtain ⟨hhere, hlater⟩ := Bool.or_eq_false_iff.mp hh
    cases hraised : c.raised s with
    | cons u us =>
        -- Something was raised in front: it is how the first part ends.
        obtain ⟨r, t, hx, hu⟩ := ends_of_first (by rw [hraised]; rfl) hhere
        cases r with
        | ok a => cases hu
        | error w =>
            obtain ⟨t', hstop⟩ := hstop w t (Unwind.eq_of_uncatchable? hu ▸ hu)
            exact ⟨_, by rw [hx, Option.bind_some, hstop]⟩
    | nil =>
        rw [hraised, List.nil_append] at hr
        split at hr
        · next a t hx =>
            rw [hx] at hlater
            obtain ⟨o, ho⟩ := (hok a).ends hr hlater
            exact ⟨o, by rw [hx]; exact ho⟩
        · next e t hx =>
            rw [hx] at hlater
            obtain ⟨o, ho⟩ := (hthrow e).ends hr hlater
            exact ⟨o, by rw [hx]; exact ho⟩
        · exact absurd rfl hr

end

def bind {f : α → Process T T β} (c : Chronicle x) (d : ∀ a, Chronicle (f a)) :
    Chronicle fun s => (x s).bind fun o => Process.orStop f o.1 o.2 :=
  c.andThen (g := Process.orStop f) d (fun _ => .once _) fun _ t _ => ⟨t, rfl⟩

theorem uncatchable?_afterCleanup (r c : Except Unwind Flow) :
    uncatchable? (Run.afterCleanup r c) = (uncatchable? r).or (uncatchable? c) := by
  rcases r with (_ | _ | _) | _ <;> rcases c with (_ | _ | _) | _ | _ <;> rfl

/-- A computation with a `finally` block, which runs whatever was raised in front of it. -/
def withCleanup {y : Process T U Flow} {x : Process S T Flow} (c : Chronicle x)
    (d : Chronicle y) :
    Chronicle fun s => (x s).bind fun o => (y o.2).map fun p => (Run.afterCleanup o.1 p.1, p.2) where
  raised s := c.raised s ++ match x s with
    | some (_, t) => d.raised t
    | none => []
  hangs s := c.hangs s || match x s with
    | some (r, t) => d.hangs t || (uncatchable? r).isSome && (y t).isNone
    | none => false
  first {s r t} h := by
    obtain ⟨⟨r₁, t₁⟩, hx, h⟩ := Option.bind_eq_some_iff.mp h
    obtain ⟨⟨r₂, t₂⟩, hy, heq⟩ := Option.map_eq_some_iff.mp h
    obtain ⟨rfl, rfl⟩ := Prod.mk.inj heq
    rw [hx, uncatchable?_afterCleanup, List.head?_append, c.first hx, d.first hy]
  ends {s} hr hh := by
    obtain ⟨hhere, hlater⟩ := Bool.or_eq_false_iff.mp hh
    have goOn {r : Except Unwind Flow} {t : T} (hx : x s = some (r, t)) (hy : ∃ o, y t = some o) :
        ∃ o, ((x s).bind fun o => (y o.2).map fun p => (Run.afterCleanup o.1 p.1, p.2)) =
          some o := by
      obtain ⟨p, hy⟩ := hy
      exact ⟨_, by rw [hx, Option.bind_some, hy]; rfl⟩
    cases hraised : c.raised s with
    | cons u us =>
        obtain ⟨r, t, hx, hu⟩ := ends_of_first (by rw [hraised]; rfl) hhere
        rw [hx] at hlater
        obtain ⟨_, hcleanup⟩ := Bool.or_eq_false_iff.mp hlater
        rw [hu, Option.isSome_some, Bool.true_and, Option.isNone_eq_false_iff] at hcleanup
        exact goOn hx (Option.isSome_iff_exists.mp hcleanup)
    | nil =>
        rw [hraised, List.nil_append] at hr
        split at hr
        · next r t hx =>
            rw [hx] at hlater
            exact goOn hx (d.ends hr (Bool.or_eq_false_iff.mp hlater).1)
        · exact absurd rfl hr

end Chronicle

/-! ## Computations of programs -/

/-- A computation with a local state, as one from both states on. -/
def RunWith.process (x : RunWith σ α) : Process (σ × Machine) (σ × Machine) α := fun s =>
  (x.ends s.1 s.2).map fun o => (o.1.1, o.1.2, o.2)

namespace Run

variable {x : Run α}

theorem ends_bind_orStop (f : α → Run β) (μ : Machine) :
    (x >>= f).ends μ = (x.ends μ).bind fun o => Process.orStop (fun a => (f a).ends) o.1 o.2 := by
  rw [ends_bind]
  congr 1
  funext o
  rcases o with ⟨_ | _, _⟩ <;> rfl

/-- A computation that is watched goes on from its end, whatever it was. -/
theorem ends_watch (g : Except Unwind α → Run β) (μ : Machine) :
    (liftM x.run >>= g).ends μ = (x.ends μ).bind fun o => (g o.1).ends o.2 := by
  rw [ends_bind, ends_lift, Option.bind_map]
  rfl

/-- The same for a computation with a local state of its own. -/
theorem ends_watchFrom {x : RunWith σ α} {s : σ} (g : Except Unwind α × σ → Run β) (μ : Machine) :
    (withState x s >>= g).ends μ =
      (x.process (s, μ)).bind fun o => (g (o.1, o.2.1)).ends o.2.2 := by
  rw [ends_bind, ends_withState, RunWith.process, Option.bind_map, Option.bind_map]
  rfl

theorem ends_watchWithin {x : RunWith σ α} {s : σ} (g : Except Unwind α × σ → Run β)
    (μ : Machine) :
    (withState x s >>= g).ends μ =
      ((x.process (s, μ)).map fun o => (o.1, o.2)).bind fun o => (g (o.1, o.2.1)).ends o.2.2 := by
  rw [ends_watchFrom, Option.map_id']

end Run

namespace RunWith

variable {x : RunWith σ α}

theorem process_bind (f : α → RunWith σ β) (s : σ × Machine) :
    (x >>= f).process s =
      (x.process s).bind fun o => Process.orStop (fun a => (f a).process) o.1 o.2 := by
  simp only [process, ends_bind, Option.map_bind, Option.bind_map]
  congr 1
  funext o
  rcases o with ⟨⟨_ | _, _⟩, _⟩ <;> rfl

theorem process_keep (x : Run α) (s : σ × Machine) :
    (Run.keep x : RunWith σ α).process s = (x.ends s.2).map fun o => (o.1, s.1, o.2) := by
  rw [process, ends_keep, Option.map_map]
  rfl

theorem process_inBlock {x : RunWith Scopes α} (vars : Table String Value) (s : Scopes × Machine) :
    (Run.inBlock vars x).process s =
      (x.process (vars :: s.1, s.2)).map fun o => (o.1, o.2.1.tail, o.2.2) := by
  simp only [process, ends_inBlock, Option.map_map]
  rfl

theorem process_catching {x : RunWith Scopes Flow} (g : Ref → RunWith Scopes Flow)
    (s : Scopes × Machine) :
    (Run.catching x g).process s = (x.process s).bind fun o =>
      Process.caught (fun e => (g e).process) o.1 o.2 := by
  simp only [process, Run.catching, ends_bind, ends_observe, Option.map_bind, Option.bind_map]
  congr 1
  funext o
  rcases o with ⟨⟨(_ | _ | _) | _, _⟩, _⟩ <;> rfl

theorem process_withCleanup {x y : RunWith Scopes Flow} (s : Scopes × Machine) :
    (Run.withCleanup x y).process s = (x.process s).bind fun o =>
      (y.process o.2).map fun z => (Run.afterCleanup o.1 z.1, z.2) := by
  simp only [process, Run.withCleanup, ends_bind, ends_observe, ends_keep, Option.map_bind,
    Option.bind_map]
  congr 1
  funext o
  cases hy : y.ends o.1.2 o.2 with
  | none => simp [hy]
  | some p => simp [hy]

end RunWith

/-- What a computation raises. -/
abbrev Run.Chronicle (x : Run α) := Covenant.Chronicle x.ends

abbrev RunWith.Chronicle (x : RunWith σ α) := Covenant.Chronicle x.process

namespace Run.Chronicle

variable {x : Run α}

def bind {f : α → Run β} (c : x.Chronicle) (d : ∀ a, (f a).Chronicle) : (x >>= f).Chronicle :=
  .ofEq (fun μ => (ends_bind_orStop f μ).symm) (Covenant.Chronicle.bind c d)

def ite {p : Prop} [h : Decidable p] {y : Run α} (c : x.Chronicle) (d : y.Chronicle) :
    (if p then x else y : Run α).Chronicle :=
  match h with
  | .isTrue _ => c
  | .isFalse _ => d

/-- A computation that is watched. -/
def watch {g : Except Unwind α → Run β} (c : x.Chronicle) (hok : ∀ a, (g (.ok a)).Chronicle)
    (hthrow : ∀ e, (g (.error (.throw e))).Chronicle)
    (hstop : ∀ u, u.uncatchable? = some u → g (.error u) = stop u) :
    (liftM x.run >>= g).Chronicle :=
  .ofEq (fun μ => (ends_watch g μ).symm)
    (.andThen (g := fun r => (g r).ends) c hok hthrow fun u t hu => ⟨t, by rw [hstop u hu]; rfl⟩)

/-- A computation with a local state of its own, which is watched. -/
def watchFrom {x : RunWith σ α} {s : σ} {g : Except Unwind α × σ → Run β} (c : x.Chronicle)
    (hok : ∀ a s', (g (.ok a, s')).Chronicle)
    (hthrow : ∀ e s', (g (.error (.throw e), s')).Chronicle)
    (hstop : ∀ u s', u.uncatchable? = some u → g (.error u, s') = stop u) :
    (withState x s >>= g).Chronicle :=
  .ofEq
    (x := fun μ => ((x.process (s, μ)).map fun o => (o.1, o.2)).bind fun o =>
      (g (o.1, o.2.1)).ends o.2.2)
    (fun μ => (ends_watchWithin g μ).symm)
    (.andThen (g := fun r t => (g (r, t.1)).ends t.2) (c.within (fun μ => (s, μ)) fun _ t => t)
      (fun a => .family (hok a)) (fun e => .family (hthrow e))
      fun u t hu => ⟨_, by rw [hstop u t.1 hu]; rfl⟩)

def deeper (c : x.Chronicle) : (deeper x).Chronicle :=
  .ofEq (fun μ => by rw [ends_deeper]) (c.within Machine.enter fun _ => Machine.leave)

end Run.Chronicle

namespace RunWith.Chronicle

open Run (keep inScope inBlock withSlots catching iterate)

variable {x : RunWith σ α}

def bind {f : α → RunWith σ β} (c : x.Chronicle) (d : ∀ a, (f a).Chronicle) :
    (x >>= f).Chronicle :=
  .ofEq (fun s => (process_bind f s).symm) (Covenant.Chronicle.bind c d)

def ite {x y : RunWith σ α} (c : x.Chronicle) (d : y.Chronicle) :
    ∀ {b : Bool}, (if b then x else y : RunWith σ α).Chronicle
  | true => c
  | false => d

def keep {x : Run α} (c : x.Chronicle) : (keep x : RunWith σ α).Chronicle :=
  .ofEq (fun s => (process_keep x s).symm) (c.within Prod.snd fun s μ => (s.1, μ))

def inBlock {x : RunWith Scopes α} (vars : Table String Value) (c : x.Chronicle) :
    (inBlock vars x).Chronicle :=
  .ofEq (fun s => (process_inBlock vars s).symm)
    (c.within (fun s : Scopes × Machine => (vars :: s.1, s.2)) fun _ t => (t.1.tail, t.2))

def inScope {f : Frame} {x : Frame → Run α} (c : ∀ scopes, (x { f with scopes }).Chronicle) :
    (inScope f x).Chronicle :=
  .bind (.once _) fun scopes => .keep (c scopes)

def withSlots {f : Frame} {x : Frame → Run α} (c : ∀ slots, (x { f with slots }).Chronicle) :
    (withSlots f x).Chronicle :=
  .bind (.once _) fun slots => .keep (c slots)

def catching {x : RunWith Scopes Flow} {g : Ref → RunWith Scopes Flow} (c : x.Chronicle)
    (d : ∀ e, (g e).Chronicle) : (catching x g).Chronicle :=
  .ofEq (fun s => by
      rw [process_catching]
      congr 1
      funext o
      rcases o with ⟨(_ | _ | _) | _, _⟩ <;> rfl)
    (c.andThen
      (g := fun
        | .ok flow => fun s => some (.ok flow, s)
        | .error (.throw e) => (g e).process
        | .error u => fun s => some (.error u, s))
      (fun _ => .once _) d fun u s hu => ⟨s, by cases u <;> first | rfl | cases hu⟩)

def withCleanup {x y : RunWith Scopes Flow} (c : x.Chronicle) (d : y.Chronicle) :
    (Run.withCleanup x y).Chronicle :=
  .ofEq (fun s => (process_withCleanup s).symm) (Covenant.Chronicle.withCleanup c d)

def iterate {x : RunWith Scopes Bool} {y : RunWith Scopes Flow} (c : x.Chronicle)
    (d : y.Chronicle) : ∀ n, (iterate x y n).Chronicle
  | 0 => .keep (.once _)
  | n + 1 => .bind c fun
    | true => .bind d fun
      | .normal => iterate c d n
      | .ret _ _ => .once _
    | false => .once _

end RunWith.Chronicle

end Covenant
