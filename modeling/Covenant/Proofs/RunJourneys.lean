import Covenant.Proofs.Journeys

/-!
# Journeys of runs

One journey for each primitive of a run and for each way in which a program puts
computations together. A primitive is brief, so it comes through nothing but the
machine that it leaves. What a statement does to its variables shows in the frames
before and behind it; a block shows its variables while they are there.
-/

namespace Covenant

open HasRefs (refs)
open World (machine locals)

variable {α β σ : Type}

/-- What a computation comes through. -/
abbrev Run.Journey [HasRefs α] (P : DeclId → Task → Prop) (held : List Ref) (x : Run α) :=
  Covenant.Journey P held x.ends

abbrev RunWith.Journey [HasRefs σ] [HasRefs α] (P : DeclId → Task → Prop) (held : List Ref)
    (x : RunWith σ α) :=
  Covenant.Journey P held x.process

variable [HasRefs α] [HasRefs β] [HasRefs σ] {P : DeclId → Task → Prop} {held : List Ref}

namespace Run.Journey

variable {x y : Run α}

def calm [h : x.Calm held] : x.Journey P held :=
  Covenant.Journey.calm fun hx => by
    obtain ⟨rfl, hr⟩ := h.ends hx
    exact ⟨rfl, hr⟩

def yields (a : α) [Held a held] : (pure a : Run α).Journey P held := calm

def ofRun (h : y = x) (c : x.Journey P held) : y.Journey P held :=
  Covenant.Journey.ofEq (fun _ => h ▸ rfl) c

def stops (u : Unwind) [h : Held u held] : (stop u : Run α).Journey P held := .stopped h.sub

/-- A computation that changes the machine once at most. -/
def brief [h : x.Brief held] : x.Journey P held where
  moments μ := match x.ends μ with
    | some (_, μ') => [⟨[], μ', none⟩]
    | none => []
  route μ := by
    cases hx : x.ends μ with
    | none => exact ⟨μ, .nil, fun h => by cases h⟩
    | some o => exact ⟨o.2, .cons (h.step hx) .nil, fun heq => by cases heq; rfl⟩
  placed m hm := by
    split at hm
    · obtain rfl := List.mem_singleton.mp hm
      exact .silent
    · exact absurd hm List.not_mem_nil
  closed hμ m hm := by
    split at hm
    · next hx =>
        obtain rfl := List.mem_singleton.mp hm
        exact ⟨.nil, (h.closed hx hμ.closed hμ.below).2⟩
    · exact absurd hm List.not_mem_nil
  ends hμ hx := by
    obtain ⟨hr, hμ'⟩ := h.closed hx hμ.closed hμ.below
    exact ⟨hμ', Below.append.mpr ⟨.nil, Below.append.mpr
      ⟨hr, Below.mono hμ.below (h.step hx).kept.size⟩⟩⟩

def bind {f : α → Run β} (c : x.Journey P held) (d : ∀ a, (f a).Journey P (refs a ++ held)) :
    (x >>= f).Journey P held :=
  .ofEq (ends_bind_orStop f) (Covenant.Journey.bind c d)

def ite {p : Prop} [h : Decidable p] (c : x.Journey P held) (d : y.Journey P held) :
    (if p then x else y : Run α).Journey P held :=
  match h with
  | .isTrue _ => c
  | .isFalse _ => d

def under (f : Frame) [h : Held f held] (c : x.Journey P held) : x.Journey P held :=
  Covenant.Journey.under c (fun _ => f) fun _ => h.sub

def starting (f : Frame) [h : Held f held] {w : Task} (hw : P f.decl w) (c : x.Journey P held) :
    x.Journey P held :=
  Covenant.Journey.starting c (fun _ => f) (fun _ => h.sub) (some w) fun _ _ heq =>
    Option.some.inj heq ▸ hw

/-- A computation that stops in a way that nothing may catch. -/
def passes {u : Unwind} (hu : u.uncatchable? = some u)
    (hx : ∀ μ, x.ends μ = some (.error u, μ)) : x.Journey P held :=
  Covenant.Journey.calm fun h => by
    cases u with
    | throw => cases hu
    | violation | fatal =>
        cases (hx _).symm.trans h
        exact ⟨rfl, List.nil_subset _⟩

/-- A computation that is watched. -/
def watch {g : Except Unwind α → Run β} (c : x.Journey P held)
    (hok : ∀ a, (g (.ok a)).Journey P (refs a ++ held))
    (hthrow : ∀ e : Ref, (g (.error (.throw e))).Journey P (refs e ++ held))
    (hstop : ∀ u, u.uncatchable? = some u → ∀ μ, (g (.error u)).ends μ = some (.error u, μ)) :
    (liftM x.run >>= g).Journey P held :=
  .ofEq (ends_watch g) (.andThen (g := fun r => (g r).ends) c fun
    | .ok a => hok a
    | .error (.throw e) => hthrow e
    | .error (.violation _) => passes rfl (hstop _ rfl)
    | .error (.fatal _) => passes rfl (hstop _ rfl))

/-- A computation with a local state of its own, which is watched. -/
def watchFrom {x : RunWith σ α} {s : σ} [hs : Held s held] {g : Except Unwind α × σ → Run β}
    (c : x.Journey P held)
    (hok : ∀ a s', (g (.ok a, s')).Journey P (refs s' ++ (refs a ++ held)))
    (hthrow : ∀ (e : Ref) s', (g (.error (.throw e), s')).Journey P (refs s' ++ (refs e ++ held)))
    (hstop : ∀ u s', u.uncatchable? = some u →
      ∀ μ, (g (.error u, s')).ends μ = some (.error u, μ)) :
    (withState x s >>= g).Journey P held :=
  .ofEq
    (x := fun μ => ((x.process (s, μ)).map fun o => (o.1, o.2)).bind fun o =>
      (g (o.1, o.2.1)).ends o.2.2)
    (ends_watchWithin g)
    (.andThen (g := fun r t => (g (r, t.1)).ends t.2)
      (c.within (fun μ => (s, μ)) (fun _ t => t) (fun _ => ⟨rfl, hs.sub⟩)
        fun _ _ => ⟨rfl, List.Subset.refl _⟩)
      fun
        | .ok a => .family (hok a)
        | .error (.throw e) => .family (hthrow e)
        | .error (.violation _) => .family fun s' => passes rfl (hstop _ s' rfl)
        | .error (.fatal _) => .family fun s' => passes rfl (hstop _ s' rfl))

/-- A computation one level deeper. -/
def deeper (c : x.Journey P held) : (deeper x).Journey P held where
  moments μ := ⟨[], μ.enter, none⟩ :: (c.moments μ.enter ++ match x.ends μ.enter with
    | some (_, μ') => [⟨[], μ'.leave, none⟩]
    | none => [])
  route μ := by
    obtain ⟨μ', hroute, hend⟩ := c.route μ.enter
    rw [ends_deeper]
    cases hx : x.ends μ.enter with
    | none =>
        rw [List.append_nil]
        exact ⟨μ', .cons (.depth _) hroute, fun h => by cases h⟩
    | some o =>
        refine ⟨o.2.leave, .cons (.depth _) ?_, fun h => by cases h; rfl⟩
        rw [List.map_append]
        rw [← hend hx] at hroute
        exact hroute.append (.cons (.depth _) .nil)
  placed {μ} m hm := by
    rcases List.mem_cons.mp hm with rfl | hm
    · exact .silent
    · rcases List.mem_append.mp hm with hm | hm
      · exact c.placed m hm
      · split at hm
        · obtain rfl := List.mem_singleton.mp hm
          exact .silent
        · exact absurd hm List.not_mem_nil
  closed {μ} hμ m hm := by
    have henter : World.Closed held μ.enter := ⟨hμ.closed, hμ.below⟩
    rcases List.mem_cons.mp hm with rfl | hm
    · exact ⟨.nil, hμ.closed⟩
    · rcases List.mem_append.mp hm with hm | hm
      · exact c.closed henter m hm
      · split at hm
        · next hx =>
            obtain rfl := List.mem_singleton.mp hm
            exact ⟨.nil, (c.ends henter hx).closed⟩
        · exact absurd hm List.not_mem_nil
  ends {μ r μ'} hμ h := by
    have henter : World.Closed held μ.enter := ⟨hμ.closed, hμ.below⟩
    rw [ends_deeper] at h
    obtain ⟨⟨r₁, μ₁⟩, hx, heq⟩ := Option.map_eq_some_iff.mp h
    cases heq
    have hμ₁ := c.ends henter hx
    exact ⟨hμ₁.closed, hμ₁.below⟩

end Run.Journey

/-! ### Frames with a state of their own -/

/-- The frame with the variables as they are. -/
def Frame.among (f : Frame) (s : Scopes × Machine) : Frame := { f with scopes := s.1 }

/-- The frame with what is stored. -/
def Frame.storing (f : Frame) (s : Slots × Machine) : Frame := { f with slots := s.1 }

theorem Frame.refs_among (f : Frame) [Held f held] (s : Scopes × Machine) :
    refs (f.among s) ⊆ locals s ++ held :=
  (inferInstance : Held { f with scopes := s.1 } (refs s.1 ++ held)).sub

theorem Frame.refs_storing (f : Frame) [Held f held] (s : Slots × Machine) :
    refs (f.storing s) ⊆ locals s ++ held :=
  (inferInstance : Held { f with slots := s.1 } (refs s.1 ++ held)).sub

namespace RunWith.Journey

variable {x : RunWith σ α}

def yields (a : α) [h : Held a held] : (pure a : RunWith σ α).Journey P held :=
  .stopped h.sub

def current : (getThe σ : RunWith σ σ).Journey P held :=
  Covenant.Journey.calm fun {s _ _} h => by
    cases h
    refine ⟨rfl, ?_⟩
    show refs s.1 ++ refs s.1 ⊆ refs s.2 ++ (refs s.1 ++ held)
    grind

/-- The local state as something at hand makes it. -/
def change {f : σ → σ} (h : ∀ s, refs (f s) ⊆ refs s ++ held) :
    (modifyThe σ f : RunWith σ PUnit).Journey P held :=
  Covenant.Journey.calm fun {s _ _} hx => by
    cases hx
    refine ⟨rfl, List.append_subset.mpr ⟨?_, List.nil_subset _⟩⟩
    exact List.Subset.trans (h s.1) (List.subset_append_right ..)

def bind {f : α → RunWith σ β} (c : x.Journey P held)
    (d : ∀ a, (f a).Journey P (refs a ++ held)) : (x >>= f).Journey P held :=
  .ofEq (process_bind f) (Covenant.Journey.bind c d)

def ite {x y : RunWith σ α} (c : x.Journey P held) (d : y.Journey P held) :
    ∀ {b : Bool}, (if b then x else y : RunWith σ α).Journey P held
  | true => c
  | false => d

def keep {x : Run α} (c : x.Journey P held) : (Run.keep x : RunWith σ α).Journey P held :=
  .ofEq (process_keep x)
    (c.within Prod.snd (fun s μ => (s.1, μ)) (fun _ => ⟨rfl, List.nil_subset _⟩)
      fun _ _ => ⟨rfl, List.subset_append_left ..⟩)

def inScope {f : Frame} {x : Frame → Run α}
    (c : ∀ scopes, (x { f with scopes }).Journey P (refs scopes ++ held)) :
    (Run.inScope f x).Journey P held :=
  .bind .current fun scopes => .keep (c scopes)

def withSlots {f : Frame} {x : Frame → Run α}
    (c : ∀ slots, (x { f with slots }).Journey P (refs slots ++ held)) :
    (Run.withSlots f x).Journey P held :=
  .bind .current fun slots => .keep (c slots)

section

variable {x : RunWith Scopes α} (f : Frame) [Held f held]

/-- What goes on behind a frame with the variables as they are. -/
def under (c : x.Journey P held) : x.Journey P held :=
  Covenant.Journey.under c f.among f.refs_among

/-- The moments before and behind a computation that runs in a frame. -/
def around {w : Task} (hw : P f.decl w) (c : x.Journey P held) : x.Journey P held :=
  (Covenant.Journey.starting c f.among f.refs_among (some w) fun _ _ heq =>
    Option.some.inj heq ▸ hw).finishing f.among f.refs_among

/-- A block, with the moments at which its variables are there and are gone. -/
def inBlock (vars : Table String Value) [hvars : Held vars held] (c : x.Journey P held) :
    (Run.inBlock vars x).Journey P held :=
  .ofEq (process_inBlock vars)
    (((Covenant.Journey.starting c f.among f.refs_among none fun _ _ h => by cases h).within
      (fun s : Scopes × Machine => (vars :: s.1, s.2)) (fun _ t => (t.1.tail, t.2))
      (fun s => ⟨rfl, List.append_subset.mpr
        ⟨List.Subset.trans hvars.sub (List.subset_append_right ..), List.subset_append_left ..⟩⟩)
      fun s t => ⟨rfl, by
        obtain ⟨scopes, μ⟩ := t
        cases scopes with
        | nil => exact List.nil_subset _
        | cons vars scopes =>
            exact List.Subset.trans (List.subset_append_right (refs vars) (refs scopes))
              (List.subset_append_right ..)⟩).finishing f.among f.refs_among)

end

/-- The moments before and behind a check in a frame. -/
def checking {x : RunWith Slots α} (f : Frame) [Held f held] {w : Task} (hw : P f.decl w)
    (c : x.Journey P held) : x.Journey P held :=
  (Covenant.Journey.starting c f.storing f.refs_storing (some w) fun _ _ heq =>
    Option.some.inj heq ▸ hw).finishing f.storing f.refs_storing

def assign (name : String) (v : Value) [h : Held v held] :
    (Run.assign name v).Journey P held :=
  Covenant.Journey.calm fun {s r t} hx => by
    rw [Run.assign, process_bind] at hx
    obtain ⟨o, ho, hx⟩ := Option.bind_eq_some_iff.mp hx
    cases ho
    cases hs : s.1.assign? name v with
    | none =>
        simp only [Process.orStop, hs] at hx
        cases hx
        refine ⟨rfl, ?_⟩
        show refs s.1 ++ [] ⊆ refs s.2 ++ (refs s.1 ++ held)
        grind
    | some s' =>
        simp only [Process.orStop, hs] at hx
        cases hx
        have hv := h.sub
        have hs' := HasRefs.refs_assign? hs
        refine ⟨rfl, ?_⟩
        show refs s' ++ [] ⊆ refs s.2 ++ (refs s.1 ++ held)
        grind

def catching {x : RunWith Scopes Flow} {g : Ref → RunWith Scopes Flow} (c : x.Journey P held)
    (d : ∀ e : Ref, (g e).Journey P (refs e ++ held)) : (Run.catching x g).Journey P held :=
  .ofEq (process_catching g)
    (c.andThen (g := Process.caught fun e => (g e).process) fun
      | .ok _ => .stopped (List.subset_append_left ..)
      | .error (.throw e) => d e
      | .error (.violation _) => .stopped (List.nil_subset _)
      | .error (.fatal _) => .stopped (List.nil_subset _))

def withCleanup {x y : RunWith Scopes Flow} (c : x.Journey P held) (d : y.Journey P held) :
    (Run.withCleanup x y).Journey P held :=
  .ofEq process_withCleanup (Covenant.Journey.withCleanup c d)

def iterate {x : RunWith Scopes Bool} {y : RunWith Scopes Flow} (c : x.Journey P held)
    (d : y.Journey P held) : ∀ n, (Run.iterate x y n).Journey P held
  | 0 => .keep .calm
  | n + 1 => .bind c fun
    | true => .bind (.weaken d (List.subset_append_right ..)) fun
      | .normal => .weaken (iterate c d n) (by grind)
      | .ret _ _ => .yields _
    | false => .yields _

end RunWith.Journey

end Covenant
