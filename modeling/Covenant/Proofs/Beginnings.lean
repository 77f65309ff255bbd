import Covenant.Proofs.BoundNames
import Covenant.Proofs.RunJourneys

/-!
# How things begin on a journey

A journey says in which declaration's frames something begins. More may be known of
these frames, such as what their scopes bind. `Begins Q I c` says that, from states
on for which `I` holds, whatever begins on the journey `c` does so in a frame for
which `Q` holds. There is one rule for each way to put journeys together, so a proof
goes along the journey. Where two journeys follow each other, what the first one
leaves has to suffice for the second.
-/

namespace Covenant

open HasRefs (refs)
open World (machine locals)

variable {S S' T T' U α β σ : Type}

namespace Moment

/-- What begins does so in a frame as it should. -/
def Begun (Q : Frame → Task → Prop) (m : Moment) : Prop :=
  ∀ w, m.begun = some w → ∃ f rest, m.frames = f :: rest ∧ Q f w

variable {Q : Frame → Task → Prop}

theorem Begun.under {m : Moment} (h : m.Begun Q) (f : Frame) : (m.under f).Begun Q := by
  intro w hw
  obtain ⟨g, rest, hframes, hQ⟩ := h w hw
  exact ⟨g, rest ++ [f], by rw [Moment.under, hframes]; rfl, hQ⟩

theorem Begun.silent {fs : List Frame} {μ : Machine} : Begun Q ⟨fs, μ, none⟩ := nofun

theorem Begun.only {f : Frame} {μ : Machine} {w : Option Task}
    (h : ∀ w', w = some w' → Q f w') : Begun Q ⟨[f], μ, w⟩ :=
  fun w' hw' => ⟨f, [], rfl, h w' hw'⟩

end Moment

/-- From some states on, everything on a journey begins in a frame as it should. -/
def Begins [World S] [World T] [HasRefs α] {P : DeclId → Task → Prop} {held : List Ref}
    {x : Process S T α} (Q : Frame → Task → Prop) (I : S → Prop) (c : Journey P held x) : Prop :=
  ∀ s, I s → ∀ m ∈ c.moments s, m.Begun Q

namespace Begins

variable [World S] [World T] [World U] [World S'] [World T'] [HasRefs α] [HasRefs β]
  {P : DeclId → Task → Prop} {held held' : List Ref} {x y : Process S T α}
  {Q : Frame → Task → Prop} {I : S → Prop} {c : Journey P held x}

/-- Where nothing happens on the way nothing begins. -/
theorem quiet (h : ∀ s, c.moments s = []) : Begins Q I c := by
  intro s _ m hm
  rw [h] at hm
  exact absurd hm List.not_mem_nil

theorem mono {I' : S → Prop} (hc : Begins Q I c) (h : ∀ s, I' s → I s) : Begins Q I' c :=
  fun s hs => hc s (h s hs)

theorem ofEq {h : ∀ s, y s = x s} (hc : Begins Q I c) : Begins Q I (Journey.ofEq h c) := hc

theorem weaken {h : held ⊆ held'} (hc : Begins Q I c) : Begins Q I (c.weaken h) := hc

theorem byCases {γ : Type} {o : Option γ} {d : ∀ a, o = some a → Journey P held x}
    {e : o = none → Journey P held x} (hd : ∀ a ha, Begins Q I (d a ha))
    (he : ∀ hn, Begins Q I (e hn)) : Begins Q I (Journey.byCases o d e) := by
  rw [Journey.byCases]
  split
  · exact he _
  · exact hd _ _

theorem within {f : S' → S} {g : S' → T → T'}
    {hf : ∀ s, machine (f s) = machine s ∧ locals (f s) ⊆ locals s ++ held}
    {hg : ∀ s t, machine (g s t) = machine t ∧ locals (g s t) ⊆ locals s ++ locals t}
    (hc : Begins Q I c) : Begins Q (fun s => I (f s)) (c.within f g hf hg) :=
  fun s hs => hc (f s) hs

theorem family [HasRefs σ] {x : σ → Process Machine T α}
    {c : ∀ k, Journey P (refs k ++ held) (x k)} {I : σ × Machine → Prop}
    (hc : ∀ k, Begins Q (fun μ => I (k, μ)) (c k)) : Begins Q I (Journey.family c) :=
  fun s hs => hc s.1 s.2 hs

theorem andThen {g : Except Unwind α → Process T U β} {d : ∀ r, Journey P (refs r ++ held) (g r)}
    {J : Except Unwind α → T → Prop} (hc : Begins Q I c)
    (hJ : ∀ s r t, I s → x s = some (r, t) → J r t) (hd : ∀ r, Begins Q (J r) (d r)) :
    Begins Q I (c.andThen d) := by
  intro s hs m hm
  rcases List.mem_append.mp hm with hm | hm
  · exact hc s hs m hm
  · split at hm
    · next r t hx => exact hd r t (hJ s r t hs hx) m hm
    · exact absurd hm List.not_mem_nil

theorem bind {f : α → Process T T β} {d : ∀ a, Journey P (refs a ++ held) (f a)}
    {J : α → T → Prop} (hc : Begins Q I c) (hJ : ∀ s a t, I s → x s = some (.ok a, t) → J a t)
    (hd : ∀ a, Begins Q (J a) (d a)) : Begins Q I (c.bind d) := by
  refine .andThen (J := fun r t => ∀ a, r = .ok a → J a t) hc ?_ fun r => ?_
  · rintro s _ t hs hx a rfl
    exact hJ s a t hs hx
  · cases r with
    | error u => exact .quiet fun _ => rfl
    | ok a => exact (hd a).mono fun t ht => ht a rfl

theorem withCleanup {y : Process T U Flow} {x : Process S T Flow} {c : Journey P held x}
    {d : Journey P held y} {J : T → Prop} (hc : Begins Q I c)
    (hJ : ∀ s r t, I s → x s = some (r, t) → J t) (hd : Begins Q J d) :
    Begins Q I (c.withCleanup d) :=
  .andThen (J := fun _ => J) hc hJ fun _ => hd

theorem under {frame : S → Frame} {hframe : ∀ s, refs (frame s) ⊆ locals s ++ held}
    (hc : Begins Q I c) : Begins Q I (c.under frame hframe) := by
  intro s hs m' hm'
  obtain ⟨m, hm, rfl⟩ := List.mem_map.mp hm'
  exact (hc s hs m hm).under _

theorem starting {frame : S → Frame} {hframe : ∀ s, refs (frame s) ⊆ locals s ++ held}
    {w : Option Task} {hw : ∀ s w', w = some w' → P (frame s).decl w'}
    (hq : ∀ s, I s → ∀ w', w = some w' → Q (frame s) w') (hc : Begins Q I c) :
    Begins Q I (c.starting frame hframe w hw) := by
  intro s hs m hm
  rcases List.mem_cons.mp hm with rfl | hm
  · exact .only (hq s hs)
  · exact hc s hs m hm

theorem finishing {frame : T → Frame} {h : ∀ t, refs (frame t) ⊆ locals t ++ held}
    (hc : Begins Q I c) : Begins Q I (c.finishing frame h) := by
  intro s hs m hm
  rcases List.mem_append.mp hm with hm | hm
  · exact hc s hs m hm
  · split at hm
    · obtain rfl := List.mem_singleton.mp hm
      exact .silent
    · exact absurd hm List.not_mem_nil

end Begins

/-! ## Computations of programs -/

variable [HasRefs α] [HasRefs β] [HasRefs σ] {P : DeclId → Task → Prop} {held : List Ref}
  {Q : Frame → Task → Prop}

/-- The same on every machine. -/
abbrev Run.Begins {x : Run α} (Q : Frame → Task → Prop) (c : x.Journey P held) : Prop :=
  Covenant.Begins Q (fun _ => True) c

/-- The same for some local states, on every machine. -/
abbrev RunWith.Begins {x : RunWith σ α} (Q : Frame → Task → Prop) (I : σ → Prop)
    (c : x.Journey P held) : Prop :=
  Covenant.Begins Q (fun s => I s.1) c

namespace Run.Begins

variable {x y : Run α} {c : x.Journey P held}

theorem ofRun {h : y = x} (hc : Run.Begins Q c) : Run.Begins Q (Run.Journey.ofRun h c) := hc

theorem byCases {γ : Type} {o : Option γ} {d : ∀ a, o = some a → x.Journey P held}
    {e : o = none → x.Journey P held} (hd : ∀ a ha, Run.Begins Q (d a ha))
    (he : ∀ hn, Run.Begins Q (e hn)) : Run.Begins Q (Covenant.Journey.byCases o d e) :=
  Covenant.Begins.byCases hd he

theorem brief [h : x.Brief held] : Run.Begins Q (Run.Journey.brief : x.Journey P held) := by
  intro μ _ m hm
  simp only [Run.Journey.brief] at hm
  split at hm
  · obtain rfl := List.mem_singleton.mp hm
    exact .silent
  · exact absurd hm List.not_mem_nil

theorem bind {f : α → Run β} {d : ∀ a, (f a).Journey P (refs a ++ held)} (hc : Run.Begins Q c)
    (hd : ∀ a, (∃ μ μ', x.ends μ = some (.ok a, μ')) → Run.Begins Q (d a)) :
    Run.Begins Q (Run.Journey.bind c d) :=
  Covenant.Begins.bind (J := fun a _ => ∃ μ μ', x.ends μ = some (.ok a, μ')) hc
    (fun μ _ μ' _ hx => ⟨μ, μ', hx⟩) fun a μ ha => hd a ha μ trivial

/-- What comes last begins nothing. -/
theorem last {f : α → Run β} {d : ∀ a, (f a).Journey P (refs a ++ held)} (hc : Run.Begins Q c)
    (hd : ∀ a μ, (d a).moments μ = []) : Run.Begins Q (Run.Journey.bind c d) :=
  .bind hc fun a _ => .quiet (hd a)

theorem ite {p : Prop} [h : Decidable p] {d : y.Journey P held} (hc : Run.Begins Q c)
    (hd : Run.Begins Q d) : Run.Begins Q (Run.Journey.ite (p := p) c d) := by
  cases h with
  | isTrue => exact hc
  | isFalse => exact hd

theorem starting {f : Frame} [Held f held] {w : Task} {hw : P f.decl w} (hq : Q f w)
    (hc : Run.Begins Q c) : Run.Begins Q (Run.Journey.starting f hw c) :=
  Covenant.Begins.starting (fun _ _ _ heq => Option.some.inj heq ▸ hq) hc

theorem under {f : Frame} [Held f held] (hc : Run.Begins Q c) :
    Run.Begins Q (Run.Journey.under f c) :=
  Covenant.Begins.under hc

theorem watch {g : Except Unwind α → Run β} {dok : ∀ a, (g (.ok a)).Journey P (refs a ++ held)}
    {dthrow : ∀ e : Ref, (g (.error (.throw e))).Journey P (refs e ++ held)}
    {hstop : ∀ u, u.uncatchable? = some u → ∀ μ, (g (.error u)).ends μ = some (.error u, μ)}
    (hc : Run.Begins Q c) (hok : ∀ a, Run.Begins Q (dok a))
    (hthrow : ∀ e, Run.Begins Q (dthrow e)) :
    Run.Begins Q (Run.Journey.watch c dok dthrow hstop) := by
  refine Covenant.Begins.andThen (J := fun _ _ => True) hc (fun _ _ _ _ _ => trivial) fun r => ?_
  rcases r with (e | _ | _) | a
  · exact hthrow e
  · exact .quiet fun _ => rfl
  · exact .quiet fun _ => rfl
  · exact hok a

theorem watchFrom {x : RunWith σ α} {s : σ} [Held s held] {c : x.Journey P held} {I : σ → Prop}
    {g : Except Unwind α × σ → Run β}
    {dok : ∀ a s', (g (.ok a, s')).Journey P (refs s' ++ (refs a ++ held))}
    {dthrow : ∀ (e : Ref) s', (g (.error (.throw e), s')).Journey P (refs s' ++ (refs e ++ held))}
    {hstop : ∀ u s', u.uncatchable? = some u →
      ∀ μ, (g (.error u, s')).ends μ = some (.error u, μ)}
    (hc : RunWith.Begins Q I c) (hs : I s) (hok : ∀ a s', Run.Begins Q (dok a s'))
    (hthrow : ∀ e s', Run.Begins Q (dthrow e s')) :
    Run.Begins Q (Run.Journey.watchFrom (s := s) c dok dthrow hstop) := by
  refine Covenant.Begins.andThen (J := fun _ _ => True) (hc.within.mono fun _ _ => hs)
    (fun _ _ _ _ _ => trivial) fun r => ?_
  rcases r with (e | _ | _) | a
  · exact .family fun s' => hthrow e s'
  · exact .quiet fun _ => rfl
  · exact .quiet fun _ => rfl
  · exact .family fun s' => hok a s'

theorem deeper (hc : Run.Begins Q c) : Run.Begins Q (Run.Journey.deeper c) := by
  intro μ _ m hm
  rcases List.mem_cons.mp hm with rfl | hm
  · exact .silent
  · rcases List.mem_append.mp hm with hm | hm
    · exact hc _ trivial m hm
    · split at hm
      · obtain rfl := List.mem_singleton.mp hm
        exact .silent
      · exact absurd hm List.not_mem_nil

end Run.Begins

/-- However it ends, a computation goes from local states of a kind to such ones. -/
def RunWith.Keeps (I : σ → Prop) (x : RunWith σ α) : Prop :=
  ∀ s r t, I s.1 → x.process s = some (r, t) → I t.1

omit [HasRefs α] [HasRefs σ] in
theorem RunWith.Keeps.any {x : RunWith σ α} : x.Keeps fun _ => True := fun _ _ _ _ _ => trivial

/-- The scopes that bind some names. -/
def Scopes.At (levels : List (Set String)) (s : Scopes) : Prop := s.names = levels

theorem Scopes.At.cons {levels : List (Set String)} {s : Scopes} (vars : Table String Value)
    (h : s.At levels) : Scopes.At (vars.bound :: levels) (vars :: s) :=
  congrArg (vars.bound :: ·) h

theorem Scopes.At.block {levels : List (Set String)} {s : Scopes} (h : s.At levels) :
    Scopes.At (∅ :: levels) (.empty :: s) :=
  Table.bound_empty ▸ h.cons .empty

omit [HasRefs α] in
theorem RunWith.KeepsNames.at {x : RunWith Scopes α} (h : x.KeepsNames)
    {levels : List (Set String)} : x.Keeps (Scopes.At levels) :=
  fun s r t hs hx => (h s r t hx).trans hs

namespace RunWith.Begins

variable {x y : RunWith σ α} {c : x.Journey P held} {I : σ → Prop}

theorem bindTo {f : α → RunWith σ β} {d : ∀ a, (f a).Journey P (refs a ++ held)}
    {J : α → σ → Prop} (hc : RunWith.Begins Q I c)
    (hJ : ∀ s a t, I s.1 → x.process s = some (.ok a, t) → J a t.1)
    (hd : ∀ a, RunWith.Begins Q (J a) (d a)) : RunWith.Begins Q I (RunWith.Journey.bind c d) :=
  Covenant.Begins.bind (J := fun a t => J a t.1) hc hJ hd

theorem bind {f : α → RunWith σ β} {d : ∀ a, (f a).Journey P (refs a ++ held)}
    (hc : RunWith.Begins Q I c) (hx : x.Keeps I) (hd : ∀ a, RunWith.Begins Q I (d a)) :
    RunWith.Begins Q I (RunWith.Journey.bind c d) :=
  .bindTo hc (fun s a t hs h => hx s (.ok a) t hs h) hd

theorem ite {d : y.Journey P held} : ∀ {b : Bool}, (b = true → RunWith.Begins Q I c) →
    (b = false → RunWith.Begins Q I d) → RunWith.Begins Q I
      (RunWith.Journey.ite c d : (if b then x else y : RunWith σ α).Journey P held)
  | true, hc, _ => hc rfl
  | false, _, hd => hd rfl

/-- What comes last begins nothing. -/
theorem last {f : α → RunWith σ β} {d : ∀ a, (f a).Journey P (refs a ++ held)}
    (hc : RunWith.Begins Q I c) (hd : ∀ a s, (d a).moments s = []) :
    RunWith.Begins Q I (RunWith.Journey.bind c d) :=
  .bindTo (J := fun _ _ => True) hc (fun _ _ _ _ _ => trivial) fun a => .quiet (hd a)

theorem keep {x : Run α} {c : x.Journey P held} (hc : Run.Begins Q c) :
    RunWith.Begins Q I (RunWith.Journey.keep c) :=
  fun s _ => hc s.2 trivial

theorem inScope {f : Frame} {x : Frame → Run α} {I : Scopes → Prop}
    {c : ∀ scopes, (x { f with scopes }).Journey P (refs scopes ++ held)}
    (hc : ∀ scopes, I scopes → Run.Begins Q (c scopes)) :
    RunWith.Begins Q I (RunWith.Journey.inScope (f := f) c) :=
  .bindTo (J := fun scopes _ => I scopes) (.quiet fun _ => rfl)
    (fun _ _ _ hs h => by cases h; exact hs) fun scopes _ hI => hc scopes hI _ trivial

theorem withSlots {f : Frame} {x : Frame → Run α}
    {c : ∀ slots, (x { f with slots }).Journey P (refs slots ++ held)}
    (hc : ∀ slots, Run.Begins Q (c slots)) :
    RunWith.Begins Q (fun _ => True) (RunWith.Journey.withSlots (f := f) c) :=
  .bind (.quiet fun _ => rfl) .any fun slots => .keep (hc slots)

section

variable {x : RunWith Scopes α} {c : x.Journey P held} {I J : Scopes → Prop} {f : Frame}
  [Held f held]

theorem under (hc : RunWith.Begins Q I c) : RunWith.Begins Q I (RunWith.Journey.under f c) :=
  Covenant.Begins.under hc

theorem around {w : Task} {h : P f.decl w} (hq : ∀ scopes, I scopes → Q { f with scopes } w)
    (hc : RunWith.Begins Q I c) : RunWith.Begins Q I (RunWith.Journey.around f h c) :=
  .finishing (.starting (fun s hs _ heq => Option.some.inj heq ▸ hq s.1 hs) hc)

theorem inBlock {vars : Table String Value} [Held vars held] (hc : RunWith.Begins Q J c)
    (hJ : ∀ s, I s → J (vars :: s)) : RunWith.Begins Q I (RunWith.Journey.inBlock f vars c) :=
  .finishing (h := f.refs_among)
    ((Covenant.Begins.within (.starting nofun hc)).mono fun s hs => hJ s.1 hs)

end

theorem checking {x : RunWith Slots α} {c : x.Journey P held} {f : Frame} [Held f held] {w : Task}
    (hw : P f.decl w) (hq : ∀ slots, Q { f with slots } w)
    (hc : RunWith.Begins Q (fun _ => True) c) :
    RunWith.Begins Q (fun _ => True) (RunWith.Journey.checking f hw c) :=
  .finishing (.starting (fun s _ _ heq => Option.some.inj heq ▸ hq s.1) hc)

theorem catching {x : RunWith Scopes Flow} {c : x.Journey P held} {I : Scopes → Prop}
    {g : Ref → RunWith Scopes Flow} {d : ∀ e : Ref, (g e).Journey P (refs e ++ held)}
    (hc : RunWith.Begins Q I c) (hx : x.Keeps I) (hd : ∀ e, RunWith.Begins Q I (d e)) :
    RunWith.Begins Q I (RunWith.Journey.catching c d) := by
  refine Covenant.Begins.andThen (J := fun _ t => I t.1) hc hx fun r => ?_
  rcases r with (e | _ | _) | flow
  · exact hd e
  · exact .quiet fun _ => rfl
  · exact .quiet fun _ => rfl
  · exact .quiet fun _ => rfl

theorem withCleanup {x y : RunWith Scopes Flow} {c : x.Journey P held} {d : y.Journey P held}
    {I : Scopes → Prop} (hc : RunWith.Begins Q I c) (hx : x.Keeps I)
    (hd : RunWith.Begins Q I d) : RunWith.Begins Q I (RunWith.Journey.withCleanup c d) :=
  Covenant.Begins.withCleanup (J := fun t => I t.1) hc hx hd

theorem iterate {x : RunWith Scopes Bool} {y : RunWith Scopes Flow} {c : x.Journey P held}
    {d : y.Journey P held} {I : Scopes → Prop} (hc : RunWith.Begins Q I c) (hx : x.Keeps I)
    (hd : RunWith.Begins Q I d) (hy : y.Keeps I) (n : Nat) :
    RunWith.Begins Q I (RunWith.Journey.iterate c d n) := by
  induction n with
  | zero => exact .keep (.quiet fun _ => rfl)
  | succ n ih =>
      refine .bind hc hx fun holds => ?_
      cases holds with
      | false => exact .quiet fun _ => rfl
      | true =>
          refine .bind hd hy fun flow => ?_
          cases flow with
          | normal => exact .weaken ih
          | ret v span => exact .quiet fun _ => rfl

/-- Of what is known of a value apart from the state use can be made at once. -/
theorem given {φ : Prop} (h : φ → RunWith.Begins Q (fun _ => True) c) :
    RunWith.Begins Q (fun _ => φ) c :=
  fun s hφ => h hφ s trivial

end RunWith.Begins

end Covenant
