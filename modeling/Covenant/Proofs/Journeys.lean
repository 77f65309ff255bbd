import Covenant.Proofs.BriefRuns

/-!
# What a computation comes through

A computation is a function from machines to machines, so the states in between
are not part of how it ends. A journey tells them: the moments that a computation
comes through, each with the frames that are active, the machine as it is then, and
what begins. From one moment to the next the machine changes once at most, so no
state of it is passed over, and a computation that has no end has a journey all
the same.

A journey comes with the proof that what begins is in its place, which is a
predicate of declarations and what may begin in their frames, and that no reference
leads off the heap, if none did so at first. What is made later may depend on the
references at hand: those that the computation was given, and those that came of
what went before.

As for chronicles, there is one journey for each way to put computations together.
-/

namespace Covenant

open HasRefs (refs)

variable {S S' T T' U α β σ : Type}

/-- What can begin in a frame. -/
inductive Task
  | expr (e : Typed.Expr)
  | stmt (s : Typed.Stmt)
  | check (code : CheckCode)
  | enter
  | leave

/-- What there is at one time in the course of a run. -/
structure Moment where
  /-- The frames of all that is active, the innermost first. -/
  frames : List Frame
  machine : Machine
  /-- What begins in the innermost frame. -/
  begun : Option Task

namespace Moment

/-- Every reference in a frame or on the machine leads to an object. -/
structure Closed (m : Moment) : Prop where
  frames : Below m.machine.heap.size (refs m.frames)
  machine : m.machine.Closed

/-- What begins may do so in frames of the declaration. -/
def Placed (P : DeclId → Task → Prop) (m : Moment) : Prop :=
  ∀ w, m.begun = some w → ∃ f rest, m.frames = f :: rest ∧ P f.decl w

/-- The moment as a part of what goes on behind a frame. -/
def under (f : Frame) (m : Moment) : Moment := { m with frames := m.frames ++ [f] }

theorem Placed.under {P : DeclId → Task → Prop} {m : Moment} (h : m.Placed P) (f : Frame) :
    (m.under f).Placed P := fun w hw => by
  obtain ⟨g, rest, hframes, hP⟩ := h w hw
  exact ⟨g, rest ++ [f], by rw [Moment.under, hframes]; rfl, hP⟩

theorem Placed.silent {P : DeclId → Task → Prop} {fs : List Frame} {μ : Machine} :
    Placed P ⟨fs, μ, none⟩ := fun _ h => by cases h

theorem Closed.under {m : Moment} (h : m.Closed) {f : Frame}
    (hf : Below m.machine.heap.size (refs f)) : (m.under f).Closed where
  frames := by
    rw [Moment.under, HasRefs.refs_append, HasRefs.refs_cons, HasRefs.refs_nil, List.append_nil]
    exact Below.append.mpr ⟨h.frames, hf⟩
  machine := h.machine

theorem Closed.only {f : Frame} {μ : Machine} {w : Option Task} (hμ : μ.Closed)
    (hf : Below μ.heap.size (refs f)) : Moment.Closed ⟨[f], μ, w⟩ where
  frames := by
    rw [HasRefs.refs_cons, HasRefs.refs_nil, List.append_nil]
    exact hf
  machine := hμ

end Moment

/-! ## Ways of a machine -/

/-- A machine comes through others, one change after the other. -/
inductive Route : Machine → List Machine → Machine → Prop
  | nil {μ} : Route μ [] μ
  | cons {μ μ₁ μ' : Machine} {l} (step : μ.Step μ₁) (rest : Route μ₁ l μ') : Route μ (μ₁ :: l) μ'

namespace Route

variable {μ μ₁ μ' : Machine} {l l' : List Machine}

theorem append (h : Route μ l μ₁) (h' : Route μ₁ l' μ') : Route μ (l ++ l') μ' := by
  induction h with
  | nil => exact h'
  | cons hstep _ ih => exact .cons hstep (ih h')

theorem kept (h : Route μ l μ') : Heap.Kept μ.heap μ'.heap := by
  induction h with
  | nil => exact .refl _
  | cons hstep _ ih => exact hstep.kept.trans ih

theorem kept_of_mem (h : Route μ l μ') (hm : μ₁ ∈ l) : Heap.Kept μ.heap μ₁.heap := by
  induction h with
  | nil => exact absurd hm List.not_mem_nil
  | cons hstep _ ih =>
      rcases List.mem_cons.mp hm with rfl | hm
      · exact hstep.kept
      · exact hstep.kept.trans (ih hm)

end Route

/-! ## Journeys -/

/-- States that a machine is a part of, with the references that they hold beside it. -/
class World (S : Type) where
  machine : S → Machine
  locals : S → List Ref

open World (machine locals)

instance : World Machine := ⟨id, fun _ => []⟩

instance [HasRefs σ] : World (σ × Machine) := ⟨Prod.snd, fun s => refs s.1⟩

/-- Every reference in the state and at hand leads to an object. -/
structure World.Closed [World S] (held : List Ref) (s : S) : Prop where
  closed : (machine s).Closed
  below : Below (machine s).heap.size (locals s ++ held)

namespace World.Closed

variable [World S] [World S'] {held held' : List Ref} {s : S}

/-- In another state on the same machine. -/
theorem move {s' : S'} (h : World.Closed held s) (hmachine : World.machine s' = World.machine s)
    (hsub : locals s' ++ held' ⊆ refs (World.machine s) ++ (locals s ++ held)) :
    World.Closed held' s' where
  closed := hmachine ▸ h.closed
  below := by
    rw [hmachine]
    exact (Below.append.mpr ⟨h.closed, h.below⟩).subset hsub

theorem mono (h : World.Closed held s) (hsub : held' ⊆ locals s ++ held) :
    World.Closed held' s :=
  ⟨h.closed, Below.append.mpr ⟨(Below.append.mp h.below).1, h.below.subset hsub⟩⟩

end World.Closed

/-- What a computation comes through. -/
structure Journey [World S] [World T] [HasRefs α] (P : DeclId → Task → Prop) (held : List Ref)
    (x : Process S T α) where
  moments : S → List Moment
  route : ∀ s, ∃ μ, Route (machine s) ((moments s).map Moment.machine) μ ∧
    ∀ {r t}, x s = some (r, t) → machine t = μ
  placed : ∀ {s}, ∀ m ∈ moments s, m.Placed P
  closed : ∀ {s}, World.Closed held s → ∀ m ∈ moments s, m.Closed
  ends : ∀ {s r t}, World.Closed held s → x s = some (r, t) → World.Closed (refs r ++ held) t

namespace Journey

variable [World S] [World T] [World U] [World S'] [World T'] [HasRefs α] [HasRefs β]
  {P : DeclId → Task → Prop} {held held' : List Ref} {x y : Process S T α}

theorem kept (c : Journey P held x) {s : S} {r : Except Unwind α} {t : T} (hx : x s = some (r, t)) :
    Heap.Kept (machine s).heap (machine t).heap := by
  obtain ⟨μ, hroute, hend⟩ := c.route s
  rw [hend hx]
  exact hroute.kept

/-- A computation that leaves the machine alone. -/
def calm (h : ∀ {s r t}, x s = some (r, t) → machine t = machine s ∧
    locals t ++ refs r ⊆ refs (machine s) ++ (locals s ++ held)) : Journey P held x where
  moments _ := []
  route s := ⟨machine s, .nil, fun hx => (h hx).1⟩
  placed _ hm := absurd hm List.not_mem_nil
  closed _ _ hm := absurd hm List.not_mem_nil
  ends {s r t} hs hx := by
    obtain ⟨hmachine, hsub⟩ := h hx
    exact hs.move hmachine (by grind)

def ofEq (h : ∀ s, y s = x s) (c : Journey P held x) : Journey P held y where
  moments := c.moments
  route s := by
    rw [h s]
    exact c.route s
  placed := c.placed
  closed := c.closed
  ends hs hy := c.ends hs ((h _).symm.trans hy)

/-- With more at hand. -/
def weaken (c : Journey P held x) (h : held ⊆ held') : Journey P held' x where
  moments := c.moments
  route := c.route
  placed := c.placed
  closed hs := c.closed (hs.mono (by grind))
  ends {s r t} hs hx := by
    have ht := c.ends (hs.mono (by grind)) hx
    obtain ⟨hlocals, hrest⟩ := Below.append.mp ht.below
    exact ⟨ht.closed, Below.append.mpr ⟨hlocals, Below.append.mpr
      ⟨(Below.append.mp hrest).1, (Below.append.mp hs.below).2.mono (c.kept hx).size⟩⟩⟩

/-- By what a look-up finds. -/
def byCases {γ : Type} (o : Option γ) (c : ∀ a, o = some a → Journey P held x)
    (d : o = none → Journey P held x) : Journey P held x :=
  if h : o = none then d h
  else c (o.get (Option.isSome_iff_ne_none.mpr h)) (Option.some_get _).symm

/-- Between states of other kinds. -/
def within (c : Journey P held x) (f : S' → S) (g : S' → T → T')
    (hf : ∀ s, machine (f s) = machine s ∧ locals (f s) ⊆ locals s ++ held)
    (hg : ∀ s t, machine (g s t) = machine t ∧ locals (g s t) ⊆ locals s ++ locals t) :
    Journey P held fun s => (x (f s)).map fun o => (o.1, g s o.2) where
  moments s := c.moments (f s)
  route s := by
    obtain ⟨μ, hroute, hend⟩ := c.route (f s)
    refine ⟨μ, (hf s).1 ▸ hroute, fun h => ?_⟩
    obtain ⟨⟨r', t'⟩, hx, heq⟩ := Option.map_eq_some_iff.mp h
    obtain ⟨_, rfl⟩ := Prod.mk.inj heq
    exact (hg s t').1.trans (hend hx)
  placed := c.placed
  closed {s} hs := c.closed (hs.move (hf s).1 (by have := (hf s).2; grind))
  ends {s r t} hs h := by
    obtain ⟨⟨r', t'⟩, hx, heq⟩ := Option.map_eq_some_iff.mp h
    obtain ⟨rfl, rfl⟩ := Prod.mk.inj heq
    have ht := c.ends (hs.move (hf s).1 (by have := (hf s).2; grind)) hx
    have hlocals := (Below.append.mp hs.below).1
    rw [← (hf s).1] at hlocals
    refine ⟨(hg s t').1 ▸ ht.closed, ?_⟩
    rw [(hg s t').1]
    exact Below.append.mpr ⟨(Below.append.mpr ⟨hlocals.mono (c.kept hx).size,
      (Below.append.mp ht.below).1⟩).subset (hg s t').2, (Below.append.mp ht.below).2⟩

/-- With another end of the same references. -/
def mapEnds (c : Journey P held x) (k : Except Unwind α → Except Unwind β)
    (hk : ∀ r, refs (k r) ⊆ refs r ++ held) :
    Journey P held fun s => (x s).map fun o => (k o.1, o.2) where
  moments := c.moments
  route s := by
    obtain ⟨μ, hroute, hend⟩ := c.route s
    refine ⟨μ, hroute, fun h => ?_⟩
    obtain ⟨o, hx, heq⟩ := Option.map_eq_some_iff.mp h
    obtain ⟨_, rfl⟩ := Prod.mk.inj heq
    exact hend hx
  placed := c.placed
  closed := c.closed
  ends {s r t} hs h := by
    obtain ⟨o, hx, heq⟩ := Option.map_eq_some_iff.mp h
    obtain ⟨rfl, rfl⟩ := Prod.mk.inj heq
    exact (c.ends hs hx).mono (by have := hk o.1; grind)

/-- A computation that depends on a part of the state. -/
def family [HasRefs σ] {x : σ → Process Machine T α} (c : ∀ k, Journey P (refs k ++ held) (x k)) :
    Journey P held fun s : σ × Machine => x s.1 s.2 where
  moments s := (c s.1).moments s.2
  route s := (c s.1).route s.2
  placed := (c _).placed
  closed hs := (c _).closed ⟨hs.closed, hs.below⟩
  ends hs hx := ((c _).ends ⟨hs.closed, hs.below⟩ hx).mono (by grind)

/-- A computation that is watched, and what is done next. -/
def andThen {g : Except Unwind α → Process T U β} (c : Journey P held x)
    (d : ∀ r, Journey P (refs r ++ held) (g r)) :
    Journey P held fun s => (x s).bind fun o => g o.1 o.2 where
  moments s := c.moments s ++ match x s with
    | some (r, t) => (d r).moments t
    | none => []
  route s := by
    obtain ⟨μ, hroute, hend⟩ := c.route s
    cases hx : x s with
    | none => exact ⟨μ, by simpa using hroute, fun h => by cases h⟩
    | some o =>
        obtain ⟨r, t⟩ := o
        obtain ⟨μ', hroute', hend'⟩ := (d r).route t
        rw [hend hx] at hroute'
        exact ⟨μ', by rw [List.map_append]; exact hroute.append hroute', hend'⟩
  placed {s} m hm := by
    rcases List.mem_append.mp hm with hm | hm
    · exact c.placed m hm
    · split at hm
      · exact (d _).placed m hm
      · exact absurd hm List.not_mem_nil
  closed {s} hs m hm := by
    rcases List.mem_append.mp hm with hm | hm
    · exact c.closed hs m hm
    · split at hm
      · next r t hx => exact (d r).closed (c.ends hs hx) m hm
      · exact absurd hm List.not_mem_nil
  ends {s r' t'} hs h := by
    obtain ⟨⟨r, t⟩, hx, hg⟩ := Option.bind_eq_some_iff.mp h
    exact ((d r).ends (c.ends hs hx) hg).mono (by grind)

/-- A computation that ends at once, as one in front of it did. -/
def stopped {r : Except Unwind α} (hr : refs r ⊆ held) :
    Journey P held fun t : T => some (r, t) :=
  .calm fun h => by
    cases h
    exact ⟨rfl, by grind⟩

def bind {f : α → Process T T β} (c : Journey P held x)
    (d : ∀ a, Journey P (refs a ++ held) (f a)) :
    Journey P held fun s => (x s).bind fun o => Process.orStop f o.1 o.2 :=
  c.andThen (g := Process.orStop f) fun
    | .ok a => d a
    | .error _ => .stopped (List.subset_append_left ..)

theorem refs_afterCleanup (r c : Except Unwind Flow) :
    refs (Run.afterCleanup r c) ⊆ refs c ++ refs r := by
  rcases r with (_ | _ | _) | _ <;> rcases c with (_ | _ | _) | _ | _ <;>
    first | exact List.subset_append_left .. | exact List.subset_append_right ..

def withCleanup {y : Process T U Flow} {x : Process S T Flow} (c : Journey P held x)
    (d : Journey P held y) :
    Journey P held fun s =>
      (x s).bind fun o => (y o.2).map fun p => (Run.afterCleanup o.1 p.1, p.2) :=
  c.andThen (g := fun r t => (y t).map fun p => (Run.afterCleanup r p.1, p.2)) fun r =>
    (d.weaken (List.subset_append_right ..)).mapEnds (Run.afterCleanup r) fun r' =>
      List.Subset.trans (refs_afterCleanup r r') (by grind)

/-! ### Frames on a journey -/

/-- What goes on behind a frame. -/
def under (c : Journey P held x) (frame : S → Frame)
    (hframe : ∀ s, refs (frame s) ⊆ locals s ++ held) : Journey P held x where
  moments s := (c.moments s).map (Moment.under (frame s))
  route s := by
    rw [List.map_map]
    exact c.route s
  placed m' hm' := by
    obtain ⟨m, hm, rfl⟩ := List.mem_map.mp hm'
    exact (c.placed m hm).under _
  closed {s} hs m' hm' := by
    obtain ⟨m, hm, rfl⟩ := List.mem_map.mp hm'
    obtain ⟨μ, hroute, _⟩ := c.route s
    have hkept := hroute.kept_of_mem (List.mem_map_of_mem hm)
    exact (c.closed hs m hm).under ((hs.below.subset (hframe s)).mono hkept.size)
  ends := c.ends

/-- The moment at which a computation begins, in a frame of its own. -/
def starting (c : Journey P held x) (frame : S → Frame)
    (hframe : ∀ s, refs (frame s) ⊆ locals s ++ held) (w : Option Task)
    (hw : ∀ s w', w = some w' → P (frame s).decl w') : Journey P held x where
  moments s := ⟨[frame s], machine s, w⟩ :: c.moments s
  route s := by
    obtain ⟨μ, hroute, hend⟩ := c.route s
    exact ⟨μ, .cons .stay hroute, hend⟩
  placed {s} m hm := by
    rcases List.mem_cons.mp hm with rfl | hm
    · exact fun w' hw' => ⟨frame s, [], rfl, hw s w' hw'⟩
    · exact c.placed m hm
  closed {s} hs m hm := by
    rcases List.mem_cons.mp hm with rfl | hm
    · exact .only hs.closed (hs.below.subset (hframe s))
    · exact c.closed hs m hm
  ends := c.ends

/-- The moment at which a computation has ended, in a frame of its own. -/
def finishing (c : Journey P held x) (frame : T → Frame)
    (hframe : ∀ t, refs (frame t) ⊆ locals t ++ held) : Journey P held x where
  moments s := c.moments s ++ match x s with
    | some (_, t) => [⟨[frame t], machine t, none⟩]
    | none => []
  route s := by
    obtain ⟨μ, hroute, hend⟩ := c.route s
    refine ⟨μ, ?_, hend⟩
    rw [List.map_append]
    split
    · next r t hx =>
        rw [← hend hx] at hroute ⊢
        exact hroute.append (.cons .stay .nil)
    · exact hroute.append .nil
  placed {s} m hm := by
    rcases List.mem_append.mp hm with hm | hm
    · exact c.placed m hm
    · split at hm
      · obtain rfl := List.mem_singleton.mp hm
        exact .silent
      · exact absurd hm List.not_mem_nil
  closed {s} hs m hm := by
    rcases List.mem_append.mp hm with hm | hm
    · exact c.closed hs m hm
    · split at hm
      · next r t hx =>
          obtain rfl := List.mem_singleton.mp hm
          have ht : World.Closed held t := (c.ends hs hx).mono (by grind)
          exact .only ht.closed (ht.below.subset (hframe t))
      · exact absurd hm List.not_mem_nil
  ends := c.ends

end Journey

end Covenant
