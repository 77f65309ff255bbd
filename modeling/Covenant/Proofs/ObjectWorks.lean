import Covenant.Proofs.Ends
import Covenant.Proofs.OrderlyMembers

/-!
# Work on an object

The work on an object is what begins in frames about it of code that makes objects, each
time with the declaration that the code belongs to. A journey that ends normally shows
the work on an object that was there when it started. There is one rule for each way to
put journeys together: the work on the second part comes behind the work on the first.

An orderly journey shows no other work than what may begin there. This goes for what is
run in between as well, since nothing that is called or checked works on an object that
was there before.
-/

namespace Covenant

open HasRefs (refs)
open World (machine)

variable {S S' T T' U α β σ : Type}

/-- A declaration that has code for the making of objects, and what begins of it. -/
abbrev Work := DeclId × Task

/-- The work on an object that begins at a moment. -/
def Moment.work? (env : Env) (r : Ref) (m : Moment) : Option Work :=
  match m.frames, m.begun with
  | f :: _, some w => if f.this = some r ∧ env.builds f.decl = true then some (f.decl, w) else none
  | _, _ => none

/-- The work on an object in the course of moments. -/
def worksOn (env : Env) (r : Ref) (ms : List Moment) : List Work := ms.filterMap (·.work? env r)

section

variable {env : Env} {r : Ref}

@[simp] theorem worksOn_nil : worksOn env r [] = [] := rfl

@[simp] theorem worksOn_append (ms ms' : List Moment) :
    worksOn env r (ms ++ ms') = worksOn env r ms ++ worksOn env r ms' :=
  List.filterMap_append ..

theorem worksOn_cons_silent (fs : List Frame) (μ : Machine) (ms : List Moment) :
    worksOn env r (⟨fs, μ, none⟩ :: ms) = worksOn env r ms := by
  cases fs <;> rfl

theorem worksOn_cons {f : Frame} (hthis : f.this = some r) (hb : env.builds f.decl = true)
    (fs : List Frame) (μ : Machine) (w : Task) (ms : List Moment) :
    worksOn env r (⟨f :: fs, μ, some w⟩ :: ms) = (f.decl, w) :: worksOn env r ms :=
  List.filterMap_cons_some (by simp [Moment.work?, hthis, hb])

/-- What a work comes from. -/
theorem Moment.of_work? {m : Moment} {x : Work} (h : m.work? env r = some x) :
    ∃ f fs, m.frames = f :: fs ∧ m.begun = some x.2 ∧ f.this = some r ∧
      env.builds f.decl = true ∧ f.decl = x.1 := by
  rw [work?] at h
  split at h
  · next f fs w hframes hbegun =>
      split at h
      · next hf =>
          obtain rfl := Option.some.inj h
          exact ⟨f, fs, hframes, hbegun, hf.1, hf.2, rfl⟩
      · cases h
  · cases h

/-- Behind another frame the work is the same. -/
theorem Moment.work?_under {P : DeclId → Task → Prop} {m : Moment} (h : m.Placed P) (f : Frame) :
    (m.under f).work? env r = m.work? env r := by
  obtain ⟨fs, μ, w⟩ := m
  cases w with
  | none => cases fs <;> rfl
  | some w =>
      obtain ⟨g, rest, rfl, _⟩ := h w rfl
      rfl

theorem worksOn_under {P : DeclId → Task → Prop} (f : Frame) {ms : List Moment}
    (h : ∀ m ∈ ms, m.Placed P) : worksOn env r (ms.map (·.under f)) = worksOn env r ms := by
  rw [worksOn, List.filterMap_map]
  exact List.filterMap_congr fun m hm => Moment.work?_under (h m hm) f

end

/-- Work on an object is of the kinds that are named. -/
def Own (env : Env) (r : Ref) (D : DeclId → Task → Prop) (this : Option Ref) (decl : DeclId)
    (w : Task) : Prop :=
  this = some r → env.builds decl = true → D decl w

/-- Of objects that come later nothing is asked. -/
theorem lets_own {env : Env} {r : Ref} {D : DeclId → Task → Prop} :
    env.Lets (r + 1) (Own env r D) := fun h _ hr hb =>
  absurd (hb.symm.trans (h r hr (Nat.lt_succ_self r))) (by simp)

theorem work_of_begun {env : Env} {r : Ref} {D : DeclId → Task → Prop} {ms : List Moment}
    (h : ∀ m ∈ ms, m.Begun fun f => Own env r D f.this f.decl) :
    ∀ x ∈ worksOn env r ms, D x.1 x.2 := by
  intro x hx
  obtain ⟨m, hm, hx⟩ := List.mem_filterMap.mp hx
  obtain ⟨f, fs, hframes, hbegun, hthis, hb, hdecl⟩ := Moment.of_work? hx
  obtain ⟨g, rest, hframes', hown⟩ := h m hm x.2 hbegun
  obtain ⟨rfl, _⟩ := List.cons.inj (hframes.symm.trans hframes')
  exact hdecl ▸ hown hthis hb

/-! ## Work that cannot be -/

/-- The machine that a way leads to has all the objects that were there on it. -/
theorem Route.kept_to {μ μ₁ μ' : Machine} {l : List Machine} (h : Route μ l μ') (hm : μ₁ ∈ l) :
    Heap.Kept μ₁.heap μ'.heap := by
  induction h with
  | nil => exact absurd hm List.not_mem_nil
  | cons _ hrest ih =>
      rcases List.mem_cons.mp hm with rfl | hm
      · exact hrest.kept
      · exact ih hm

/-- An object keeps its class. -/
theorem Heap.Kept.className? {h h' : Heap} (hk : Heap.Kept h h') {r : Ref} {c : String}
    {fields : Table String Value} (hr : h[r]? = some (.inst c fields)) : h'.className? r = some c := by
  obtain ⟨o, ho, hkind⟩ := hk.kinds r _ hr
  rw [Heap.className?, ho, Option.bind_some]
  cases o with
  | inst => exact congrArg some (Obj.Kind.inst.inj hkind)
  | array => cases hkind

/-- There is no work on an object that is not there yet. -/
theorem worksOn_absent [World S] [World T] [HasRefs α] {P : DeclId → Task → Prop}
    {held : List Ref} {x : Process S T α} {env : Env} {r : Ref} (c : Journey P held x) {s : S}
    {o : Except Unwind α} {t : T} (hs : World.Closed held s) (hx : x s = some (o, t))
    (hr : (machine t).heap.size ≤ r) : worksOn env r (c.moments s) = [] := by
  refine List.filterMap_eq_nil_iff.mpr fun m hm => Option.eq_none_iff_forall_ne_some.mpr fun w hw => ?_
  obtain ⟨f, fs, hframes, _, hthis, _⟩ := Moment.of_work? hw
  obtain ⟨μ, hroute, hend⟩ := c.route s
  have hkept := hroute.kept_to (List.mem_map_of_mem hm)
  have hbelow := (c.closed hs m hm).frames
  rw [hframes, HasRefs.refs_cons] at hbelow
  have hheld : Held f (refs f ++ refs fs) := .head
  have hmem : r ∈ refs f ++ refs fs := (Held.of_eq_some hthis).sub List.mem_cons_self
  have hlt : r < (machine t).heap.size := hend hx ▸ Nat.lt_of_lt_of_le (hbelow r hmem) hkept.size
  exact absurd hlt (Nat.not_lt.mpr hr)

/-! ## What journeys show -/

/-- A journey that ends normally shows such work on an object that is there. -/
def Shows [World S] [World T] [HasRefs α] {P : DeclId → Task → Prop} {held : List Ref}
    {x : Process S T α} (env : Env) (r : Ref) (R : α → List Work → Prop)
    (c : Journey P held x) : Prop :=
  ∀ s a t, r < (machine s).heap.size → x s = some (.ok a, t) → R a (worksOn env r (c.moments s))

section

variable [World S] [World T] [World U] [World S'] [World T'] [HasRefs α] [HasRefs β]
  {P : DeclId → Task → Prop} {held held' : List Ref} {x y : Process S T α} {env : Env} {r : Ref}
  {R : α → List Work → Prop} {R' : β → List Work → Prop} {c : Journey P held x}

namespace Shows

theorem imp {R' : α → List Work → Prop} (hc : Shows env r R c)
    (h : ∀ a ws, R a ws → R' a ws) : Shows env r R' c :=
  fun s a t hs hx => h a _ (hc s a t hs hx)

/-- What is known of the value counts too. -/
theorem and {Q : α → Prop} (hc : Shows env r R c) (h : ∀ s a t, x s = some (.ok a, t) → Q a) :
    Shows env r (fun a ws => R a ws ∧ Q a) c :=
  fun s a t hs hx => ⟨hc s a t hs hx, h s a t hx⟩

theorem quiet (h : ∀ s, c.moments s = []) (hR : ∀ s a t, x s = some (.ok a, t) → R a []) :
    Shows env r R c :=
  fun s a t _ hx => by
    rw [h]
    exact hR s a t hx

theorem never (h : ∀ s a t, x s ≠ some (.ok a, t)) : Shows env r R c :=
  fun s a t _ hx => absurd hx (h s a t)

theorem ofEq {h : ∀ s, y s = x s} (hc : Shows env r R c) : Shows env r R (Journey.ofEq h c) :=
  fun s a t hs hy => hc s a t hs ((h s).symm.trans hy)

theorem weaken {h : held ⊆ held'} (hc : Shows env r R c) : Shows env r R (c.weaken h) := hc

theorem byCases {γ : Type} {o : Option γ} {d : ∀ a, o = some a → Journey P held x}
    {e : o = none → Journey P held x} (hd : ∀ a ha, Shows env r R (d a ha))
    (he : ∀ hn, Shows env r R (e hn)) : Shows env r R (Journey.byCases o d e) := by
  rw [Journey.byCases]
  split
  · exact he _
  · exact hd _ _

theorem within {f : S' → S} {g : S' → T → T'}
    {hf : ∀ s, machine (f s) = machine s ∧ World.locals (f s) ⊆ World.locals s ++ held}
    {hg : ∀ s t, machine (g s t) = machine t ∧ World.locals (g s t) ⊆
      World.locals s ++ World.locals t}
    (hc : Shows env r R c) : Shows env r R (c.within f g hf hg) := by
  intro s a t hs h
  obtain ⟨⟨o, t'⟩, hx, heq⟩ := Option.map_eq_some_iff.mp h
  obtain ⟨rfl, _⟩ := Prod.mk.inj heq
  exact hc (f s) a t' ((hf s).1 ▸ hs) hx

theorem family [HasRefs σ] {x : σ → Process Machine T α}
    {c : ∀ k, Journey P (refs k ++ held) (x k)} (hc : ∀ k, Shows env r R (c k)) :
    Shows env r R (Journey.family c) :=
  fun s a t hs hx => hc s.1 s.2 a t hs hx

/-- The work on what comes next stands behind. Only what comes behind a normal end may end
normally. -/
theorem andThen {g : Except Unwind α → Process T U β} {d : ∀ o, Journey P (refs o ++ held) (g o)}
    (hc : Shows env r R c)
    (hok : ∀ a, Shows env r (fun b ws => ∀ ws₁, R a ws₁ → R' b (ws₁ ++ ws)) (d (.ok a)))
    (herror : ∀ u t b t', g (.error u) t ≠ some (.ok b, t')) : Shows env r R' (c.andThen d) := by
  intro s b t' hs h
  obtain ⟨⟨o, t⟩, hx, hg⟩ := Option.bind_eq_some_iff.mp h
  cases o with
  | error u => exact absurd hg (herror u t b t')
  | ok a =>
      have hd := hok a t b t' (Nat.lt_of_lt_of_le hs (c.kept hx).size) hg _ (hc s a t hs hx)
      show R' b (worksOn env r (c.moments s ++ _))
      rw [worksOn_append, hx]
      exact hd

theorem bind {f : α → Process T T β} {d : ∀ a, Journey P (refs a ++ held) (f a)}
    (hc : Shows env r R c)
    (hd : ∀ a, Shows env r (fun b ws => ∀ ws₁, R a ws₁ → R' b (ws₁ ++ ws)) (d a)) :
    Shows env r R' (c.bind d) :=
  .andThen hc hd fun _ _ _ _ h => by cases h

theorem under {frame : S → Frame} {hframe : ∀ s, refs (frame s) ⊆ World.locals s ++ held}
    (hc : Shows env r R c) : Shows env r R (c.under frame hframe) := by
  intro s a t hs hx
  show R a (worksOn env r ((c.moments s).map _))
  rw [worksOn_under _ fun m hm => c.placed m hm]
  exact hc s a t hs hx

theorem starting {frame : S → Frame} {hframe : ∀ s, refs (frame s) ⊆ World.locals s ++ held}
    {w : Task} {hw : ∀ s w', some w = some w' → P (frame s).decl w'} {decl : DeclId}
    (hframes : ∀ s, (frame s).this = some r ∧ (frame s).decl = decl) (hb : env.builds decl = true)
    (hc : Shows env r (fun a ws => R a ((decl, w) :: ws)) c) :
    Shows env r R (c.starting frame hframe (some w) hw) := by
  intro s a t hs hx
  obtain ⟨hthis, hdecl⟩ := hframes s
  show R a (worksOn env r (⟨[frame s], machine s, some w⟩ :: c.moments s))
  rw [worksOn_cons hthis (hdecl ▸ hb), hdecl]
  exact hc s a t hs hx

theorem finishing {frame : T → Frame} {h : ∀ t, refs (frame t) ⊆ World.locals t ++ held}
    (hc : Shows env r R c) : Shows env r R (c.finishing frame h) := by
  intro s a t hs hx
  show R a (worksOn env r (c.moments s ++ _))
  rw [worksOn_append, hx, worksOn_cons_silent, worksOn_nil, List.append_nil]
  exact hc s a t hs hx

end Shows

/-- An orderly journey shows what may begin. -/
theorem Orderly.shows {D : DeclId → Task → Prop} (hc : Orderly (Own env r D) (r + 1) c) :
    Shows env r (fun _ ws => ∀ x ∈ ws, D x.1 x.2) c :=
  fun s _ _ hs _ => work_of_begun (hc.begun s hs)

/-- If something begins first, it is shown in front. -/
theorem Opens.shows {D : DeclId → Task → Prop} {f : Frame} {w : Task}
    (hc : Opens (Own env r D) (r + 1) f w c) (hthis : f.this = some r)
    (hb : env.builds f.decl = true) :
    Shows env r (fun _ ws => ∃ inner, ws = (f.decl, w) :: inner ∧ ∀ x ∈ inner, D x.1 x.2) c := by
  intro s _ _ hs _
  obtain ⟨g, μ, later, heq, hgthis, hgdecl, hlater⟩ := hc.begun s hs
  rw [heq, worksOn_cons (hgthis.trans hthis) (hgdecl ▸ hb), hgdecl]
  exact ⟨_, rfl, work_of_begun hlater⟩

end

/-! ## Computations of programs -/

variable [HasRefs α] [HasRefs β] [HasRefs σ] {P : DeclId → Task → Prop} {held : List Ref}
  {env : Env} {r : Ref} {R : α → List Work → Prop} {R' : β → List Work → Prop}

abbrev Run.Shows {x : Run α} (env : Env) (r : Ref) (R : α → List Work → Prop)
    (c : x.Journey P held) : Prop :=
  Covenant.Shows env r R c

abbrev RunWith.Shows {x : RunWith σ α} (env : Env) (r : Ref) (R : α → List Work → Prop)
    (c : x.Journey P held) : Prop :=
  Covenant.Shows env r R c

theorem Run.Journey.moments_bind_ok {x : Run α} {f : α → Run β} (c : x.Journey P held)
    (d : ∀ a, (f a).Journey P (refs a ++ held)) {μ μ₁ : Machine} {a : α}
    (hx : x.ends μ = some (.ok a, μ₁)) :
    (Run.Journey.bind c d).moments μ = c.moments μ ++ (d a).moments μ₁ := by
  show c.moments μ ++ _ = _
  rw [hx]

namespace Run.Shows

variable {x y : Run α} {c : x.Journey P held}

theorem ofRun {h : y = x} (hc : Run.Shows env r R c) : Run.Shows env r R (Run.Journey.ofRun h c) :=
  Covenant.Shows.ofEq hc

theorem byCases {γ : Type} {o : Option γ} {d : ∀ a, o = some a → x.Journey P held}
    {e : o = none → x.Journey P held} (hd : ∀ a ha, Run.Shows env r R (d a ha))
    (he : ∀ hn, Run.Shows env r R (e hn)) : Run.Shows env r R (Covenant.Journey.byCases o d e) :=
  Covenant.Shows.byCases hd he

theorem bind {f : α → Run β} {d : ∀ a, (f a).Journey P (refs a ++ held)}
    (hc : Run.Shows env r R c)
    (hd : ∀ a, Run.Shows env r (fun b ws => ∀ ws₁, R a ws₁ → R' b (ws₁ ++ ws)) (d a)) :
    Run.Shows env r R' (Run.Journey.bind c d) :=
  .ofEq (Covenant.Shows.bind hc hd)

/-- What changes the machine once at most is no work. -/
theorem brief [x.Brief held] (h : ∀ a, R a []) :
    Run.Shows env r R (Run.Journey.brief : x.Journey P held) := by
  intro μ a μ' _ hx
  have hmoments : (Run.Journey.brief : x.Journey P held).moments μ = [⟨[], μ', none⟩] := by
    simp only [Run.Journey.brief, hx]
  rw [hmoments, worksOn_cons_silent, worksOn_nil]
  exact h a

/-- Nor is what leaves the machine alone. -/
theorem calm (hc : ∀ μ, c.moments μ = []) (h : ∀ a, R a []) : Run.Shows env r R c :=
  .quiet hc fun _ a _ _ => h a

theorem under {f : Frame} [Held f held] (hc : Run.Shows env r R c) :
    Run.Shows env r R (Run.Journey.under f c) :=
  Covenant.Shows.under hc

theorem ite {p : Prop} [h : Decidable p] {d : y.Journey P held} (hc : Run.Shows env r R c)
    (hd : Run.Shows env r R d) : Run.Shows env r R (Run.Journey.ite (p := p) c d) := by
  cases h with
  | isTrue => exact hc
  | isFalse => exact hd

theorem starting {f : Frame} [Held f held] {w : Task} {hw : P f.decl w} (hthis : f.this = some r)
    (hb : env.builds f.decl = true)
    (hc : Run.Shows env r (fun a ws => R a ((f.decl, w) :: ws)) c) :
    Run.Shows env r R (Run.Journey.starting f hw c) :=
  Covenant.Shows.starting (fun _ => ⟨hthis, rfl⟩) hb hc

/-- What is watched ends normally if the whole does: no stop is turned into a value. -/
theorem watchFrom {x : RunWith σ α} {s : σ} [Held s held] {c : x.Journey P held}
    {g : Except Unwind α × σ → Run β}
    {dok : ∀ a s', (g (.ok a, s')).Journey P (refs s' ++ (refs a ++ held))}
    {dthrow : ∀ (e : Ref) s', (g (.error (.throw e), s')).Journey P (refs s' ++ (refs e ++ held))}
    {hstop : ∀ u s', u.uncatchable? = some u →
      ∀ μ, (g (.error u, s')).ends μ = some (.error u, μ)}
    (hc : RunWith.Shows env r R c)
    (hok : ∀ a s', Run.Shows env r (fun b ws => ∀ ws₁, R a ws₁ → R' b (ws₁ ++ ws)) (dok a s'))
    (hthrow : ∀ e s' μ b μ', (g (.error (.throw e), s')).ends μ ≠ some (.ok b, μ')) :
    Run.Shows env r R' (Run.Journey.watchFrom (s := s) c dok dthrow hstop) := by
  refine .ofEq (.andThen (.within hc) (fun a => .family fun s' => hok a s') fun u t b t' h => ?_)
  cases hu : u.uncatchable? with
  | none =>
      cases u with
      | throw e => exact hthrow e t.1 t.2 b t' h
      | violation | fatal => cases hu
  | some u' =>
      cases u with
      | throw e => cases hu
      | violation | fatal => cases (hstop _ t.1 rfl t.2).symm.trans h

theorem deeper (hc : Run.Shows env r R c) : Run.Shows env r R (Run.Journey.deeper c) := by
  intro μ a μ' hμ h
  rw [ends_deeper] at h
  obtain ⟨⟨o, μ₁⟩, hx, heq⟩ := Option.map_eq_some_iff.mp h
  cases heq
  show R a (worksOn env r (_ :: (c.moments μ.enter ++ _)))
  rw [worksOn_cons_silent, worksOn_append, hx, worksOn_cons_silent, worksOn_nil, List.append_nil]
  exact hc μ.enter a μ₁ hμ hx

end Run.Shows

namespace RunWith.Shows

variable {x y : RunWith σ α} {c : x.Journey P held}

theorem yields {a : α} [Held a held] (h : R a []) :
    RunWith.Shows env r R (RunWith.Journey.yields a : (pure a : RunWith σ α).Journey P held) :=
  .quiet (fun _ => rfl) fun _ _ _ hx => by cases hx; exact h

theorem bind {f : α → RunWith σ β} {d : ∀ a, (f a).Journey P (refs a ++ held)}
    (hc : RunWith.Shows env r R c)
    (hd : ∀ a, RunWith.Shows env r (fun b ws => ∀ ws₁, R a ws₁ → R' b (ws₁ ++ ws)) (d a)) :
    RunWith.Shows env r R' (RunWith.Journey.bind c d) :=
  .ofEq (Covenant.Shows.bind hc hd)

theorem ite {d : y.Journey P held} : ∀ {b : Bool}, (b = true → RunWith.Shows env r R c) →
    (b = false → RunWith.Shows env r R d) → RunWith.Shows env r R
      (RunWith.Journey.ite c d : (if b then x else y : RunWith σ α).Journey P held)
  | true, hc, _ => hc rfl
  | false, _, hd => hd rfl

theorem keep {x : Run α} {c : x.Journey P held} (hc : Run.Shows env r R c) :
    RunWith.Shows env r R (RunWith.Journey.keep c : (Run.keep x : RunWith σ α).Journey P held) :=
  .ofEq (.within hc)

section

variable {x : RunWith Scopes α} {c : x.Journey P held} {f : Frame} [Held f held]

theorem under (hc : RunWith.Shows env r R c) :
    RunWith.Shows env r R (RunWith.Journey.under f c) :=
  Covenant.Shows.under hc

theorem around {w : Task} (hw : P f.decl w) (hthis : f.this = some r)
    (hb : env.builds f.decl = true)
    (hc : RunWith.Shows env r (fun a ws => R a ((f.decl, w) :: ws)) c) :
    RunWith.Shows env r R (RunWith.Journey.around f hw c) :=
  .finishing (.starting (fun _ => ⟨hthis, rfl⟩) hb hc)

end

end RunWith.Shows

end Covenant
