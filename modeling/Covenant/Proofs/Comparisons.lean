import Covenant.Proofs.Renaming

/-!
# Two runs beside each other

What can be said of a second run when one is known: it may start on another
machine, with other references for the same objects, or it may have more room for
calls. A comparison says which machines correspond, and is kept by all that
machines are used for. Two computations correspond if on such machines they end
alike, up to the names of references.

A comparison can be lenient: the run on the left may be cut off, by the limit on
calls or by the bound on its steps. Once it has been, nothing more is said. Nor
is anything said of the machines behind a violation or a fatal error, since a
`finally` block on the way may have been cut off.

As for chronicles, there is one lemma for each way to put computations together.
-/

namespace Covenant

variable {S S' T T' U U' α β γ δ σ : Type}

/-- What corresponds to what in two runs, the one on the left and the one on the right. -/
structure Comparison where
  /-- The reference on the right that stands for one on the left. -/
  ref : Ref → Ref
  machine : Machine → Machine → Prop
  /-- The static fields that are written. -/
  keys : String × String → Prop
  /-- Whether the run on the left may be cut off. -/
  lenient : Prop
  injective : Function.Injective ref
  depth {μ ν} : machine μ ν → ν.depth = μ.depth
  heap {μ ν} : machine μ ν → ∀ r, ν.heap[ref r]? = (μ.heap[r]?).map (Obj.rename ref)
  statics {μ ν} : machine μ ν → ∀ k,
    ν.statics.get? k = (μ.statics.get? k).map (Value.rename ref)
  alloc {μ ν} : machine μ ν → ∀ o, ref μ.heap.size = ν.heap.size ∧
    machine { μ with heap := μ.heap.push o } { ν with heap := ν.heap.push (o.rename ref) }
  update {μ ν} : machine μ ν → ∀ r f f', (∀ o, (f o).rename ref = f' (o.rename ref)) →
    machine { μ with heap := μ.heap.modify r f } { ν with heap := ν.heap.modify (ref r) f' }
  write {μ ν} : machine μ ν → ∀ k v, keys k →
    machine { μ with statics := μ.statics.insert k v }
      { ν with statics := ν.statics.insert k (v.rename ref) }
  enter {μ ν} : machine μ ν → machine μ.enter ν.enter
  leave {μ ν} : machine μ ν → machine μ.leave ν.leave

namespace Comparison

variable (K : Comparison)

/-- Whether two ends of computations correspond, where `g` says what the value on the right is and
`R` which states belong together. -/
inductive Related (R : T → T' → Prop) (g : α → β) :
    Option (Except Unwind α × T) → Option (Except Unwind β × T') → Prop
  | ok {a t t'} (h : R t t') : Related R g (some (.ok a, t)) (some (.ok (g a), t'))
  | throw {e t t'} (h : R t t') :
      Related R g (some (.error (.throw e), t)) (some (.error (.throw (K.ref e)), t'))
  | stop {u t t'} (hu : u.uncatchable? = some u) (h : K.lenient ∨ R t t') :
      Related R g (some (.error u, t)) (some (.error (u.rename K.ref), t'))
  | none : Related R g none none
  | cut {m l t o} (h : K.lenient) :
      Related R g (some (.error (.fatal (.recursionLimit m l)), t)) o
  | left {o} (h : K.lenient) : Related R g none o
  | right {o} (h : K.lenient) : Related R g o none

/-- The result on the right, where `g` says what a value is there. -/
def result (g : α → β) : Except Unwind α → Except Unwind β
  | .ok a => .ok (g a)
  | .error u => .error (u.rename K.ref)

variable {K}
variable {R : T → T' → Prop} {Q : U → U' → Prop} {g : α → β} {h : γ → δ}

namespace Related

/-- An early stop corresponds to the one with other references. -/
theorem error {u : Unwind} {t : T} {t' : T'} (ht : R t t') :
    K.Related R g (some (.error u, t)) (some (.error (u.rename K.ref), t')) := by
  cases u with
  | throw => exact .throw ht
  | violation | fatal => exact .stop rfl (.inr ht)

/-- Unless a run may be cut off, one has an end exactly if the other has, and a single one. -/
theorem strict {o : Option (Except Unwind α × T)} {o' : Option (Except Unwind β × T')}
    (ho : K.Related R g o o') (hl : ¬K.lenient) :
    (o = .none ∧ o' = .none) ∨
      ∃ r t t', o = some (r, t) ∧ o' = some (K.result g r, t') ∧ R t t' := by
  cases ho with
  | ok ht | throw ht => exact .inr ⟨_, _, _, rfl, rfl, ht⟩
  | stop _ ht => exact .inr ⟨_, _, _, rfl, rfl, ht.resolve_left hl⟩
  | none => exact .inl ⟨rfl, rfl⟩
  | cut h | left h | right h => exact absurd h hl

/-- The states that computations leave can be looked at in other ways. -/
theorem map {o : Option (Except Unwind α × T)} {o' : Option (Except Unwind β × T')}
    (ho : K.Related R g o o') {f : T → U} {j : T' → U'} (hf : ∀ t t', R t t' → Q (f t) (j t')) :
    K.Related Q g (o.map fun x => (x.1, f x.2)) (o'.map fun x => (x.1, j x.2)) := by
  cases ho with
  | ok ht => exact .ok (hf _ _ ht)
  | throw ht => exact .throw (hf _ _ ht)
  | stop hu ht => exact .stop hu (ht.imp_right (hf _ _))
  | none => exact .none
  | cut hl => exact .cut hl
  | left hl => exact .left hl
  | right hl => exact .right hl

/-- Two computations that are watched, and what is done next. What nothing may catch goes on as it
is. -/
theorem andThen {o : Option (Except Unwind α × T)} {o' : Option (Except Unwind β × T')}
    (ho : K.Related R g o o') {k : Except Unwind α → Process T U γ}
    {l : Except Unwind β → Process T' U' δ}
    (hok : ∀ a t t', R t t' → K.Related Q h (k (.ok a) t) (l (.ok (g a)) t'))
    (hthrow : ∀ e t t', R t t' →
      K.Related Q h (k (.error (.throw e)) t) (l (.error (.throw (K.ref e))) t'))
    {f : T → U} {j : T' → U'} (hf : ∀ t t', R t t' → Q (f t) (j t'))
    (hstop : ∀ u t, u.uncatchable? = some u → k (.error u) t = some (.error u, f t))
    (hstop' : ∀ u t, u.uncatchable? = some u → l (.error u) t = some (.error u, j t)) :
    K.Related Q h (o.bind fun x => k x.1 x.2) (o'.bind fun x => l x.1 x.2) := by
  cases ho with
  | ok ht => exact hok _ _ _ ht
  | throw ht => exact hthrow _ _ _ ht
  | stop hu ht =>
      rw [Option.bind_some, Option.bind_some, hstop _ _ hu,
        hstop' _ _ (Unwind.uncatchable?_rename hu)]
      exact .stop hu (ht.imp_right (hf _ _))
  | none => exact .none
  | cut hl =>
      rw [Option.bind_some, hstop _ _ rfl]
      exact .cut hl
  | left hl => exact .left hl
  | right hl => exact .right hl

theorem bind {o : Option (Except Unwind α × T)} {o' : Option (Except Unwind β × T')}
    (ho : K.Related R g o o') {k : α → Process T T γ} {k' : β → Process T' T' δ}
    (hk : ∀ a t t', R t t' → K.Related R h (k a t) (k' (g a) t')) :
    K.Related R h (o.bind fun x => Process.orStop k x.1 x.2)
      (o'.bind fun x => Process.orStop k' x.1 x.2) :=
  ho.andThen hk (fun _ _ _ ht => .throw ht) (f := id) (j := id) (fun _ _ ht => ht)
    (fun _ _ _ => rfl) fun _ _ _ => rfl

/-- What may not be caught goes on behind a `finally` block, however that ends. -/
theorem afterCleanup_uncatchable {u : Unwind} (hu : u.uncatchable? = some u)
    (c : Except Unwind Flow) : Run.afterCleanup (.error u) c = .error u := by
  cases u with
  | throw => cases hu
  | violation | fatal => rfl

/-- Two `finally` blocks that correspond, behind bodies that do. -/
theorem behindBody {o : Option (Except Unwind Flow × T)} {o' : Option (Except Unwind Flow × T')}
    (ho : K.Related R (Flow.rename K.ref) o o') (r : Except Unwind Flow) :
    K.Related R (Flow.rename K.ref)
      (o.map fun z => (Run.afterCleanup r z.1, z.2))
      (o'.map fun z => (Run.afterCleanup (K.result (Flow.rename K.ref) r) z.1, z.2)) := by
  cases hr : uncatchable? r with
  | some u =>
      obtain rfl : r = .error u := by
        rcases r with (_ | _ | _) | _ <;> cases hr <;> rfl
      have hu : u.uncatchable? = some u := hr
      simp only [result, afterCleanup_uncatchable hu,
        afterCleanup_uncatchable (Unwind.uncatchable?_rename hu)]
      cases ho with
      | ok ht | throw ht => exact .stop hu (.inr ht)
      | stop _ ht => exact .stop hu ht
      | none => exact .none
      | cut hl =>
          cases o' with
          | none => exact .right hl
          | some => exact .stop hu (.inl hl)
      | left hl => exact .left hl
      | right hl => exact .right hl
  | none =>
      -- The body completed or threw, so the end of the block counts unless it is a normal one.
      rcases r with (e | v | e) | flow
      · cases ho with
        | @ok a _ _ ht =>
            cases a with
            | normal => exact .throw ht
            | ret => exact .ok ht
        | throw ht => exact .throw ht
        | @stop u _ _ hu ht => cases u <;> first | exact .stop rfl ht | cases hu
        | none => exact .none
        | cut hl => exact .cut hl
        | left hl => exact .left hl
        | right hl => exact .right hl
      · cases hr
      · cases hr
      · cases ho with
        | @ok a _ _ ht => cases a <;> exact .ok ht
        | throw ht => exact .throw ht
        | @stop u _ _ hu ht => cases u <;> first | exact .stop rfl ht | cases hu
        | none => exact .none
        | cut hl => exact .cut hl
        | left hl => exact .left hl
        | right hl => exact .right hl

/-- A body that nothing may catch any more ends as it did, if its `finally` block has an end. -/
theorem behindStop {u : Unwind} (hu : u.uncatchable? = some u) (hl : K.lenient)
    (o : Option (Except Unwind Flow × T)) (o' : Option (Except Unwind Flow × T')) :
    K.Related R (Flow.rename K.ref)
      (o.map fun z => (Run.afterCleanup (.error u) z.1, z.2))
      (o'.map fun z => (Run.afterCleanup (.error (u.rename K.ref)) z.1, z.2)) := by
  simp only [afterCleanup_uncatchable hu, afterCleanup_uncatchable (Unwind.uncatchable?_rename hu)]
  cases o with
  | none => exact .left hl
  | some =>
      cases o' with
      | none => exact .right hl
      | some => exact .stop hu (.inl hl)

/-- Two statements with `finally` blocks, which run whatever happened in front of them. -/
theorem withCleanup {o : Option (Except Unwind Flow × T)} {o' : Option (Except Unwind Flow × T')}
    (ho : K.Related R (Flow.rename K.ref) o o') {y : Process T U Flow} {y' : Process T' U' Flow}
    (hy : ∀ t t', R t t' → K.Related Q (Flow.rename K.ref) (y t) (y' t')) :
    K.Related Q (Flow.rename K.ref)
      (o.bind fun x => (y x.2).map fun z => (Run.afterCleanup x.1 z.1, z.2))
      (o'.bind fun x => (y' x.2).map fun z => (Run.afterCleanup x.1 z.1, z.2)) := by
  cases ho with
  | ok ht => exact (hy _ _ ht).behindBody (.ok _)
  | throw ht => exact (hy _ _ ht).behindBody (.error (.throw _))
  | stop hu ht =>
      rcases ht with hl | ht
      · exact behindStop hu hl _ _
      · exact (hy _ _ ht).behindBody (.error _)
  | none => exact .none
  | @cut m l t _ hl =>
      rw [Option.bind_some]
      cases y t with
      | none => exact .left hl
      | some => exact .cut hl
  | left hl => exact .left hl
  | right hl => exact .right hl

end Related

end Comparison

/-! ## Computations of programs -/

section

variable (K : Comparison)

/-- Two computations end alike on machines that correspond, where `g` says what the value on the
right is. -/
def Run.Compares (g : α → β) (x : Run α) (y : Run β) : Prop :=
  ∀ ⦃μ ν⦄, K.machine μ ν → K.Related K.machine g (x.ends μ) (y.ends ν)

/-- The states of two computations with local variables or with slots, where `h` gives those on the
right. -/
def Comparison.state (h : σ → σ) (t t' : σ × Machine) : Prop := t'.1 = h t.1 ∧ K.machine t.2 t'.2

def RunWith.Compares (h : σ → σ) (g : α → β) (x : RunWith σ α) (y : RunWith σ β) : Prop :=
  ∀ s, ∀ ⦃μ ν⦄, K.machine μ ν →
    K.Related (K.state h) g (x.process (s, μ)) (y.process (h s, ν))

end

variable {K : Comparison}

namespace Run.Compares

variable {g : α → β} {h : γ → δ} {x : Run α} {y : Run β}

theorem pure {a : α} {b : β} (hb : b = g a) : Compares K g (Pure.pure a) (Pure.pure b) :=
  fun _ _ hm => hb ▸ .ok hm

theorem stop (u : Unwind) : Compares K g (Run.stop u) (Run.stop (u.rename K.ref)) :=
  fun _ _ hm => .error hm

theorem exhausted : Compares K g Run.exhausted Run.exhausted := fun _ _ _ => .none

theorem bind {f : α → Run γ} {f' : β → Run δ} (hx : Compares K g x y)
    (hf : ∀ a, Compares K h (f a) (f' (g a))) : Compares K h (x >>= f) (y >>= f') := by
  intro μ ν hm
  rw [ends_bind_orStop, ends_bind_orStop]
  exact (hx hm).bind fun a _ _ ht => hf a ht

theorem ite {x x' y y' : Run α} {g : α → α} {b : Bool} (hx : Compares K g x x')
    (hy : Compares K g y y') : Compares K g (if b then x else y) (if b then x' else y') := by
  cases b
  · exact hy
  · exact hx

/-- Two computations that are watched. -/
theorem watch {f : Except Unwind α → Run γ} {f' : Except Unwind β → Run δ} (hx : Compares K g x y)
    (hok : ∀ a, Compares K h (f (.ok a)) (f' (.ok (g a))))
    (hthrow : ∀ e, Compares K h (f (.error (.throw e))) (f' (.error (.throw (K.ref e)))))
    (hstop : ∀ u, u.uncatchable? = some u → f (.error u) = Run.stop u)
    (hstop' : ∀ u, u.uncatchable? = some u → f' (.error u) = Run.stop u) :
    Compares K h (liftM x.run >>= f) (liftM y.run >>= f') := by
  intro μ ν hm
  rw [ends_watch, ends_watch]
  exact (hx hm).andThen (k := fun r => (f r).ends) (l := fun r => (f' r).ends)
    (fun a _ _ ht => hok a ht) (fun e _ _ ht => hthrow e ht) (f := id) (j := id)
    (fun _ _ ht => ht) (fun u t hu => by rw [hstop u hu]; rfl)
    fun u t hu => by rw [hstop' u hu]; rfl

theorem deeper (hx : Compares K g x y) : Compares K g (Run.deeper x) (Run.deeper y) := by
  intro μ ν hm
  rw [ends_deeper, ends_deeper]
  exact (hx (K.enter hm)).map fun _ _ => K.leave

/-- Computations that look at the machine first. -/
theorem get {f : Machine → Run γ} {f' : Machine → Run δ}
    (hf : ∀ {μ ν}, K.machine μ ν → K.Related K.machine h ((f μ).ends μ) ((f' ν).ends ν)) :
    Compares K h (MonadState.get >>= f) (MonadState.get >>= f') :=
  fun _ _ hm => hf hm

theorem modify {f f' : Machine → Machine} (hf : ∀ {μ ν}, K.machine μ ν → K.machine (f μ) (f' ν)) :
    Compares K id (modify f) (modify f') :=
  fun _ _ hm => .ok (hf hm)

end Run.Compares

namespace RunWith.Compares

variable {g : α → β} {h : γ → δ} {r : σ → σ} {x : RunWith σ α} {y : RunWith σ β}

theorem pure {a : α} {b : β} (hb : b = g a) : Compares K r g (Pure.pure a) (Pure.pure b) :=
  fun _ _ _ hm => hb ▸ .ok ⟨rfl, hm⟩

/-- The states may be known together. -/
theorem related (hx : Compares K r g x y) {t t' : σ × Machine} (ht : K.state r t t') :
    K.Related (K.state r) g (x.process t) (y.process t') := by
  obtain ⟨s, μ⟩ := t
  obtain ⟨s', ν⟩ := t'
  obtain ⟨rfl, hm⟩ := ht
  exact hx s hm

theorem bind {f : α → RunWith σ γ} {f' : β → RunWith σ δ} (hx : Compares K r g x y)
    (hf : ∀ a, Compares K r h (f a) (f' (g a))) : Compares K r h (x >>= f) (y >>= f') := by
  intro s μ ν hm
  rw [process_bind, process_bind]
  exact (hx s hm).bind fun a _ _ ht => (hf a).related ht

theorem ite {x x' y y' : RunWith σ α} {g : α → α} {b : Bool} (hx : Compares K r g x x')
    (hy : Compares K r g y y') : Compares K r g (if b then x else y) (if b then x' else y') := by
  cases b
  · exact hy
  · exact hx

theorem keep {x : Run α} {y : Run β} (hx : x.Compares K g y) :
    Compares K r g (Run.keep x) (Run.keep y) := by
  intro s μ ν hm
  rw [process_keep, process_keep]
  exact (hx hm).map fun _ _ ht => ⟨rfl, ht⟩

theorem read : Compares K r r (getThe σ) (getThe σ) := fun _ _ _ hm => .ok ⟨rfl, hm⟩

theorem modifyThe {f f' : σ → σ} (hf : ∀ s, f' (r s) = r (f s)) :
    Compares K r id (modifyThe σ f) (modifyThe σ f') :=
  fun s _ _ hm => .ok ⟨hf s, hm⟩

theorem write {s s' : σ} (hs : s' = r s) :
    Compares K r id (MonadStateOf.set s : RunWith σ PUnit) (MonadStateOf.set s') :=
  fun _ _ _ hm => .ok ⟨hs, hm⟩

/-- What reads the local state is compared for each state. -/
theorem state {f : σ → RunWith σ γ} {f' : σ → RunWith σ δ}
    (hf : ∀ s, Compares K r h (f s) (f' (r s))) :
    Compares K r h (getThe σ >>= f) (getThe σ >>= f') :=
  bind read hf

theorem inBlock {x : RunWith Scopes α} {y : RunWith Scopes β} {vars vars' : Table String Value}
    (hvars : vars' = vars.mapValues (Value.rename K.ref))
    (hx : Compares K (Scopes.rename K.ref) g x y) :
    Compares K (Scopes.rename K.ref) g (Run.inBlock vars x) (Run.inBlock vars' y) := by
  intro s μ ν hm
  rw [process_inBlock, process_inBlock, hvars]
  have hx : K.Related _ g (x.process (vars :: s, μ))
      (y.process (vars.mapValues (Value.rename K.ref) :: s.rename K.ref, ν)) := hx (vars :: s) hm
  refine hx.map (Q := K.state (Scopes.rename K.ref)) (f := fun t => (List.tail t.1, t.2))
    (j := fun t => (List.tail t.1, t.2)) fun t t' ht => ⟨?_, ht.2⟩
  show List.tail t'.1 = Scopes.rename K.ref (List.tail t.1)
  rw [ht.1]
  exact List.map_tail.symm

theorem inScope {f f' : Frame} {x : Frame → Run α} {y : Frame → Run β}
    (hx : ∀ scopes, (x { f with scopes }).Compares K g
      (y { f' with scopes := scopes.rename K.ref })) :
    Compares K (Scopes.rename K.ref) g (Run.inScope f x) (Run.inScope f' y) :=
  state fun scopes => keep (hx scopes)

theorem withSlots {f f' : Frame} {x : Frame → Run α} {y : Frame → Run β}
    (hx : ∀ slots, (x { f with slots }).Compares K g
      (y { f' with slots := slots.mapValues (Value.rename K.ref) })) :
    Compares K (Table.mapValues (Value.rename K.ref)) g (Run.withSlots f x)
      (Run.withSlots f' y) :=
  state fun slots => keep (hx slots)

section

variable {x x' y y' : RunWith Scopes Flow}

/-- Statements are compared with the local variables on both sides. -/
abbrev Flows (K : Comparison) (x y : RunWith Scopes Flow) : Prop :=
  Compares K (Scopes.rename K.ref) (Flow.rename K.ref) x y

theorem catching {f f' : Ref → RunWith Scopes Flow} (hx : Flows K x x')
    (hf : ∀ e, Flows K (f e) (f' (K.ref e))) :
    Flows K (Run.catching x f) (Run.catching x' f') := by
  intro s μ ν hm
  rw [process_catching, process_catching]
  exact (hx s hm).andThen (k := Process.caught fun e => (f e).process)
    (l := Process.caught fun e => (f' e).process)
    (fun _ _ _ ht => .ok ht) (fun e _ _ ht => (hf e).related ht) (f := id) (j := id)
    (fun _ _ ht => ht) (fun _ t hu => Process.caught_uncatchable hu t)
    fun _ t hu => Process.caught_uncatchable hu t

theorem withCleanup (hx : Flows K x x') (hy : Flows K y y') :
    Flows K (Run.withCleanup x y) (Run.withCleanup x' y') := by
  intro s μ ν hm
  rw [process_withCleanup, process_withCleanup]
  exact (hx s hm).withCleanup fun _ _ ht => hy.related ht

theorem iterate {c c' : RunWith Scopes Bool} (hc : Compares K (Scopes.rename K.ref) id c c')
    (hx : Flows K x x') (n : Nat) : Flows K (Run.iterate c x n) (Run.iterate c' x' n) := by
  induction n with
  | zero => exact keep .exhausted
  | succ n ih =>
      rw [Run.iterate, Run.iterate]
      refine bind hc fun b => ite (bind hx fun flow => ?_) (pure rfl)
      cases flow with
      | normal => exact ih
      | ret v span => exact pure rfl

end

end RunWith.Compares

/-- Two computations with states of their own, which are watched. -/
theorem Run.Compares.watchFrom {g : α → β} {h : γ → δ} {r : σ → σ} {x : RunWith σ α}
    {y : RunWith σ β} (hx : x.Compares K r g y) {s s' : σ} (hs : s' = r s)
    {f : Except Unwind α × σ → Run γ} {f' : Except Unwind β × σ → Run δ}
    (hok : ∀ a s, Compares K h (f (.ok a, s)) (f' (.ok (g a), r s)))
    (hthrow : ∀ e s,
      Compares K h (f (.error (.throw e), s)) (f' (.error (.throw (K.ref e)), r s)))
    (hstop : ∀ u s, u.uncatchable? = some u → f (.error u, s) = Run.stop u)
    (hstop' : ∀ u s, u.uncatchable? = some u → f' (.error u, s) = Run.stop u) :
    Compares K h (withState x s >>= f) (withState y s' >>= f') := by
  intro μ ν hm
  rw [ends_watchFrom, ends_watchFrom, hs]
  refine (hx s hm).andThen (k := fun r t => (f (r, t.1)).ends t.2)
    (l := fun r t => (f' (r, t.1)).ends t.2) (fun a t t' ht => ?_) (fun e t t' ht => ?_)
    (f := Prod.snd) (j := Prod.snd) (fun _ _ ht => ht.2)
    (fun u t hu => by rw [hstop u t.1 hu]; rfl) fun u t hu => by rw [hstop' u t.1 hu]; rfl
  · rw [ht.1]
    exact hok a t.1 ht.2
  · rw [ht.1]
    exact hthrow e t.1 ht.2

/-- What two sides do behind calls corresponds, with the same references behind other names. -/
structure Calls.Compares (K : Comparison) (c d : Calls) : Prop where
  invoke : ∀ id this args, (c.invoke id this args).Compares K (Value.rename K.ref)
    (d.invoke id (this.map K.ref) (args.map (Value.rename K.ref)))
  recheck : ∀ caller site this args, (c.recheck caller site this args).Compares K id
    (d.recheck caller site (this.map K.ref) (args.map (Value.rename K.ref)))
  rounds : c.rounds = d.rounds

/-- Runs on the same machine, on which static fields that are not written have no values. -/
def Comparison.same (keys : String × String → Prop) (lenient : Prop) : Comparison where
  ref := id
  machine μ ν := μ = ν ∧ ∀ k, ¬keys k → μ.statics.get? k = none
  keys := keys
  lenient := lenient
  injective := Function.injective_id
  depth h := by rw [h.1]
  heap {μ ν} h r := by
    rw [← h.1, id, show Obj.rename id = id from funext Obj.rename_id, Option.map_id, id]
  statics {μ ν} h k := by rw [← h.1, Value.rename_id', Option.map_id, id]
  alloc {μ ν} h o := by
    obtain ⟨rfl, h⟩ := h
    rw [Obj.rename_id]
    exact ⟨rfl, rfl, h⟩
  update {μ ν} h r f f' hf := by
    obtain ⟨rfl, h⟩ := h
    rw [show f = f' from funext fun o => by simpa using hf o]
    exact ⟨rfl, h⟩
  write {μ ν} h k v hk := by
    obtain ⟨rfl, h⟩ := h
    rw [Value.rename_id]
    refine ⟨rfl, fun k' hk' => ?_⟩
    have hne : k ≠ k' := fun heq => hk' (heq ▸ hk)
    exact (Table.get?_insert_of_ne _ hne _).trans (h k' hk')
  enter {μ ν} h := by
    obtain ⟨rfl, h⟩ := h
    exact ⟨rfl, h⟩
  leave {μ ν} h := by
    obtain ⟨rfl, h⟩ := h
    exact ⟨rfl, h⟩

end Covenant
