import Covenant.Proofs.Beginnings

/-!
# Orderly journeys

What may begin in a frame can depend on the object that the frame is about: while an
object is made, the code that makes objects has no business with those that were there
before. A journey is orderly if all that begins on it does so in a frame as it should,
from states on that have some number of objects already, and if it never ends for want
of a constructor that takes nothing. The number tells the objects that were there from
those that are made on the way, and it holds on, since no object goes away.

As for what begins, there is one rule for each way to put journeys together. A journey
that starts with a moment of its own is told apart from what follows on it.
-/

namespace Covenant

open HasRefs (refs)
open World (machine)

variable {S S' T T' U α β σ : Type}

/-! ## Ends -/

/-- An end for another reason than that a class has no constructor without parameters. -/
def Founded (r : Except Unwind α) : Prop :=
  ∀ name, r ≠ .error (.fatal (.internal (.noDefaultConstructor name)))

namespace Founded

theorem ok (a : α) : Founded (.ok a) := nofun

theorem error {u : Unwind} (h : Founded (.error u : Except Unwind α)) :
    Founded (.error u : Except Unwind β) :=
  fun name heq => h name (congrArg Except.error (Except.error.inj heq))

theorem throw (e : Ref) : Founded (.error (.throw e) : Except Unwind α) := nofun

theorem afterCleanup {r c : Except Unwind Flow} (hr : Founded r) (hc : Founded c) :
    Founded (Run.afterCleanup r c) := by
  rcases r with (_ | _ | _) | _ <;> rcases c with (_ | _ | _) | _ | _ <;>
    first | exact hr | exact hc

end Founded

/-- A computation that has no end for want of a constructor. -/
class Run.Sure (x : Run α) : Prop where
  ends : ∀ {μ r μ'}, x.ends μ = some (r, μ') → Founded r

namespace Run.Sure

variable {x : Run α}

instance pure {a : α} : Sure (Pure.pure a) := ⟨fun h => by cases h; exact .ok a⟩

theorem stop {u : Unwind} (hu : Founded (.error u : Except Unwind α)) : Sure (stop u : Run α) :=
  ⟨fun h => by cases h; exact hu⟩

instance throw {e : Ref} : Sure (Run.stop (.throw e) : Run α) := stop (.throw e)

instance violation {v : Violation} : Sure (Run.stop (.violation v) : Run α) := stop nofun

theorem defect {d : Defect} (hd : ∀ name, d ≠ .noDefaultConstructor name) :
    Sure (defect d : Run α) :=
  stop fun name heq => hd name (RunError.internal.inj (Unwind.fatal.inj (Except.error.inj heq)))

instance exhausted : Sure (exhausted : Run α) := ⟨fun h => by cases h⟩

instance get : Sure (get : Run Machine) := ⟨fun h => by cases h; exact .ok _⟩

instance set {μ : Machine} : Sure (set μ : Run PUnit) := ⟨fun h => by cases h; exact .ok _⟩

instance modify {f : Machine → Machine} : Sure (modify f : Run PUnit) :=
  ⟨fun h => by cases h; exact .ok _⟩

instance bind {f : α → Run β} [i : Sure x] [k : ∀ a, Sure (f a)] : Sure (x >>= f) where
  ends h := by
    rcases ends_bind_eq_some.mp h with ⟨u, hx, rfl⟩ | ⟨a, μ₁, _, hf⟩
    · exact (i.ends hx).error
    · exact (k a).ends hf

instance map {f : α → β} [Sure x] : Sure (f <$> x) :=
  inferInstanceAs (Sure (x >>= fun a => Pure.pure (f a)))

instance ite {p : Prop} [Decidable p] {y : Run α} [Sure x] [Sure y] :
    Sure (if p then x else y) := by
  split <;> assumption

instance classOf {r : Ref} : Sure (classOf r) :=
  inferInstanceAs (Sure (MonadState.get >>= fun _ => Pure.pure _))

instance alloc {o : Obj} : Sure (alloc o) :=
  inferInstanceAs (Sure (MonadState.get >>= fun _ => MonadStateOf.set _ >>= fun _ => Pure.pure _))

instance throwNew {className : String} : Sure (throwNew className : Run α) :=
  inferInstanceAs (Sure (Run.alloc _ >>= fun _ => Run.stop _))

instance instantiate {env : Env} {className : String} : Sure (instantiate env className) :=
  inferInstanceAs (Sure (Run.alloc _))

instance asBool {v : Value} : Sure (asBool v) := by
  cases v <;> first | exact pure | exact defect nofun

instance asInt {v : Value} : Sure (asInt v) := by
  cases v <;> first | exact pure | exact defect nofun

instance asObject {v : Value} : Sure (asObject v) := by
  cases v <;> first | exact pure | exact throwNew | exact defect nofun

instance applyUnary {op : UnaryOp} {v : Value} : Sure (applyUnary op v) := by
  cases op <;> cases v <;> first | exact pure | exact defect nofun

instance applyInts {op : BinaryOp} {a b : Int64} : Sure (applyInts op a b) := by
  cases op <;> first
    | exact pure
    | exact defect nofun
    | exact inferInstanceAs (Sure (if b = 0 then Run.throwNew _ else Pure.pure _))

instance applyBinary {op : BinaryOp} {l r : Value} : Sure (applyBinary op l r) := by
  unfold Run.applyBinary
  split <;> first | exact pure | exact applyInts | exact defect nofun

instance getField {r : Ref} {name : String} : Sure (getField r name) := by
  refine bind (k := fun μ => ?_)
  rcases μ.heap[r]? with _ | ⟨c, fields⟩ | items
  · exact defect nofun
  · show Sure (match fields.get? name with
      | some v => Pure.pure v
      | none => Run.defect (.noField name))
    cases fields.get? name with
    | none => exact defect nofun
    | some v => exact pure
  · exact defect nofun

instance setField {r : Ref} {name : String} {v : Value} : Sure (setField r name v) := by
  refine bind (k := fun μ => ?_)
  rcases μ.heap[r]? with _ | ⟨c, fields⟩ | items
  · exact defect nofun
  · exact modify
  · exact defect nofun

instance getStatic {env : Env} {c name : String} : Sure (getStatic env c name) :=
  inferInstanceAs (Sure (MonadState.get >>= fun _ => Pure.pure _))

instance setStatic {env : Env} {c name : String} {v : Value} : Sure (setStatic env c name v) :=
  modify

instance arrayLength {r : Ref} : Sure (arrayLength r) := by
  refine bind (k := fun μ => ?_)
  rcases μ.heap[r]? with _ | ⟨c, fields⟩ | items
  · exact defect nofun
  · exact defect nofun
  · exact pure

instance getItem {r : Ref} {i : Int64} : Sure (getItem r i) := by
  refine bind (k := fun μ => ?_)
  rcases μ.heap[r]? with _ | ⟨c, fields⟩ | items
  · exact defect nofun
  · exact defect nofun
  · show Sure (match position? items i with
      | some n => Pure.pure (items.getD n .null)
      | none => Run.throwNew "ArrayIndexOutOfBoundsException")
    cases position? items i with
    | none => exact throwNew
    | some n => exact pure

instance setItem {r : Ref} {i : Int64} {v : Value} : Sure (setItem r i v) := by
  refine bind (k := fun μ => ?_)
  rcases μ.heap[r]? with _ | ⟨c, fields⟩ | items
  · exact defect nofun
  · exact defect nofun
  · show Sure (match position? items i with
      | some n => updateObj r (.setItem n v)
      | none => Run.throwNew "ArrayIndexOutOfBoundsException")
    cases position? items i with
    | none => exact throwNew
    | some n => exact modify

instance newArray {elem : Ty} {length : Int64} : Sure (newArray elem length) :=
  inferInstanceAs (Sure (if length.toInt < 0 then Run.throwNew _ else Run.alloc _))

instance checkThrows {env : Env} {f : Frame} {checks : List ThrowsCheck}
    {mayThrow : List String} : Sure (checkThrows env f checks mayThrow) := by
  have judged (thrown : Option String) :
      Sure (match brokenThrows? env f.slots thrown checks mayThrow with
        | none => Pure.pure ()
        | some (t, detail) => Run.stop (.violation (exitViolation env .exceptionalPostcondition f
            t.clause detail)) : Run Unit) := by
    cases brokenThrows? env f.slots thrown checks mayThrow <;> infer_instance
  rw [Run.checkThrows]
  cases f.thrown with
  | none => exact bind (k := fun thrown => judged thrown)
  | some e => exact bind (k := fun thrown => judged thrown)

instance startOf {env : Env} {p : Effect.Path} {this : Option Ref} {args : List Value} :
    Sure (startOf env p this args) := by
  rw [Run.startOf]
  split
  · exact pure
  · exact pure
  · exact bind (k := fun _ => pure)
  · exact pure

end Run.Sure

/-! ## Journeys -/

/-- From states with `n` objects on, everything on a journey begins as it may in frames of their
objects and declarations, and it does not end for want of a constructor. -/
structure Orderly [World S] [World T] [HasRefs α] {P : DeclId → Task → Prop} {held : List Ref}
    {x : Process S T α} (K : Option Ref → DeclId → Task → Prop) (n : Nat)
    (c : Journey P held x) : Prop where
  begun : Begins (fun f => K f.this f.decl) (fun s => n ≤ (machine s).heap.size) c
  founded : ∀ {s r t}, n ≤ (machine s).heap.size → x s = some (r, t) → Founded r

/-- A journey whose first moment is when something begins in a frame of the object and declaration
of another one, and which is orderly from then on. -/
structure Opens [World S] [World T] [HasRefs α] {P : DeclId → Task → Prop} {held : List Ref}
    {x : Process S T α} (K : Option Ref → DeclId → Task → Prop) (n : Nat) (f : Frame) (w : Task)
    (c : Journey P held x) : Prop where
  begun : ∀ s, n ≤ (machine s).heap.size → ∃ g μ later,
    c.moments s = ⟨[g], μ, some w⟩ :: later ∧ g.this = f.this ∧ g.decl = f.decl ∧
      ∀ m ∈ later, m.Begun fun f => K f.this f.decl
  founded : ∀ {s r t}, n ≤ (machine s).heap.size → x s = some (r, t) → Founded r

section

variable [World S] [World T] [World U] [World S'] [World T'] [HasRefs α] [HasRefs β]
  {P : DeclId → Task → Prop} {held held' : List Ref} {x y : Process S T α}
  {K : Option Ref → DeclId → Task → Prop} {n : Nat} {c : Journey P held x}

theorem Opens.orderly {f : Frame} {w : Task} (h : Opens K n f w c) (hw : K f.this f.decl w) :
    Orderly K n c where
  begun s hs m hm := by
    obtain ⟨g, μ, later, heq, hthis, hdecl, hlater⟩ := h.begun s hs
    rw [heq] at hm
    rcases List.mem_cons.mp hm with rfl | hm
    · refine .only fun w' hw' => ?_
      obtain rfl := Option.some.inj hw'
      rw [hthis, hdecl]
      exact hw
    · exact hlater m hm
  founded := h.founded

namespace Orderly

/-- Where nothing happens on the way only the end counts. -/
theorem quiet (h : ∀ s, c.moments s = []) (hx : ∀ {s r t}, x s = some (r, t) → Founded r) :
    Orderly K n c :=
  ⟨.quiet h, fun _ => hx⟩

theorem ofEq {h : ∀ s, y s = x s} (hc : Orderly K n c) : Orderly K n (Journey.ofEq h c) :=
  ⟨hc.begun, fun hs hy => hc.founded hs ((h _).symm.trans hy)⟩

theorem weaken {h : held ⊆ held'} (hc : Orderly K n c) : Orderly K n (c.weaken h) :=
  ⟨hc.begun, hc.founded⟩

theorem byCases {γ : Type} {o : Option γ} {d : ∀ a, o = some a → Journey P held x}
    {e : o = none → Journey P held x} (hd : ∀ a ha, Orderly K n (d a ha))
    (he : ∀ hn, Orderly K n (e hn)) : Orderly K n (Journey.byCases o d e) := by
  rw [Journey.byCases]
  split
  · exact he _
  · exact hd _ _

theorem within {f : S' → S} {g : S' → T → T'}
    {hf : ∀ s, machine (f s) = machine s ∧ World.locals (f s) ⊆ World.locals s ++ held}
    {hg : ∀ s t, machine (g s t) = machine t ∧ World.locals (g s t) ⊆
      World.locals s ++ World.locals t}
    (hc : Orderly K n c) : Orderly K n (c.within f g hf hg) where
  begun := (Begins.within hc.begun).mono fun s hs => (hf s).1 ▸ hs
  founded {s _ _} hs h := by
    obtain ⟨⟨r, t⟩, hx, heq⟩ := Option.map_eq_some_iff.mp h
    obtain ⟨rfl, _⟩ := Prod.mk.inj heq
    exact hc.founded ((hf s).1 ▸ hs) hx

theorem mapEnds {k : Except Unwind α → Except Unwind β} {hk : ∀ r, refs (k r) ⊆ refs r ++ held}
    (hc : Orderly K n c) (h : ∀ r, Founded r → Founded (k r)) : Orderly K n (c.mapEnds k hk) where
  begun := hc.begun
  founded hs hends := by
    obtain ⟨o, hx, heq⟩ := Option.map_eq_some_iff.mp hends
    obtain ⟨rfl, _⟩ := Prod.mk.inj heq
    exact h _ (hc.founded hs hx)

theorem family [HasRefs σ] {x : σ → Process Machine T α}
    {c : ∀ k, Journey P (refs k ++ held) (x k)} (hc : ∀ k, Orderly K n (c k)) :
    Orderly K n (Journey.family c) where
  begun := .family fun k => (hc k).begun
  founded hs h := (hc _).founded hs h

theorem andThen {g : Except Unwind α → Process T U β} {d : ∀ r, Journey P (refs r ++ held) (g r)}
    (hc : Orderly K n c) (hd : ∀ r, Founded r → Orderly K n (d r)) :
    Orderly K n (c.andThen d) where
  begun := .andThen (J := fun r t => Founded r ∧ n ≤ (machine t).heap.size) hc.begun
    (fun _ _ _ hs hx => ⟨hc.founded hs hx, Nat.le_trans hs (c.kept hx).size⟩)
    fun r t ht => (hd r ht.1).begun t ht.2
  founded hs h := by
    obtain ⟨⟨r, t⟩, hx, hg⟩ := Option.bind_eq_some_iff.mp h
    exact (hd r (hc.founded hs hx)).founded (Nat.le_trans hs (c.kept hx).size) hg

theorem bind {f : α → Process T T β} {d : ∀ a, Journey P (refs a ++ held) (f a)}
    (hc : Orderly K n c)
    (hd : ∀ a, (∃ s t, n ≤ (machine s).heap.size ∧ x s = some (.ok a, t)) → Orderly K n (d a)) :
    Orderly K n (c.bind d) where
  begun := .bind (J := fun a t => n ≤ (machine t).heap.size ∧
      ∃ s t, n ≤ (machine s).heap.size ∧ x s = some (.ok a, t)) hc.begun
    (fun s a t hs hx => ⟨Nat.le_trans hs (c.kept hx).size, s, t, hs, hx⟩)
    fun a t ht => (hd a ht.2).begun t ht.1
  founded hs h := by
    obtain ⟨⟨_ | a, t⟩, hx, hg⟩ := Option.bind_eq_some_iff.mp h
    · cases hg
      exact (hc.founded hs hx).error
    · exact (hd a ⟨_, t, hs, hx⟩).founded (Nat.le_trans hs (c.kept hx).size) hg

theorem withCleanup {y : Process T U Flow} {x : Process S T Flow} {c : Journey P held x}
    {d : Journey P held y} (hc : Orderly K n c) (hd : Orderly K n d) :
    Orderly K n (c.withCleanup d) :=
  .andThen hc fun _ hr => .mapEnds (.weaken hd) fun _ hr' => hr.afterCleanup hr'

theorem under {frame : S → Frame} {hframe : ∀ s, refs (frame s) ⊆ World.locals s ++ held}
    (hc : Orderly K n c) : Orderly K n (c.under frame hframe) :=
  ⟨.under hc.begun, hc.founded⟩

theorem finishing {frame : T → Frame} {h : ∀ t, refs (frame t) ⊆ World.locals t ++ held}
    (hc : Orderly K n c) : Orderly K n (c.finishing frame h) :=
  ⟨.finishing hc.begun, hc.founded⟩

end Orderly

namespace Opens

variable {f : Frame} {w : Task}

theorem starting {frame : S → Frame} {hframe : ∀ s, refs (frame s) ⊆ World.locals s ++ held}
    {hw : ∀ s w', some w = some w' → P (frame s).decl w'}
    (hf : ∀ s, (frame s).this = f.this ∧ (frame s).decl = f.decl) (hc : Orderly K n c) :
    Opens K n f w (c.starting frame hframe (some w) hw) where
  begun s hs := ⟨frame s, machine s, c.moments s, rfl, (hf s).1, (hf s).2, hc.begun s hs⟩
  founded := hc.founded

theorem finishing {frame : T → Frame} {h : ∀ t, refs (frame t) ⊆ World.locals t ++ held}
    (hc : Opens K n f w c) : Opens K n f w (c.finishing frame h) where
  begun s hs := by
    obtain ⟨g, μ, later, heq, hthis, hdecl, hlater⟩ := hc.begun s hs
    refine ⟨g, μ, later ++ _, congrArg (· ++ _) heq, hthis, hdecl, fun m hm => ?_⟩
    rcases List.mem_append.mp hm with hm | hm
    · exact hlater m hm
    · split at hm
      · obtain rfl := List.mem_singleton.mp hm
        exact .silent
      · exact absurd hm List.not_mem_nil
  founded := hc.founded

end Opens

end

/-! ## Computations of programs -/

variable [HasRefs α] [HasRefs β] [HasRefs σ] {P : DeclId → Task → Prop} {held : List Ref}
  {K : Option Ref → DeclId → Task → Prop} {n : Nat}

abbrev Run.Orderly {x : Run α} (K : Option Ref → DeclId → Task → Prop) (n : Nat)
    (c : x.Journey P held) : Prop :=
  Covenant.Orderly K n c

abbrev RunWith.Orderly {x : RunWith σ α} (K : Option Ref → DeclId → Task → Prop) (n : Nat)
    (c : x.Journey P held) : Prop :=
  Covenant.Orderly K n c

abbrev Run.Opens {x : Run α} (K : Option Ref → DeclId → Task → Prop) (n : Nat) (f : Frame)
    (w : Task) (c : x.Journey P held) : Prop :=
  Covenant.Opens K n f w c

abbrev RunWith.Opens {x : RunWith σ α} (K : Option Ref → DeclId → Task → Prop) (n : Nat)
    (f : Frame) (w : Task) (c : x.Journey P held) : Prop :=
  Covenant.Opens K n f w c

theorem Run.Opens.starting {x : Run α} {c : x.Journey P held} {f : Frame} [Held f held] {w : Task}
    {hw : P f.decl w} (hc : Run.Orderly K n c) : Run.Opens K n f w (Run.Journey.starting f hw c) :=
  Covenant.Opens.starting (fun _ => ⟨rfl, rfl⟩) hc

theorem RunWith.Opens.around {x : RunWith Scopes α} {c : x.Journey P held} {f : Frame}
    [Held f held] {w : Task} {h : P f.decl w} (hc : RunWith.Orderly K n c) :
    RunWith.Opens K n f w (RunWith.Journey.around f h c) :=
  .finishing (.starting (fun _ => ⟨rfl, rfl⟩) hc)

theorem RunWith.Opens.checking {x : RunWith Slots α} {c : x.Journey P held} {f : Frame}
    [Held f held] {w : Task} (hw : P f.decl w) (hc : RunWith.Orderly K n c) :
    RunWith.Opens K n f w (RunWith.Journey.checking f hw c) :=
  .finishing (.starting (fun _ => ⟨rfl, rfl⟩) hc)

namespace Run.Orderly

variable {x y : Run α} {c : x.Journey P held}

theorem ofRun {h : y = x} (hc : Run.Orderly K n c) : Run.Orderly K n (Run.Journey.ofRun h c) :=
  Covenant.Orderly.ofEq hc

theorem byCases {γ : Type} {o : Option γ} {d : ∀ a, o = some a → x.Journey P held}
    {e : o = none → x.Journey P held} (hd : ∀ a ha, Run.Orderly K n (d a ha))
    (he : ∀ hn, Run.Orderly K n (e hn)) : Run.Orderly K n (Covenant.Journey.byCases o d e) :=
  Covenant.Orderly.byCases hd he

/-- What leaves the machine alone. -/
theorem calm [h : x.Sure] (hc : ∀ μ, c.moments μ = []) : Run.Orderly K n c :=
  .quiet hc h.ends

theorem brief [hb : x.Brief held] [hx : x.Sure] :
    Run.Orderly K n (Run.Journey.brief : x.Journey P held) :=
  ⟨fun μ _ => Run.Begins.brief μ trivial, fun _ => hx.ends⟩

theorem bind {f : α → Run β} {d : ∀ a, (f a).Journey P (refs a ++ held)} (hc : Run.Orderly K n c)
    (hd : ∀ a, (∃ μ μ' : Machine, n ≤ μ.heap.size ∧ x.ends μ = some (.ok a, μ')) →
      Run.Orderly K n (d a)) : Run.Orderly K n (Run.Journey.bind c d) :=
  .ofEq (Covenant.Orderly.bind hc hd)

/-- What comes last leaves the machine alone. -/
theorem last {f : α → Run β} {d : ∀ a, (f a).Journey P (refs a ++ held)} [∀ a, (f a).Sure]
    (hc : Run.Orderly K n c) (hd : ∀ a μ, (d a).moments μ = []) :
    Run.Orderly K n (Run.Journey.bind c d) :=
  .bind hc fun a _ => .calm (hd a)

theorem ite {p : Prop} [h : Decidable p] {d : y.Journey P held} (hc : Run.Orderly K n c)
    (hd : Run.Orderly K n d) : Run.Orderly K n (Run.Journey.ite (p := p) c d) := by
  cases h with
  | isTrue => exact hc
  | isFalse => exact hd

theorem starting {f : Frame} [Held f held] {w : Task} {hw : P f.decl w} (hk : K f.this f.decl w)
    (hc : Run.Orderly K n c) : Run.Orderly K n (Run.Journey.starting f hw c) :=
  (Run.Opens.starting hc).orderly hk

theorem under {f : Frame} [Held f held] (hc : Run.Orderly K n c) :
    Run.Orderly K n (Run.Journey.under f c) :=
  Covenant.Orderly.under hc

/-- A stop that is passed on. -/
theorem passes {u : Unwind} {hu : u.uncatchable? = some u}
    {hx : ∀ μ, x.ends μ = some (.error u, μ)} (h : Founded (.error u : Except Unwind α)) :
    Run.Orderly K n (Run.Journey.passes hu hx : x.Journey P held) :=
  .quiet (fun _ => rfl) fun hends => by cases (hx _).symm.trans hends; exact h

theorem watch {g : Except Unwind α → Run β} {dok : ∀ a, (g (.ok a)).Journey P (refs a ++ held)}
    {dthrow : ∀ e : Ref, (g (.error (.throw e))).Journey P (refs e ++ held)}
    {hstop : ∀ u, u.uncatchable? = some u → ∀ μ, (g (.error u)).ends μ = some (.error u, μ)}
    (hc : Run.Orderly K n c) (hok : ∀ a, Run.Orderly K n (dok a))
    (hthrow : ∀ e, Run.Orderly K n (dthrow e)) :
    Run.Orderly K n (Run.Journey.watch c dok dthrow hstop) := by
  refine .ofEq (.andThen hc fun r hr => ?_)
  rcases r with (e | _ | _) | a
  · exact hthrow e
  · exact Run.Orderly.passes hr.error
  · exact Run.Orderly.passes hr.error
  · exact hok a

theorem watchFrom {x : RunWith σ α} {s : σ} [Held s held] {c : x.Journey P held}
    {g : Except Unwind α × σ → Run β}
    {dok : ∀ a s', (g (.ok a, s')).Journey P (refs s' ++ (refs a ++ held))}
    {dthrow : ∀ (e : Ref) s', (g (.error (.throw e), s')).Journey P (refs s' ++ (refs e ++ held))}
    {hstop : ∀ u s', u.uncatchable? = some u →
      ∀ μ, (g (.error u, s')).ends μ = some (.error u, μ)}
    (hc : RunWith.Orderly K n c) (hok : ∀ a s', Run.Orderly K n (dok a s'))
    (hthrow : ∀ e s', Run.Orderly K n (dthrow e s')) :
    Run.Orderly K n (Run.Journey.watchFrom (s := s) c dok dthrow hstop) := by
  refine .ofEq (.andThen (.within hc) fun r hr => ?_)
  rcases r with (e | _ | _) | a
  · exact .family fun s' => hthrow e s'
  · exact .family fun s' => Run.Orderly.passes hr.error
  · exact .family fun s' => Run.Orderly.passes hr.error
  · exact .family fun s' => hok a s'

theorem deeper (hc : Run.Orderly K n c) : Run.Orderly K n (Run.Journey.deeper c) where
  begun μ hμ m hm := by
    rcases List.mem_cons.mp hm with rfl | hm
    · exact .silent
    · rcases List.mem_append.mp hm with hm | hm
      · exact hc.begun μ.enter hμ m hm
      · split at hm
        · obtain rfl := List.mem_singleton.mp hm
          exact .silent
        · exact absurd hm List.not_mem_nil
  founded {μ _ _} hμ h := by
    rw [ends_deeper] at h
    obtain ⟨⟨r, μ₁⟩, hx, heq⟩ := Option.map_eq_some_iff.mp h
    cases heq
    exact hc.founded (s := μ.enter) hμ hx

end Run.Orderly

namespace RunWith.Orderly

variable {x y : RunWith σ α} {c : x.Journey P held}

theorem yields {a : α} [Held a held] :
    RunWith.Orderly K n (RunWith.Journey.yields a : (pure a : RunWith σ α).Journey P held) :=
  .quiet (fun _ => rfl) fun h => by cases h; exact .ok a

theorem change {f : σ → σ} {h : ∀ s, refs (f s) ⊆ refs s ++ held} :
    RunWith.Orderly K n (RunWith.Journey.change (P := P) h) :=
  .quiet (fun _ => rfl) fun h => by cases h; exact .ok _

theorem assign {name : String} {v : Value} [Held v held] :
    RunWith.Orderly K n (RunWith.Journey.assign name v : (Run.assign name v).Journey P held) :=
  .quiet (fun _ => rfl) fun {s _ _} h => by
    rw [Run.assign, process_bind] at h
    obtain ⟨o, ho, h⟩ := Option.bind_eq_some_iff.mp h
    cases ho
    cases hs : s.1.assign? name v with
    | none =>
        simp only [Process.orStop, hs] at h
        cases h
        exact nofun
    | some s' =>
        simp only [Process.orStop, hs] at h
        cases h
        exact .ok _

theorem bind {f : α → RunWith σ β} {d : ∀ a, (f a).Journey P (refs a ++ held)}
    (hc : RunWith.Orderly K n c) (hd : ∀ a, RunWith.Orderly K n (d a)) :
    RunWith.Orderly K n (RunWith.Journey.bind c d) :=
  .ofEq (Covenant.Orderly.bind hc fun a _ => hd a)

theorem ite {d : y.Journey P held} : ∀ {b : Bool}, (b = true → RunWith.Orderly K n c) →
    (b = false → RunWith.Orderly K n d) → RunWith.Orderly K n
      (RunWith.Journey.ite c d : (if b then x else y : RunWith σ α).Journey P held)
  | true, hc, _ => hc rfl
  | false, _, hd => hd rfl

theorem keep {x : Run α} {c : x.Journey P held} (hc : Run.Orderly K n c) :
    RunWith.Orderly K n (RunWith.Journey.keep c : (Run.keep x : RunWith σ α).Journey P held) :=
  .ofEq (.within hc)

theorem current : RunWith.Orderly K n (RunWith.Journey.current :
    (getThe σ : RunWith σ σ).Journey P held) :=
  .quiet (fun _ => rfl) fun h => by cases h; exact .ok _

theorem inScope {f : Frame} {x : Frame → Run α}
    {c : ∀ scopes, (x { f with scopes }).Journey P (refs scopes ++ held)}
    (hc : ∀ scopes, Run.Orderly K n (c scopes)) :
    RunWith.Orderly K n (RunWith.Journey.inScope (f := f) c) :=
  .bind .current fun scopes => .keep (hc scopes)

theorem withSlots {f : Frame} {x : Frame → Run α}
    {c : ∀ slots, (x { f with slots }).Journey P (refs slots ++ held)}
    (hc : ∀ slots, Run.Orderly K n (c slots)) :
    RunWith.Orderly K n (RunWith.Journey.withSlots (f := f) c) :=
  .bind .current fun slots => .keep (hc slots)

section

variable {x : RunWith Scopes α} {c : x.Journey P held} {f : Frame} [Held f held]

theorem under (hc : RunWith.Orderly K n c) : RunWith.Orderly K n (RunWith.Journey.under f c) :=
  Covenant.Orderly.under hc

theorem inBlock {vars : Table String Value} [Held vars held] (hc : RunWith.Orderly K n c) :
    RunWith.Orderly K n (RunWith.Journey.inBlock f vars c) :=
  .ofEq (.finishing (h := f.refs_among) (.within ⟨.starting nofun hc.begun, hc.founded⟩))

end

theorem catching {x : RunWith Scopes Flow} {c : x.Journey P held}
    {g : Ref → RunWith Scopes Flow} {d : ∀ e : Ref, (g e).Journey P (refs e ++ held)}
    (hc : RunWith.Orderly K n c) (hd : ∀ e, RunWith.Orderly K n (d e)) :
    RunWith.Orderly K n (RunWith.Journey.catching c d) := by
  refine .ofEq (.andThen hc fun r hr => ?_)
  rcases r with (e | _ | _) | flow
  · exact hd e
  all_goals exact .quiet (fun _ => rfl) fun h => by cases h; exact hr

theorem withCleanup {x y : RunWith Scopes Flow} {c : x.Journey P held} {d : y.Journey P held}
    (hc : RunWith.Orderly K n c) (hd : RunWith.Orderly K n d) :
    RunWith.Orderly K n (RunWith.Journey.withCleanup c d) :=
  .ofEq (Covenant.Orderly.withCleanup hc hd)

theorem iterate {x : RunWith Scopes Bool} {y : RunWith Scopes Flow} {c : x.Journey P held}
    {d : y.Journey P held} (hc : RunWith.Orderly K n c) (hd : RunWith.Orderly K n d) (rounds : Nat) :
    RunWith.Orderly K n (RunWith.Journey.iterate c d rounds) := by
  induction rounds with
  | zero => exact .keep (.calm fun _ => rfl)
  | succ rounds ih =>
      refine .bind hc fun holds => ?_
      cases holds with
      | false => exact .yields
      | true =>
          refine .bind (.weaken hd) fun flow => ?_
          cases flow with
          | normal => exact .weaken ih
          | ret v span => exact .yields

end RunWith.Orderly

end Covenant
