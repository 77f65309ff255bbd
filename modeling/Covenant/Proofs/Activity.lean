import Covenant.Proofs.Chronicles

/-!
# Which members are active

The machine counts the members that are active, and an invocation looks at the
count only. Here the members themselves are told. The activity of a computation
lists, for each moment at which a member becomes active in it, the members that
are active then, those in front of the computation left out. It comes with the
proof that the count is exact: it is as it was at the end, whichever end that is,
no chain goes over the limit, and the limit cuts a computation off only where a
chain has reached it.

As for chronicles, there is one activity for each way to put computations
together. A computation that is still has no calls in it: it leaves the count
alone, and never ends because of the limit. So nothing that has calls in it can
pass for one that has none.
-/

namespace Covenant

variable {S S' T T' U α β σ : Type}

/-- States that know how many members are active. -/
class Counted (S : Type) where
  depth : S → Nat

instance : Counted Machine := ⟨Machine.depth⟩

instance [Counted S] : Counted (σ × S) := ⟨fun s => Counted.depth s.2⟩

open Counted (depth)

/-- Whether it is because of the limit on calls that a computation stopped. -/
def Unwind.CutOff : Unwind → Prop
  | .fatal (.recursionLimit _ _) => True
  | .fatal _ | .throw _ | .violation _ => False

/-- What ended with a value did not stop. -/
theorem ok_not_cutOff {a : α} (u : Unwind) (h : Except.ok a = .error u) : ¬u.CutOff := by
  cases h

/-- Whether a computation leaves the count of active members alone and is not cut off. -/
def Process.Still [Counted S] [Counted T] (x : Process S T α) : Prop :=
  ∀ {s r t}, x s = some (r, t) → depth t = depth s ∧ ∀ u, r = .error u → ¬u.CutOff

/-- Which members become active in the course of a computation. -/
structure Activity (limit : Nat) [Counted S] [Counted T] (x : Process S T α) where
  /-- For each member that becomes active, the members that are active then, the outermost first. -/
  chains : S → List (List DeclId)
  restored : ∀ {s r t}, x s = some (r, t) → depth t = depth s
  bounded : ∀ {s chain}, chain ∈ chains s → depth s + chain.length ≤ limit
  reached : ∀ {s u t}, x s = some (.error u, t) → u.CutOff →
    ∃ chain ∈ [] :: chains s, limit ≤ depth s + chain.length

namespace Activity

variable {limit : Nat} [Counted S] [Counted T] [Counted U] {x y : Process S T α}

def still (h : x.Still) : Activity limit x where
  chains _ := []
  restored hx := (h hx).1
  bounded hchain := absurd hchain List.not_mem_nil
  reached hx hcut := absurd hcut ((h hx).2 _ rfl)

def ofEq (h : ∀ s, y s = x s) (c : Activity limit x) : Activity limit y where
  chains := c.chains
  restored hy := c.restored ((h _).symm.trans hy)
  bounded := c.bounded
  reached hy := c.reached ((h _).symm.trans hy)

/-- By what a look-up finds. -/
def byCases {γ : Type} (o : Option γ) (c : ∀ a, o = some a → Activity limit x)
    (d : o = none → Activity limit x) : Activity limit x :=
  if h : o.isSome then c (o.get h) (Option.some_get h).symm
  else d (Option.not_isSome_iff_eq_none.mp h)

/-- Between states of other kinds. -/
def within [Counted S'] [Counted T'] (c : Activity limit x) (f : S' → S) (g : S' → T → T')
    (hf : ∀ s, depth (f s) = depth s) (hg : ∀ s t, depth (g s t) = depth t) :
    Activity limit fun s => (x (f s)).map fun o => (o.1, g s o.2) where
  chains s := c.chains (f s)
  restored {s r t} h := by
    obtain ⟨⟨r', t'⟩, hx, heq⟩ := Option.map_eq_some_iff.mp h
    obtain ⟨_, rfl⟩ := Prod.mk.inj heq
    rw [hg, c.restored hx, hf]
  bounded {s chain} hchain := hf s ▸ c.bounded hchain
  reached {s u t} h hcut := by
    obtain ⟨⟨r', t'⟩, hx, heq⟩ := Option.map_eq_some_iff.mp h
    obtain ⟨rfl, _⟩ := Prod.mk.inj heq
    exact hf s ▸ c.reached hx hcut

/-- A computation that depends on a part of the state. -/
def family {x : σ → Process S T α} (c : ∀ k, Activity limit (x k)) :
    Activity limit fun s : σ × S => x s.1 s.2 where
  chains s := (c s.1).chains s.2
  restored h := (c _).restored h
  bounded h := (c _).bounded h
  reached h := (c _).reached h

/-- The activity of a second computation counts from where the first one ended. -/
theorem reached_append {s : S} {t : T} (ht : depth t = depth s) {here later : List (List DeclId)}
    (h : ∃ chain ∈ [] :: later, limit ≤ depth t + chain.length) :
    ∃ chain ∈ [] :: (here ++ later), limit ≤ depth s + chain.length := by
  obtain ⟨chain, hmem, hle⟩ := h
  refine ⟨chain, ?_, ht ▸ hle⟩
  rcases List.mem_cons.mp hmem with rfl | hmem
  · exact .head _
  · exact .tail _ (List.mem_append_right here hmem)

theorem reached_left {s : S} {here later : List (List DeclId)}
    (h : ∃ chain ∈ [] :: here, limit ≤ depth s + chain.length) :
    ∃ chain ∈ [] :: (here ++ later), limit ≤ depth s + chain.length := by
  obtain ⟨chain, hmem, hle⟩ := h
  refine ⟨chain, ?_, hle⟩
  rcases List.mem_cons.mp hmem with rfl | hmem
  · exact .head _
  · exact .tail _ (List.mem_append_left later hmem)

section

variable {g : Except Unwind α → Process T U β}

/-- A computation that is watched, and what is done next. -/
def andThen (c : Activity limit x) (hok : ∀ a, Activity limit (g (.ok a)))
    (hthrow : ∀ e, Activity limit (g (.error (.throw e))))
    (hstop : ∀ u t, u.uncatchable? = some u →
      ∃ t', g (.error u) t = some (.error u, t') ∧ depth t' = depth t) :
    Activity limit fun s => (x s).bind fun o => g o.1 o.2 where
  chains s := c.chains s ++ match x s with
    | some (.ok a, t) => (hok a).chains t
    | some (.error (.throw e), t) => (hthrow e).chains t
    | _ => []
  restored {s r t} h := by
    obtain ⟨⟨r₁, t₁⟩, hx, hg⟩ := Option.bind_eq_some_iff.mp h
    rw [← c.restored hx]
    have stopped {u : Unwind} (hu : u.uncatchable? = some u) (hr : r₁ = .error u) :
        depth t = depth t₁ := by
      subst hr
      obtain ⟨t', hstop, ht'⟩ := hstop u t₁ hu
      cases hstop.symm.trans hg
      exact ht'
    rcases r₁ with (e | v | e) | a
    · exact (hthrow e).restored hg
    · exact stopped rfl rfl
    · exact stopped rfl rfl
    · exact (hok a).restored hg
  bounded {s chain} hchain := by
    rcases List.mem_append.mp hchain with hchain | hchain
    · exact c.bounded hchain
    · split at hchain
      · next a t hx => exact c.restored hx ▸ (hok a).bounded hchain
      · next e t hx => exact c.restored hx ▸ (hthrow e).bounded hchain
      · exact absurd hchain List.not_mem_nil
  reached {s u t} h hcut := by
    obtain ⟨⟨r₁, t₁⟩, hx, hg⟩ := Option.bind_eq_some_iff.mp h
    have stopped {w : Unwind} (hw : w.uncatchable? = some w) (hr : r₁ = .error w) : w = u := by
      subst hr
      obtain ⟨t', hstop, _⟩ := hstop w t₁ hw
      cases hstop.symm.trans hg
      rfl
    rw [hx]
    rcases r₁ with (e | v | e) | a
    · exact reached_append (c.restored hx) ((hthrow e).reached hg hcut)
    · cases stopped rfl rfl
      exact hcut.elim
    · cases stopped rfl rfl
      exact reached_left (c.reached hx hcut)
    · exact reached_append (c.restored hx) ((hok a).reached hg hcut)

end

def bind {f : α → Process T T β} (c : Activity limit x) (d : ∀ a, Activity limit (f a)) :
    Activity limit fun s => (x s).bind fun o => Process.orStop f o.1 o.2 :=
  c.andThen (g := Process.orStop f) d
    (fun _ => .still fun h => by cases h; exact ⟨rfl, fun _ h => by cases h; exact id⟩)
    fun _ t _ => ⟨t, rfl, rfl⟩

/-- A statement is cut off if its body is, or the `finally` block behind the body. -/
theorem cutOff_afterCleanup {r c : Except Unwind Flow} {u : Unwind}
    (h : Run.afterCleanup r c = .error u) (hu : u.CutOff) : r = .error u ∨ c = .error u := by
  rcases r with (_ | _ | _) | _ <;> rcases c with (_ | _ | _) | _ | _ <;> cases h <;>
    first | exact .inl rfl | exact .inr rfl

def withCleanup {y : Process T U Flow} {x : Process S T Flow} (c : Activity limit x)
    (d : Activity limit y) :
    Activity limit fun s =>
      (x s).bind fun o => (y o.2).map fun p => (Run.afterCleanup o.1 p.1, p.2) where
  chains s := c.chains s ++ match x s with
    | some (_, t) => d.chains t
    | none => []
  restored {s r t} h := by
    obtain ⟨⟨r₁, t₁⟩, hx, h⟩ := Option.bind_eq_some_iff.mp h
    obtain ⟨⟨r₂, t₂⟩, hy, heq⟩ := Option.map_eq_some_iff.mp h
    obtain ⟨_, rfl⟩ := Prod.mk.inj heq
    exact (d.restored hy).trans (c.restored hx)
  bounded {s chain} hchain := by
    rcases List.mem_append.mp hchain with hchain | hchain
    · exact c.bounded hchain
    · split at hchain
      · next r t hx => exact c.restored hx ▸ d.bounded hchain
      · exact absurd hchain List.not_mem_nil
  reached {s u t} h hcut := by
    obtain ⟨⟨r₁, t₁⟩, hx, h⟩ := Option.bind_eq_some_iff.mp h
    obtain ⟨⟨r₂, t₂⟩, hy, heq⟩ := Option.map_eq_some_iff.mp h
    obtain ⟨hend, _⟩ := Prod.mk.inj heq
    rw [hx]
    rcases cutOff_afterCleanup hend hcut with rfl | rfl
    · exact reached_left (c.reached hx hcut)
    · exact reached_append (c.restored hx) (d.reached hy hcut)

end Activity

/-! ## Still computations -/

/-- A computation without calls. -/
class Run.Still (x : Run α) : Prop where
  ends : Process.Still x.ends

class RunWith.Still (x : RunWith σ α) : Prop where
  process : Process.Still x.process

namespace Run.Still

variable {x : Run α}

instance pure (a : α) : Still (Pure.pure a) where
  ends h := by cases h; exact ⟨rfl, ok_not_cutOff⟩

theorem stop {u : Unwind} (hu : ¬u.CutOff) : Still (stop u : Run α) where
  ends h := by cases h; exact ⟨rfl, fun _ h => by cases h; exact hu⟩

instance throw (e : Ref) : Still (Run.stop (.throw e) : Run α) := stop id

instance violation (v : Violation) : Still (Run.stop (.violation v) : Run α) := stop id

instance defect (d : Defect) : Still (defect d : Run α) := stop id

instance noImplementation (m c : String) : Still (fatal (.noImplementation m c) : Run α) := stop id

instance exhausted : Still (exhausted : Run α) where
  ends h := by cases h

instance get : Still (get : Run Machine) where
  ends h := by cases h; exact ⟨rfl, ok_not_cutOff⟩

instance bind {f : α → Run β} [i : Still x] [k : ∀ a, Still (f a)] : Still (x >>= f) where
  ends {μ r μ'} h := by
    rw [ends_bind_orStop] at h
    obtain ⟨⟨r₁, μ₁⟩, hx₁, hf₁⟩ := Option.bind_eq_some_iff.mp h
    obtain ⟨hdepth, hcut⟩ := i.ends hx₁
    cases r₁ with
    | error u =>
        cases hf₁
        exact ⟨hdepth, fun _ h => by cases h; exact hcut _ rfl⟩
    | ok a =>
        obtain ⟨hdepth', hcut'⟩ := (k a).ends hf₁
        exact ⟨hdepth'.trans hdepth, hcut'⟩

instance map {f : α → β} [Still x] : Still (f <$> x) :=
  inferInstanceAs (Still (x >>= fun a => Pure.pure (f a)))

instance ite {p : Prop} [Decidable p] {y : Run α} [hx : Still x] [hy : Still y] :
    Still (if p then x else y) := by
  split
  · exact hx
  · exact hy

theorem modify {f : Machine → Machine} (hf : ∀ μ, (f μ).depth = μ.depth) :
    Still (modify f : Run PUnit) where
  ends h := by cases h; exact ⟨hf _, ok_not_cutOff⟩

instance alloc (o : Obj) : Still (alloc o) where
  ends h := by cases h; exact ⟨rfl, ok_not_cutOff⟩

instance throwNew (className : String) : Still (throwNew className : Run α) :=
  inferInstanceAs (Still (Run.alloc _ >>= fun r => Run.stop (.throw r)))

instance instantiate (env : Env) (className : String) : Still (instantiate env className) :=
  inferInstanceAs (Still (Run.alloc _))

instance classOf (r : Ref) : Still (classOf r) :=
  inferInstanceAs (Still (MonadState.get >>= fun _ => Pure.pure _))

instance getField (r : Ref) (name : String) : Still (getField r name) := by
  refine bind (k := fun μ => ?_)
  rcases μ.heap[r]? with _ | ⟨c, fields⟩ | items
  · exact defect _
  · show Still (match fields.get? name with
      | some v => Pure.pure v
      | none => Run.defect (.noField name))
    cases fields.get? name with
    | none => exact defect _
    | some v => exact pure v
  · exact defect _

instance updateObj (r : Ref) (f : Obj → Obj) : Still (updateObj r f) := modify fun _ => rfl

instance setField (r : Ref) (name : String) (v : Value) : Still (setField r name v) := by
  refine bind (k := fun μ => ?_)
  rcases μ.heap[r]? with _ | ⟨c, fields⟩ | items
  · exact defect _
  · exact updateObj r _
  · exact defect _

instance getStatic (env : Env) (c name : String) : Still (getStatic env c name) :=
  inferInstanceAs (Still (MonadState.get >>= fun _ => Pure.pure _))

instance setStatic (env : Env) (c name : String) (v : Value) : Still (setStatic env c name v) :=
  modify fun _ => rfl

instance arrayLength (r : Ref) : Still (arrayLength r) := by
  refine bind (k := fun μ => ?_)
  rcases μ.heap[r]? with _ | ⟨c, fields⟩ | items
  · exact defect _
  · exact defect _
  · exact pure _

instance getItem (r : Ref) (i : Int64) : Still (getItem r i) := by
  refine bind (k := fun μ => ?_)
  rcases μ.heap[r]? with _ | ⟨c, fields⟩ | items
  · exact defect _
  · exact defect _
  · show Still (match position? items i with
      | some n => Pure.pure (items.getD n .null)
      | none => Run.throwNew "ArrayIndexOutOfBoundsException")
    cases position? items i with
    | none => exact throwNew _
    | some n => exact pure _

instance setItem (r : Ref) (i : Int64) (v : Value) : Still (setItem r i v) := by
  refine bind (k := fun μ => ?_)
  rcases μ.heap[r]? with _ | ⟨c, fields⟩ | items
  · exact defect _
  · exact defect _
  · show Still (match position? items i with
      | some n => Run.updateObj r (.setItem n v)
      | none => Run.throwNew "ArrayIndexOutOfBoundsException")
    cases position? items i with
    | none => exact throwNew _
    | some n => exact updateObj r _

instance newArray (elem : Ty) (length : Int64) : Still (newArray elem length) := by
  rw [Run.newArray]
  exact ite

instance asBool (v : Value) : Still (asBool v) := by
  cases v <;> first | exact pure _ | exact defect _

instance asInt (v : Value) : Still (asInt v) := by
  cases v <;> first | exact pure _ | exact defect _

instance asObject (v : Value) : Still (asObject v) := by
  cases v <;> first | exact pure _ | exact throwNew _ | exact defect _

instance applyUnary (op : UnaryOp) (v : Value) : Still (applyUnary op v) := by
  cases op <;> cases v <;> first | exact pure _ | exact defect _

instance applyInts (op : BinaryOp) (a b : Int64) : Still (applyInts op a b) := by
  unfold Run.applyInts
  split <;> infer_instance

instance applyBinary (op : BinaryOp) (l r : Value) : Still (applyBinary op l r) := by
  unfold Run.applyBinary
  split <;> infer_instance

end Run.Still

namespace RunWith.Still

variable {x : RunWith σ α}

instance pure (a : α) : Still (Pure.pure a : RunWith σ α) where
  process h := by cases h; exact ⟨rfl, ok_not_cutOff⟩

instance keep {x : Run α} [hx : x.Still] : Still (Run.keep x : RunWith σ α) where
  process {s r t} h := by
    rw [process_keep] at h
    obtain ⟨⟨r', μ⟩, hx', heq⟩ := Option.map_eq_some_iff.mp h
    cases heq
    exact hx.ends hx'

instance getThe : Still (getThe σ : RunWith σ σ) where
  process h := by cases h; exact ⟨rfl, ok_not_cutOff⟩

instance modifyThe (f : σ → σ) : Still (modifyThe σ f : RunWith σ PUnit) where
  process h := by cases h; exact ⟨rfl, ok_not_cutOff⟩

instance set (s : σ) : Still (MonadStateOf.set s : RunWith σ PUnit) where
  process h := by cases h; exact ⟨rfl, ok_not_cutOff⟩

instance bind {f : α → RunWith σ β} [i : Still x] [k : ∀ a, Still (f a)] :
    Still (x >>= f) where
  process {s r t} h := by
    rw [process_bind] at h
    obtain ⟨⟨r₁, t₁⟩, hx₁, hf₁⟩ := Option.bind_eq_some_iff.mp h
    obtain ⟨hdepth, hcut⟩ := i.process hx₁
    cases r₁ with
    | error u =>
        cases hf₁
        exact ⟨hdepth, fun _ h => by cases h; exact hcut _ rfl⟩
    | ok a =>
        obtain ⟨hdepth', hcut'⟩ := (k a).process hf₁
        exact ⟨hdepth'.trans hdepth, hcut'⟩

instance assign (name : String) (v : Value) : Still (Run.assign name v) := by
  refine bind (k := fun s => ?_)
  cases s.assign? name v with
  | none => exact keep
  | some s' => exact set s'

end RunWith.Still

/-! ## Computations of programs -/

/-- Which members become active in a computation. -/
abbrev Run.Activity (limit : Nat) (x : Run α) := Covenant.Activity limit x.ends

abbrev RunWith.Activity (limit : Nat) (x : RunWith σ α) := Covenant.Activity limit x.process

variable {limit : Nat}

namespace Run.Activity

variable {x : Run α}

def still [h : x.Still] : x.Activity limit := Covenant.Activity.still h.ends

def yields (a : α) : (pure a : Run α).Activity limit := still

def stops {u : Unwind} (hu : ¬u.CutOff) : (stop u : Run α).Activity limit :=
  still (h := .stop hu)

def bind {f : α → Run β} (c : x.Activity limit) (d : ∀ a, (f a).Activity limit) :
    (x >>= f).Activity limit :=
  .ofEq (ends_bind_orStop f) (Covenant.Activity.bind c d)

/-- A computation that is watched. -/
def watch {g : Except Unwind α → Run β} (c : x.Activity limit)
    (hok : ∀ a, (g (.ok a)).Activity limit)
    (hthrow : ∀ e, (g (.error (.throw e))).Activity limit)
    (hstop : ∀ u, u.uncatchable? = some u → stop u = g (.error u)) :
    (liftM x.run >>= g).Activity limit :=
  .ofEq (ends_watch g)
    (.andThen (g := fun r => (g r).ends) c hok hthrow fun u t hu =>
      ⟨t, by rw [← hstop u hu]; rfl, rfl⟩)

/-- A computation with a local state of its own, which is watched. -/
def watchFrom {x : RunWith σ α} {s : σ} {g : Except Unwind α × σ → Run β}
    (c : x.Activity limit)
    (hok : ∀ a s', (g (.ok a, s')).Activity limit)
    (hthrow : ∀ e s', (g (.error (.throw e), s')).Activity limit)
    (hstop : ∀ u s', u.uncatchable? = some u → stop u = g (.error u, s')) :
    (withState x s >>= g).Activity limit :=
  .ofEq
    (x := fun μ => ((x.process (s, μ)).map fun o => (o.1, o.2)).bind fun o =>
      (g (o.1, o.2.1)).ends o.2.2)
    (ends_watchWithin g)
    (.andThen (g := fun r t => (g (r, t.1)).ends t.2)
      (c.within (fun μ => (s, μ)) (fun _ t => t) (fun _ => rfl) fun _ _ => rfl)
      (fun a => .family (hok a)) (fun e => .family (hthrow e))
      fun u t hu => ⟨t.2, by rw [← hstop u t.1 hu]; rfl, rfl⟩)

/-- An invocation of a member, which becomes active unless the limit is reached. -/
def invocation (m : MethodInfo) (c : x.Activity limit) :
    (do
      if limit ≤ (← get).depth then fatal (.recursionLimit m.qualifiedName limit)
      else deeper x : Run α).Activity limit where
  chains μ :=
    if limit ≤ μ.depth then []
    else [m.id] :: (c.chains μ.enter).map (m.id :: ·)
  restored {μ r μ'} h := by
    replace h : (if limit ≤ μ.depth then fatal (.recursionLimit m.qualifiedName limit)
      else deeper x : Run α).ends μ = some (r, μ') := h
    split at h
    · cases h
      rfl
    · rw [ends_deeper] at h
      obtain ⟨⟨r₁, μ₁⟩, hx, heq⟩ := Option.map_eq_some_iff.mp h
      cases heq
      have hdepth : μ₁.depth = μ.depth + 1 := c.restored hx
      show μ₁.depth - 1 = μ.depth
      omega
  bounded {μ chain} hchain := by
    split at hchain
    · exact absurd hchain List.not_mem_nil
    · next hlt =>
        show μ.depth + chain.length ≤ limit
        rcases List.mem_cons.mp hchain with rfl | hchain
        · rw [List.length_singleton]
          omega
        · obtain ⟨inner, hinner, rfl⟩ := List.mem_map.mp hchain
          have hle : μ.depth + 1 + inner.length ≤ limit := c.bounded hinner
          rw [List.length_cons]
          omega
  reached {μ u μ'} h hcut := by
    replace h : (if limit ≤ μ.depth then fatal (.recursionLimit m.qualifiedName limit)
      else deeper x : Run α).ends μ = some (.error u, μ') := h
    split at h
    · next hle => exact ⟨[], .head _, hle⟩
    · next hlt =>
        rw [ends_deeper] at h
        obtain ⟨⟨r₁, μ₁⟩, hx, heq⟩ := Option.map_eq_some_iff.mp h
        cases heq
        obtain ⟨inner, hinner, hle⟩ := c.reached hx hcut
        replace hle : limit ≤ μ.depth + 1 + inner.length := hle
        refine ⟨m.id :: inner, ?_, by
          show limit ≤ μ.depth + (m.id :: inner).length
          rw [List.length_cons]
          omega⟩
        rw [if_neg hlt]
        rcases List.mem_cons.mp hinner with rfl | hinner
        · exact .tail _ (.head _)
        · exact .tail _ (.tail _ (List.mem_map_of_mem hinner))

end Run.Activity

namespace RunWith.Activity

variable {x : RunWith σ α}

def still [h : x.Still] : x.Activity limit := Covenant.Activity.still h.process

def yields (a : α) : (pure a : RunWith σ α).Activity limit := still

def bind {f : α → RunWith σ β} (c : x.Activity limit) (d : ∀ a, (f a).Activity limit) :
    (x >>= f).Activity limit :=
  .ofEq (process_bind f) (Covenant.Activity.bind c d)

def ite {x y : RunWith σ α} (c : x.Activity limit) (d : y.Activity limit) :
    ∀ {b : Bool}, (if b then x else y : RunWith σ α).Activity limit
  | true => c
  | false => d

def keep {x : Run α} (c : x.Activity limit) : (Run.keep x : RunWith σ α).Activity limit :=
  .ofEq (process_keep x)
    (c.within Prod.snd (fun s μ => (s.1, μ)) (fun _ => rfl) fun _ _ => rfl)

def inBlock {x : RunWith Scopes α} (vars : Table String Value) (c : x.Activity limit) :
    (Run.inBlock vars x).Activity limit :=
  .ofEq (process_inBlock vars)
    (c.within (fun s : Scopes × Machine => (vars :: s.1, s.2)) (fun _ t => (t.1.tail, t.2))
      (fun _ => rfl) fun _ _ => rfl)

def inScope {f : Frame} {x : Frame → Run α}
    (c : ∀ scopes, (x { f with scopes }).Activity limit) : (Run.inScope f x).Activity limit :=
  .bind .still fun scopes => .keep (c scopes)

def withSlots {f : Frame} {x : Frame → Run α}
    (c : ∀ slots, (x { f with slots }).Activity limit) : (Run.withSlots f x).Activity limit :=
  .bind .still fun slots => .keep (c slots)

def catching {x : RunWith Scopes Flow} {g : Ref → RunWith Scopes Flow} (c : x.Activity limit)
    (d : ∀ e, (g e).Activity limit) : (Run.catching x g).Activity limit :=
  .ofEq (process_catching g)
    (c.andThen (g := Process.caught fun e => (g e).process)
      (fun _ => .still fun h => by cases h; exact ⟨rfl, ok_not_cutOff⟩) d
      fun _ t hu => ⟨t, Process.caught_uncatchable hu t, rfl⟩)

def withCleanup {x y : RunWith Scopes Flow} (c : x.Activity limit) (d : y.Activity limit) :
    (Run.withCleanup x y).Activity limit :=
  .ofEq process_withCleanup (Covenant.Activity.withCleanup c d)

def iterate {x : RunWith Scopes Bool} {y : RunWith Scopes Flow} (c : x.Activity limit)
    (d : y.Activity limit) : ∀ n, (Run.iterate x y n).Activity limit
  | 0 => .keep .still
  | n + 1 => .bind c fun
    | true => .bind d fun
      | .normal => iterate c d n
      | .ret _ _ => .yields _
    | false => .yields _

end RunWith.Activity

end Covenant
