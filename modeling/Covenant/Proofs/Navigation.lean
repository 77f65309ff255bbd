import Covenant.Proofs.CallChecks
import Covenant.Proofs.FittedClauses
import Covenant.Proofs.OldValues
import Covenant.Proofs.ShiftedSlots

/-!
# Two ways to an object

A target is an expression, and a path is made of it, so what it denotes can be found
in two ways: by evaluation of the expression, or along the path. Evaluation knows the
method that each call means and only chooses the implementation. The path has no more
than a name, which is looked up in the class that the object turns out to have. Both
come to the same object, and differ in two ways only: where a link is `null` the path
just ends, and where the class implements no such method the name may find another
declaration than the call means. That one has no implementation either, so nothing is
reached; but it is another member that is missing.
-/

namespace Covenant

open Effect (Path Step)

namespace Typed.Expr

mutual

/-- What the steps of a path are taken from, the last step first. -/
def objects : Expr → List Expr
  | .field _ _ o _ => o :: o.objects
  | .call _ _ _ receiver _ _ _ => objectsOpt receiver
  | _ => []

def objectsOpt : Option Expr → List Expr
  | some o => o :: o.objects
  | none => []

end

end Typed.Expr

namespace Run

variable {env : Env} {calls : Calls} {f : Frame} {μ μ₀ μ' : Machine}

/-! ## Along a path -/

theorem throwNew_bind {α β : Type} (className : String) (g : α → Run β) :
    (throwNew className >>= g : Run β) = throwNew className := rfl

theorem throwNew_ne_ok {α : Type} {className : String} {a : α} :
    (throwNew className : Run α).ends μ ≠ some (.ok a, μ') := by
  simp [throwNew, ends_bind, alloc]

theorem walk_concat (steps : List Step) (s : Step) (vs : List Value) :
    walk env calls (steps ++ [s]) vs =
      walk env calls steps vs >>= stepFromAll env calls s := by
  induction steps generalizing vs with
  | nil => simp [walk]
  | cons x steps ih => simp [walk, ih]

/-- Only objects lead on. -/
theorem stepFromAll_refs (s : Step) (vs : List Value) :
    stepFromAll env calls s vs =
      stepFromAll env calls s ((vs.filterMap Value.ref?).map .ref) := by
  induction vs with
  | nil => rfl
  | cons v vs ih =>
      cases v with
      | ref r =>
          rw [show (Value.ref r :: vs).filterMap Value.ref? = r :: vs.filterMap Value.ref? from rfl,
            List.map_cons, stepFromAll, stepFromAll, ih]
      | int | bool | null | void => exact ih

/-- A path from a class goes on to a static field. -/
def Anchored (q : Path) : Prop :=
  ∀ c, q.root = .static c → ∃ name rest, q.trail = .field name :: rest

theorem Anchored.step {q : Path} (hq : Anchored q) (s : Step) (t : Ty) :
    Anchored (q.step s t) := by
  intro c hroot
  obtain ⟨name, rest, htrail⟩ := hq c hroot
  refine ⟨name, rest ++ [s], ?_⟩
  rw [← List.cons_append, ← htrail]
  simp [Path.trail, Path.step]

theorem startOf_step {q : Path} (hq : Anchored q) (s : Step) (t : Ty) (this : Option Ref)
    (args : List Value) :
    startOf env (q.step s t) this args =
      (fun x => (x.1, x.2 ++ [s])) <$> startOf env q this args := by
  have htrail : (q.step s t).trail = q.trail ++ [s] := by simp [Path.trail, Path.step]
  have hroot : (q.step s t).root = q.root := rfl
  rw [startOf, startOf, htrail, hroot]
  cases h : q.root with
  | this => simp
  | param i => simp
  | static c =>
      obtain ⟨name, rest, hfirst⟩ := hq c h
      rw [hfirst]
      simp

/-- A path with one more step leads on from the objects that it led to. -/
theorem reach_step {q : Path} (hq : Anchored q) (s : Step) (t : Ty) (this : Option Ref)
    (args : List Value) :
    reach env calls (q.step s t) this args = do
      let rs ← reach env calls q this args
      return (← stepFromAll env calls s (rs.map .ref)).filterMap Value.ref? := by
  simp only [reach, startOf_step hq, bind_map_left, walk_concat, bind_assoc, pure_bind,
    ← stepFromAll_refs]

section

variable {q : Path} {this : Option Ref} {args : List Value} {s : Step} {t : Ty}

/-- From nothing a path leads nowhere. -/
theorem ends_reach_nil (hq : Anchored q)
    (h : (reach env calls q this args).ends μ = some (.ok [], μ₀)) :
    (reach env calls (q.step s t) this args).ends μ = some (.ok [], μ₀) := by
  rw [reach_step hq, ends_bind_ok h]
  rfl

/-- From one object it leads to the object that the step yields there. -/
theorem ends_reach_one (hq : Anchored q) {r : Ref} {x : Run Value}
    (hx : stepFrom env calls r s = (fun v => [v]) <$> x)
    (h : (reach env calls q this args).ends μ = some (.ok [r], μ₀)) :
    (reach env calls (q.step s t) this args).ends μ =
      ((fun v => v.ref?.toList) <$> x).ends μ₀ := by
  have htail : stepFromAll env calls s [.ref r] = (fun v => [v]) <$> x := by
    simp [stepFromAll, hx]
  rw [reach_step hq, ends_bind_ok h, List.map_singleton, htail, bind_map_left, ends_bind, ends_map]
  rcases x.ends μ₀ with _ | ⟨_ | v, _⟩
  · rfl
  · rfl
  · cases v <;> rfl

end

/-! ## Methods without a body -/

theorem runBody_bodiless {m : MethodInfo} (hc : m.isConstructor = false) (hb : m.hasBody = false)
    (s : Scopes) (μ : Machine) :
    ∃ c, (runBody env calls f m).ends s μ =
      some ((.error (.fatal (.noImplementation (env.describe m.id) c)), s), μ) := by
  rw [runBody, if_neg (by simp [hc]), runMethod, hb]
  cases f.this with
  | none => exact ⟨_, rfl⟩
  | some r => exact ⟨_, rfl⟩

/-- What has no body yields nothing. -/
theorem invoke_bodiless {p : WovenProgram} {m : MethodInfo} (hm : p.env.method? m.id = some m)
    (hc : m.isConstructor = false) (hb : m.hasBody = false) {limit bound : Nat}
    {this : Option Ref} {args : List Value} {v : Value} :
    ((Run.calls p limit bound).invoke m.id this args).ends μ ≠ some (.ok v, μ') := by
  cases bound with
  | zero => exact fun h => nomatch h
  | succ bound =>
      intro h
      simp only [Run.calls, invokeWith, hm] at h
      obtain ⟨_, _, hr⟩ | ⟨_, μ₁, _, h⟩ := ends_bind_eq_some.mp h
      · cases hr
      · split at h
        · cases h
        · rw [ends_deeper] at h
          obtain ⟨⟨r, μ₂⟩, hactive, hr⟩ := Option.map_eq_some_iff.mp h
          obtain ⟨rfl, _⟩ := Prod.mk.inj hr
          obtain ⟨slots, flow, _, _, _, _, hbody, _⟩ := ends_activate_ok hactive
          obtain ⟨c, hfatal⟩ := runBody_bodiless hc hb _ _
          cases hfatal.symm.trans hbody

/-! ## One step -/

/-- Whether a value is `null` or an object of a subtype. -/
def isLink (env : Env) (h : Heap) (t : Ty) : Value → Bool
  | .null => true
  | .ref r =>
    match t, h.className? r with
    | .ofClass c, some d => env.isSubtype d c
    | _, _ => false
  | _ => false

/-- Whether what an expression yields is `null` or an object of its type, if it yields anything. -/
def meetsLink (env : Env) (calls : Calls) (f : Frame) (μ : Machine) (x : Typed.Expr) : Bool :=
  match (eval env calls f x).ends μ with
  | some (.ok v, μ') => isLink env μ'.heap x.type v
  | _ => true

theorem link_of_meets {x : Typed.Expr} (h : meetsLink env calls f μ x = true) {v : Value}
    (hv : (eval env calls f x).ends μ = some (.ok v, μ')) :
    v = .null ∨ ∃ r c d, v = .ref r ∧ x.type = .ofClass c ∧ μ'.heap.className? r = some d ∧
      env.isSubtype d c = true := by
  rw [meetsLink, hv] at h
  cases v with
  | null => exact .inl rfl
  | ref r =>
      simp only [isLink] at h
      split at h
      · next c d ht hd => exact .inr ⟨r, c, d, rfl, ht, hd, h⟩
      · cases h
  | int | bool | void => cases h

/-- Whether the method that a call means is known by the class of the object that it is made on:
it is implemented there, or it is what the name stands for. -/
def Resolved (env : Env) (calls : Calls) (f : Frame) (μ : Machine) : Typed.Expr → Prop
  | .call _ _ _ (some o) id name _ => ∀ r μ₀ d m,
      (eval env calls f o).ends μ = some (.ok (.ref r), μ₀) → μ₀.heap.className? r = some d →
      env.method? id = some m → env.implementation? d m ≠ none ∨ env.accessor? d name = some m
  | _ => True

/-- An accessor is called by its name on an object whose class does not implement the method that the
call means. -/
inductive Missing (env : Env) (calls : Calls) (f : Frame) (μ : Machine) :
    Typed.Expr → Ref → String → String → Machine → Prop
  | call {span t site o id name args r d m μ₀}
      (object : (eval env calls f o).ends μ = some (.ok (.ref r), μ₀))
      (ofClass : μ₀.heap.className? r = some d) (method : env.method? id = some m)
      (implementation : env.implementation? d m = none) :
      Missing env calls f μ (.call span t site (some o) id name args) r d name μ₀

/-- No step is taken from `null`. -/
def Unbroken (env : Env) (calls : Calls) (f : Frame) (μ : Machine) (e : Typed.Expr) : Prop :=
  ∀ o ∈ e.objects, ∀ μ₀, (eval env calls f o).ends μ ≠ some (.ok .null, μ₀)

/-- How the way along a path goes with the evaluation of an expression, both from one machine. -/
structure Follows (env : Env) (calls : Calls) (f : Frame) (μ : Machine) (e : Typed.Expr)
    (q : Path) : Prop where
  /-- Both find the same object. -/
  object : ∀ r μ', (eval env calls f e).ends μ = some (.ok (.ref r), μ') →
    (reach env calls q f.this f.args).ends μ = some (.ok [r], μ')
  /-- Where evaluation finds `null`, the path leads to nothing. -/
  null : ∀ μ', (eval env calls f e).ends μ = some (.ok .null, μ') →
    (reach env calls q f.this f.args).ends μ = some (.ok [], μ')
  /-- So it does where evaluation throws because of a link that is `null`. -/
  broken : ∀ o ∈ e.objects, ∀ μ', (eval env calls f o).ends μ = some (.ok .null, μ') →
    (eval env calls f e).ends μ = (throwNew "NullPointerException" : Run Value).ends μ' ∧
      (reach env calls q f.this f.args).ends μ = some (.ok [], μ')
  /-- Otherwise the path leads to something only if evaluation completes. -/
  completes : Unbroken env calls f μ e → ∀ rs μ',
    (reach env calls q f.this f.args).ends μ = some (.ok rs, μ') →
      ∃ v, (eval env calls f e).ends μ = some (.ok v, μ')
  /-- And if it is known which methods are meant, both end alike, whatever that end is. -/
  alike : Unbroken env calls f μ e → (∀ x ∈ e :: e.objects, Resolved env calls f μ x) →
    (reach env calls q f.this f.args).ends μ =
      ((fun v => v.ref?.toList) <$> eval env calls f e).ends μ
  /-- Where a method is missing, the path ends as the call of the one that the name stands for, which
  yields nothing either. -/
  missing : ∀ x ∈ e :: e.objects, ∀ r d name μ₀, Missing env calls f μ x r d name μ₀ →
    ∃ n, env.accessor? d name = some n ∧
      (∀ v μ', (calls.invoke n.id (some r) []).ends μ₀ ≠ some (.ok v, μ')) ∧
      (reach env calls q f.this f.args).ends μ =
        ((fun v => v.ref?.toList) <$> calls.invoke n.id (some r) []).ends μ₀

/-- Where both start. -/
theorem Follows.start {e : Typed.Expr} {q : Path} {v : Value} (hobjects : e.objects = [])
    (hmissing : ∀ r d name μ₀, ¬ Missing env calls f μ e r d name μ₀)
    (hx : (eval env calls f e).ends μ = some (.ok v, μ))
    (hy : (reach env calls q f.this f.args).ends μ = some (.ok v.ref?.toList, μ)) :
    Follows env calls f μ e q where
  object r μ' h := by
    cases hx.symm.trans h
    exact hy
  null μ' h := by
    cases hx.symm.trans h
    exact hy
  broken o ho := absurd ho (by simp [hobjects])
  completes _ rs μ' h := by
    cases hy.symm.trans h
    exact ⟨v, hx⟩
  alike _ _ := by
    rw [hy, ends_map, hx]
    rfl
  missing x hx r d name μ₀ h := by
    rw [hobjects, List.mem_singleton] at hx
    exact absurd (hx ▸ h) (hmissing r d name μ₀)

/-- A step that is taken on both ways from what an expression yields: evaluation goes on with `x`, and
the step of a path with `y`. -/
structure SameStep (env : Env) (calls : Calls) (f : Frame) (μ : Machine) (e o : Typed.Expr)
    (s : Step) (x y : Ref → Run Value) : Prop where
  objects : e.objects = o :: o.objects
  evaluated : eval env calls f e = eval env calls f o >>= asObject >>= x
  walked : ∀ r, stepFrom env calls r s = (fun v => [v]) <$> y r
  link : meetsLink env calls f μ o = true
  yields : ∀ r μ₀, (eval env calls f o).ends μ = some (.ok (.ref r), μ₀) → ∀ v μ',
    (x r).ends μ₀ = some (.ok v, μ') ↔ (y r).ends μ₀ = some (.ok v, μ')
  resolved : Resolved env calls f μ e → ∀ r μ₀,
    (eval env calls f o).ends μ = some (.ok (.ref r), μ₀) → (x r).ends μ₀ = (y r).ends μ₀
  missing : ∀ r d name μ₀, Missing env calls f μ e r d name μ₀ →
    (eval env calls f o).ends μ = some (.ok (.ref r), μ₀) ∧ ∃ n, env.accessor? d name = some n ∧
      (∀ v μ', (calls.invoke n.id (some r) []).ends μ₀ ≠ some (.ok v, μ')) ∧
      (y r).ends μ₀ = (calls.invoke n.id (some r) []).ends μ₀

namespace SameStep

variable {e o : Typed.Expr} {q : Path} {s : Step} {t : Ty} {x y : Ref → Run Value}
  (h : SameStep env calls f μ e o s x y)

include h

theorem unbroken (he : Unbroken env calls f μ e) :
    (∀ μ₀, (eval env calls f o).ends μ ≠ some (.ok .null, μ₀)) ∧ Unbroken env calls f μ o := by
  rw [Unbroken, h.objects] at he
  exact List.forall_mem_cons.mp he

theorem eval_ref {r : Ref} (hr : (eval env calls f o).ends μ = some (.ok (.ref r), μ₀)) :
    (eval env calls f e).ends μ = (x r).ends μ₀ := by
  rw [h.evaluated, bind_assoc, ends_bind_ok hr]
  rfl

theorem eval_null (hv : (eval env calls f o).ends μ = some (.ok .null, μ₀)) :
    (eval env calls f e).ends μ = (throwNew "NullPointerException" : Run Value).ends μ₀ := by
  rw [h.evaluated, bind_assoc, ends_bind_ok hv, asObject, throwNew_bind]

/-- Evaluation goes on from objects only. -/
theorem found {v : Value} (hv : (eval env calls f o).ends μ = some (.ok v, μ₀)) (hne : v ≠ .null) :
    ∃ r, v = .ref r := by
  obtain rfl | ⟨r, _, _, rfl, _⟩ := link_of_meets h.link hv
  · exact absurd rfl hne
  · exact ⟨r, rfl⟩

/-- If evaluation completes, it has gone on from an object. -/
theorem completed {v : Value} (he : (eval env calls f e).ends μ = some (.ok v, μ')) :
    ∃ r μ₀, (eval env calls f o).ends μ = some (.ok (.ref r), μ₀) := by
  have hend := he
  rw [h.evaluated, bind_assoc] at hend
  obtain ⟨_, _, hr⟩ | ⟨v₀, μ₀, hv, _⟩ := ends_bind_eq_some.mp hend
  · cases hr
  · have hne : v₀ ≠ .null := by
      rintro rfl
      exact throwNew_ne_ok ((h.eval_null hv).symm.trans he)
    obtain ⟨r, rfl⟩ := h.found hv hne
    exact ⟨r, μ₀, hv⟩

variable (hq : Anchored q) (ho : Follows env calls f μ o q)

include hq ho

theorem reach_ref {r : Ref} (hr : (eval env calls f o).ends μ = some (.ok (.ref r), μ₀)) :
    (reach env calls (q.step s t) f.this f.args).ends μ =
      ((fun v => v.ref?.toList) <$> y r).ends μ₀ :=
  ends_reach_one hq (h.walked r) (ho.object r μ₀ hr)

/-- What evaluation yields is reached. -/
theorem value {v : Value} (he : (eval env calls f e).ends μ = some (.ok v, μ')) :
    (reach env calls (q.step s t) f.this f.args).ends μ = some (.ok v.ref?.toList, μ') := by
  obtain ⟨r, μ₀, hr⟩ := h.completed he
  have hy := (h.yields r μ₀ hr v μ').mp ((h.eval_ref hr).symm.trans he)
  rw [h.reach_ref hq ho hr, ends_map, hy]
  rfl

theorem broken {o' : Typed.Expr} (ho' : o' ∈ e.objects)
    (hnull : (eval env calls f o').ends μ = some (.ok .null, μ')) :
    (eval env calls f e).ends μ = (throwNew "NullPointerException" : Run Value).ends μ' ∧
      (reach env calls (q.step s t) f.this f.args).ends μ = some (.ok [], μ') := by
  rw [h.objects] at ho'
  rcases List.mem_cons.mp ho' with rfl | ho'
  · exact ⟨h.eval_null hnull, ends_reach_nil hq (ho.null μ' hnull)⟩
  · obtain ⟨hx, hy⟩ := ho.broken o' ho' μ' hnull
    refine ⟨?_, ends_reach_nil hq hy⟩
    rw [h.evaluated, bind_assoc, ends_bind, hx]
    rfl

theorem completes (he : Unbroken env calls f μ e) {rs : List Ref}
    (hrs : (reach env calls (q.step s t) f.this f.args).ends μ = some (.ok rs, μ')) :
    ∃ v, (eval env calls f e).ends μ = some (.ok v, μ') := by
  obtain ⟨hnull, hrest⟩ := h.unbroken he
  have hend := hrs
  rw [reach_step hq] at hend
  obtain ⟨_, _, hr⟩ | ⟨rs₀, μ₀, hrs₀, _⟩ := ends_bind_eq_some.mp hend
  · cases hr
  · obtain ⟨v₀, hv⟩ := ho.completes hrest rs₀ μ₀ hrs₀
    obtain ⟨r, rfl⟩ := h.found hv fun h => hnull μ₀ (h ▸ hv)
    rw [h.reach_ref hq ho hv, ends_map] at hrs
    obtain ⟨⟨end₀, μ₁⟩, hy, heq⟩ := Option.map_eq_some_iff.mp hrs
    cases end₀ with
    | error u => cases heq
    | ok v =>
        cases heq
        exact ⟨v, (h.eval_ref hv).trans ((h.yields r μ₀ hv v _).mpr hy)⟩

theorem alike (he : Unbroken env calls f μ e)
    (hall : ∀ x ∈ e :: e.objects, Resolved env calls f μ x) :
    (reach env calls (q.step s t) f.this f.args).ends μ =
      ((fun v => v.ref?.toList) <$> eval env calls f e).ends μ := by
  obtain ⟨hnull, hrest⟩ := h.unbroken he
  rw [h.objects] at hall
  obtain ⟨hhere, hall⟩ := List.forall_mem_cons.mp hall
  have hbefore := ho.alike hrest hall
  rw [ends_map] at hbefore ⊢
  cases hv : (eval env calls f o).ends μ with
  | none =>
      rw [hv] at hbefore
      rw [reach_step hq, ends_bind_none hbefore, h.evaluated, bind_assoc, ends_bind_none hv]
      rfl
  | some end₀ =>
      obtain ⟨u | v, μ₀⟩ := end₀
      · rw [hv] at hbefore
        rw [reach_step hq, ends_bind_error hbefore, h.evaluated, bind_assoc, ends_bind_error hv]
        rfl
      · obtain ⟨r, rfl⟩ := h.found hv fun h => hnull μ₀ (h ▸ hv)
        rw [h.reach_ref hq ho hv, h.eval_ref hv, ends_map, h.resolved hhere r μ₀ hv]

theorem misses {x' : Typed.Expr} (hx : x' ∈ e :: e.objects) {r : Ref} {d name : String}
    (hmissing : Missing env calls f μ x' r d name μ₀) :
    ∃ n, env.accessor? d name = some n ∧
      (∀ v μ', (calls.invoke n.id (some r) []).ends μ₀ ≠ some (.ok v, μ')) ∧
      (reach env calls (q.step s t) f.this f.args).ends μ =
        ((fun v => v.ref?.toList) <$> calls.invoke n.id (some r) []).ends μ₀ := by
  rw [h.objects] at hx
  rcases List.mem_cons.mp hx with rfl | hx
  · obtain ⟨hr, n, hn, hfails, hy⟩ := h.missing r d name μ₀ hmissing
    refine ⟨n, hn, hfails, ?_⟩
    rw [h.reach_ref hq ho hr, ends_map, ends_map, hy]
  · -- It is missing before the last step, which is not taken any more.
    obtain ⟨n, hn, hfails, hy⟩ := ho.missing x' hx r d name μ₀ hmissing
    refine ⟨n, hn, hfails, ?_⟩
    rw [ends_map] at hy ⊢
    rw [reach_step hq, ends_bind, hy]
    cases hend : (calls.invoke n.id (some r) []).ends μ₀ with
    | none => rfl
    | some end₀ =>
        obtain ⟨u | v, μ₁⟩ := end₀
        · rfl
        · exact absurd hend (hfails v μ₁)

/-- One step further on both ways. -/
theorem follows : Follows env calls f μ e (q.step s t) where
  object _ _ := h.value hq ho
  null _ := h.value hq ho
  broken _ ho' _ := h.broken hq ho ho'
  completes he _ _ := h.completes hq ho he
  alike := h.alike hq ho
  missing _ hx _ _ _ _ := h.misses hq ho hx

end SameStep

/-! ## All steps -/

/-- Nothing is done behind the calls at a site. -/
def BareSite (env : Env) (calls : Calls) (caller : DeclId) (site : SiteId) : Prop :=
  ∀ (method : DeclId) (this : Option Ref) (args : List Value) μ,
    (callMethod env calls caller site method this args).ends μ =
      (calls.invoke (env.target μ method this) this args).ends μ

/-- Methods without a body yield nothing. -/
def NeedsBodies (env : Env) (calls : Calls) : Prop :=
  ∀ m, env.method? m.id = some m → m.isConstructor = false → m.hasBody = false →
    ∀ this args μ v μ', (calls.invoke m.id this args).ends μ ≠ some (.ok v, μ')

/-- An expression of which a path is made, in a frame that has what it starts from. -/
inductive Way (env : Env) (calls : Calls) (f : Frame) : Typed.Expr → Path → Prop
  | this {span c r} (hthis : f.this = some r) : Way env calls f (.this span c) (.this c)
  | param {span t i name v} (harg : f.args[i]? = some v) :
      Way env calls f (.param span t i name) (.param i t)
  | static {span t c name} :
      Way env calls f (.staticField span t c name) ⟨.static c, .void, [(.field name, t)]⟩
  | field {span t o name q} (ho : Way env calls f o q) :
      Way env calls f (.field span t o name) (q.step (.field name) t)
  | accessor {span t site o m c q} (ho : Way env calls f o q) (htype : o.type = .ofClass c)
      (hsub : env.isSubtype c m.owner = true) (hm : env.method? m.id = some m)
      (hs : m.isStatic = false) (hc : m.isConstructor = false) (hp : m.params = [])
      (hsite : BareSite env calls f.decl site) :
      Way env calls f (.call span t site (some o) m.id m.name []) (q.step (.accessor m.name) t)

namespace Way

variable {e : Typed.Expr} {q : Path}

theorem of? (h : Way env calls f e q) : Path.of? [] e = some q := by
  induction h with
  | this | param | static => rfl
  | field _ ih => rw [Path.of?, ih, Option.map_some]
  | accessor _ _ _ _ _ _ _ _ ih =>
      rw [Path.of?, if_pos List.isEmpty_nil, Path.ofOpt?, ih, Option.map_some]

theorem anchored (h : Way env calls f e q) : Anchored q := by
  induction h with
  | this | param => exact fun c h => nomatch h
  | static => exact fun c h => ⟨_, _, rfl⟩
  | field _ ih => exact ih.step _ _
  | accessor _ _ _ _ _ _ _ _ ih => exact ih.step _ _

end Way

/-- A field is read on both ways. -/
theorem sameStep_field {o : Typed.Expr} (hlink : meetsLink env calls f μ o = true) {span : Span}
    {t : Ty} {name : String} :
    SameStep env calls f μ (.field span t o name) o (.field name) (getField · name)
      (getField · name) where
  objects := rfl
  evaluated := by rw [eval, bind_assoc]
  walked r := by rw [stepFrom, bind_pure_comp]
  link := hlink
  yields _ _ _ _ _ := Iff.rfl
  resolved _ _ _ _ := rfl
  missing _ _ _ _ h := by cases h

theorem ends_callAccessor {r : Ref} {d name : String} {n : MethodInfo}
    (hr : μ.heap.className? r = some d) (hn : env.accessor? d name = some n) :
    (callAccessor env calls r name).ends μ =
      (calls.invoke (env.dispatch d n.id) (some r) []).ends μ := by
  rw [Env.accessor?] at hn
  rw [callAccessor, ends_bind_ok (ends_classOf r μ), hr]
  simp only [Option.getD_some, hn]

section

variable {p : Surface.Program} (hd : env.DeclaredBy p) (hbodies : NeedsBodies env calls)

include hd hbodies

/-- A call that finds no implementation yields nothing. -/
theorem invoke_unimplemented {m : MethodInfo} {d : String} (hm : env.method? m.id = some m)
    (hs : m.isStatic = false) (hc : m.isConstructor = false)
    (hsub : env.isSubtype d m.owner = true) (hnone : env.implementation? d m = none)
    {this : Option Ref} {args : List Value} {v : Value} :
    (calls.invoke m.id this args).ends μ ≠ some (.ok v, μ') := by
  refine hbodies m hm hc ?_ _ _ _ _ _
  by_contra hb
  obtain ⟨x, hx⟩ := Env.exists_implementation hd hm hs hc hsub (by simpa using hb)
  exact absurd (hnone.symm.trans hx) (by simp)

/-- The call of an accessor is one step on both ways. -/
theorem sameStep_accessor {o : Typed.Expr} {m : MethodInfo} {c : String}
    (hlink : meetsLink env calls f μ o = true) (htype : o.type = .ofClass c)
    (hsub : env.isSubtype c m.owner = true) (hm : env.method? m.id = some m)
    (hs : m.isStatic = false) (hc : m.isConstructor = false) (hp : m.params = []) {span : Span}
    {t : Ty} {site : SiteId} (hsite : BareSite env calls f.decl site) :
    SameStep env calls f μ (.call span t site (some o) m.id m.name []) o (.accessor m.name)
      (fun r => callMethod env calls f.decl site m.id (some r) [])
      (callAccessor env calls · m.name) := by
  -- The class of the object, and what the name stands for there.
  have known {r : Ref} {μ₀ : Machine}
      (hr : (eval env calls f o).ends μ = some (.ok (.ref r), μ₀)) :
      ∃ d n, μ₀.heap.className? r = some d ∧ env.isSubtype d m.owner = true ∧
        env.accessor? d m.name = some n ∧ env.method? n.id = some n ∧ n.isStatic = false ∧
        n.isConstructor = false ∧ env.isSubtype d n.owner = true ∧
        env.implementation? d n = env.implementation? d m := by
    obtain h | ⟨r', c', d, h, ht, hd', hsub'⟩ := link_of_meets hlink hr
    · cases h
    · cases h
      cases htype.symm.trans ht
      have hsub := Env.isSubtype_trans hsub' hsub
      obtain ⟨n, hn, hnm, hns, hnc, hnsub, hsig⟩ := hd.exists_accessor hm hs hc hp hsub
      exact ⟨d, n, hd', hsub, hn, hnm, hns, hnc, hnsub, Env.implementation?_congr d hsig⟩
  constructor
  case objects => rfl
  case evaluated => simp only [eval, evalReceiver, evalAll, bind_assoc, pure_bind]
  case walked =>
    intro r
    rw [stepFrom, bind_pure_comp]
  case link => exact hlink
  case yields =>
    intro r μ₀ hr v μ'
    obtain ⟨d, n, hclass, hsub, hn, hnm, hns, hnc, hnsub, himpl⟩ := known hr
    rw [hsite, ends_callAccessor hclass hn, Env.target, hclass, Option.getD_some,
      Env.dispatch_eq hm hs hc, Env.dispatch_eq hnm hns hnc, himpl]
    cases hi : env.implementation? d m with
    | some x => exact Iff.rfl
    | none =>
        exact iff_of_false (invoke_unimplemented hd hbodies hm hs hc hsub hi)
          (invoke_unimplemented hd hbodies hnm hns hnc hnsub (himpl.trans hi))
  case resolved =>
    intro hres r μ₀ hr
    obtain ⟨d, n, hclass, hsub, hn, hnm, hns, hnc, hnsub, himpl⟩ := known hr
    rw [hsite, ends_callAccessor hclass hn, Env.target, hclass, Option.getD_some,
      Env.dispatch_eq hm hs hc, Env.dispatch_eq hnm hns hnc, himpl]
    rcases hres r μ₀ d m hr hclass hm with hi | hfirst
    · obtain ⟨x, hx⟩ := Option.ne_none_iff_exists'.mp hi
      rw [hx]
      rfl
    · cases hn.symm.trans hfirst
      rfl
  case missing =>
    rintro r _ _ μ₀ ⟨hr, hclass, hm', hnone⟩
    obtain ⟨d, n, hclass', hsub, hn, hnm, hns, hnc, hnsub, himpl⟩ := known hr
    cases hclass.symm.trans hclass'
    cases hm.symm.trans hm'
    refine ⟨hr, n, hn, fun v μ' =>
      invoke_unimplemented hd hbodies hnm hns hnc hnsub (himpl.trans hnone), ?_⟩
    rw [ends_callAccessor hclass hn, Env.dispatch_eq hnm hns hnc, himpl, hnone]
    rfl

/-- The way along the path goes with evaluation. -/
theorem Way.follows {e : Typed.Expr} {q : Path} (h : Way env calls f e q)
    (hmeets : ∀ o ∈ e.objects, meetsLink env calls f μ o = true) :
    Follows env calls f μ e q := by
  induction h with
  | @this _ _ r hthis =>
      refine .start rfl (v := .ref r) (fun _ _ _ _ h => by cases h) ?_ ?_
      · rw [eval, hthis]
        rfl
      · rw [hthis]
        rfl
  | @param _ t i _ v harg =>
      refine .start rfl (v := v) (fun _ _ _ _ h => by cases h) ?_ ?_
      · rw [eval, harg]
        rfl
      · simp only [reach, startOf, Path.param, Path.trail, harg]
        cases v <;> rfl
  | @static _ t c name =>
      refine .start rfl (v := (μ.statics.get? (staticKey env c name)).getD .null)
        (fun _ _ _ _ h => by cases h) rfl ?_
      simp only [reach, startOf, Path.trail, List.map_cons, List.map_nil, bind_assoc, pure_bind]
      rw [ends_bind_ok (ends_get μ)]
      rcases μ.statics.get? (staticKey env c name) with _ | v
      · rfl
      · cases v <;> rfl
  | field ho ih =>
      obtain ⟨hlink, hrest⟩ := List.forall_mem_cons.mp hmeets
      exact (sameStep_field hlink).follows ho.anchored (ih hrest)
  | accessor ho htype hsub hm hs hc hp hsite ih =>
      obtain ⟨hlink, hrest⟩ := List.forall_mem_cons.mp hmeets
      exact (sameStep_accessor hd hbodies hlink htype hsub hm hs hc hp hsite).follows ho.anchored
        (ih hrest)

end

end Run

end Covenant
