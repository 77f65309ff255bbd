import Covenant.Proofs.Lookups
import Covenant.Proofs.Paths
import Covenant.Proofs.SoundEval
import Covenant.Run.Check

/-!
# Checks keep types

The checks that were placed in a program evaluate clauses, and they walk along
paths to the objects whose invariants they evaluate. Both do no harm if the
clauses fit the frames that they are evaluated in and the paths lead along fields,
methods and elements that are there. What is stored at entry has then the types
that the postconditions expect of their slots.
-/

namespace Covenant

open Typed (Context SiteOf)

/-! ## Clauses and the checks of members -/

namespace Typed

/-- What a clause may refer to at the entry of a member. -/
def Context.atEntry (m : MethodInfo) : Context where
  this := if m.isStatic then none else some m.owner
  locals := []
  params := m.paramTypes
  result := none
  slots := []
  hasOld := false
  hasSpread := false

/-- What a clause may refer to at a normal exit, where entry values of these types are stored. -/
def Context.atExit (m : MethodInfo) (slots : List Ty) : Context :=
  { Context.atEntry m with
    result := if m.isConstructor || m.returnType == .void then none else some m.returnType
    slots }

/-- What an invariant may refer to: an object of the class. -/
def Context.ofObject (className : String) : Context := .ofBody (some className) []

end Typed

/-- A clause that can be evaluated, and yields a boolean. -/
def BoundClause.IsCondition (env : Env) (Γ : Context) (c : BoundClause) : Prop :=
  c.expr.Fits env Γ ∧ c.expr.type = .boolean

namespace CheckCode

/-- A check at the entry of a member that stores values of these types. -/
def FitsAtEntry (env : Env) (m : MethodInfo) (slots : List Ty) : CheckCode → Prop
  | .snapshot s => s.slots.map (·.type) = slots ∧ ∀ e ∈ s.slots, e.Fits env (.atEntry m)
  | .precondition groups => ∀ g ∈ groups, ∀ c ∈ g, c.IsCondition env (.atEntry m)
  | .postcondition _ => False
  | .throws .. | .reverify _ => True

/-- A check at a normal exit. -/
def FitsAtExit (env : Env) (m : MethodInfo) (slots : List Ty) : CheckCode → Prop
  | .postcondition cs => ∀ c ∈ cs, c.IsCondition env (.atExit m slots)
  | .snapshot _ | .precondition _ => False
  | .throws .. | .reverify _ => True

end CheckCode

/-- The checks of a member fit it, where values of these types are stored at entry. -/
structure WovenProgram.MemberFits (p : WovenProgram) (m : MethodInfo) (slots : List Ty) :
    Prop where
  entry : ∀ code ∈ p.codesAt m.id .entry, code.FitsAtEntry p.env m slots
  stored : slots = [] ∨ ∃ s, .snapshot s ∈ p.codesAt m.id .entry
  normal : ∀ code ∈ p.codesAt m.id .normalExit, code.FitsAtExit p.env m slots
  exceptional : ∀ code ∈ p.codesAt m.id .exceptionalExit,
    ∃ checks mayThrow, code = .throws checks mayThrow

/-- The slots have values of these types, from the first on. -/
def Slots.Typed (env : Env) (σ : Shapes) (types : List Ty) (slots : Slots) : Prop :=
  ∀ (n : Nat) t, types[n]? = some t → ∃ v, slots.get? n = some v ∧ v.HasType env σ t

namespace Slots.Typed

variable {env : Env} {σ σ' : Shapes} {types : List Ty} {slots : Slots}

theorem nil : Slots.Typed env σ [] slots := fun n t h => absurd h (by simp)

theorem mono (hσ : σ <+: σ') (h : slots.Typed env σ types) : slots.Typed env σ' types := by
  intro n t ht
  obtain ⟨v, hget, hv⟩ := h n t ht
  exact ⟨v, hget, hv.mono hσ⟩

/-- One more value. -/
theorem insert (h : slots.Typed env σ types) {v : Value} {t : Ty} (hv : v.HasType env σ t) :
    Slots.Typed env σ (types ++ [t]) (slots.insert types.length v) := by
  intro n s hs
  rcases Nat.lt_trichotomy n types.length with hlt | rfl | hgt
  · rw [List.getElem?_append_left hlt] at hs
    obtain ⟨w, hw, htype⟩ := h n s hs
    exact ⟨w, (Table.get?_insert_of_ne _ (Nat.ne_of_gt hlt) v).trans hw, htype⟩
  · rw [List.getElem?_concat_length] at hs
    obtain rfl := Option.some.inj hs
    exact ⟨v, Table.get?_insert_self .., hv⟩
  · rw [List.getElem?_eq_none (by rw [List.length_append, List.length_singleton]; omega)] at hs
    exact absurd hs (by simp)

end Slots.Typed

/-- The frame belongs to an invocation of the member. -/
structure Frame.Active (env : Env) (σ : Shapes) (m : MethodInfo) (f : Frame) : Prop where
  this : m.Receives env σ f.this
  args : Value.HaveTypes env σ f.args m.paramTypes

namespace Frame.Active

variable {env : Env} {σ σ' : Shapes} {m : MethodInfo} {f : Frame}

theorem mono (hσ : σ <+: σ') (h : f.Active env σ m) : f.Active env σ' m :=
  ⟨h.this.mono hσ, h.args.mono hσ⟩

theorem atEntry (h : f.Active env σ m) : f.Typed env σ (.atEntry m) where
  this c hc := by
    cases hs : m.isStatic with
    | true => simp [Context.atEntry, hs] at hc
    | false =>
        simp only [Context.atEntry, hs, Bool.false_eq_true, if_false, Option.some.injEq] at hc
        obtain ⟨r, d, hthis, hr, hsub⟩ := h.this hs
        exact ⟨r, d, hthis, hr, hc ▸ hsub⟩
  locals name t ht := absurd ht (by simp [Context.atEntry])
  params i t ht := h.args.getElem? ht
  result t ht := absurd ht (by simp [Context.atEntry])
  slots n t ht := absurd ht (by simp [Context.atEntry])
  noOld := rfl
  noSpread := rfl

theorem atExit (h : f.Active env σ m) {slots : List Ty} (hslots : f.slots.Typed env σ slots)
    (hresult : f.result.HasType env σ m.returnType) : f.Typed env σ (.atExit m slots) where
  this := h.atEntry.this
  locals := h.atEntry.locals
  params := h.atEntry.params
  result t ht := by
    simp only [Context.atExit] at ht
    split at ht
    · cases ht
    · exact Option.some.inj ht ▸ hresult
  slots := hslots
  noOld := rfl
  noSpread := rfl

end Frame.Active

namespace Run

section

variable {env : Env} {p : Surface.Program} {calls : Calls} {σ : Shapes} {Γ : Context} {f : Frame}
  (hd : env.DeclaredBy p) (hret : env.ReturnsAgree) (hcalls : calls.Sound env)

include hd hret hcalls

theorem holds_sound (hf : f.Typed env σ Γ) {c : BoundClause} (hc : c.IsCondition env Γ) :
    Sound env σ (holds env calls f c) fun _ _ => True := by
  refine (eval_sound hd hret hcalls hf hc.1).bind fun σ₁ v _ hv => ?_
  rw [hc.2] at hv
  cases hv with
  | bool => exact .pure trivial
  | null ht => cases ht

theorem firstFalse_sound {σ : Shapes} (hf : f.Typed env σ Γ) {cs : List BoundClause}
    (hcs : ∀ c ∈ cs, c.IsCondition env Γ) :
    Sound env σ (firstFalse env calls f cs) fun _ _ => True := by
  induction cs generalizing σ with
  | nil => exact .pure trivial
  | cons c cs ih =>
      obtain ⟨hc, hcs⟩ := List.forall_mem_cons.mp hcs
      refine (holds_sound hd hret hcalls hf hc).bind fun σ₁ b hσ₁ _ => ?_
      cases b with
      | true => exact ih (hf.mono hσ₁) hcs
      | false => exact .pure trivial

theorem failures_sound {σ : Shapes} (hf : f.Typed env σ Γ) {groups : List (List BoundClause)}
    (hgroups : ∀ g ∈ groups, ∀ c ∈ g, c.IsCondition env Γ) :
    Sound env σ (failures env calls f groups) fun _ _ => True := by
  induction groups generalizing σ with
  | nil => exact .pure trivial
  | cons g groups ih =>
      obtain ⟨hg, hgroups⟩ := List.forall_mem_cons.mp hgroups
      refine (firstFalse_sound hd hret hcalls hf hg).bind fun σ₁ c hσ₁ _ => ?_
      cases c with
      | none => exact .pure trivial
      | some c => exact (ih (hf.mono hσ₁) hgroups).bind fun σ₂ _ _ _ => .pure trivial

theorem checkPrecondition_sound (hf : f.Typed env σ Γ) {groups : List (List BoundClause)}
    (hgroups : ∀ g ∈ groups, ∀ c ∈ g, c.IsCondition env Γ) :
    Sound env σ (checkPrecondition env calls f groups) fun _ _ => True := by
  refine (failures_sound hd hret hcalls hf hgroups).bind fun σ₁ failed _ _ => ?_
  cases failed with
  | none => exact .pure trivial
  | some cs => exact .stop trivial

theorem checkPostcondition_sound (hf : f.Typed env σ Γ) {cs : List BoundClause}
    (hcs : ∀ c ∈ cs, c.IsCondition env Γ) :
    Sound env σ (checkPostcondition env calls f cs) fun _ _ => True := by
  refine (firstFalse_sound hd hret hcalls hf hcs).bind fun σ₁ c _ _ => ?_
  cases c with
  | none => exact .pure trivial
  | some c => exact .stop trivial

omit hd hret hcalls in
theorem reportThrows_sound {broken : Option (ThrowsCheck × ViolationDetail)} :
    Sound env σ (match broken with
      | none => pure ()
      | some (t, detail) => stop (.violation
          (exitViolation env .exceptionalPostcondition f t.clause detail))) fun _ _ => True := by
  cases broken with
  | none => exact .pure trivial
  | some x => exact .stop trivial

omit hd hret hcalls in
/-- The checks of exceptions evaluate nothing. -/
theorem checkThrows_sound {checks : List ThrowsCheck} {mayThrow : List String} :
    Sound env σ (checkThrows env f checks mayThrow) fun _ _ => True := by
  cases ht : f.thrown with
  | none =>
      simp only [checkThrows, ht]
      exact Sound.bind (Q := fun _ _ => True) (.pure trivial) fun _ _ _ _ => reportThrows_sound
  | some e =>
      simp only [checkThrows, ht]
      refine Sound.bind (Q := fun _ _ => True) ?_ fun _ _ _ _ => reportThrows_sound
      exact .get fun μ _ => .pure trivial

/-- What is stored has the types of the terms. -/
theorem store_sound {m : MethodInfo} {σ : Shapes} (hf : f.Active env σ m) {es : List Typed.Expr}
    (hes : ∀ e ∈ es, e.Fits env (.atEntry m)) {types : List Ty} {slots : Slots}
    (hslots : slots.Typed env σ types) :
    RunWith.Sound env σ slots (store env calls f types.length es)
      (fun σ' _ slots' => slots'.Typed env σ' (types ++ es.map (·.type))) fun _ _ => True := by
  induction es generalizing σ types slots with
  | nil => exact .pure (by simpa using hslots)
  | cons e es ih =>
      obtain ⟨he, hes⟩ := List.forall_mem_cons.mp hes
      have hframe : Frame.Typed env σ (.atEntry m) { f with slots } :=
        Frame.Active.atEntry ⟨hf.this, hf.args⟩
      refine (RunWith.Sound.withSlots (eval_sound hd hret hcalls hframe he)).bind
        fun σ₁ v slots₁ hσ₁ ⟨hv, heq⟩ => ?_
      subst heq
      refine RunWith.Sound.update.bind fun σ₂ _ slots₂ hσ₂ heq => ?_
      have hslots₂ : slots₂.Typed env σ₂ (types ++ [e.type]) := by
        rw [heq]
        exact ((hslots.mono hσ₁).insert hv).mono hσ₂
      have hrest := ih (hf.mono (hσ₁.trans hσ₂)) hes hslots₂
      rw [List.length_append, List.length_singleton, List.append_assoc] at hrest
      exact hrest

omit hd hret hcalls in
/-- A check that stores nothing. -/
theorem withSlots_sound {x : Frame → Run Unit} {slots : Slots}
    (hx : Sound env σ (x { f with slots }) fun _ _ => True) :
    RunWith.Sound env σ slots (withSlots f x) (fun _ _ slots' => slots' = slots)
      fun _ _ => True :=
  (RunWith.Sound.withSlots hx).mono (fun _ _ _ _ h => h.2) fun _ _ _ h => h

/-- A check at the entry; behind a snapshot the entry values are there. -/
theorem runCode_atEntry {m : MethodInfo} (hf : f.Active env σ m) {types : List Ty}
    {code : CheckCode} (hcode : code.FitsAtEntry env m types) {slots : Slots} :
    RunWith.Sound env σ slots (runCode env calls f code)
      (fun σ' _ slots' => ((∃ s, code = .snapshot s) ∨ slots.Typed env σ types) →
        slots'.Typed env σ' types) fun _ _ => True := by
  cases code with
  | snapshot s =>
      obtain ⟨htypes, hfit⟩ := hcode
      have hstore := store_sound hd hret hcalls hf hfit (Slots.Typed.nil : slots.Typed env σ [])
      refine hstore.mono (fun σ' _ slots' _ h _ => ?_) fun _ _ _ h => h
      rwa [List.nil_append, htypes] at h
  | precondition groups =>
      have hframe : Frame.Typed env σ (.atEntry m) { f with slots } :=
        Frame.Active.atEntry ⟨hf.this, hf.args⟩
      refine (withSlots_sound (x := (checkPrecondition env calls · groups))
        (checkPrecondition_sound hd hret hcalls hframe hcode)).mono
          (fun _ _ _ hσ h ht => ?_) fun _ _ _ h => h
      exact h ▸ (ht.resolve_left (by simp)).mono hσ
  | postcondition => exact hcode.elim
  | throws checks mayThrow =>
      refine (withSlots_sound (x := (checkThrows env · checks mayThrow)) checkThrows_sound).mono
        (fun _ _ _ hσ h ht => ?_) fun _ _ _ h => h
      exact h ▸ (ht.resolve_left (by simp)).mono hσ
  | reverify => exact .pure fun ht => ht.resolve_left (by simp)

theorem runCodes_atEntry {m : MethodInfo} {σ : Shapes} (hf : f.Active env σ m) {types : List Ty}
    {codes : List CheckCode} (hcodes : ∀ c ∈ codes, c.FitsAtEntry env m types) {slots : Slots} :
    RunWith.Sound env σ slots (runCodes env calls f codes)
      (fun σ' _ slots' => ((∃ s, .snapshot s ∈ codes) ∨ slots.Typed env σ types) →
        slots'.Typed env σ' types) fun _ _ => True := by
  induction codes generalizing σ slots with
  | nil => exact .pure fun ht => ht.resolve_left (by simp)
  | cons c codes ih =>
      obtain ⟨hc, hcodes⟩ := List.forall_mem_cons.mp hcodes
      refine (runCode_atEntry hd hret hcalls hf hc).bind fun σ₁ _ slots₁ hσ₁ hslots₁ => ?_
      refine (ih (hf.mono hσ₁) hcodes).mono (fun σ₂ _ slots₂ hσ₂ hslots₂ ht => hslots₂ ?_)
        fun _ _ _ h => h
      rcases ht with ⟨s, hs⟩ | ht
      · rcases List.mem_cons.mp hs with hs | hs
        · exact .inr (hslots₁ (.inl ⟨s, hs.symm⟩))
        · exact .inl ⟨s, hs⟩
      · exact .inr (hslots₁ (.inr ht))

/-- The checks at a normal exit read the entry values and the result. -/
theorem runCodes_atExit {m : MethodInfo} {σ : Shapes} (hf : f.Active env σ m)
    (hresult : f.result.HasType env σ m.returnType) {types : List Ty} {codes : List CheckCode}
    (hcodes : ∀ c ∈ codes, c.FitsAtExit env m types) {slots : Slots}
    (hslots : slots.Typed env σ types) :
    RunWith.Sound env σ slots (runCodes env calls f codes) (fun _ _ _ => True)
      fun _ _ => True := by
  induction codes generalizing σ with
  | nil => exact .pure trivial
  | cons c codes ih =>
      obtain ⟨hc, hcodes⟩ := List.forall_mem_cons.mp hcodes
      refine RunWith.Sound.bind (Q := fun _ _ slots' => slots' = slots) ?_
        fun σ₁ _ slots₁ hσ₁ heq => heq ▸
          ih (hf.mono hσ₁) (hresult.mono hσ₁) hcodes (hslots.mono hσ₁)
      cases c with
      | snapshot | precondition => exact hc.elim
      | postcondition cs =>
          have hframe : Frame.Typed env σ (.atExit m types) { f with slots } :=
            Frame.Active.atExit (f := { f with slots }) ⟨hf.this, hf.args⟩ hslots hresult
          exact withSlots_sound (x := (checkPostcondition env calls · cs))
            (checkPostcondition_sound hd hret hcalls hframe hc)
      | throws checks mayThrow =>
          exact withSlots_sound (x := (checkThrows env · checks mayThrow)) checkThrows_sound
      | reverify => exact .pure rfl

omit hd hret hcalls in
/-- At an exceptional exit there are only checks of exceptions. -/
theorem runCodes_exceptional {codes : List CheckCode}
    (hcodes : ∀ c ∈ codes, ∃ checks mayThrow, c = .throws checks mayThrow) {σ : Shapes}
    {slots : Slots} :
    RunWith.Sound env σ slots (runCodes env calls f codes) (fun _ _ _ => True)
      fun _ _ => True := by
  induction codes generalizing σ slots with
  | nil => exact .pure trivial
  | cons c codes ih =>
      obtain ⟨⟨checks, mayThrow, rfl⟩, hrest⟩ := List.forall_mem_cons.mp hcodes
      exact (withSlots_sound (x := (checkThrows env · checks mayThrow)) checkThrows_sound).bind
        fun σ₁ _ slots₁ _ _ => ih hrest

end

end Run

/-! ## Ways to objects -/

namespace Effect

/-- A step leads from values of a type to values of another. -/
def StepFits (env : Env) (s : Ty) : Step → Ty → Prop
  | .field name, t => ∃ c f, env.isAssignable s (.ofClass c) = true ∧
      env.lookupField? c name = some f ∧ f.isStatic = false ∧ f.type = t
  | .accessor name, t => ∃ m, env.isAssignable s (.ofClass m.owner) = true ∧
      env.method? m.id = some m ∧ m.isStatic = false ∧ m.isConstructor = false ∧ m.name = name ∧
      m.params = [] ∧ m.returnType = t
  | .elements, t => env.isAssignable s (.array t) = true

/-- The steps lead along, each from where the one in front of it leads to. -/
def StepsFit (env : Env) : Ty → List (Step × Ty) → Prop
  | _, [] => True
  | s, (step, t) :: rest => StepFits env s step t ∧ StepsFit env t rest

/-- Where steps lead to from values of a type. -/
def endType (s : Ty) (steps : List (Step × Ty)) : Ty := (steps.getLast?.map (·.2)).getD s

/-- The path leads along from what a member is called with. A path from a class has the static
field first; before that it leads to nothing. -/
def Path.Fits (env : Env) (m : MethodInfo) (p : Path) : Prop :=
  match p.root with
  | .this => m.isStatic = false ∧ env.isAssignable (.ofClass m.owner) p.rootType = true ∧
      StepsFit env p.rootType p.steps
  | .param i => (∃ t, m.paramTypes[i]? = some t ∧ env.isAssignable t p.rootType = true) ∧
      StepsFit env p.rootType p.steps
  | .static c => p.rootType = .void ∧ ∀ step t rest, p.steps = (step, t) :: rest →
      (∃ name f, step = .field name ∧ env.lookupField? c name = some f ∧ f.isStatic = true ∧
        f.type = t) ∧ StepsFit env t rest

end Effect

/-- An obligation is about objects that can be reached from a call of the member, and its clause can
be evaluated on them. -/
def Obligation.Fits (env : Env) (m : MethodInfo) (o : Obligation) : Prop :=
  o.object.Fits env m ∧ ∃ c, o.object.type = .ofClass c ∧ o.clause.IsCondition env (.ofObject c)

namespace Effect

variable {env : Env} {s t u : Ty} {steps more : List (Step × Ty)}

theorem StepFits.assign {step : Step} (h : StepFits env t step u)
    (ha : env.isAssignable s t = true) : StepFits env s step u := by
  cases step with
  | field =>
      obtain ⟨c, f, hc, h⟩ := h
      exact ⟨c, f, Env.isAssignable_trans ha hc, h⟩
  | accessor =>
      obtain ⟨m, hc, h⟩ := h
      exact ⟨m, Env.isAssignable_trans ha hc, h⟩
  | elements => exact Env.isAssignable_trans ha h

theorem StepsFit.assign (h : StepsFit env t steps) (ha : env.isAssignable s t = true) :
    StepsFit env s steps := by
  cases steps with
  | nil => trivial
  | cons => exact ⟨h.1.assign ha, h.2⟩

@[simp] theorem endType_nil : endType s [] = s := rfl

@[simp] theorem endType_cons {step : Step} {rest : List (Step × Ty)} :
    endType s ((step, t) :: rest) = endType t rest := by
  cases rest with
  | nil => rfl
  | cons x xs => simp [endType, List.getLast?_cons]

theorem stepsFit_append : StepsFit env s (steps ++ more) ↔
    StepsFit env s steps ∧ StepsFit env (endType s steps) more := by
  induction steps generalizing s with
  | nil => simp [StepsFit]
  | cons x steps ih =>
      obtain ⟨step, t⟩ := x
      simp only [List.cons_append, StepsFit, ih, endType_cons, and_assoc]

/-- A path after some steps fits, too. -/
theorem Path.Fits.of_initial {m : MethodInfo} {p q : Path} (h : p.Fits env m)
    (hq : q ∈ p.prefixes) : q.Fits env m := by
  obtain ⟨n, _, rfl⟩ := Path.mem_prefixes.mp hq
  have take {s : Ty} {steps : List (Step × Ty)} (n : Nat) (h : StepsFit env s steps) :
      StepsFit env s (steps.take n) :=
    (stepsFit_append.mp ((List.take_append_drop n steps).symm ▸ h)).1
  obtain ⟨root, rootType, steps⟩ := p
  cases root with
  | this => exact ⟨h.1, h.2.1, take n h.2.2⟩
  | param i => exact ⟨h.1, take n h.2⟩
  | static c =>
      refine ⟨h.1, fun step t rest heq => ?_⟩
      cases n with
      | zero => simp at heq
      | succ n =>
          cases steps with
          | nil => simp at heq
          | cons x steps =>
              obtain ⟨rfl, rfl⟩ := List.cons.inj heq
              exact ⟨(h.2 step t steps rfl).1, take n (h.2 step t steps rfl).2⟩

end Effect

namespace Run

section

variable {env : Env} {p : Surface.Program} {calls : Calls} {σ : Shapes}
  (hd : env.DeclaredBy p) (hret : env.ReturnsAgree) (hcalls : calls.Sound env)

include hd hret hcalls

/-- What is called by its name is one of the methods that the name means, and whichever is found
first, the same one runs. -/
theorem callAccessor_sound {r : Ref} {m : MethodInfo} (hm : env.method? m.id = some m)
    (hs : m.isStatic = false) (hc : m.isConstructor = false) (hp : m.params = [])
    (hr : (Value.ref r).HasType env σ (.ofClass m.owner)) :
    Sound env σ (callAccessor env calls r m.name) fun σ' v => v.HasType env σ' m.returnType := by
  cases hr with
  | @inst _ c _ hr hsub =>
      refine (classOf_sound hr).bind fun σ₁ c' hσ₁ heq => ?_
      subst heq
      obtain ⟨m', hfind, hm', hs', hc', hsub', hsig⟩ := hd.exists_accessor hm hs hc hp hsub
      rw [Env.accessor?] at hfind
      simp only [hfind]
      have hparams : m'.paramTypes = [] := by
        rw [(MethodInfo.sameSignature_iff.mp hsig).2, MethodInfo.paramTypes, hp]
        rfl
      have hr₁ := Value.shape_mono hσ₁ hr
      have himpl : env.implementation? c' m' = env.implementation? c' m :=
        Env.implementation?_congr c' hsig
      rw [Env.dispatch_eq hm' hs' hc']
      cases hi : env.implementation? c' m' with
      | none =>
          refine (hcalls.invoke (m := m') hm' (fun _ => ⟨r, c', rfl, hr₁, hsub'⟩) ?_).mono
            fun σ₂ v _ hv => ?_
          · rw [hparams]
            exact .nil
          · obtain ⟨d, hd⟩ := Env.exists_implementation hd hm' hs' hc' hsub' (hv.2 hc')
            exact absurd (hi.symm.trans hd) (by simp)
      | some d =>
          obtain ⟨hdm, hdparams, hown, hassign⟩ :=
            Env.implementation_fits hd hret hm hs hc hsub (himpl ▸ hi)
          refine (hcalls.invoke (m := d) hdm (fun _ => ⟨r, c', rfl, hr₁, hown⟩) ?_).mono
            fun σ₂ v _ hv => hv.1.assign hassign
          rw [hdparams, MethodInfo.paramTypes, hp]
          exact .nil

/-- A step from an object leads to values of the type that it says. -/
theorem stepFrom_sound {r : Ref} {s t : Ty} {step : Effect.Step}
    (hr : (Value.ref r).HasType env σ s) (hstep : Effect.StepFits env s step t) :
    Sound env σ (stepFrom env calls r step) fun σ' vs => ∀ v ∈ vs, v.HasType env σ' t := by
  cases step with
  | field name =>
      obtain ⟨c, f, hc, hf, hs, rfl⟩ := hstep
      exact (getField_sound hd (hr.assign hc) hf hs).bind fun σ₁ v _ hv =>
        .pure (List.forall_mem_singleton.mpr hv)
  | accessor name =>
      obtain ⟨m, ha, hm, hs, hc, rfl, hp, rfl⟩ := hstep
      exact (callAccessor_sound hd hret hcalls hm hs hc hp (hr.assign ha)).bind fun σ₁ v _ hv =>
        .pure (List.forall_mem_singleton.mpr hv)
  | elements =>
      have hr := hr.assign hstep
      cases hr with
      | array hr =>
          refine .get fun μ hμ => ?_
          obtain ⟨items, hget, hitems⟩ := hμ.heap.array hr
          simp only [hget]
          exact .pure fun v hv => hitems v (Array.mem_toList_iff.mp hv)

theorem stepFromAll_sound {s t : Ty} {step : Effect.Step} (hstep : Effect.StepFits env s step t)
    {σ : Shapes} {vs : List Value} (hvs : ∀ v ∈ vs, v.HasType env σ s) :
    Sound env σ (stepFromAll env calls step vs) fun σ' ws => ∀ v ∈ ws, v.HasType env σ' t := by
  induction vs generalizing σ with
  | nil => exact .pure fun v hv => absurd hv List.not_mem_nil
  | cons v vs ih =>
      obtain ⟨hv, hrest⟩ := List.forall_mem_cons.mp hvs
      cases v with
      | ref r =>
          simp only [stepFromAll]
          refine (stepFrom_sound hd hret hcalls hv hstep).bind fun σ₁ here hσ₁ hhere => ?_
          refine (ih fun w hw => (hrest w hw).mono hσ₁).bind fun σ₂ there hσ₂ hthere => .pure ?_
          exact List.forall_mem_append.mpr ⟨fun w hw => (hhere w hw).mono hσ₂, hthere⟩
      | _ => exact ih hrest

theorem walk_sound {s : Ty} {steps : List (Effect.Step × Ty)} (hsteps : Effect.StepsFit env s steps)
    {σ : Shapes} {vs : List Value} (hvs : ∀ v ∈ vs, v.HasType env σ s) :
    Sound env σ (walk env calls (steps.map (·.1)) vs)
      fun σ' ws => ∀ v ∈ ws, v.HasType env σ' (Effect.endType s steps) := by
  induction steps generalizing s σ vs with
  | nil => exact .pure hvs
  | cons x steps ih =>
      obtain ⟨step, t⟩ := x
      rw [Effect.endType_cons]
      exact (stepFromAll_sound hd hret hcalls hsteps.1 hvs).bind fun σ₁ ws _ hws =>
        ih hsteps.2 hws

omit hret hcalls in
/-- A path starts at values from which the steps that are left lead to its type. -/
theorem startOf_sound {m : MethodInfo} {q : Effect.Path} (hq : q.Fits env m) {this : Option Ref}
    {args : List Value} (hthis : m.Receives env σ this)
    (hargs : Value.HaveTypes env σ args m.paramTypes) :
    Sound env σ (startOf env q this args) fun σ' x => ∃ s steps, x.2 = steps.map (·.1) ∧
      (∀ v ∈ x.1, v.HasType env σ' s) ∧ Effect.StepsFit env s steps ∧
      Effect.endType s steps = q.type := by
  obtain ⟨root, rootType, steps⟩ := q
  cases root with
  | this =>
      obtain ⟨hs, ha, hsteps⟩ := hq
      obtain ⟨r, c, rfl, hr, hsub⟩ := hthis hs
      refine .pure ⟨rootType, steps, rfl, ?_, hsteps, rfl⟩
      exact List.forall_mem_singleton.mpr (Value.HasType.assign (.inst hr hsub) ha)
  | param i =>
      obtain ⟨⟨t, ht, ha⟩, hsteps⟩ := hq
      obtain ⟨v, hv, htype⟩ := hargs.getElem? ht
      refine .pure ⟨rootType, steps, rfl, ?_, hsteps, rfl⟩
      rw [hv]
      exact List.forall_mem_singleton.mpr (htype.assign ha)
  | static c =>
      obtain ⟨rfl, hfirst⟩ := hq
      cases steps with
      | nil => exact .pure ⟨.void, [], rfl, fun v hv => absurd hv List.not_mem_nil, trivial, rfl⟩
      | cons x rest =>
          obtain ⟨step, t⟩ := x
          obtain ⟨⟨name, f, rfl, hf, hs, rfl⟩, hrest⟩ := hfirst _ _ _ rfl
          refine .get fun μ hμ => ?_
          obtain ⟨hget, _⟩ := hd.mem_fieldsOf.mp (Env.mem_of_lookupField? hf).1
          obtain ⟨v, hv, htype⟩ := hμ.statics f.id f hget hs
          refine .pure ⟨f.type, rest, rfl, ?_, hrest, Effect.endType_cons.symm⟩
          rw [staticKey_eq hf, hv]
          exact List.forall_mem_singleton.mpr htype

/-- A path leads to objects of its type. -/
theorem reach_sound {m : MethodInfo} {q : Effect.Path} (hq : q.Fits env m) {this : Option Ref}
    {args : List Value} (hthis : m.Receives env σ this)
    (hargs : Value.HaveTypes env σ args m.paramTypes) :
    Sound env σ (reach env calls q this args)
      fun σ' rs => ∀ r ∈ rs, (Value.ref r).HasType env σ' q.type := by
  refine (startOf_sound hd hq hthis hargs).bind fun σ₁ x _ hx => ?_
  obtain ⟨vs, trail⟩ := x
  obtain ⟨s, steps, rfl, hvs, hsteps, htype⟩ := hx
  refine (walk_sound hd hret hcalls hsteps hvs).bind fun σ₂ ws _ hws => .pure fun r hr => ?_
  obtain ⟨v, hv, heq⟩ := List.mem_filterMap.mp hr
  cases v with
  | ref r' =>
      obtain rfl := Option.some.inj heq
      exact htype ▸ hws _ hv
  | _ => cases heq

/-- The invariant of an obligation is evaluated on objects that have it. -/
theorem checkObjects_sound {site : SiteId} {o : Obligation} {c : String}
    (ho : o.clause.IsCondition env (.ofObject c)) {σ : Shapes} {rs : List Ref}
    (hrs : ∀ r ∈ rs, (Value.ref r).HasType env σ (.ofClass c)) :
    Sound env σ (checkObjects env calls site o rs) fun _ _ => True := by
  induction rs generalizing σ with
  | nil => exact .pure trivial
  | cons r rs ih =>
      obtain ⟨hr, hrs⟩ := List.forall_mem_cons.mp hrs
      have hframe : Frame.Typed env σ (.ofObject c) (Frame.start o.clause.origin (some r) []) :=
        .start fun d hd => ⟨r, rfl, Option.some.inj hd ▸ hr⟩
      refine (holds_sound hd hret hcalls hframe ho).bind fun σ₁ b hσ₁ _ => ?_
      cases b with
      | true => exact ih fun r hr => (hrs r hr).mono hσ₁
      | false => exact .stop trivial

theorem checkObligations_sound {site : SiteId} {m : MethodInfo} {this : Option Ref}
    {args : List Value} {os : List Obligation} (hos : ∀ o ∈ os, o.Fits env m) {σ : Shapes}
    (hthis : m.Receives env σ this) (hargs : Value.HaveTypes env σ args m.paramTypes) :
    Sound env σ (checkObligations env calls site this args os) fun _ _ => True := by
  induction os generalizing σ with
  | nil => exact .pure trivial
  | cons o os ih =>
      obtain ⟨⟨hpath, c, hc, hclause⟩, hos⟩ := List.forall_mem_cons.mp hos
      refine (reach_sound hd hret hcalls hpath hthis hargs).bind fun σ₁ rs hσ₁ hrs => ?_
      rw [hc] at hrs
      refine (checkObjects_sound hd hret hcalls hclause hrs).bind fun σ₂ _ hσ₂ _ => ?_
      exact ih hos (hthis.mono (hσ₁.trans hσ₂)) (hargs.mono (hσ₁.trans hσ₂))

end

end Run

end Covenant
