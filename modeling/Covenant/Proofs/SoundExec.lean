import Covenant.Proofs.SoundEval
import Covenant.Run.Exec

/-!
# Execution keeps types

A statement that fits, run with the local variables that its context says, leaves
the variables of its block and of those around with their types, however it ends.
If it does not stop early, it has declared what it declares or it returns a value
of the type of the body; and a statement that control cannot run off the end of
does not end normally. Variables are typed block by block, as they are stored, for
a block takes its own away at its end.
-/

namespace Covenant

open Typed (Context)

/-! ## Local variables -/

/-- The variables of one block are those that are declared there, with values of their types. -/
structure Scopes.BlockTyped (env : Env) (σ : Shapes) (level : List (String × Ty))
    (vars : Table String Value) : Prop where
  unbound : ∀ name, level.lookup name = none → vars.get? name = none
  bound : ∀ name t, level.lookup name = some t →
    ∃ v, vars.get? name = some v ∧ v.HasType env σ t

namespace Scopes

variable {env : Env} {σ σ' : Shapes} {level : List (String × Ty)} {name : String} {v : Value}
  {t : Ty}

theorem BlockTyped.mono {vars : Table String Value} (hσ : σ <+: σ')
    (h : BlockTyped env σ level vars) : BlockTyped env σ' level vars where
  unbound := h.unbound
  bound name t ht := by
    obtain ⟨v, hget, hv⟩ := h.bound name t ht
    exact ⟨v, hget, hv.mono hσ⟩

theorem BlockTyped.empty : BlockTyped env σ [] .empty :=
  ⟨fun _ _ => rfl, fun _ _ h => absurd h (by simp)⟩

/-- One more variable, or another value and type of one. -/
theorem BlockTyped.insert {vars : Table String Value} (h : BlockTyped env σ level vars)
    (hv : v.HasType env σ t) : BlockTyped env σ ((name, t) :: level) (vars.insert name v) where
  unbound x hx := by
    rw [List.lookup_cons] at hx
    split at hx
    · cases hx
    · next hne =>
        have hne : name ≠ x := fun h => absurd hne (by simp [h])
        exact (Table.get?_insert_of_ne _ hne v).trans (h.unbound x hx)
  bound x s hs := by
    rw [List.lookup_cons] at hs
    split at hs
    · next heq =>
        obtain rfl := Option.some.inj hs
        obtain rfl := eq_of_beq heq
        exact ⟨v, Table.get?_insert_self .., hv⟩
    · next hne =>
        have hne : name ≠ x := fun h => absurd hne (by simp [h])
        obtain ⟨w, hw, htype⟩ := h.bound x s hs
        exact ⟨w, (Table.get?_insert_of_ne _ hne v).trans hw, htype⟩

/-- Another value of a variable that is there. -/
theorem BlockTyped.update {vars : Table String Value} (h : BlockTyped env σ level vars)
    (ht : level.lookup name = some t) (hv : v.HasType env σ t) :
    BlockTyped env σ level (vars.insert name v) where
  unbound x hx := by
    have hne : name ≠ x := by
      rintro rfl
      exact absurd (ht.symm.trans hx) (by simp)
    exact (Table.get?_insert_of_ne _ hne v).trans (h.unbound x hx)
  bound x s hs := by
    by_cases hx : name = x
    · subst hx
      obtain rfl := Option.some.inj (ht.symm.trans hs)
      exact ⟨v, Table.get?_insert_self .., hv⟩
    · obtain ⟨w, hw, htype⟩ := h.bound x s hs
      exact ⟨w, (Table.get?_insert_of_ne _ hx v).trans hw, htype⟩

/-- The local variables, block by block, the innermost first. -/
def Typed (env : Env) (σ : Shapes) (levels : List (List (String × Ty))) (s : Scopes) : Prop :=
  List.Forall₂ (BlockTyped env σ) levels s

namespace Typed

variable {levels outer : List (List (String × Ty))} {s : Scopes}

theorem mono (hσ : σ <+: σ') (h : Typed env σ levels s) : Typed env σ' levels s :=
  List.Forall₂.imp (fun _ _ hb => hb.mono hσ) h

/-- A block that starts with some variables. -/
theorem enter {vars : Table String Value} (h : Typed env σ levels s)
    (hb : BlockTyped env σ level vars) : Typed env σ (level :: levels) (vars :: s) := .cons hb h

theorem leave (h : Typed env σ (level :: levels) s) : Typed env σ levels s.tail := by
  cases h with
  | cons _ h => exact h

/-- A name means the innermost variable that has it. -/
theorem get? (h : Typed env σ levels s) (ht : levels.flatten.lookup name = some t) :
    ∃ v, s.get? name = some v ∧ v.HasType env σ t := by
  induction h with
  | nil => exact absurd ht (by simp)
  | @cons level vars levels s hb _ ih =>
      rw [List.flatten_cons, List.lookup_append] at ht
      cases hl : level.lookup name with
      | none =>
          rw [hl, Option.none_or] at ht
          obtain ⟨v, hv, htype⟩ := ih ht
          refine ⟨v, ?_, htype⟩
          rw [Scopes.get?, List.findSome?_cons, hb.unbound name hl]
          exact hv
      | some u =>
          rw [hl, Option.some_or] at ht
          obtain rfl := Option.some.inj ht
          obtain ⟨v, hv, htype⟩ := hb.bound name u hl
          refine ⟨v, ?_, htype⟩
          rw [Scopes.get?, List.findSome?_cons, hv]

/-- A variable that has been declared can be written. -/
theorem assign (h : Typed env σ levels s) (ht : levels.flatten.lookup name = some t)
    (hv : v.HasType env σ t) : ∃ s', s.assign? name v = some s' ∧ Typed env σ levels s' := by
  induction h with
  | nil => exact absurd ht (by simp)
  | @cons level vars levels s hb hs ih =>
      rw [List.flatten_cons, List.lookup_append] at ht
      cases hl : level.lookup name with
      | none =>
          rw [hl, Option.none_or] at ht
          obtain ⟨s', hs', htyped⟩ := ih ht
          refine ⟨vars :: s', ?_, htyped.enter hb⟩
          have hc : vars.contains name = false := by rw [Table.contains, hb.unbound name hl]; rfl
          rw [assign?, hc, hs']
          rfl
      | some u =>
          rw [hl, Option.some_or] at ht
          obtain rfl := Option.some.inj ht
          obtain ⟨w, hw, _⟩ := hb.bound name u hl
          refine ⟨vars.insert name v :: s, ?_, Typed.enter hs (hb.update hl hv)⟩
          have hc : vars.contains name = true := by rw [Table.contains, hw]; rfl
          rw [assign?, hc]
          rfl

theorem declare (h : Typed env σ (level :: outer) s) (hv : v.HasType env σ t) :
    Typed env σ (((name, t) :: level) :: outer) (s.declare name v) := by
  cases h with
  | cons hb hs => exact enter hs (hb.insert hv)

end Typed

/-- Around the innermost block everything is as declared. -/
def Around (env : Env) (σ : Shapes) (outer : List (List (String × Ty))) (s : Scopes) : Prop :=
  ∃ level, Typed env σ (level :: outer) s

end Scopes

/-- The context where these variables are declared, block by block. -/
def Typed.Context.within (Γ : Context) (levels : List (List (String × Ty))) : Context :=
  { Γ with locals := levels.flatten }

/-- A frame with its local variables as they are now. -/
theorem Frame.Typed.inScope {env : Env} {σ : Shapes} {Γ : Context} {f : Frame}
    {levels : List (List (String × Ty))} {s : Scopes} (hf : f.Typed env σ (Γ.within []))
    (hs : s.Typed env σ levels) :
    Frame.Typed env σ (Γ.within levels) { f with scopes := s } where
  this := hf.this
  locals _ _ ht := hs.get? ht
  params := hf.params
  result := hf.result
  slots := hf.slots
  noOld := hf.noOld
  noSpread := hf.noSpread

/-! ## Ends of statements -/

/-- Where control goes: on, if it can run off the end, or out of the body with a value of its
type. -/
def Flow.Typed (env : Env) (σ : Shapes) (ret : Ty) (exits : Bool) : Flow → Prop
  | .normal => exits = false
  | .ret v _ => v.HasType env σ ret

theorem Flow.Typed.mono {env : Env} {σ σ' : Shapes} {ret : Ty} {exits : Bool} {flow : Flow}
    (hσ : σ <+: σ') (h : flow.Typed env σ ret exits) : flow.Typed env σ' ret exits := by
  cases flow with
  | normal => exact h
  | ret v span => exact Value.HasType.mono hσ h

/-- Less may be claimed of the end. -/
theorem Flow.Typed.weaken {env : Env} {σ : Shapes} {ret : Ty} {exits exits' : Bool} {flow : Flow}
    (h : flow.Typed env σ ret exits) (hx : exits' = true → exits = true) :
    flow.Typed env σ ret exits' := by
  cases flow with
  | normal => exact Bool.eq_false_iff.mpr fun he => Bool.eq_false_iff.mp h (hx he)
  | ret v span => exact h

namespace Run

section

variable {env : Env} {σ : Shapes} {ret : Ty} {exits exits' : Bool}
  {level : List (String × Ty)} {levels outer : List (List (String × Ty))} {s : Scopes}

/-- A list of statements, which declare variables in the innermost block. -/
def StmtsSound (env : Env) (σ : Shapes) (ret : Ty) (exits : Bool)
    (outer : List (List (String × Ty))) (s : Scopes) (x : RunWith Scopes Flow) : Prop :=
  RunWith.Sound env σ s x
    (fun σ' flow s' => flow.Typed env σ' ret exits ∧ s'.Around env σ' outer)
    fun σ' s' => s'.Around env σ' outer

/-- A block: it ends with the variables that it started with. -/
def BlockSound (env : Env) (σ : Shapes) (ret : Ty) (exits : Bool)
    (levels : List (List (String × Ty))) (s : Scopes) (x : RunWith Scopes Flow) : Prop :=
  RunWith.Sound env σ s x
    (fun σ' flow s' => flow.Typed env σ' ret exits ∧ s'.Typed env σ' levels)
    fun σ' s' => s'.Typed env σ' levels

/-- A statement: if it ends normally, then it has declared what it declares. -/
def StmtSound (env : Env) (σ : Shapes) (ret : Ty) (exits : Bool) (binds level : List (String × Ty))
    (outer : List (List (String × Ty))) (s : Scopes) (x : RunWith Scopes Flow) : Prop :=
  RunWith.Sound env σ s x
    (fun σ' flow s' => (flow.Typed env σ' ret exits ∧ s'.Around env σ' outer) ∧
      (flow = .normal → s'.Typed env σ' ((binds ++ level) :: outer)))
    fun σ' s' => s'.Around env σ' outer

/-- A block is a statement that declares nothing. -/
theorem BlockSound.stmt {x : RunWith Scopes Flow}
    (h : BlockSound env σ ret exits (level :: outer) s x) :
    StmtSound env σ ret exits [] level outer s x :=
  RunWith.Sound.mono h (fun _ _ _ _ ⟨hflow, hs⟩ => ⟨⟨hflow, level, hs⟩, fun _ => hs⟩)
    fun _ _ _ hs => ⟨level, hs⟩

theorem BlockSound.weaken {x : RunWith Scopes Flow} (h : BlockSound env σ ret exits levels s x)
    (hx : exits' = true → exits = true) : BlockSound env σ ret exits' levels s x :=
  RunWith.Sound.mono h (fun _ _ _ _ ⟨hflow, hs⟩ => ⟨hflow.weaken hx, hs⟩) fun _ _ _ hs => hs

theorem StmtSound.stmts {binds : List (String × Ty)} {x : RunWith Scopes Flow}
    (h : StmtSound env σ ret exits binds level outer s x) :
    StmtsSound env σ ret exits outer s x :=
  RunWith.Sound.mono h (fun _ _ _ _ h => h.1) fun _ _ _ h => h

/-- A block around statements takes away what they have declared. -/
theorem StmtsSound.inBlock {vars : Table String Value} {x : RunWith Scopes Flow}
    (h : StmtsSound env σ ret exits levels (vars :: s) x) :
    BlockSound env σ ret exits levels s (Run.inBlock vars x) :=
  RunWith.Sound.inBlock h (fun _ _ _ ⟨hflow, _, hs⟩ => ⟨hflow, hs.leave⟩)
    fun _ _ ⟨_, hs⟩ => hs.leave

/-- A loop ends normally only if its condition is false. -/
theorem iterate_sound {condition : RunWith Scopes Bool} {body : RunWith Scopes Flow}
    {exits' : Bool}
    (hc : ∀ {σ' s'}, σ <+: σ' → s'.Typed env σ' levels → RunWith.Sound env σ' s' condition
      (fun σ'' b s'' => (exits = true → b = true) ∧ s''.Typed env σ'' levels)
      fun σ'' s'' => s''.Typed env σ'' levels)
    (hb : ∀ {σ' s'}, σ <+: σ' → s'.Typed env σ' levels →
      BlockSound env σ' ret exits' levels s' body) :
    ∀ (n : Nat) {σ' s'}, σ <+: σ' → s'.Typed env σ' levels →
      BlockSound env σ' ret exits levels s' (iterate condition body n)
  | 0, _, _, _, _ => RunWith.Sound.exhausted
  | n + 1, _, _, hσ, hs => by
      rw [iterate]
      refine (hc hσ hs).bind fun σ₁ b s₁ hσ₁ ⟨hexits, hs₁⟩ => ?_
      cases b with
      | false =>
          have hnot : exits = false := by simpa using hexits
          exact .pure ⟨hnot, hs₁⟩
      | true =>
          refine (hb (hσ.trans hσ₁) hs₁).bind fun σ₂ flow s₂ hσ₂ ⟨hflow, hs₂⟩ => ?_
          cases flow with
          | normal => exact iterate_sound hc hb n ((hσ.trans hσ₁).trans hσ₂) hs₂
          | ret v span => exact .pure ⟨hflow, hs₂⟩

/-- Only an exception gets to a handler, and control runs off the end if it does so in the body or
in the handler. -/
theorem catching_sound {body : RunWith Scopes Flow} {handle : Ref → RunWith Scopes Flow}
    (hb : BlockSound env σ ret exits levels s body)
    (hh : ∀ {σ' e c s'}, σ <+: σ' → σ'[e]? = some (.inst c) → s'.Typed env σ' levels →
      BlockSound env σ' ret exits' levels s' (handle e)) :
    BlockSound env σ ret (exits && exits') levels s (catching body handle) := by
  refine (RunWith.Sound.observe hb).bind fun σ₁ r s₁ hσ₁ hr => ?_
  cases r with
  | ok flow => exact .pure ⟨hr.1.weaken fun h => ((Bool.and_eq_true _ _).mp h).1, hr.2⟩
  | error u =>
      obtain ⟨hu, hs₁⟩ := hr
      cases u with
      | throw e =>
          obtain ⟨c, hc⟩ := hu
          exact (hh hσ₁ hc hs₁).weaken fun h => ((Bool.and_eq_true _ _).mp h).2
      | violation v => exact .stop hu hs₁
      | fatal e => exact .stop hu hs₁

/-- The block behind `finally` decides if it does not end normally. -/
theorem withCleanup_sound {body cleanup : RunWith Scopes Flow}
    (hb : BlockSound env σ ret exits levels s body)
    (hc : ∀ {σ' s'}, σ <+: σ' → s'.Typed env σ' levels →
      BlockSound env σ' ret exits' levels s' cleanup) :
    BlockSound env σ ret (exits' || exits) levels s (withCleanup body cleanup) := by
  refine (RunWith.Sound.observe hb).bind fun σ₁ r s₁ hσ₁ hr => ?_
  have hs₁ : s₁.Typed env σ₁ levels := by
    cases r with
    | ok flow => exact hr.2
    | error u => exact hr.2
  refine (RunWith.Sound.observe (hc hσ₁ hs₁)).bind fun σ₂ c s₂ hσ₂ hc => .ofResult ?_
  have hs₂ : s₂.Typed env σ₂ levels := by
    cases c with
    | ok flow => exact hc.2
    | error u => exact hc.2
  cases r with
  | ok flow =>
      cases c with
      | error u => exact hc
      | ok after =>
          cases after with
          | ret v span => exact hc
          | normal =>
              refine ⟨?_, hs₂⟩
              have hnot : exits' = false := hc.1
              simpa only [hnot, Bool.false_or] using hr.1.mono hσ₂
  | error u =>
      cases u with
      | violation v => exact ⟨hr.1, hs₂⟩
      | fatal e => exact ⟨hr.1, hs₂⟩
      | throw e =>
          cases c with
          | error u => exact hc
          | ok after =>
              cases after with
              | ret v span => exact hc
              | normal => exact ⟨hr.1.mono hσ₂, hs₂⟩

end

/-! ## Statements -/

section

variable {env : Env} {p : Surface.Program} {calls : Calls} {Γ : Context} {f : Frame} {ret : Ty}

section

variable {σ : Shapes} {level : List (String × Ty)} {levels outer : List (List (String × Ty))}
  {s : Scopes} (hd : env.DeclaredBy p) (hret : env.ReturnsAgree) (hcalls : calls.Sound env)
  (hf : f.Typed env σ (Γ.within []))

/-- What does not work on the local variables leaves them as they are. -/
theorem keep_sound {α : Type} {x : Run α} {R : Shapes → α → Prop} {E : Shapes → Scopes → Prop}
    (hs : s.Typed env σ levels) (hx : Sound env σ x R)
    (hE : ∀ σ', s.Typed env σ' levels → E σ' s) :
    RunWith.Sound env σ s (keep x) (fun σ' a s' => R σ' a ∧ s'.Typed env σ' levels) E :=
  (RunWith.Sound.keep hx).mono (fun _ _ _ hσ h => ⟨h.1, h.2 ▸ hs.mono hσ⟩)
    fun _ _ hσ h => h ▸ hE _ (hs.mono hσ)

include hd hret hcalls hf

/-- An expression of a statement. -/
theorem exprIn_sound (hs : s.Typed env σ (level :: outer)) {e : Typed.Expr}
    (he : e.Fits env (Γ.within (level :: outer))) :
    RunWith.Sound env σ s (inScope f (eval env calls · e))
      (fun σ' v s' => v.HasType env σ' e.type ∧ s'.Typed env σ' (level :: outer))
      fun σ' s' => s'.Around env σ' outer :=
  keep_sound hs (eval_sound hd hret hcalls (hf.inScope hs) he) fun _ h => ⟨level, h⟩

theorem objectIn_sound (hs : s.Typed env σ (level :: outer)) {e : Typed.Expr}
    (he : e.Fits env (Γ.within (level :: outer)))
    (ht : (∃ c, e.type = .ofClass c) ∨ ∃ t, e.type = .array t) :
    RunWith.Sound env σ s (inScope f (evalObject env calls · e))
      (fun σ' r s' => (Value.ref r).HasType env σ' e.type ∧ s'.Typed env σ' (level :: outer))
      fun σ' s' => s'.Around env σ' outer :=
  keep_sound hs (evalObject_sound hd hret hcalls (hf.inScope hs) he ht) fun _ h => ⟨level, h⟩

/-- The value of an expression that may be left out. -/
theorem evalOr_sound (hs : s.Typed env σ (level :: outer)) {absent : Value}
    {value : Option Typed.Expr} {t : Ty}
    (hv : ∀ e, value = some e → e.FitsAt env (Γ.within (level :: outer)) t)
    (hn : value = none → absent.HasType env σ t) :
    RunWith.Sound env σ s (evalOr env calls f absent value)
      (fun σ' v s' => v.HasType env σ' t ∧ s'.Typed env σ' (level :: outer))
      fun σ' s' => s'.Around env σ' outer := by
  cases value with
  | none => exact .pure ⟨hn rfl, hs⟩
  | some e =>
      obtain ⟨he, ha⟩ := hv e rfl
      exact (exprIn_sound hd hret hcalls hf hs he).mono (fun _ _ _ _ h => ⟨h.1.assign ha, h.2⟩)
        fun _ _ _ h => h

/-- A condition; if it is a literal then it is known what it yields. -/
theorem condition_sound (hs : s.Typed env σ levels) {c : Typed.Expr} {body : Typed.Stmt}
    {span : Span} (hc : c.Fits env (Γ.within levels)) (ht : c.type = .boolean) :
    RunWith.Sound env σ s (inScope f (evalBool env calls · c))
      (fun σ' b s' => ((Typed.Stmt.loop span c body).exits = true → b = true) ∧
        s'.Typed env σ' levels)
      fun σ' s' => s'.Typed env σ' levels := by
  refine keep_sound hs ?_ fun _ h => h
  by_cases hexits : (Typed.Stmt.loop span c body).exits = true
  · cases c with
    | bool _ b =>
        obtain rfl : b = true := by simpa only [Typed.Stmt.exits] using hexits
        exact .pure fun _ => rfl
    | _ => simp [Typed.Stmt.exits] at hexits
  · exact (evalBool_sound hd hret hcalls (hf.inScope hs) hc ht).mono
      fun _ _ _ _ h => absurd h hexits

end

/-- A statement that declares nothing has come to its end. -/
theorem goOn_sound {σ : Shapes} {level : List (String × Ty)}
    {outer : List (List (String × Ty))} {s : Scopes} (hs : s.Typed env σ (level :: outer)) :
    StmtSound env σ ret false [] level outer s (pure .normal) :=
  .pure ⟨⟨rfl, level, hs⟩, fun _ => hs⟩

theorem within_after (Γ : Context) (level : List (String × Ty))
    (outer : List (List (String × Ty))) (st : Typed.Stmt) :
    (Γ.within (level :: outer)).after st = Γ.within ((st.binds ++ level) :: outer) := by
  simp only [Context.after, Context.within, List.flatten_cons, List.append_assoc]

mutual

/-- Execution keeps types. -/
theorem exec_sound (hd : env.DeclaredBy p) (hret : env.ReturnsAgree) (hcalls : calls.Sound env)
    {σ : Shapes} (hf : f.Typed env σ (Γ.within [])) {level : List (String × Ty)}
    {outer : List (List (String × Ty))} {s : Scopes} (hs : s.Typed env σ (level :: outer)) :
    ∀ {st : Typed.Stmt}, st.Fits env ret (Γ.within (level :: outer)) →
      StmtSound env σ ret st.exits st.binds level outer s (exec env calls f st)
  | .declare _ t name v, h => by
      simp only [exec]
      refine (evalOr_sound hd hret hcalls hf hs h.2 fun _ => Value.hasType_default h.1).bind
        fun σ₁ w s₁ _ ⟨hw, hs₁⟩ => ?_
      refine RunWith.Sound.update.bind fun σ₂ _ s₂ hσ₂ heq => .pure ?_
      have hs₂ : s₂.Typed env σ₂ (((name, t) :: level) :: outer) :=
        heq ▸ (hs₁.declare hw).mono hσ₂
      exact ⟨⟨rfl, _, hs₂⟩, fun _ => hs₂⟩
  | .setVar _ name v, h => by
      obtain ⟨t, ht, hv, ha⟩ := h
      simp only [exec]
      refine (exprIn_sound hd hret hcalls hf hs hv).bind fun σ₁ w s₁ _ ⟨hw, hs₁⟩ => ?_
      obtain ⟨s', heq, hs'⟩ := hs₁.assign ht (hw.assign ha)
      refine RunWith.Sound.bind (Q := fun σ' _ s' => s'.Typed env σ' (level :: outer)) ?_
        fun σ₂ _ s₂ _ hs₂ => goOn_sound hs₂
      refine RunWith.Sound.read.bind fun σ₂ a s₂ hσ₂ ⟨ha, heq₂⟩ => ?_
      subst ha heq₂
      simp only [heq]
      exact RunWith.Sound.write.mono (fun _ _ _ hσ h => h ▸ (hs'.mono hσ₂).mono hσ)
        fun _ _ _ h => h
  | .setField _ o name v, h => by
      obtain ⟨ho, c, field, hc, hfield, hv, ha⟩ := h
      simp only [exec]
      refine (objectIn_sound hd hret hcalls hf hs ho (.inl ⟨c, hc⟩)).bind
        fun σ₁ r s₁ hσ₁ ⟨hr, hs₁⟩ => ?_
      refine (exprIn_sound hd hret hcalls (hf.mono hσ₁) hs₁ hv).bind
        fun σ₂ w s₂ hσ₂ ⟨hw, hs₂⟩ => ?_
      have hr₂ := hc ▸ hr.mono hσ₂
      exact (keep_sound hs₂ (setField_sound hd hr₂ hfield (hw.assign ha)) fun _ h => ⟨level, h⟩).bind
        fun σ₃ _ s₃ _ h => goOn_sound h.2
  | .setStatic _ c name v, h => by
      obtain ⟨field, hfield, _, hv, ha⟩ := h
      simp only [exec]
      refine (exprIn_sound hd hret hcalls hf hs hv).bind fun σ₁ w s₁ _ ⟨hw, hs₁⟩ => ?_
      exact (keep_sound hs₁ (setStatic_sound hd hfield (hw.assign ha)) fun _ h => ⟨level, h⟩).bind
        fun σ₂ _ s₂ _ h => goOn_sound h.2
  | .setIndex _ a i v, h => by
      obtain ⟨⟨harr, hi, hint⟩, t, ht, hv, ha⟩ := h
      simp only [exec]
      refine (objectIn_sound hd hret hcalls hf hs harr (.inr ⟨t, ht⟩)).bind
        fun σ₁ r s₁ hσ₁ ⟨hr, hs₁⟩ => ?_
      refine (keep_sound hs₁ (evalInt_sound hd hret hcalls ((hf.mono hσ₁).inScope hs₁) hi hint)
        fun _ h => ⟨level, h⟩).bind fun σ₂ n s₂ hσ₂ ⟨_, hs₂⟩ => ?_
      refine (exprIn_sound hd hret hcalls (hf.mono (hσ₁.trans hσ₂)) hs₂ hv).bind
        fun σ₃ w s₃ hσ₃ ⟨hw, hs₃⟩ => ?_
      have hr₃ := ht ▸ hr.mono (hσ₂.trans hσ₃)
      exact (keep_sound hs₃ (setItem_sound hd hr₃ n (hw.assign ha)) fun _ h => ⟨level, h⟩).bind
        fun σ₄ _ s₄ _ h => goOn_sound h.2
  | .expr _ e, h => by
      simp only [exec]
      exact (exprIn_sound hd hret hcalls hf hs h).bind fun σ₁ w s₁ _ h => goOn_sound h.2
  | .branch _ c a b, h => by
      obtain ⟨⟨hc, hbool⟩, ha, hb⟩ := h
      simp only [exec]
      refine BlockSound.stmt ?_
      refine (keep_sound hs (evalBool_sound hd hret hcalls (hf.inScope hs) hc hbool)
        fun _ h => h).bind fun σ₁ x s₁ hσ₁ ⟨_, hs₁⟩ => ?_
      have hf₁ := hf.mono hσ₁
      cases x with
      | true =>
          refine BlockSound.weaken (StmtsSound.inBlock
            (exec_sound hd hret hcalls hf₁ (hs₁.enter .empty) ha).stmts) fun hx => ?_
          cases b with
          | none => simp [Typed.Stmt.exits] at hx
          | some b => exact ((Bool.and_eq_true _ _).mp (by simpa [Typed.Stmt.exits] using hx)).1
      | false =>
          refine BlockSound.weaken (execElse_sound hd hret hcalls hf₁ hs₁ hb) fun hx => ?_
          cases b with
          | none => simp [Typed.Stmt.exits] at hx
          | some b => exact ((Bool.and_eq_true _ _).mp (by simpa [Typed.Stmt.exits] using hx)).2
  | .loop _ c body, h => by
      obtain ⟨⟨hc, hbool⟩, hbody⟩ := h
      simp only [exec]
      refine BlockSound.stmt ?_
      exact iterate_sound
        (fun hσ hs => condition_sound hd hret hcalls (hf.mono hσ) hs hc hbool)
        (fun hσ hs => StmtsSound.inBlock
          (exec_sound hd hret hcalls (hf.mono hσ) (hs.enter .empty) hbody).stmts)
        _ List.prefix_rfl hs
  | .ret _ v, h => by
      simp only [exec]
      refine (evalOr_sound hd hret hcalls hf hs h.2 fun hn => h.1 hn ▸ .void).bind
        fun σ₁ w s₁ _ ⟨hw, hs₁⟩ => .pure ?_
      exact ⟨⟨hw, level, hs₁⟩, fun h => by cases h⟩
  | .throw _ e, h => by
      obtain ⟨he, c, hc⟩ := h
      simp only [exec]
      refine (objectIn_sound hd hret hcalls hf hs he (.inl ⟨c, hc⟩)).bind
        fun σ₁ r s₁ _ ⟨hr, hs₁⟩ => .stop ?_ ⟨level, hs₁⟩
      rw [hc] at hr
      cases hr with
      | @inst _ d _ hr _ => exact ⟨d, hr⟩
  | .superCall .., _ => .pure ⟨⟨rfl, level, hs⟩, fun _ => hs⟩
  | .attempt _ body handlers cleanup, h => by
      obtain ⟨hbody, hhandlers, hcleanup⟩ := h
      simp only [exec]
      refine BlockSound.stmt (withCleanup_sound (catching_sound (StmtsSound.inBlock
        (execAll_sound hd hret hcalls hf (hs.enter .empty) hbody)) fun hσ hc hs' => ?_)
        fun hσ hs' => execCleanup_sound hd hret hcalls (hf.mono hσ) hs' hcleanup)
      refine (keep_sound hs' (classOf_sound hc) fun _ h => h).bind fun σ₂ _ s₂ hσ₂ ⟨heq, hs₂⟩ => ?_
      subst heq
      exact execHandlers_sound hd hret hcalls (hf.mono (hσ.trans hσ₂)) hs₂
        (Value.shape_mono hσ₂ hc) hhandlers
  | .block _ body, h => by
      simp only [exec]
      exact BlockSound.stmt (StmtsSound.inBlock
        (execAll_sound hd hret hcalls hf (hs.enter .empty) h))

theorem execAll_sound (hd : env.DeclaredBy p) (hret : env.ReturnsAgree)
    (hcalls : calls.Sound env) {σ : Shapes} (hf : f.Typed env σ (Γ.within []))
    {level : List (String × Ty)} {outer : List (List (String × Ty))} {s : Scopes}
    (hs : s.Typed env σ (level :: outer)) :
    ∀ {body : List Typed.Stmt}, Typed.Stmt.allFit env ret (Γ.within (level :: outer)) body →
      StmtsSound env σ ret (Typed.exitsAll body) outer s (execAll env calls f body)
  | [], _ => .pure ⟨rfl, level, hs⟩
  | st :: rest, h => by
      simp only [execAll]
      refine (exec_sound hd hret hcalls hf hs h.1).bind fun σ₁ flow s₁ hσ₁ ⟨⟨hflow, hs₁⟩, hn⟩ => ?_
      cases flow with
      | ret v span => exact .pure ⟨hflow, hs₁⟩
      | normal =>
          have hrest := execAll_sound hd hret hcalls (hf.mono hσ₁) (hn rfl)
            (within_after Γ level outer st ▸ h.2)
          refine hrest.mono (fun _ flow _ _ ⟨hflow', hs₂⟩ => ⟨hflow'.weaken fun hx => ?_, hs₂⟩)
            fun _ _ _ h => h
          cases rest with
          | nil => exact absurd (hflow.symm.trans hx) (by simp)
          | cons st' rest => exact hx

theorem execElse_sound (hd : env.DeclaredBy p) (hret : env.ReturnsAgree)
    (hcalls : calls.Sound env) {σ : Shapes} (hf : f.Typed env σ (Γ.within []))
    {levels : List (List (String × Ty))} {s : Scopes} (hs : s.Typed env σ levels) :
    ∀ {b : Option Typed.Stmt}, Typed.Stmt.elseFits env ret (Γ.within levels) b →
      BlockSound env σ ret (b.any Typed.Stmt.exits) levels s (execElse env calls f b)
  | none, _ => .pure ⟨rfl, hs⟩
  | some b, h => by
      simp only [execElse]
      exact StmtsSound.inBlock (exec_sound hd hret hcalls hf (hs.enter .empty) h).stmts

/-- The first handler that takes exceptions of the class has the exception in its variable. -/
theorem execHandlers_sound (hd : env.DeclaredBy p) (hret : env.ReturnsAgree)
    (hcalls : calls.Sound env) {σ : Shapes} (hf : f.Typed env σ (Γ.within []))
    {levels : List (List (String × Ty))} {s : Scopes} (hs : s.Typed env σ levels) {e : Ref}
    {c : String} (hc : σ[e]? = some (.inst c)) :
    ∀ {handlers : List Typed.Handler},
      Typed.Stmt.handlersFit env ret (Γ.within levels) handlers →
      BlockSound env σ ret (Typed.exitsHandlers handlers) levels s
        (execHandlers env calls f e c handlers)
  | [], _ => .stop ⟨c, hc⟩ hs
  | .mk d var body :: rest, h => by
      simp only [execHandlers]
      split
      · next hsub =>
          have hvar : Scopes.BlockTyped env σ [(var, .ofClass d)] (.ofList [(var, .ref e)]) :=
            Scopes.BlockTyped.empty.insert (.inst hc hsub)
          refine BlockSound.weaken (StmtsSound.inBlock
            (execAll_sound hd hret hcalls hf (hs.enter hvar) h.1)) fun hx => ?_
          exact ((Bool.and_eq_true _ _).mp (by simpa [Typed.exitsHandlers] using hx)).1
      · refine BlockSound.weaken
          (execHandlers_sound hd hret hcalls hf hs hc h.2) fun hx => ?_
        exact ((Bool.and_eq_true _ _).mp (by simpa [Typed.exitsHandlers] using hx)).2

theorem execCleanup_sound (hd : env.DeclaredBy p) (hret : env.ReturnsAgree)
    (hcalls : calls.Sound env) {σ : Shapes} (hf : f.Typed env σ (Γ.within []))
    {levels : List (List (String × Ty))} {s : Scopes} (hs : s.Typed env σ levels) :
    ∀ {cleanup : Option (List Typed.Stmt)},
      Typed.Stmt.cleanupFits env ret (Γ.within levels) cleanup →
      BlockSound env σ ret (Typed.exitsOpt cleanup) levels s (execCleanup env calls f cleanup)
  | none, _ => .pure ⟨rfl, hs⟩
  | some body, h => by
      simp only [execCleanup]
      exact StmtsSound.inBlock (execAll_sound hd hret hcalls hf (hs.enter .empty) h)

end

end

end Run

end Covenant
