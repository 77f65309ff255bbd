import Covenant.Proofs.CallChecks
import Covenant.Proofs.FittedBodies
import Covenant.Proofs.Purity
import Covenant.Proofs.SoundPrograms
import Covenant.Proofs.Traceless

/-!
# Pure accessors at work

The analysis takes a method for a pure accessor because of what the methods that it
calls look like as they are written. What runs is chosen by the class of the object.
So a pure accessor leaves everything that is there alone as far as each method that
may be chosen, on its behalf or on theirs, is taken for pure, too.
-/

namespace Covenant

open Typed (Context SiteOf)

/-- What is on a machine stays as it is. Objects may be added. -/
structure Machine.Kept (μ μ' : Machine) : Prop where
  objects : ∀ (r : Ref) (o : Obj), μ.heap[r]? = some o → μ'.heap[r]? = some o
  statics : μ'.statics = μ.statics

theorem Machine.Kept.refl (μ : Machine) : μ.Kept μ := ⟨fun _ _ h => h, rfl⟩

theorem Machine.Kept.trans {μ₁ μ₂ μ₃ : Machine} (h : μ₁.Kept μ₂) (h' : μ₂.Kept μ₃) :
    μ₁.Kept μ₃ :=
  ⟨fun r o ho => h'.objects r o (h.objects r o ho), h'.statics.trans h.statics⟩

namespace Run

variable {α β : Type} {env : Env} {σ : Shapes}

/-- The computation leaves what is there alone, on machines with these shapes, however it ends. -/
def Keeps (env : Env) (σ : Shapes) (x : Run α) : Prop :=
  ∀ ⦃μ⦄, μ.Typed env σ → ∀ ⦃r μ'⦄, x.ends μ = some (r, μ') → μ.Kept μ'

theorem throwNew_kept {className : String} {μ μ' : Machine} {r : Except Unwind α}
    (h : (throwNew className : Run α).ends μ = some (r, μ')) : μ.Kept μ' := by
  cases h
  refine ⟨fun r o ho => ?_, rfl⟩
  show (μ.heap.push _)[r]? = some o
  obtain ⟨hlt, _⟩ := Array.getElem?_eq_some_iff.mp ho
  rw [Array.getElem?_push_lt hlt, ← Array.getElem?_eq_getElem hlt, ho]

namespace Keeps

theorem of_reads {x : Run α} (h : Reads x) : Keeps env σ x := by
  intro μ _ r μ' hr
  rcases h μ with ⟨r', hr'⟩ | ⟨className, hr'⟩
  · cases hr'.symm.trans hr
    exact .refl μ
  · exact throwNew_kept (hr'.symm.trans hr)

theorem pure (a : α) : Keeps env σ (Pure.pure a) := .of_reads (.pure a)

theorem stop (u : Unwind) : Keeps env σ (Run.stop u : Run α) := .of_reads (.stop u)

theorem exhausted : Keeps env σ (Run.exhausted : Run α) := by
  rintro μ _ _ _ ⟨⟩

/-- A sequence leaves things alone if its parts do; what the first part yields is known from its
soundness. -/
theorem bind {x : Run α} {f : α → Run β} {Q : Shapes → α → Prop} (hx : Keeps env σ x)
    (hs : Sound env σ x Q) (hf : ∀ σ' a, σ <+: σ' → Q σ' a → Keeps env σ' (f a)) :
    Keeps env σ (x >>= f) := by
  intro μ hμ r μ' h
  rcases ends_bind_eq_some.mp h with ⟨u, hu, _⟩ | ⟨a, μ₁, ha, hb⟩
  · exact hx hμ hu
  · obtain ⟨σ₁, hσ₁, hμ₁, hQ⟩ := hs hμ ha
    exact (hx hμ ha).trans (hf σ₁ a hσ₁ hQ hμ₁ hb)

end Keeps

end Run

/-- Calls of the member leave what is there alone. -/
def Calls.Keep (env : Env) (calls : Calls) (m : MethodInfo) : Prop :=
  ∀ {σ : Shapes} {this : Option Ref} {args : List Value}, m.Receives env σ this →
    Value.HaveTypes env σ args m.paramTypes → Run.Keeps env σ (calls.invoke m.id this args)

/-! ## What may run -/

namespace Env

/-- What may be invoked for a call, by the class of its object. -/
def targets (env : Env) : Typed.Expr → List DeclId
  | .call _ _ _ none m _ _ => [m]
  | .call _ _ _ (some o) m _ _ =>
    (env.classes.keys.filter fun c => env.isAssignable (.ofClass c) o.type).map (env.dispatch · m)
  | _ => []

/-- What may be invoked for what a method returns. -/
def mayInvoke (env : Env) (id : DeclId) : List DeclId :=
  (((env.body? id).bind Effect.returnedExpr?).map fun e => e.parts.flatMap env.targets).getD []

end Env

/-- Evaluation of the expression creates and passes nothing, and all that it may invoke leaves what
is there alone. -/
def Calls.Quiet (env : Env) (calls : Calls) (e : Typed.Expr) : Prop :=
  ∀ x ∈ e.parts, Effect.createsOrPasses x = false ∧
    ∀ d ∈ env.targets x, ∀ m, env.method? d = some m → calls.Keep env m

namespace Run

section

variable {env : Env} {p : Surface.Program} {calls : Calls} {σ : Shapes} (hd : env.DeclaredBy p)
  (hret : env.ReturnsAgree) (hcalls : calls.Sound env)
  (hrecheck : ∀ (σ : Shapes) caller site this args,
    Keeps env σ (calls.recheck caller site this args))

include hd hret hcalls hrecheck

/-- A call leaves what is there alone if what it invokes does. -/
theorem callMethod_keeps {m : MethodInfo} (hm : env.method? m.id = some m)
    (hc : m.isConstructor = false) (caller : DeclId) {site : SiteId} (hsite : SiteOf env site m.id)
    {this : Option Ref} (hstatic : m.isStatic = true → this = none)
    (hthis : m.Receives env σ this) {args : List Value}
    (hargs : Value.HaveTypes env σ args m.paramTypes)
    (hkeep : ∀ μ, μ.Typed env σ → ∀ d, env.method? d.id = some d →
      env.target μ m.id this = d.id → calls.Keep env d) :
    Keeps env σ (callMethod env calls caller site m.id this args) := by
  intro μ hμ r μ' h
  rw [show caller = (Frame.start caller this args).decl from rfl, ends_callMethod] at h
  obtain ⟨⟨x, μ₁⟩, hx, hrest⟩ := Option.bind_eq_some_iff.mp h
  obtain ⟨d, hdm, htarget, hparams, hrec⟩ : ∃ d, env.method? d.id = some d ∧
      env.target μ m.id this = d.id ∧ d.paramTypes = m.paramTypes ∧ d.Receives env σ this := by
    cases hs : m.isStatic with
    | true =>
        obtain rfl := hstatic hs
        exact ⟨m, hm, rfl, rfl, hthis⟩
    | false =>
        obtain ⟨r, c, rfl, hr, hsub⟩ := hthis hs
        obtain ⟨d, hdm, heq, hparams, hown, _⟩ := Env.dispatch_fits hd hret hm hs hc hsub
        refine ⟨d, hdm, ?_, hparams, fun _ => ⟨r, c, rfl, hr, hown⟩⟩
        rw [Env.target, hμ.heap.className? hr]
        exact heq
  rw [htarget] at hx
  have hargs' := hparams ▸ hargs
  have hkept := hkeep μ hμ d hdm htarget hrec hargs' hμ hx
  obtain ⟨σ₁, hσ₁, hμ₁, _⟩ := hcalls.invoke hdm hrec hargs' hμ hx
  have checked : Sound env σ₁ (calls.recheck caller site this args) fun _ _ => True :=
    hcalls.recheck hm hsite (hthis.mono hσ₁) (hargs.mono hσ₁)
  refine hkept.trans ?_
  cases x with
  | ok v =>
      exact Keeps.bind (hrecheck σ₁ caller site this args) checked (fun _ _ _ _ => .pure _) hμ₁ hrest
  | error u =>
      cases u with
      | throw e =>
          exact Keeps.bind (hrecheck σ₁ caller site this args) checked (fun _ _ _ _ => .stop _) hμ₁
            hrest
      | violation v | fatal e =>
          cases hrest
          exact .refl _

/-- Evaluation leaves what is there alone if all that it may invoke does. -/
theorem eval_keeps {f : Frame} {Γ : Context} {σ : Shapes} (hf : f.Typed env σ Γ) :
    ∀ {e : Typed.Expr}, e.Fits env Γ → calls.Quiet env e → Keeps env σ (eval env calls f e)
  | .int .., _, _ | .bool .., _, _ | .null _, _, _ | .result .., _, _ => .pure _
  | .old .., _, _ | .spread .., _, _ => .stop _
  | .this .., _, _ | .var .., _, _ | .param .., _, _ | .slot .., _, _ => by
      rw [eval]
      split
      · exact .pure _
      · exact .stop _
  | .staticField .., _, _ => .of_reads (getStatic_reads env _ _)
  | .field _ _ o name, he, hq => by
      have ho := (List.forall_mem_cons.mp hq).2
      rw [eval]
      exact (eval_keeps hf he.1 ho).bind (eval_sound hd hret hcalls hf he.1) fun _ v _ _ =>
        .of_reads ((asObject_reads v).bind fun r => getField_reads r name)
  | .length _ a, he, hq => by
      have ha := (List.forall_mem_cons.mp hq).2
      rw [eval]
      exact (eval_keeps hf he.1 ha).bind (eval_sound hd hret hcalls hf he.1) fun _ v _ _ =>
        .of_reads ((asObject_reads v).bind arrayLength_reads)
  | .index _ t a i, he, hq => by
      obtain ⟨ha, hi⟩ := List.forall_mem_append.mp (List.forall_mem_cons.mp hq).2
      obtain ⟨⟨hfa, hta⟩, hfi, _⟩ := he
      rw [eval]
      refine (eval_keeps hf hfa ha).bind (eval_sound hd hret hcalls hf hfa) fun σ₁ v hσ₁ hv => ?_
      rw [hta] at hv
      refine (Keeps.of_reads (asObject_reads v)).bind (asObject_sound hd hv (.inr ⟨t, rfl⟩))
        fun σ₂ r hσ₂ _ => ?_
      have hf := hf.mono (hσ₁.trans hσ₂)
      exact (eval_keeps hf hfi hi).bind (eval_sound hd hret hcalls hf hfi) fun _ w _ _ =>
        .of_reads ((asInt_reads w).bind (getItem_reads r))
  | .unary _ op x, he, hq => by
      have hx := (List.forall_mem_cons.mp hq).2
      rw [eval]
      exact (eval_keeps hf he.1 hx).bind (eval_sound hd hret hcalls hf he.1) fun _ v _ _ =>
        .of_reads (applyUnary_reads op v)
  | .binary _ op l r, he, hq => by
      obtain ⟨hl, hr⟩ := List.forall_mem_append.mp (List.forall_mem_cons.mp hq).2
      obtain ⟨⟨hfl, hfr⟩, hop⟩ := he
      have left := eval_keeps hf hfl hl
      have leftSound := eval_sound hd hret hcalls hf hfl
      have right {σ₁ : Shapes} (hσ₁ : σ <+: σ₁) : Keeps env σ₁ (eval env calls f r) :=
        eval_keeps (hf.mono hσ₁) hfr hr
      have rightSound {σ₁ : Shapes} (hσ₁ : σ <+: σ₁) :=
        eval_sound hd hret hcalls (hf.mono hσ₁) hfr
      -- The right operand of `and` and `or` may not be evaluated.
      by_cases hlogic : op = .and ∨ op = .or
      · have decides {σ₁ : Shapes} (hσ₁ : σ <+: σ₁) : Keeps env σ₁
            (eval env calls f r >>= fun v => asBool v >>= fun b => pure (Value.bool b)) :=
          (right hσ₁).bind (rightSound hσ₁) fun _ v _ _ =>
            .of_reads ((asBool_reads v).bind fun b => .pure _)
        have hbool : l.type = .boolean := by
          rcases hlogic with rfl | rfl <;> exact Env.eq_boolean_of_isAssignable hop.1
        rcases hlogic with rfl | rfl
        all_goals
          rw [eval]
          refine left.bind leftSound fun σ₁ v hσ₁ hv => ?_
          refine (Keeps.of_reads (asBool_reads v)).bind (asBool_sound (hbool ▸ hv))
            fun σ₂ b hσ₂ _ => ?_
          cases b
          · first
            | exact .pure _
            | exact decides (hσ₁.trans hσ₂)
          · first
            | exact decides (hσ₁.trans hσ₂)
            | exact .pure _
      · rw [not_or] at hlogic
        rw [eval.eq_13 env calls f _ op l r hlogic.1 hlogic.2]
        exact left.bind leftSound fun σ₁ v hσ₁ _ => (right hσ₁).bind (rightSound hσ₁)
          fun _ w _ _ => .of_reads (applyBinary_reads op v w)
  | .call span t site receiver id name args, he, hq => by
      obtain ⟨⟨hplain, htargets⟩, hparts⟩ := List.forall_mem_cons.mp hq
      obtain rfl : args = [] := by simpa [Effect.createsOrPasses] using hplain
      obtain ⟨⟨hrec, _⟩, m, hm⟩ := he
      have hmethod := hm.method
      obtain rfl := (hd.method_cases id m hmethod).1
      have hargs {σ : Shapes} : Value.HaveTypes env σ [] m.paramTypes := hm.args.haveTypes .nil
      simp only [eval, evalAll, pure_bind]
      cases receiver with
      | none =>
          have hs := hm.static rfl
          simp only [evalReceiver, pure_bind]
          refine callMethod_keeps hd hret hcalls hrecheck hmethod hm.isMethod f.decl hm.site
            (fun _ => rfl) (fun h => absurd (hs.symm.trans h) (by simp)) hargs ?_
          exact fun _ _ d hdm htarget => htargets m.id (List.mem_singleton.mpr rfl) d
            ((show m.id = d.id from htarget) ▸ hdm)
      | some o =>
          obtain ⟨hinstance, k, hk, hsub⟩ := hm.receiver o rfl
          have ho := (List.forall_mem_append.mp hparts).1
          simp only [evalReceiver, bind_assoc, pure_bind]
          refine (eval_keeps hf hrec ho).bind (eval_sound hd hret hcalls hf hrec)
            fun σ₁ v hσ₁ hv => ?_
          refine (Keeps.of_reads (asObject_reads v)).bind (asObject_sound hd hv (.inl ⟨k, hk⟩))
            fun σ₂ r hσ₂ hr => ?_
          have hthis : m.Receives env σ₂ (some r) := hm.receives ⟨r, rfl, hr⟩
          refine callMethod_keeps hd hret hcalls hrecheck hmethod hm.isMethod f.decl hm.site
            (fun h => absurd (hinstance.symm.trans h) (by simp)) hthis hargs ?_
          intro μ hμ d hdm htarget
          rw [hk] at hr
          cases hr with
          | @inst _ c _ hr hck =>
              rw [Env.target, hμ.heap.className? hr] at htarget
              obtain ⟨info, hinfo, _⟩ := hd.type_of_method hmethod hm.isMethod
              obtain ⟨i, hi⟩ := Env.known_of_isSubtype hinfo (Env.isSubtype_trans hck hsub)
              refine htargets d.id (List.mem_map.mpr ⟨c, List.mem_filter.mpr ⟨?_, ?_⟩, htarget⟩) d hdm
              · exact List.mem_map.mpr ⟨_, Table.mem_of_get? hi, rfl⟩
              · rw [hk]
                exact Env.isAssignable_ofClass hck
  | .new .., _, hq => absurd (hq _ List.mem_cons_self).1 (by simp [Effect.createsOrPasses])
  | .newArray .., _, hq => absurd (hq _ List.mem_cons_self).1 (by simp [Effect.createsOrPasses])

end

/-! ## Members without checks -/

section

variable {p : WovenProgram} {calls : Calls} {m : MethodInfo} {f : Frame} {μ μ' : Machine}
  {r : Except Unwind Value}

theorem leave_unchecked (hnone : p.checks = []) {c : Except Unwind Flow}
    (h : (leave p calls f c).ends μ = some (r, μ')) : μ' = μ := by
  have hcodes (id : DeclId) (point : ProgramPoint) : p.codesAt id point = [] := by
    rw [WovenProgram.codesAt, hnone]
    rfl
  cases c with
  | ok flow =>
      simp only [leave, hcodes] at h
      obtain ⟨_, _, _, hx, h⟩ := ends_withState_bind.mp h
      cases hx
      cases h
      rfl
  | error u =>
      cases u with
      | throw e =>
          simp only [leave, hcodes] at h
          obtain ⟨_, _, _, hx, h⟩ := ends_withState_bind.mp h
          cases hx
          cases h
          rfl
      | violation | fatal =>
          cases h
          rfl

/-- Without checks an invocation runs the body and nothing else. -/
theorem activate_unchecked (hnone : p.checks = []) {this : Option Ref} {args : List Value}
    (h : (activate p calls m this args).ends μ = some (r, μ')) :
    ∃ c s, (runBody p.env calls
      { Frame.start m.id this args with scopes := paramScopes m args, slots := .empty } m).ends
        (paramScopes m args) μ = some ((c, s), μ') := by
  have hcodes (id : DeclId) (point : ProgramPoint) : p.codesAt id point = [] := by
    rw [WovenProgram.codesAt, hnone]
    rfl
  rw [activate] at h
  simp only [hcodes] at h
  obtain ⟨_, _, _, hx, h⟩ := ends_withState_bind.mp h
  cases hx
  obtain ⟨c, s, μ₁, hbody, hleave⟩ := ends_withState_bind.mp h
  obtain rfl := leave_unchecked hnone hleave
  exact ⟨c, s, hbody⟩

theorem invokeWith_keeps {env : Env} {σ : Shapes} {limit : Nat} {this : Option Ref}
    {args : List Value} (hm : p.env.method? m.id = some m)
    (h : Keeps env σ (activate p calls m this args)) :
    Keeps env σ (invokeWith p limit calls m.id this args) := by
  intro μ hμ r μ' hr
  simp only [invokeWith, hm] at hr
  rw [ends_bind_ok (ends_get μ)] at hr
  split at hr
  · cases hr
    exact .refl μ
  · rw [ends_deeper] at hr
    obtain ⟨⟨_, μ₁⟩, hx, heq⟩ := Option.map_eq_some_iff.mp hr
    cases heq
    obtain ⟨hobjects, hstatics⟩ := h hμ.enter hx
    exact ⟨hobjects, hstatics⟩

/-- A body that returns an expression only evaluates it. -/
theorem ends_returning {env : Env} {body : List Typed.Stmt} {e : Typed.Expr}
    (hbody : Effect.returnedExpr? body = some e) {s s' : Scopes} {c : Except Unwind Flow}
    (h : (execAll env calls f body).ends s μ = some ((c, s'), μ')) :
    ∃ x, (eval env calls { f with scopes := s } e).ends μ = some (x, μ') := by
  rw [Effect.returnedExpr?.eq_def] at hbody
  split at hbody
  · next span e' =>
      cases hbody
      have value {c : Except Unwind Flow} {s' : Scopes} {μ' : Machine}
          (h : (exec env calls f (.ret span (some e))).ends s μ = some ((c, s'), μ')) :
          ∃ x, (eval env calls { f with scopes := s } e).ends μ = some (x, μ') := by
        rw [exec, evalOr] at h
        have evaluated {o : Except Unwind Value × Scopes} {μ₁ : Machine}
            (h : (inScope f (eval env calls · e)).ends s μ = some (o, μ₁)) :
            ∃ x, (eval env calls { f with scopes := s } e).ends μ = some (x, μ₁) := by
          rw [RunWith.ends_inScope] at h
          obtain ⟨⟨x, _⟩, hx, heq⟩ := Option.map_eq_some_iff.mp h
          cases heq
          exact ⟨x, hx⟩
        rcases RunWith.ends_bind_eq_some.mp h with ⟨u, hu, _⟩ | ⟨v, s₁, μ₁, hv, hend⟩
        · exact evaluated hu
        · cases hend
          exact evaluated hv
      rw [execAll] at h
      rcases RunWith.ends_bind_eq_some.mp h with ⟨u, hu, _⟩ | ⟨flow, s₁, μ₁, hflow, hrest⟩
      · exact value hu
      · cases flow with
        | normal | ret =>
            cases hrest
            exact value hflow
  · cases hbody

end

/-! ## Pure accessors -/

section

variable {env : Env} {source : Surface.Program} {limit : Nat}

/-- What is placed nowhere fits. -/
theorem fits_unchecked (hb : env.BodiesFit) : WovenProgram.Fits ⟨env, []⟩ where
  bodies := hb
  members _ _ := ⟨[], nofun, .inl rfl, nofun, nofun⟩
  calls _ _ _ _ _ := nofun

theorem recheck_keeps {σ : Shapes} (bound : Nat) (caller : DeclId) (site : SiteId)
    (this : Option Ref) (args : List Value) :
    Keeps env σ ((Run.calls ⟨env, []⟩ limit bound).recheck caller site this args) := by
  cases bound with
  | zero => exact .exhausted
  | succ n => exact .pure _

/-- The body of a pure accessor leaves what is there alone if all that it may invoke does. -/
theorem body_keeps {calls : Calls} (hd : env.DeclaredBy source) (hret : env.ReturnsAgree)
    (hb : env.BodiesFit) (hcalls : calls.Sound env)
    (hrecheck : ∀ (σ : Shapes) caller site this args,
      Keeps env σ (calls.recheck caller site this args))
    {m : MethodInfo} (hm : env.method? m.id = some m) {specs : Table DeclId Specification}
    {returned : Option Typed.Expr} (hform : Effect.PureForm env specs m.id returned)
    (hquiet : ∀ e, returned = some e → calls.Quiet env e) {σ : Shapes} {f : Frame}
    (hf : f.Active env σ m) {s : Scopes} (hs : s.Typed env σ [m.params.reverse]) {μ μ' : Machine}
    (hμ : μ.Typed env σ) {c : Except Unwind Flow} {s' : Scopes}
    (h : (runBody env calls f m).ends s μ = some ((c, s'), μ')) : μ.Kept μ' := by
  have accessor {m' : MethodInfo} (hm' : env.method? m.id = some m')
      (hacc : Effect.isAccessorForm m' = true) : m' = m ∧ m.isConstructor = false := by
    have heq := Option.some.inj (hm'.symm.trans hm)
    simp only [Effect.isAccessorForm, Bool.and_eq_true, Bool.not_eq_true'] at hacc
    exact ⟨heq, heq ▸ hacc.1.1.2⟩
  cases hform with
  | declared hm' hform hbody =>
      obtain ⟨rfl, hc⟩ := accessor hm' hform
      simp only [runBody, hc, runMethod, hbody, Bool.false_eq_true, if_false] at h
      obtain ⟨h, _⟩ := RunWith.ends_keep_eq_some.mp h
      refine Keeps.of_reads (σ := σ) ?_ hμ h
      split
      · exact (classOf_reads _).bind fun _ => .stop _
      · exact .stop _
  | @returns m' e hm' hform hbody hreturned hplain =>
      obtain ⟨rfl, hc⟩ := accessor hm' hform
      obtain ⟨body, hbody', hreturned⟩ := Option.bind_eq_some_iff.mp hreturned
      simp only [runBody, hc, runMethod, hbody, hbody', Bool.false_eq_true, if_false, if_true] at h
      obtain ⟨x, hx⟩ := ends_returning hreturned h
      have hframe : Frame.Typed env σ (.ofMember m') { f with scopes := s } :=
        ofMember_within ▸ (ofMember_typed hf).inScope hs
      have hfit : e.Fits env (.ofMember m') := by
        rw [Effect.returnedExpr?.eq_def] at hreturned
        split at hreturned
        · cases hreturned
          exact ((hb.method m' _ hm hc hbody').1.1.2 e rfl).1
        · cases hreturned
      exact eval_keeps hd hret hcalls hrecheck hframe hfit (hquiet e rfl) hμ hx

/-- Where everything that may run is taken for pure, and what only inspects leaves what is there
alone, pure accessors do so, too. The induction is on the bound of calls. -/
theorem keep_of_pure (hd : env.DeclaredBy source) (hret : env.ReturnsAgree) (hb : env.BodiesFit)
    {specs : Table DeclId Specification}
    (hinspects : ∀ m, env.method? m.id = some m → Effect.InspectsOnly specs m.id →
      ∀ bound, (Run.calls ⟨env, []⟩ limit bound).Keep env m)
    {S : DeclId → Prop} (hpure : ∀ d, S d → Effect.isPure env specs d = true)
    (hclosed : ∀ d, S d → Effect.declaredEffects? specs d = none → ∀ d' ∈ env.mayInvoke d, S d')
    (bound : Nat) {m : MethodInfo} (hm : env.method? m.id = some m) (hS : S m.id) :
    (Run.calls ⟨env, []⟩ limit bound).Keep env m := by
  induction bound generalizing m with
  | zero => exact fun _ _ => .exhausted
  | succ n ih =>
      rcases Effect.isPure_cases (hpure m.id hS) with hins | ⟨hnone, returned, hform, _⟩
      · exact hinspects m hm hins (n + 1)
      · intro σ this args hthis hargs
        refine invokeWith_keeps (p := ⟨env, []⟩) hm fun μ hμ r μ' h => ?_
        obtain ⟨c, s, hbody⟩ := activate_unchecked rfl h
        refine body_keeps hd hret hb (calls_sound hd hret (fits_unchecked hb) limit n)
          (fun _ => recheck_keeps n) hm hform ?_ ⟨hthis, hargs⟩ (paramScopes_typed hargs) hμ hbody
        intro e he x hx
        subst he
        cases hform with
        | returns _ _ _ hreturned hplain =>
            refine ⟨hplain x hx, fun d hd' m' hm' => ?_⟩
            obtain rfl := hd.method_id hm'
            refine ih hm' (hclosed m.id hS hnone _ ?_)
            rw [Env.mayInvoke, hreturned]
            exact List.mem_flatMap.mpr ⟨x, hx, hd'⟩

end

end Run

/-- Calls of the member leave what is there alone, within any bound. -/
def WovenProgram.MutatesNothing (p : WovenProgram) (limit : Nat) (m : MethodInfo) : Prop :=
  ∀ bound, (Run.calls p limit bound).Keep p.env m

/-- A member may be invoked on behalf of a method: the method may invoke it for what it returns, or
another one may that is invoked on its behalf and declares nothing. -/
inductive RunsFor (env : Env) (specs : Table DeclId Specification) (g : DeclId) : DeclId → Prop
  | first {d} (h : d ∈ env.mayInvoke g) : RunsFor env specs g d
  | next {d d'} (before : RunsFor env specs g d)
      (undeclared : Effect.declaredEffects? specs d = none) (h : d' ∈ env.mayInvoke d) :
      RunsFor env specs g d'

/-- A pure accessor mutates nothing if members that only inspect mutate nothing and all that may be
invoked on its behalf is taken for pure, whatever class chooses it. -/
theorem accessor_mutates_nothing {source : String} {b : Build}
    (h : build source ⟨false, false, false, false⟩ = .ok b) (hret : b.program.env.ReturnsAgree)
    {limit : Nat}
    (hinspects : ∀ m, b.program.env.method? m.id = some m →
      Effect.InspectsOnly b.plan.specs m.id → b.program.MutatesNothing limit m)
    {g : MethodInfo} (hg : b.program.env.method? g.id = some g)
    (hpure : b.plan.effects.classOf g.id = .pureAccessor)
    (hruns : ∀ d, RunsFor b.program.env b.plan.specs g.id d →
      Effect.isPure b.program.env b.plan.specs d = true) :
    b.program.MutatesNothing limit g := by
  obtain ⟨p, hwf, hcheck⟩ := checkProgram_of_build h
  have hd := Env.declaredBy_of_check hwf hcheck
  obtain ⟨b₀, hb₀, hprogram⟩ := build_off h
  obtain rfl : b = b₀ := Except.ok.inj (h.symm.trans hb₀)
  rw [effects_of_build h] at hpure
  intro bound
  rw [hprogram] at hinspects ⊢
  refine Run.keep_of_pure (S := fun d => d = g.id ∨ RunsFor b.program.env b.plan.specs g.id d) hd
    hret (Typing.bodiesFit hwf hcheck) hinspects ?_ ?_ bound hg (.inl rfl)
  · rintro d (rfl | hrun)
    · exact (Effect.isPure_of_class hpure).2
    · exact hruns d hrun
  · rintro d (rfl | hrun) hnone d' hd'
    · exact .inr (.first hd')
    · exact .inr (.next hrun hnone hd')

/-- An accessor whose callee is overridden by another pure accessor. -/
def twiceSource : String :=
  "class Cell { int value; int get() { return value; } int twice() { return get() + get(); } }
   class Next extends Cell { int get() { return value + 1; } }
   class Main { static int main() { Cell c = new Next(); return c.twice(); } }"

/-- A machine with one object, of the subclass. -/
def twiceMachine : Machine := ⟨#[.inst "Next" (.ofList [("value", .int 0)])], .empty, 1⟩

/-- Evaluates what is said of `twiceSource`. -/
def twiceCheck : Option Bool := do
  let b ← (build twiceSource ⟨false, false, false, false⟩).toOption
  let env := b.program.env
  let g ← env.methodNamed? "Cell.twice"
  let (r, _) ← ((Run.calls b.program 8 8).invoke g.id (some 0) []).ends twiceMachine
  return decide (env.method? g.id = some g ∧ g.qualifiedName = "Cell.twice" ∧
    b.plan.effects.classOf g.id = .pureAccessor ∧ r = .ok (.int 2) ∧
    (∀ m ∈ env.methods.values, Effect.declaredEffects? b.plan.specs m.id = none) ∧
    (∀ d ∈ env.mayInvoke g.id, Effect.isPure env b.plan.specs d = true ∧ env.mayInvoke d = []) ∧
    ∀ m ∈ env.methods.values, m.isStatic = false → m.isConstructor = false →
      ∀ r ∈ env.classes.keys, env.isSubtype r m.owner = true →
        ∀ d ∈ env.method? (env.dispatch r m.id), d.hasBody = true →
          env.isAssignable d.returnType m.returnType = true)

theorem accessor_mutates_nothing_twice :
    ∃ (b : Build) (g : MethodInfo) (μ μ' : Machine),
      build twiceSource ⟨false, false, false, false⟩ = .ok b ∧
        b.program.env.method? g.id = some g ∧ g.qualifiedName = "Cell.twice" ∧
        b.plan.effects.classOf g.id = .pureAccessor ∧ μ.heap.className? 0 = some "Next" ∧
        ((Run.calls b.program 8 8).invoke g.id (some 0) []).ends μ = some (.ok (.int 2), μ') ∧
        b.program.MutatesNothing 8 g := by
  have h : twiceCheck = some true := by
    set_option maxRecDepth 20000 in
    rw [twiceCheck, show twiceSource = String.ofList _ from rfl, build_ofList]
    decide +kernel
  simp only [twiceCheck, Option.bind_eq_bind, Option.bind_eq_some_iff] at h
  obtain ⟨b, hb, g, _, ⟨r, μ'⟩, hinvoke, h⟩ := h
  simp only [Option.pure_def, Option.some.injEq, decide_eq_true_eq] at h
  obtain ⟨hg, hname, hpure, rfl, hundeclared, hruns, hreturns⟩ := h
  have hb := ok_of_toOption hb
  obtain ⟨p, hd⟩ := declaredBy_of_build hb
  refine ⟨b, g, twiceMachine, μ', hb, hg, hname, hpure, rfl, hinvoke, ?_⟩
  refine accessor_mutates_nothing hb (hd.returnsAgree hreturns) ?_ hg hpure ?_
  · rintro m hm ⟨e, he, _⟩
    have hnone := hundeclared m (List.mem_map.mpr ⟨_, Table.mem_of_get? hm, rfl⟩)
    exact absurd (hnone.symm.trans he) (by simp)
  · intro d hrun
    -- What `get` returns invokes nothing, whichever implementation it is.
    have hfirst : d ∈ b.program.env.mayInvoke g.id := by
      induction hrun with
      | first h => exact h
      | next _ _ h ih =>
          rw [(hruns _ ih).2] at h
          exact absurd h List.not_mem_nil
    exact (hruns d hfirst).1

/-- An accessor whose callee is overridden by a method that counts. -/
def countingOverrideSource : String :=
  "class Base { int calls; int one() { return 1; } int get() { return one(); } }
   class Sub extends Base { int one() { calls = calls + 1; return 1; } }
   class Main { static int main() { Base b = new Sub(); b.get(); return b.calls; } }"

/-- Evaluates what is said of `countingOverrideSource`. -/
def countingOverrideCheck : Option Bool := do
  let b ← (build countingOverrideSource ⟨false, false, false, false⟩).toOption
  let main ← b.program.env.methodNamed? "Main.main"
  let g ← b.program.env.methodNamed? "Base.get"
  let (_, μ) ← Run.stateAt? b.program (Run.calls b.program 8 8) main 1
  let o ← μ.heap[0]?
  let (r, μ') ← ((Run.calls b.program 8 8).invoke g.id (some 0) []).ends μ
  return decide (g.hasBody = true ∧ b.plan.effects.classOf g.id = .pureAccessor ∧
    (∀ m ∈ b.program.env.methods.values,
      Effect.declaredEffects? b.plan.specs m.id = none) ∧
    μ.heap.className? 0 = some "Sub" ∧ b.program.env.isSubtype "Sub" g.owner = true ∧
    r = .ok (.int 1) ∧ μ'.heap[0]? ≠ some o)

/-- The accessor is taken for pure, no member only inspects, and a call of the accessor changes the
object that it is called on. -/
theorem accessor_mutates :
    ∃ (b : Build) (main g : MethodInfo) (f : Frame) (μ μ' : Machine) (object : Ref),
      build countingOverrideSource ⟨false, false, false, false⟩ = .ok b ∧
        b.program.env.methodNamed? "Base.get" = some g ∧ g.hasBody = true ∧
        b.plan.effects.classOf g.id = .pureAccessor ∧
        (∀ m, b.program.env.method? m.id = some m → ¬Effect.InspectsOnly b.plan.specs m.id) ∧
        Run.stateAt? b.program (Run.calls b.program 8 8) main 1 = some (f, μ) ∧
        μ.heap.className? object = some "Sub" ∧
        b.program.env.isSubtype "Sub" g.owner = true ∧
        ((Run.calls b.program 8 8).invoke g.id (some object) []).ends μ =
          some (.ok (.int 1), μ') ∧
        ¬μ.Kept μ' := by
  have h : countingOverrideCheck = some true := by
    set_option maxRecDepth 20000 in
    rw [countingOverrideCheck, show countingOverrideSource = String.ofList _ from rfl, build_ofList]
    decide +kernel
  simp only [countingOverrideCheck, Option.bind_eq_bind, Option.bind_eq_some_iff] at h
  obtain ⟨b, hb, main, _, g, hg, ⟨f, μ⟩, hstate, o, ho, ⟨r, μ'⟩, hinvoke, h⟩ := h
  simp only [Option.pure_def, Option.some.injEq, decide_eq_true_eq] at h
  obtain ⟨hbody, hpure, hundeclared, hclass, hsub, rfl, hchanged⟩ := h
  refine ⟨b, main, g, f, μ, μ', 0, ok_of_toOption hb, hg, hbody, hpure, ?_, hstate, hclass, hsub,
    hinvoke, fun hkept => hchanged (hkept.objects 0 o ho)⟩
  rintro m hm ⟨e, he, _⟩
  have hnone := hundeclared m (List.mem_map.mpr ⟨_, Table.mem_of_get? hm, rfl⟩)
  exact absurd (hnone.symm.trans he) (by simp)

end Covenant
