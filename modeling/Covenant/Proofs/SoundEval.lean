import Covenant.Proofs.Inheritance
import Covenant.Proofs.SoundRuns
import Covenant.Proofs.WellTyped
import Covenant.Run.Eval

/-!
# Evaluation keeps types

An expression that fits a context, evaluated in a frame that has what the context
says, has a value of its type, and nothing goes wrong on the way. That much is
asked of calls and of the checks behind them; then `eval_sound` follows the
expression. Dispatch is where it needs more than typing has checked: the
implementation that runs has to return what the caller sees.
-/

namespace Covenant

open Typed (Context SiteOf ArgsFit CallTyped ConstructorTyped)

/-! ## Frames and calls -/

/-- A frame has what the names of a context stand for. -/
structure Frame.Typed (env : Env) (σ : Shapes) (Γ : Context) (f : Frame) : Prop where
  this : ∀ c, Γ.this = some c →
    ∃ r d, f.this = some r ∧ σ[r]? = some (.inst d) ∧ env.isSubtype d c = true
  locals : ∀ name t, Γ.locals.lookup name = some t →
    ∃ v, f.scopes.get? name = some v ∧ v.HasType env σ t
  params : ∀ (i : Nat) t, Γ.params[i]? = some t → ∃ v, f.args[i]? = some v ∧ v.HasType env σ t
  result : ∀ t, Γ.result = some t → f.result.HasType env σ t
  slots : ∀ (n : Nat) t, Γ.slots[n]? = some t →
    ∃ v, f.slots.get? n = some v ∧ v.HasType env σ t
  noOld : Γ.hasOld = false
  noSpread : Γ.hasSpread = false

theorem Frame.Typed.mono {env : Env} {σ σ' : Shapes} {Γ : Context} {f : Frame} (hσ : σ <+: σ')
    (h : f.Typed env σ Γ) : f.Typed env σ' Γ where
  this c hc := by
    obtain ⟨r, d, hf, hr, hs⟩ := h.this c hc
    exact ⟨r, d, hf, Value.shape_mono hσ hr, hs⟩
  locals name t ht := by
    obtain ⟨v, hget, hv⟩ := h.locals name t ht
    exact ⟨v, hget, hv.mono hσ⟩
  params i t ht := by
    obtain ⟨v, hget, hv⟩ := h.params i t ht
    exact ⟨v, hget, hv.mono hσ⟩
  result t ht := (h.result t ht).mono hσ
  slots n t ht := by
    obtain ⟨v, hget, hv⟩ := h.slots n t ht
    exact ⟨v, hget, hv.mono hσ⟩
  noOld := h.noOld
  noSpread := h.noSpread

/-- A declaration that has just become active has its object, and nothing else. -/
theorem Frame.Typed.start {env : Env} {σ : Shapes} {this : Option String} {decl : DeclId}
    {object : Option Ref} {args : List Value}
    (h : ∀ c, this = some c → ∃ r, object = some r ∧ (Value.ref r).HasType env σ (.ofClass c)) :
    Frame.Typed env σ (.ofBody this []) (Frame.start decl object args) where
  this c hc := by
    obtain ⟨r, rfl, hr⟩ := h c hc
    cases hr with
    | inst hr hs => exact ⟨r, _, rfl, hr, hs⟩
  locals _ _ ht := absurd ht (by simp [Context.ofBody])
  params _ _ ht := absurd ht (by simp [Context.ofBody])
  result _ ht := absurd ht (by simp [Context.ofBody])
  slots _ _ ht := absurd ht (by simp [Context.ofBody])
  noOld := rfl
  noSpread := rfl

/-- A member is given an object of its class if it works on one. -/
def MethodInfo.Receives (env : Env) (σ : Shapes) (m : MethodInfo) (this : Option Ref) : Prop :=
  m.isStatic = false →
    ∃ r c, this = some r ∧ σ[r]? = some (.inst c) ∧ env.isSubtype c m.owner = true

theorem MethodInfo.Receives.mono {env : Env} {σ σ' : Shapes} {m : MethodInfo} {this : Option Ref}
    (hσ : σ <+: σ') (h : m.Receives env σ this) : m.Receives env σ' this := by
  intro hs
  obtain ⟨r, c, hthis, hr, hsub⟩ := h hs
  exact ⟨r, c, hthis, Value.shape_mono hσ hr, hsub⟩

/-- What a member yields: a value of its type. A method without a body yields nothing. -/
def MethodInfo.Yields (env : Env) (σ : Shapes) (m : MethodInfo) (v : Value) : Prop :=
  v.HasType env σ m.returnType ∧ (m.isConstructor = false → m.hasBody = true)

/-- Calls keep types: what is given a receiver and arguments that fit yields what it says, and what
is checked behind the call of a member with such a receiver and arguments does no harm. -/
structure Calls.Sound (env : Env) (calls : Calls) : Prop where
  invoke : ∀ {σ : Shapes} {m : MethodInfo} {this : Option Ref} {args : List Value},
    env.method? m.id = some m → m.Receives env σ this →
    Value.HaveTypes env σ args m.paramTypes →
    Run.Sound env σ (calls.invoke m.id this args) fun σ' v => m.Yields env σ' v
  recheck : ∀ {σ : Shapes} {m : MethodInfo} {caller : DeclId} {site : SiteId}
    {this : Option Ref} {args : List Value},
    env.method? m.id = some m → SiteOf env site m.id → m.Receives env σ this →
    Value.HaveTypes env σ args m.paramTypes →
    Run.Sound env σ (calls.recheck caller site this args) fun _ _ => True

/-- The implementation that runs when a method is called on an object of a subtype returns what the
caller sees. -/
def Env.ReturnsAgree (env : Env) : Prop :=
  ∀ m d r, env.method? m.id = some m → m.isStatic = false → m.isConstructor = false →
    env.isSubtype r m.owner = true → env.method? (env.dispatch r m.id) = some d →
    d.hasBody = true → env.isAssignable d.returnType m.returnType = true

/-- The subtypes of a known type are known. -/
theorem Env.known_of_isSubtype {env : Env} {a b : String} {info : ClassInfo}
    (hb : env.class? b = some info) (hs : env.isSubtype a b = true) :
    ∃ i, env.class? a = some i := by
  rcases Relation.ReflTransGen.cases_head (reach_of_isSubtype hs) with rfl | ⟨_, ⟨i, hi, _⟩, _⟩
  · exact ⟨info, hb⟩
  · exact ⟨i, hi⟩

/-- Whether methods agree on what they return is decided by the types that there are. -/
theorem Env.DeclaredBy.returnsAgree {env : Env} {p : Surface.Program} (hd : env.DeclaredBy p)
    (h : ∀ m ∈ env.methods.values, m.isStatic = false → m.isConstructor = false →
      ∀ r ∈ env.classes.keys, env.isSubtype r m.owner = true →
        ∀ d ∈ env.method? (env.dispatch r m.id), d.hasBody = true →
          env.isAssignable d.returnType m.returnType = true) : env.ReturnsAgree := by
  intro m d r hm hs hc hr hdm hb
  obtain ⟨info, hi, _⟩ := hd.type_of_method hm hc
  obtain ⟨i, hi⟩ := Env.known_of_isSubtype hi hr
  exact h m (List.mem_map.mpr ⟨_, Table.mem_of_get? hm, rfl⟩) hs hc r
    (List.mem_map.mpr ⟨_, Table.mem_of_get? hi, rfl⟩) hr d hdm hb

/-- The method with a body that runs when a method is called on an object of a class. -/
def Env.implementation? (env : Env) (r : String) (m : MethodInfo) : Option MethodInfo :=
  (((env.classChain r).flatMap (·.methods)).filterMap env.method?).find?
    fun x => x.hasBody && !x.isStatic && x.sameSignature m

/-- Methods of one signature have the same implementations. -/
theorem Env.implementation?_congr {env : Env} {m m' : MethodInfo} (r : String)
    (h : m.sameSignature m' = true) : env.implementation? r m = env.implementation? r m' := by
  obtain ⟨hname, hparams⟩ := MethodInfo.sameSignature_iff.mp h
  simp only [Env.implementation?, MethodInfo.sameSignature, hname, hparams]

section

variable {env : Env} {p : Surface.Program} (hd : env.DeclaredBy p) (hret : env.ReturnsAgree)
  {m : MethodInfo} {r : String} (hm : env.method? m.id = some m) (hs : m.isStatic = false)
  (hc : m.isConstructor = false) (hr : env.isSubtype r m.owner = true)

include hm hs hc

theorem Env.dispatch_eq : env.dispatch r m.id = (env.implementation? r m).elim m.id (·.id) := by
  simp only [Env.dispatch, hm, hs, hc, Bool.or_self]
  rfl

include hd hr

/-- A method with a body is an implementation of itself. -/
theorem Env.exists_implementation (hb : m.hasBody = true) :
    ∃ d, env.implementation? r m = some d := by
  cases hfind : env.implementation? r m with
  | some d => exact ⟨d, rfl⟩
  | none =>
      obtain ⟨info, hi, hid⟩ := hd.type_of_method hm hc
      obtain ⟨m', hm', howner, _, hsign⟩ := hd.method_of_type hi hid
      obtain rfl := Option.some.inj (hm.symm.trans hm')
      have hclass : info.isInterface = false := by
        by_contra hint
        exact absurd ((hsign (Bool.not_eq_false _ ▸ hint)).2.symm.trans hb) (by simp)
      have hchain := hd.mem_chain_of_isSubtype hi hclass hr
      refine absurd (List.find?_eq_none.mp hfind m ?_) ?_
      · exact List.mem_filterMap.mpr ⟨m.id, List.mem_flatMap.mpr ⟨info, hchain, hid⟩, hm⟩
      · simp [hb, hs, MethodInfo.sameSignature_iff]

include hret

/-- An implementation takes the same arguments, works on the object, and returns what the caller
sees. -/
theorem Env.implementation_fits {d : MethodInfo} (h : env.implementation? r m = some d) :
    env.method? d.id = some d ∧ d.paramTypes = m.paramTypes ∧ env.isSubtype r d.owner = true ∧
      env.isAssignable d.returnType m.returnType = true := by
  obtain ⟨id, _, hget⟩ := List.mem_filterMap.mp (List.mem_of_find?_eq_some h)
  obtain rfl := (hd.method_cases id d hget).1
  have hprop := List.find?_some h
  rw [Bool.and_eq_true, Bool.and_eq_true] at hprop
  have hget' : env.method? (env.dispatch r m.id) = some d := by
    rw [Env.dispatch_eq hm hs hc, h]
    exact hget
  obtain ⟨_, _, hsig, hsub⟩ := hd.dispatch_cases hm hs hc hr hget' hprop.1.1
  exact ⟨hget, (MethodInfo.sameSignature_iff.mp hsig).2, hsub,
    hret m d r hm hs hc hr hget' hprop.1.1⟩

/-- What is invoked when a method is called takes the same arguments, works on the object, and
returns what the caller sees. -/
theorem Env.dispatch_fits : ∃ d, env.method? d.id = some d ∧ env.dispatch r m.id = d.id ∧
    d.paramTypes = m.paramTypes ∧ env.isSubtype r d.owner = true ∧
    env.isAssignable d.returnType m.returnType = true := by
  have heq := Env.dispatch_eq hm hs hc (r := r)
  cases hfind : env.implementation? r m with
  | none =>
      rw [hfind] at heq
      exact ⟨m, hm, heq, rfl, hr, Env.isAssignable_refl⟩
  | some d =>
      rw [hfind] at heq
      obtain ⟨hdm, hfits⟩ := Env.implementation_fits hd hret hm hs hc hr hfind
      exact ⟨d, hdm, heq, hfits⟩

end

/-- The object in front of the dot of a call. -/
def ReceiverHas (env : Env) (σ : Shapes) (receiver : Option Typed.Expr) (this : Option Ref) :
    Prop :=
  match receiver with
  | none => this = none
  | some e => ∃ r, this = some r ∧ (Value.ref r).HasType env σ e.type

section

variable {env : Env} {σ : Shapes}

/-- Values of arguments can be taken for the parameters. -/
theorem Typed.ArgsFit.haveTypes {es : List Typed.Expr} {ts : List Ty} {vs : List Value}
    (h : ArgsFit env es ts) (hvs : Value.HaveTypes env σ vs (es.map (·.type))) :
    Value.HaveTypes env σ vs ts := by
  induction h generalizing vs with
  | nil => exact hvs
  | cons ha _ ih =>
      cases hvs with
      | cons hv hvs => exact .cons (hv.assign ha) (ih hvs)

/-- A method is given an object if it works on one. -/
theorem Typed.CallTyped.receives {m : MethodInfo} {t : Ty} {site : SiteId}
    {receiver : Option Typed.Expr} {id : DeclId} {name : String} {args : List Typed.Expr}
    (h : CallTyped env m t site receiver id name args) {this : Option Ref}
    (hthis : ReceiverHas env σ receiver this) : m.Receives env σ this := by
  intro hs
  cases receiver with
  | none => exact absurd (h.static rfl) (by simp [hs])
  | some e =>
      obtain ⟨r, rfl, hr⟩ := hthis
      obtain ⟨_, c, hc, hsub⟩ := h.receiver e rfl
      rw [hc] at hr
      cases hr with
      | @inst _ d _ hr hd => exact ⟨r, d, rfl, hr, Env.isSubtype_trans hd hsub⟩

end

namespace Run

section

variable {α : Type} {env : Env} {σ : Shapes}

theorem Sound.lift {x : Run α} {Q : Shapes → α → Prop} (hx : Sound env σ x Q) :
    Sound env σ (liftM x.run : Run (Except Unwind α)) fun σ' r => σ'.Admits (Q σ') r := by
  intro μ hμ r μ' h
  rw [ends_lift] at h
  obtain ⟨⟨r', μ₁⟩, hr, heq⟩ := Option.map_eq_some_iff.mp h
  obtain ⟨rfl, rfl⟩ := Prod.mk.inj heq
  obtain ⟨σ', hσ', hμ', hend⟩ := hx hμ hr
  exact ⟨σ', hσ', hμ', hend⟩

theorem classOf_sound {r : Ref} {c : String} (hr : σ[r]? = some (.inst c)) :
    Sound env σ (classOf r) fun _ a => a = c := by
  refine .get fun μ hμ => ?_
  rw [hμ.heap.className? hr]
  exact .pure rfl

variable {p : Surface.Program} (hd : env.DeclaredBy p) (hret : env.ReturnsAgree)
  {calls : Calls} (hcalls : calls.Sound env)

include hd hret hcalls

/-- A call yields what the caller sees, whatever runs. -/
theorem callMethod_sound {m : MethodInfo} (hm : env.method? m.id = some m)
    (hc : m.isConstructor = false) {caller : DeclId} {site : SiteId} (hsite : SiteOf env site m.id)
    {this : Option Ref} (hstatic : m.isStatic = true → this = none)
    (hthis : m.Receives env σ this) {args : List Value}
    (hargs : Value.HaveTypes env σ args m.paramTypes) :
    Sound env σ (callMethod env calls caller site m.id this args)
      fun σ' v => v.HasType env σ' m.returnType := by
  unfold callMethod
  extract_lets next
  -- What happens once the implementation has been chosen.
  have invoked {σ₁ : Shapes} {d : MethodInfo} (hσ₁ : σ <+: σ₁) (hdm : env.method? d.id = some d)
      (hparams : d.paramTypes = m.paramTypes) (hrec : d.Receives env σ₁ this)
      (hassign : env.isAssignable d.returnType m.returnType = true) :
      Sound env σ₁ (next d.id) fun σ' v => v.HasType env σ' m.returnType := by
    have hargs' := hparams ▸ hargs.mono hσ₁
    refine (hcalls.invoke hdm hrec hargs').lift.bind fun σ₂ r hσ₂ hr => ?_
    have hrecheck : Sound env σ₂ (calls.recheck caller site this args) fun _ _ => True :=
      hcalls.recheck hm hsite (hthis.mono (hσ₁.trans hσ₂)) (hargs.mono (hσ₁.trans hσ₂))
    cases r with
    | ok v =>
        refine hrecheck.bind fun σ₃ _ hσ₃ _ => .pure ?_
        exact (Value.HasType.assign hr.1 hassign).mono hσ₃
    | error u =>
        cases u with
        | throw e =>
            exact hrecheck.bind fun σ₃ _ hσ₃ _ => .stop (hr.mono hσ₃)
        | violation v => exact .stop hr
        | fatal e => exact .stop hr
  cases hs : m.isStatic with
  | true =>
      obtain rfl := hstatic hs
      exact invoked List.prefix_rfl hm rfl hthis Env.isAssignable_refl
  | false =>
      obtain ⟨r, c, rfl, hr, hsub⟩ := hthis hs
      obtain ⟨d, hdm, heq, hparams, hown, hassign⟩ := Env.dispatch_fits hd hret hm hs hc hsub
      refine (classOf_sound hr).bind fun σ₁ c' hσ₁ hc' => ?_
      rw [hc', heq]
      exact invoked hσ₁ hdm hparams
        (fun _ => ⟨r, c, rfl, Value.shape_mono hσ₁ hr, hown⟩) hassign

omit hret in
/-- A new object is one of its class. -/
theorem construct_sound {m : MethodInfo} (hm : env.method? m.id = some m) {c : String}
    (howner : m.owner = c) {caller : DeclId} {site : SiteId} (hsite : SiteOf env site m.id)
    {args : List Value} (hargs : Value.HaveTypes env σ args m.paramTypes) :
    Sound env σ (construct env calls caller site c m.id args)
      fun σ' v => v.HasType env σ' (.ofClass c) := by
  refine (instantiate_sound hd c).bind fun σ₁ r hσ₁ hr => ?_
  have hrec : m.Receives env σ₁ (some r) :=
    fun _ => ⟨r, c, rfl, hr, howner ▸ Env.isSubtype_refl⟩
  refine (hcalls.invoke hm hrec (hargs.mono hσ₁)).bind fun σ₂ _ hσ₂ _ => ?_
  refine (hcalls.recheck hm hsite (hrec.mono hσ₂) (hargs.mono (hσ₁.trans hσ₂))).bind
    fun σ₃ _ hσ₃ _ => .pure ?_
  exact .inst (Value.shape_mono (hσ₂.trans hσ₃) hr) Env.isSubtype_refl

end

/-! ## Expressions -/

section

variable {env : Env} {p : Surface.Program} {calls : Calls} {σ : Shapes} {Γ : Context} {f : Frame}

mutual

/-- Evaluation keeps types, and what it yields is of the type of the expression. -/
theorem eval_sound (hd : env.DeclaredBy p) (hret : env.ReturnsAgree) (hcalls : calls.Sound env)
    {σ : Shapes} (hf : f.Typed env σ Γ) :
    ∀ {e : Typed.Expr}, e.Fits env Γ →
      Sound env σ (eval env calls f e) fun σ' v => v.HasType env σ' e.type
  | .int .., _ => .pure .int
  | .bool .., _ => .pure .bool
  | .null _, _ => .pure (.null rfl)
  | .this _ c, he => by
      obtain ⟨d, hd', hsub⟩ := he
      obtain ⟨r, c', hthis, hr, hsub'⟩ := hf.this d hd'
      simp only [eval, hthis]
      exact .pure (.inst hr (Env.isSubtype_trans hsub' hsub))
  | .var _ t name, he => by
      obtain ⟨v, hget, hv⟩ := hf.locals name t he
      simp only [eval, hget]
      exact .pure hv
  | .param _ t i name, he => by
      obtain ⟨v, hget, hv⟩ := hf.params i t he
      simp only [eval, hget]
      exact .pure hv
  | .field _ t o name, he => by
      obtain ⟨ho, c, field, hc, hfield, hs, rfl⟩ := he
      simp only [eval]
      refine (eval_sound hd hret hcalls hf ho).bind fun σ₁ v _ hv => ?_
      rw [hc] at hv
      exact (asObject_sound hd hv (.inl ⟨c, rfl⟩)).bind fun σ₂ r _ hr =>
        getField_sound hd hr hfield hs
  | .staticField _ t c name, he => by
      obtain ⟨field, hfield, hs, rfl⟩ := he
      exact getStatic_sound hd hfield hs
  | .length _ a, he => by
      obtain ⟨ha, elem, helem⟩ := he
      simp only [eval]
      refine (eval_sound hd hret hcalls hf ha).bind fun σ₁ v _ hv => ?_
      rw [helem] at hv
      exact (asObject_sound hd hv (.inr ⟨elem, rfl⟩)).bind fun σ₂ r _ hr => arrayLength_sound hr
  | .index _ t a i, he => by
      obtain ⟨⟨ha, hat⟩, hi, hit⟩ := he
      simp only [eval]
      refine (eval_sound hd hret hcalls hf ha).bind fun σ₁ v hσ₁ hv => ?_
      rw [hat] at hv
      refine (asObject_sound hd hv (.inr ⟨t, rfl⟩)).bind fun σ₂ r hσ₂ hr => ?_
      refine (eval_sound hd hret hcalls (hf.mono (hσ₁.trans hσ₂)) hi).bind fun σ₃ w hσ₃ hw => ?_
      rw [hit] at hw
      exact (asInt_sound hw).bind fun σ₄ n hσ₄ _ =>
        getItem_sound hd (hr.mono (hσ₃.trans hσ₄)) n
  | .binary _ op l r, he => by
      obtain ⟨⟨hl, hr⟩, hop⟩ := he
      have left := eval_sound hd hret hcalls hf hl
      have right {σ₁ : Shapes} (hσ₁ : σ <+: σ₁) := eval_sound hd hret hcalls (hf.mono hσ₁) hr
      -- The right operand of `and` and `or`, which decides.
      have decides {σ₁ : Shapes} (hσ₁ : σ <+: σ₁)
          (hb : env.isAssignable r.type .boolean = true) :
          Sound env σ₁ (eval env calls f r >>= fun v => asBool v >>= fun b => pure (.bool b))
            fun σ' v => Value.HasType env σ' v .boolean :=
        (right hσ₁).bind fun σ₂ v _ hv =>
          (asBool_sound (Env.eq_boolean_of_isAssignable hb ▸ hv)).bind fun σ₃ b _ _ => .pure .bool
      by_cases hlogic : op = .and ∨ op = .or
      · rcases hlogic with rfl | rfl
        all_goals
          simp only [eval]
          refine left.bind fun σ₁ v hσ₁ hv => ?_
          refine (asBool_sound (Env.eq_boolean_of_isAssignable hop.1 ▸ hv)).bind
            fun σ₂ b hσ₂ _ => ?_
          cases b
          · first
            | exact .pure .bool
            | exact decides (hσ₁.trans hσ₂) hop.2
          · first
            | exact decides (hσ₁.trans hσ₂) hop.2
            | exact .pure .bool
      · rw [not_or] at hlogic
        rw [eval.eq_13 env calls f _ op l r hlogic.1 hlogic.2]
        refine left.bind fun σ₁ v hσ₁ hv => ?_
        exact (right hσ₁).bind fun σ₂ w hσ₂ hw =>
          applyBinary_sound hd hlogic hop (hv.mono hσ₂) hw
  | .unary _ op e, he => by
      obtain ⟨he, hop⟩ := he
      simp only [eval]
      exact (eval_sound hd hret hcalls hf he).bind fun σ₁ v _ hv => applyUnary_sound (hop ▸ hv)
  | .call _ t site receiver id name args, he => by
      obtain ⟨⟨hrec, hargs⟩, m, hm⟩ := he
      have hmethod := hm.method
      obtain rfl := (hd.method_cases id m hmethod).1
      obtain rfl := hm.type
      simp only [eval]
      have object (x : Typed.Expr) (hx : receiver = some x) : ∃ c, x.type = .ofClass c := by
        obtain ⟨_, c, hc, _⟩ := hm.receiver x hx
        exact ⟨c, hc⟩
      refine (evalReceiver_sound hd hret hcalls hf hrec object).bind fun σ₁ this hσ₁ hthis => ?_
      refine (evalAll_sound hd hret hcalls (hf.mono hσ₁) hargs).bind fun σ₂ vs hσ₂ hvs => ?_
      refine callMethod_sound hd hret hcalls hmethod hm.isMethod hm.site (fun hs => ?_) ?_
        (hm.args.haveTypes hvs)
      · cases receiver with
        | none => exact hthis
        | some x => exact absurd hs (by simp [(hm.receiver x rfl).1])
      · exact (hm.receives hthis).mono hσ₂
  | .new _ site c id args, he => by
      obtain ⟨hargs, m, hm⟩ := he
      have hmethod := hm.method
      obtain rfl := (hd.method_cases id m hmethod).1
      simp only [eval]
      exact (evalAll_sound hd hret hcalls hf hargs).bind fun σ₁ vs _ hvs =>
        construct_sound hd hcalls hmethod hm.owner hm.site (hm.args.haveTypes hvs)
  | .newArray _ elem len, he => by
      obtain ⟨⟨hlen, hint⟩, helem⟩ := he
      simp only [eval]
      refine (eval_sound hd hret hcalls hf hlen).bind fun σ₁ v _ hv => ?_
      rw [hint] at hv
      refine (asInt_sound hv).bind fun σ₂ n _ _ => ?_
      exact (newArray_sound hd helem n).bind fun σ₃ r _ hr => .pure (.array hr)
  | .old .., he => absurd (hf.noOld.symm.trans he.1) (by simp)
  | .result _ t, he => .pure (hf.result t he)
  | .spread .., he => absurd (hf.noSpread.symm.trans he.1) (by simp)
  | .slot _ t n, he => by
      obtain ⟨v, hget, hv⟩ := hf.slots n t he
      simp only [eval, hget]
      exact .pure hv

theorem evalReceiver_sound (hd : env.DeclaredBy p) (hret : env.ReturnsAgree)
    (hcalls : calls.Sound env) {σ : Shapes} (hf : f.Typed env σ Γ) :
    ∀ {e : Option Typed.Expr}, Typed.Expr.receiverFits env Γ e →
      (∀ x, e = some x → ∃ c, x.type = .ofClass c) →
      Sound env σ (evalReceiver env calls f e) fun σ' this => ReceiverHas env σ' e this
  | none, _, _ => .pure rfl
  | some e, he, hc => by
      obtain ⟨c, hc⟩ := hc e rfl
      simp only [evalReceiver]
      refine (eval_sound hd hret hcalls hf he).bind fun σ₁ v _ hv => ?_
      refine (asObject_sound hd hv (.inl ⟨c, hc⟩)).bind fun σ₂ r _ hr => .pure ⟨r, rfl, hr⟩

theorem evalAll_sound (hd : env.DeclaredBy p) (hret : env.ReturnsAgree)
    (hcalls : calls.Sound env) {σ : Shapes} (hf : f.Typed env σ Γ) :
    ∀ {es : List Typed.Expr}, Typed.Expr.argsFit env Γ es →
      Sound env σ (evalAll env calls f es)
        fun σ' vs => Value.HaveTypes env σ' vs (es.map (·.type))
  | [], _ => .pure .nil
  | e :: es, he => by
      simp only [evalAll]
      refine (eval_sound hd hret hcalls hf he.1).bind fun σ₁ v hσ₁ hv => ?_
      refine (evalAll_sound hd hret hcalls (hf.mono hσ₁) he.2).bind fun σ₂ vs hσ₂ hvs => .pure ?_
      exact .cons (hv.mono hσ₂) hvs

end

variable (hd : env.DeclaredBy p) (hret : env.ReturnsAgree) (hcalls : calls.Sound env)
  (hf : f.Typed env σ Γ) {e : Typed.Expr} (he : e.Fits env Γ)

include hd hret hcalls hf he

theorem evalBool_sound (ht : e.type = .boolean) :
    Sound env σ (evalBool env calls f e) fun _ _ => True :=
  (eval_sound hd hret hcalls hf he).bind fun _ _ _ hv => asBool_sound (ht ▸ hv)

theorem evalInt_sound (ht : e.type = .int) :
    Sound env σ (evalInt env calls f e) fun _ _ => True :=
  (eval_sound hd hret hcalls hf he).bind fun _ _ _ hv => asInt_sound (ht ▸ hv)

theorem evalObject_sound (ht : (∃ c, e.type = .ofClass c) ∨ ∃ t, e.type = .array t) :
    Sound env σ (evalObject env calls f e) fun σ' r => (Value.ref r).HasType env σ' e.type :=
  (eval_sound hd hret hcalls hf he).bind fun _ _ _ hv => asObject_sound hd hv ht

end

end Run

end Covenant
