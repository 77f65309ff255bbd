import Covenant.Proofs.SoundChecks
import Covenant.Proofs.SoundExec
import Covenant.Run.Member

/-!
# Members keep types

An invocation runs checks, a body and checks again; a constructor first makes the
superclass part of its object and runs initializers. If all that a program
consists of fits, then an invocation keeps types as far as the calls in it do. So
calls with a bound do, by induction on the bound, and nothing has to be assumed of
them any more.
-/

namespace Covenant

open Typed (Context SiteOf ArgsFit ConstructorTyped)

/-! ## Programs whose parts fit -/

namespace Typed

/-- The first statement of a constructor calls one of the superclass, or there is none, or it has one
that takes nothing. The other statements fit as in any body. -/
inductive ConstructorFits (env : Env) (m : MethodInfo) (Γ : Context) : List Stmt → Prop
  | explicit {span site id args rest c s} (args_fit : Expr.argsFit env Γ args)
      (constructor : ConstructorTyped env c s site id args)
      (extends_ : env.isSubtype m.owner s = true) (rest_fit : Stmt.allFit env .void Γ rest) :
      ConstructorFits env m Γ (.superCall span site id args :: rest)
  | implicit {body} (plain : ∀ span site id args rest, body ≠ .superCall span site id args :: rest)
      (default_ : ∀ s, (env.class? m.owner).bind (·.superclass) = some s →
        (env.defaultConstructor? s).isSome = true)
      (body_fit : Stmt.allFit env .void Γ body) : ConstructorFits env m Γ body

/-- The context of the body of a member. -/
def Context.ofMember (m : MethodInfo) : Context :=
  .ofBody (if m.isStatic then none else some m.owner) m.params.reverse

end Typed

/-- All initializers and bodies of a program fit. -/
structure Env.BodiesFit (env : Env) : Prop where
  method : ∀ m body, env.method? m.id = some m → m.isConstructor = false →
    env.body? m.id = some body → Typed.Stmt.allFit env m.returnType (.ofMember m) body ∧
      (m.returnType = .void ∨ Typed.exitsAll body = true)
  constructor : ∀ m, env.method? m.id = some m → m.isConstructor = true →
    (m.isStatic = false ∧ m.returnType = .void) ∧
      Typed.ConstructorFits env m (.ofMember m) ((env.body? m.id).getD [])
  init : ∀ f init, env.field? f.id = some f → env.fieldInits.get? f.id = some init →
    init.FitsAt env (.ofBody (if f.isStatic then none else some f.owner) []) f.type
  fieldItem : ∀ c info id f, env.class? c = some info → .field id ∈ info.initOrder →
    env.field? id = some f → f.id = id ∧ f.owner = c ∧ f.isStatic = false
  blockItem : ∀ c info id body, env.class? c = some info → .block id ∈ info.initOrder →
    env.body? id = some body → Typed.Stmt.allFit env .void (.ofBody (some c) []) body

/-- The checks of members fit, and so do those behind calls. -/
structure WovenProgram.Fits (p : WovenProgram) : Prop where
  bodies : p.env.BodiesFit
  members : ∀ m, p.env.method? m.id = some m → ∃ slots, p.MemberFits m slots
  calls : ∀ m site caller, p.env.method? m.id = some m → SiteOf p.env site m.id →
    ∀ o ∈ (p.codesAt caller (.afterCall site)).flatMap CheckCode.obligations, o.Fits p.env m

namespace Run

/-! ## Initializers -/

section

variable {env : Env} {p : Surface.Program} {calls : Calls} {σ : Shapes}
  (hd : env.DeclaredBy p) (hret : env.ReturnsAgree) (hcalls : calls.Sound env)
  (hb : env.BodiesFit)

include hd hret hcalls hb

theorem runInitItem_sound {c : String} {info : ClassInfo} (hi : env.class? c = some info)
    {r : Ref} (hr : (Value.ref r).HasType env σ (.ofClass c)) {item : InitItem}
    (hitem : item ∈ info.initOrder) :
    Sound env σ (runInitItem env calls r item) fun _ _ => True := by
  have hframe {decl : DeclId} : Frame.Typed env σ (.ofBody (some c) [])
      (Frame.start decl (some r) []) :=
    .start fun d hd => ⟨r, rfl, Option.some.inj hd ▸ hr⟩
  cases item with
  | field id =>
      rw [runInitItem]
      split
      · next f init hf hinit =>
          obtain ⟨rfl, rfl, hs⟩ := hb.fieldItem c info id f hi hitem hf
          obtain ⟨hfit, ha⟩ := hb.init f init hf hinit
          simp only [hs, Bool.false_eq_true, if_false] at hfit
          obtain ⟨info', hinfo', hid⟩ := hd.type_of_field hf
          have hmem : f ∈ env.fieldsOf f.owner := hd.mem_fieldsOf.mpr
            ⟨hf, info', Env.mem_classChain.mpr ⟨f.owner, hinfo', .refl⟩, hd.name_eq hinfo', hid⟩
          refine (eval_sound hd hret hcalls hframe hfit).bind fun σ₁ v hσ₁ hv => ?_
          exact setField_sound hd (hr.mono hσ₁) (hd.lookupField?_owner hmem) (hv.assign ha)
      · exact .pure trivial
  | block id =>
      have hbody : Typed.Stmt.allFit env .void (.ofBody (some c) []) ((env.body? id).getD []) := by
        cases hbody : env.body? id with
        | none => trivial
        | some body => exact hb.blockItem c info id body hi hitem hbody
      have hexec : StmtsSound env σ .void _ [] [.empty] (execAll env calls
          (Frame.start id (some r) []) ((env.body? id).getD [])) :=
        execAll_sound (Γ := .ofBody (some c) []) hd hret hcalls hframe
          (Scopes.Typed.enter .nil .empty) hbody
      refine (RunWith.Sound.withState hexec).bind fun σ₁ r _ hr => ?_
      refine Sound.bind (Q := fun _ _ => True) (.ofResult ?_) fun _ _ _ _ => .pure trivial
      obtain ⟨flow | u, s⟩ := r
      · exact hr.1
      · trivial

theorem runInitItems_sound {c : String} {info : ClassInfo} (hi : env.class? c = some info)
    {r : Ref} {σ : Shapes} (hr : (Value.ref r).HasType env σ (.ofClass c))
    {items : List InitItem} (hitems : ∀ item ∈ items, item ∈ info.initOrder) :
    Sound env σ (runInitItems env calls r items) fun _ _ => True := by
  induction items generalizing σ with
  | nil => exact .pure trivial
  | cons item items ih =>
      obtain ⟨hitem, hitems⟩ := List.forall_mem_cons.mp hitems
      exact (runInitItem_sound hd hret hcalls hb hi hr hitem).bind fun σ₁ _ hσ₁ _ =>
        ih (hr.mono hσ₁) hitems

theorem runInitializers_sound {c : String} {r : Ref}
    (hr : (Value.ref r).HasType env σ (.ofClass c)) :
    Sound env σ (runInitializers env calls r c) fun _ _ => True := by
  rw [runInitializers]
  split
  · next info hi => exact runInitItems_sound hd hret hcalls hb hi hr fun _ h => h
  · exact .pure trivial

/-! ## Bodies -/

omit hd hret hcalls hb in
/-- An object of a class can be handed to the constructors of its superclasses. -/
theorem receives_of_hasType {m : MethodInfo} {c : String} {r : Ref}
    (hr : (Value.ref r).HasType env σ (.ofClass c)) (hsub : env.isSubtype c m.owner = true) :
    m.Receives env σ (some r) := by
  cases hr with
  | inst hr hs => exact fun _ => ⟨r, _, rfl, hr, Env.isSubtype_trans hs hsub⟩

omit hret hb in
/-- The superclass has a constructor that takes nothing, or there is no superclass. -/
theorem runSuperDefault_sound {c : String} {r : Ref}
    (hr : (Value.ref r).HasType env σ (.ofClass c))
    (hdefault : ∀ s, (env.class? c).bind (·.superclass) = some s →
      (env.defaultConstructor? s).isSome = true) :
    Sound env σ (runSuperDefault env calls r c) fun _ _ => True := by
  rw [runSuperDefault]
  split
  · exact .pure trivial
  · next s hs =>
      split
      · next ctor hctor =>
          obtain ⟨hm, rfl, _⟩ := hd.mem_constructors (List.mem_of_find?_eq_some hctor)
          obtain ⟨info, hi, hsuper⟩ := Option.bind_eq_some_iff.mp hs
          obtain ⟨_, i, hknown, _⟩ := hd.superclass_known hi hsuper
          have hsub : env.isSubtype c ctor.owner = true := Env.isSubtype_of_reach hknown
            (.single (Env.Extends.names ⟨info, hi, hsuper⟩))
          have hparams : ctor.params = [] := by simpa using List.find?_some hctor
          refine (hcalls.invoke hm (receives_of_hasType hr hsub) ?_).bind
            fun σ₁ _ _ _ => .pure trivial
          rw [MethodInfo.paramTypes, hparams]
          exact .nil
      · next hnone => exact absurd (hdefault s hs) (by simp [hnone])

variable {m : MethodInfo} {f : Frame} {s : Scopes}

omit hd hret hcalls hb in
/-- The variables at the start of a body have what was passed. -/
theorem paramScopes_typed {args : List Value} (hargs : Value.HaveTypes env σ args m.paramTypes) :
    Scopes.Typed env σ [m.params.reverse] (paramScopes m args) := by
  have insertAll {params : List (String × Ty)} : ∀ {args : List Value}
      {level : List (String × Ty)} {vars : Table String Value},
      Value.HaveTypes env σ args (params.map (·.2)) → Scopes.BlockTyped env σ level vars →
      Scopes.BlockTyped env σ (params.reverse ++ level)
        (vars.insertAll ((params.map (·.1)).zip args)) := by
    induction params with
    | nil => exact fun _ hvars => hvars
    | cons x params ih =>
        intro args level vars hargs hvars
        cases hargs with
        | cons hv hargs =>
            rw [List.reverse_cons, List.append_assoc]
            exact ih hargs (hvars.insert hv)
  have h := insertAll hargs Scopes.BlockTyped.empty
  rw [List.append_nil] at h
  exact .cons h .nil

omit hd hret hcalls hb in
/-- The frame of a member, but for its local variables. -/
theorem ofMember_typed (hf : f.Active env σ m) :
    f.Typed env σ ((Context.ofMember m).within []) where
  this := hf.atEntry.this
  locals _ _ ht := absurd ht (by simp [Context.within])
  params _ _ ht := absurd ht (by simp [Context.within, Context.ofMember, Context.ofBody])
  result _ ht := absurd ht (by simp [Context.within, Context.ofMember, Context.ofBody])
  slots _ _ ht := absurd ht (by simp [Context.within, Context.ofMember, Context.ofBody])
  noOld := rfl
  noSpread := rfl

omit hd hret hcalls hb in
theorem ofMember_within : (Context.ofMember m).within [m.params.reverse] = .ofMember m := by
  simp [Context.within, Context.ofMember, Context.ofBody]

omit hb in
/-- The first part of a constructor leaves statements that fit. -/
theorem runSuper_sound (hf : f.Active env σ m) (hs : s.Typed env σ [m.params.reverse]) {r : Ref}
    (hr : (Value.ref r).HasType env σ (.ofClass m.owner)) {body : List Typed.Stmt}
    (hbody : Typed.ConstructorFits env m (.ofMember m) body) :
    RunWith.Sound env σ s (runSuper env calls f r m.owner body)
      (fun σ' rest s' => Typed.Stmt.allFit env .void (.ofMember m) rest ∧
        s'.Typed env σ' [m.params.reverse]) fun _ _ => True := by
  have hframe : Frame.Typed env σ (.ofMember m) { f with scopes := s } :=
    ofMember_within ▸ (ofMember_typed hf).inScope hs
  cases hbody with
  | explicit hargs hctor hsub hrest =>
      rw [runSuper]
      refine (keep_sound hs (evalAll_sound hd hret hcalls hframe hargs) fun _ _ => trivial).bind
        fun σ₁ vs s₁ hσ₁ ⟨hvs, hs₁⟩ => ?_
      have hm := hctor.method
      obtain rfl := hd.method_id hm
      obtain rfl := hctor.owner
      exact (keep_sound hs₁ (hcalls.invoke hm (receives_of_hasType (hr.mono hσ₁) hsub)
        (hctor.args.haveTypes hvs)) fun _ _ => trivial).bind
          fun σ₂ _ s₂ _ h => .pure ⟨hrest, h.2⟩
  | implicit hplain hdefault hbody =>
      rw [runSuper.eq_2 env calls f r m.owner body hplain]
      exact (keep_sound hs (runSuperDefault_sound hd hcalls hr hdefault) fun _ _ => trivial).bind
        fun σ₁ _ s₁ _ h => .pure ⟨hbody, h.2⟩

/-- What is known of the end of a body. -/
def BodyEnds (env : Env) (σ : Shapes) (m : MethodInfo) (flow : Flow) : Prop :=
  flow.Typed env σ m.returnType (m.returnType != .void) ∧
    (m.isConstructor = false → m.hasBody = true)

theorem runConstructor_sound (hm : env.method? m.id = some m) (hc : m.isConstructor = true)
    (hf : f.Active env σ m) (hs : s.Typed env σ [m.params.reverse]) :
    RunWith.Sound env σ s (runConstructor env calls f m)
      (fun σ' flow _ => BodyEnds env σ' m flow) fun _ _ => True := by
  obtain ⟨⟨hstatic, hvoid⟩, hbody⟩ := hb.constructor m hm hc
  obtain ⟨r, c, hthis, hr, hsub⟩ := hf.this hstatic
  have hr : (Value.ref r).HasType env σ (.ofClass m.owner) := .inst hr hsub
  simp only [runConstructor, hthis]
  refine (runSuper_sound hd hret hcalls hf hs hr hbody).bind fun σ₁ rest s₁ hσ₁ hsuper => ?_
  obtain ⟨hrest, hs₁⟩ := hsuper
  refine (keep_sound hs₁ (runInitializers_sound hd hret hcalls hb (hr.mono hσ₁))
    fun _ _ => trivial).bind fun σ₂ _ s₂ hσ₂ hinits => ?_
  obtain ⟨_, hs₂⟩ := hinits
  have hexec : StmtsSound env σ₂ .void _ [] s₂ (execAll env calls f rest) :=
    execAll_sound (Γ := .ofMember m) hd hret hcalls (ofMember_typed (hf.mono (hσ₁.trans hσ₂)))
      hs₂ (ofMember_within ▸ hrest)
  refine hexec.mono (fun σ₃ flow _ _ hends => ⟨?_, fun h => ?_⟩) fun _ _ _ _ => trivial
  · rw [hvoid]
    exact hends.1.weaken (by simp)
  · exact absurd (hc.symm.trans h) (by simp)

theorem runMethod_sound (hm : env.method? m.id = some m) (hc : m.isConstructor = false)
    (hf : f.Active env σ m) (hs : s.Typed env σ [m.params.reverse]) :
    RunWith.Sound env σ s (runMethod env calls f m)
      (fun σ' flow _ => BodyEnds env σ' m flow) fun _ _ => True := by
  rw [runMethod]
  split
  · next body hbody =>
      split at hbody
      · next hyes =>
          obtain ⟨hfit, hexits⟩ := hb.method m body hm hc hbody
          have hexec := execAll_sound (Γ := .ofMember m) hd hret hcalls (ofMember_typed hf) hs
            (ofMember_within ▸ hfit)
          refine hexec.mono (fun σ₁ flow _ _ hends => ⟨hends.1.weaken fun h => ?_, fun _ => hyes⟩)
            fun _ _ _ _ => trivial
          exact hexits.resolve_left (by simpa using h)
      · cases hbody
  · refine (keep_sound (R := fun _ _ => False) hs ?_ fun _ _ => trivial).mono
      (fun _ _ _ _ h => h.1.elim) fun _ _ _ h => h
    -- A method without a body is run only where nothing implements it.
    have missing {σ : Shapes} (c : String) :
        Sound env σ (fatal (.noImplementation (env.describe m.id) c) : Run Flow)
          fun _ _ => False := .fatal fun _ h => by cases h
    split
    · exact .get fun _ _ => missing _
    · exact missing ""

theorem runBody_sound (hm : env.method? m.id = some m) (hf : f.Active env σ m)
    (hs : s.Typed env σ [m.params.reverse]) :
    RunWith.Sound env σ s (runBody env calls f m) (fun σ' flow _ => BodyEnds env σ' m flow)
      fun _ _ => True := by
  rw [runBody]
  split
  · next hc => exact runConstructor_sound hd hret hcalls hb hm hc hf hs
  · next hc => exact runMethod_sound hd hret hcalls hb hm (by simpa using hc) hf hs

end

/-! ## Invocations -/

section

variable {p : WovenProgram} {source : Surface.Program} {calls : Calls} {σ : Shapes}
  {m : MethodInfo} {f : Frame} (hd : p.env.DeclaredBy source) (hret : p.env.ReturnsAgree)
  (hcalls : calls.Sound p.env)

include hd hret hcalls

/-- A normal end of a body meets checks, and then the member yields what it says. -/
theorem leave_ok {slots : List Ty} (hfits : p.MemberFits m slots) (hdecl : f.decl = m.id)
    (hvoid : f.result = .void) (hf : f.Active p.env σ m) (hslots : f.slots.Typed p.env σ slots)
    {flow : Flow} (hflow : BodyEnds p.env σ m flow) :
    Sound p.env σ (leave p calls f (.ok flow)) fun σ' v => m.Yields p.env σ' v := by
  have hresult : (Frame.returning f flow).result.HasType p.env σ m.returnType := by
    cases flow with
    | normal =>
        have hreturn : m.returnType = .void := by simpa [Flow.Typed] using hflow.1
        rw [Frame.returning, hvoid, hreturn]
        exact .void
    | ret v span => exact hflow.1
  have hactive : (Frame.returning f flow).Active p.env σ m := by
    cases flow <;> exact ⟨hf.this, hf.args⟩
  have hcodes : (Frame.returning f flow).decl = m.id ∧ (Frame.returning f flow).slots = f.slots := by
    cases flow <;> exact ⟨hdecl, rfl⟩
  simp only [leave, hcodes]
  refine (RunWith.Sound.withState (runCodes_atExit hd hret hcalls hactive hresult hfits.normal
    hslots)).bind fun σ₁ r hσ₁ hr => ?_
  obtain ⟨_ | u, s⟩ := r
  · exact Sound.bind (Q := fun _ _ => True) (.ofResult hr.1) fun σ₂ _ hσ₂ _ =>
      .pure ⟨hresult.mono (hσ₁.trans hσ₂), hflow.2⟩
  · exact Sound.bind (Q := fun _ _ => True) (.ofResult trivial) fun σ₂ _ hσ₂ _ =>
      .pure ⟨hresult.mono (hσ₁.trans hσ₂), hflow.2⟩

omit hd hret hcalls in
/-- An exception meets checks, too, and everything else just goes on. -/
theorem leave_error {slots : List Ty} (hfits : p.MemberFits m slots) (hdecl : f.decl = m.id)
    {u : Unwind} (hu : u.Typed σ) {Q : Shapes → Value → Prop} :
    Sound p.env σ (leave p calls f (.error u)) Q := by
  cases u with
  | violation v => exact .stop hu
  | fatal e => exact .stop hu
  | throw e =>
      simp only [leave, hdecl]
      refine (RunWith.Sound.withState (runCodes_exceptional hfits.exceptional)).bind
        fun σ₁ r hσ₁ hr => ?_
      obtain ⟨_ | u, s⟩ := r
      · exact Sound.bind (Q := fun _ _ => True) (.ofResult hr.1) fun σ₂ _ hσ₂ _ =>
          .stop (hu.mono (hσ₁.trans hσ₂))
      · exact Sound.bind (Q := fun _ _ => True) (.ofResult trivial) fun σ₂ _ hσ₂ _ =>
          .stop (hu.mono (hσ₁.trans hσ₂))

/-- A member that is handed what it takes yields what it says. -/
theorem activate_sound (hfits : p.Fits) (hm : p.env.method? m.id = some m) {this : Option Ref}
    {args : List Value} (hthis : m.Receives p.env σ this)
    (hargs : Value.HaveTypes p.env σ args m.paramTypes) :
    Sound p.env σ (activate p calls m this args) fun σ' v => m.Yields p.env σ' v := by
  obtain ⟨slots, hmember⟩ := hfits.members m hm
  have hactive (stored : Slots) (scopes : Scopes) {σ' : Shapes} (hσ : σ <+: σ') :
      Frame.Active p.env σ' m { Frame.start m.id this args with scopes, slots := stored } :=
    ⟨hthis.mono hσ, hargs.mono hσ⟩
  refine (RunWith.Sound.withState (runCodes_atEntry hd hret hcalls
    (hactive .empty (paramScopes m args) List.prefix_rfl) hmember.entry)).bind
      fun σ₁ r hσ₁ hr => ?_
  obtain ⟨u | _, stored⟩ := r
  · exact leave_error hmember rfl hr.1
  · have hslots : Slots.Typed p.env σ₁ slots stored := by
      refine hr ?_
      rcases hmember.stored with rfl | hsnapshot
      · exact .inr .nil
      · exact .inl hsnapshot
    have hbody := runBody_sound hd hret hcalls hfits.bodies hm
      (hactive stored (paramScopes m args) hσ₁) (paramScopes_typed (hargs.mono hσ₁))
    refine (RunWith.Sound.withState hbody).bind fun σ₂ r hσ₂ hr => ?_
    obtain ⟨u | flow, scopes⟩ := r
    · exact leave_error hmember rfl hr.1
    · exact leave_ok hd hret hcalls hmember rfl rfl (hactive stored scopes (hσ₁.trans hσ₂))
        (hslots.mono hσ₂) hr

end

/-- Calls with a bound keep types. -/
theorem calls_sound {p : WovenProgram} {source : Surface.Program}
    (hd : p.env.DeclaredBy source) (hret : p.env.ReturnsAgree) (hfits : p.Fits) (limit : Nat) :
    ∀ bound, (calls p limit bound).Sound p.env
  | 0 => ⟨fun _ _ _ => .exhausted, fun _ _ _ _ => .exhausted⟩
  | bound + 1 => by
      have ih := calls_sound hd hret hfits limit bound
      constructor
      · intro σ m this args hm hthis hargs
        simp only [calls, invokeWith, hm]
        refine .get fun μ _ => ?_
        split
        · exact .fatal fun _ h => by cases h
        · exact deeper_sound (activate_sound hd hret ih hfits hm hthis hargs)
      · intro σ m caller site this args hm hsite hthis hargs
        exact checkObligations_sound hd hret ih (hfits.calls m site caller hm hsite) hthis hargs

end Run

end Covenant
