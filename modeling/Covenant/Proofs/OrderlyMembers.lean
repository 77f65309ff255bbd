import Covenant.Proofs.OrderlyTerms
import Covenant.Proofs.ProgramJourneys

/-!
# Orderly members

Whatever is invoked goes on in an orderly way, provided that no constructor is invoked
on an object that was there before. For then no frame about such an object is one of
code that makes objects: a method has no such code, a check of a class has none, and
a constructor makes the object that it was invoked on, along with the constructor of
the superclass and the initializers that it runs on the same object. Since there is a
constructor wherever one of the superclass is needed, nothing ends for want of one.
-/

namespace Covenant

open HasRefs (refs)
open Typed (Expr Stmt)

/-- The declaration has no code that makes objects, or the object is none of the first `n`. -/
def Env.Free (env : Env) (n : Nat) (this : Option Ref) (decl : DeclId) : Prop :=
  ∀ r, this = some r → r < n → env.builds decl = false

/-- Nothing is asked of frames but of those of code that makes one of the first `n` objects. -/
def Env.Lets (env : Env) (n : Nat) (K : Option Ref → DeclId → Task → Prop) : Prop :=
  ∀ {this decl}, env.Free n this decl → ∀ w, K this decl w

namespace Env

variable {env : Env} {n : Nat} {this : Option Ref}

theorem Free.of_le {r : Ref} (hr : n ≤ r) (decl : DeclId) : env.Free n (some r) decl := by
  rintro _ ⟨⟩ hlt
  exact absurd hlt (Nat.not_lt.mpr hr)

theorem Free.of_builds {decl : DeclId} (h : env.builds decl = false) : env.Free n this decl :=
  fun _ _ _ => h

theorem Admits.of_le {r : Ref} (hr : n ≤ r) (id : DeclId) : env.Admits n id (some r) := by
  rintro _ ⟨⟩ hlt
  exact absurd hlt (Nat.not_lt.mpr hr)

theorem Admits.of_method {id : DeclId} (h : ¬ env.Constructs id) : env.Admits n id this :=
  fun _ _ _ => h

/-- A member that may be invoked on an object has frames about it. -/
theorem Admits.free {src : Surface.Program} (hd : env.DeclaredBy src) {m : MethodInfo}
    (hm : env.method? m.id = some m) (h : env.Admits n m.id this) : env.Free n this m.id := by
  intro r hr hlt
  cases hc : m.isConstructor with
  | true => exact absurd ⟨m, hm, hc⟩ (h r hr hlt)
  | false => exact hd.builds_of_method hm hc

end Env

theorem Env.Lets.allowed {env : Env} {n : Nat} {K : Option Ref → DeclId → Task → Prop}
    (hk : env.Lets n K) {this : Option Ref} {decl : DeclId} (h : env.Free n this decl) {τ : Type}
    (kind : τ → Task) (l : List τ) : Allowed (K this) decl kind l :=
  fun _ _ => hk h _

theorem Env.Lets.fits {env : Env} {n : Nat} {K : Option Ref → DeclId → Task → Prop}
    (hk : env.Lets n K) {this : Option Ref} {decl : DeclId} (h : env.Free n this decl)
    (code : CheckCode) : Run.Fits (K this) decl code :=
  ⟨hk h _, fun _ _ => hk.allowed h _ _⟩

namespace Run

variable {K : Option Ref → DeclId → Task → Prop} {n : Nat} {c : Calls}

/-! ## Checks -/

section

variable {P : DeclId → Task → Prop} {env : Env} {hc : c.Journey P} (ho : hc.Orderly env K n)
  (hm : env.CallsMethods P)

include ho hm

section

variable (f : Frame)

theorem orderly_holds (clause : BoundClause) {held : List Ref} [Held f held]
    (h : Allowed P f.decl .expr clause.expr.parts)
    (hk : Allowed (K f.this) f.decl .expr clause.expr.parts) :
    Run.Orderly K n (Journey.holds hc f clause h : (holds env c f clause).Journey P held) :=
  .bind (.part (opens_eval ho hm f clause.expr h) hk) fun
    | .bool _, _ => .calm (h := .pure) fun _ => rfl
    | .int _, _ | .ref _, _ | .null, _ | .void, _ => .calm (h := .defect nofun) fun _ => rfl

theorem orderly_firstFalse : ∀ (clauses : List BoundClause) {held : List Ref} [Held f held]
    (h : ∀ clause ∈ clauses, Allowed P f.decl .expr clause.expr.parts),
      (∀ clause ∈ clauses, Allowed (K f.this) f.decl .expr clause.expr.parts) →
        Run.Orderly K n
          (Journey.firstFalse hc f clauses h : (firstFalse env c f clauses).Journey P held)
  | [], _, _, _, _ => .calm (h := .pure) fun _ => rfl
  | clause :: clauses, _, _, h, hk =>
      .bind (orderly_holds ho hm f clause (h _ List.mem_cons_self) (hk _ List.mem_cons_self)) fun
        | true, _ => orderly_firstFalse clauses _ fun d hd => hk d (List.mem_cons_of_mem _ hd)
        | false, _ => .calm (h := .pure) fun _ => rfl

theorem orderly_failures : ∀ (groups : List (List BoundClause)) {held : List Ref} [Held f held]
    (h : ∀ group ∈ groups, ∀ clause ∈ group, Allowed P f.decl .expr clause.expr.parts),
      (∀ group ∈ groups, ∀ clause ∈ group,
        Allowed (K f.this) f.decl .expr clause.expr.parts) → Run.Orderly K n
          (Journey.failures hc f groups h : (failures env c f groups).Journey P held)
  | [], _, _, _, _ => .calm (h := .pure) fun _ => rfl
  | group :: groups, _, _, h, hk =>
      .bind (orderly_firstFalse ho hm f group (h _ List.mem_cons_self) (hk _ List.mem_cons_self)) fun
        | none, _ => .calm (h := .pure) fun _ => rfl
        | some _, _ => .last
            (orderly_failures groups _ fun group' h' => hk group' (List.mem_cons_of_mem _ h'))
            fun _ _ => rfl

theorem orderly_store : ∀ (es : List Expr) (k : Nat) {held : List Ref} [Held f held]
    (h : ∀ e ∈ es, Allowed P f.decl .expr e.parts),
      (∀ e ∈ es, Allowed (K f.this) f.decl .expr e.parts) →
        RunWith.Orderly K n (Journey.store hc f es k h : (store env c f k es).Journey P held)
  | [], _, _, _, _, _ => .yields
  | e :: es, k, _, _, h, hk =>
      .bind
        (.withSlots fun slots =>
          .part (opens_eval ho hm { f with slots } e (h e List.mem_cons_self))
            (hk e List.mem_cons_self))
        fun _ => .bind .change fun _ =>
          orderly_store es (k + 1) _ fun e' he' => hk e' (List.mem_cons_of_mem _ he')

/-- What a check comes through once it has begun. -/
theorem opens_runCode : ∀ (code : CheckCode) {held : List Ref} [Held f held]
    (h : Fits P f.decl code), (∀ e ∈ code.exprs, Allowed (K f.this) f.decl .expr e.parts) →
      RunWith.Opens K n f (.check code)
        (Journey.runCode hc f code h : (runCode env c f code).Journey P held)
  | .snapshot s, _, _, h, hk => .checking h.check (orderly_store ho hm f s.slots 0 h.exprs hk)
  | .precondition groups, _, _, h, hk => .checking h.check
      (.withSlots fun slots => .bind
        (orderly_failures ho hm { f with slots } groups _ fun _ hg _ hclause =>
          hk _ (List.mem_map_of_mem (List.mem_flatten_of_mem hg hclause)))
        fun
          | none, _ => .calm (h := .pure) fun _ => rfl
          | some _, _ => .calm (h := .violation) fun _ => rfl)
  | .postcondition clauses, _, _, h, hk => .checking h.check
      (.withSlots fun slots => .bind
        (orderly_firstFalse ho hm { f with slots } clauses _ fun _ hclause =>
          hk _ (List.mem_map_of_mem hclause))
        fun
          | none, _ => .calm (h := .pure) fun _ => rfl
          | some _, _ => .calm (h := .violation) fun _ => rfl)
  | .throws .., _, _, h, _ => .checking h.check (.withSlots fun _ => .calm fun _ => rfl)
  | .reverify _, _, _, h, _ => .checking h.check .yields

theorem orderly_runCodes : ∀ (codes : List CheckCode) {held : List Ref} [Held f held]
    (h : ∀ code ∈ codes, Fits P f.decl code), (∀ code ∈ codes, Fits (K f.this) f.decl code) →
      RunWith.Orderly K n (Journey.runCodes hc f codes h : (runCodes env c f codes).Journey P held)
  | [], _, _, _, _ => .yields
  | code :: codes, _, _, h, hk =>
      .bind
        ((opens_runCode ho hm f code (h _ List.mem_cons_self)
          (hk _ List.mem_cons_self).exprs).orderly (hk _ List.mem_cons_self).check)
        fun _ => orderly_runCodes codes _ fun d hd => hk d (List.mem_cons_of_mem _ hd)

end

/-! ## Paths and obligations -/

section

variable {src : Surface.Program} (hd : env.DeclaredBy src)

include hd

theorem orderly_callAccessor (r : Ref) (name : String) {held : List Ref} [Held r held] :
    Run.Orderly K n (Journey.callAccessor hc r name : (callAccessor env c r name).Journey P held) :=
  .bind (.calm fun _ => rfl) fun className _ => .byCases
    (fun _ h => .ofRun (orderly_invoke ho (some r) [] (.of_method
      (hm.dispatched className (hd.not_constructs_accessor (List.mem_of_find?_eq_some h))))))
    fun _ => .ofRun (.calm (h := .defect nofun) fun _ => rfl)

theorem orderly_stepFrom (r : Ref) {held : List Ref} [Held r held] : ∀ s,
    Run.Orderly K n (Journey.stepFrom hc r s : (stepFrom env c r s).Journey P held)
  | .field _ => .last (.calm fun _ => rfl) fun _ _ => rfl
  | .accessor name => .last (orderly_callAccessor ho hm hd r name) fun _ _ => rfl
  | .elements => .bind (.calm fun _ => rfl) fun μ _ => .calm (h := by
      rcases μ.heap[r]? with _ | ⟨_, _⟩ | _ <;> exact .pure) fun _ => rfl

theorem orderly_stepFromAll (s : Effect.Step) : ∀ (vs : List Value) {held : List Ref}
    [Held vs held], Run.Orderly K n
      (Journey.stepFromAll hc s vs : (stepFromAll env c s vs).Journey P held)
  | [], _, _ => .calm (h := .pure) fun _ => rfl
  | .ref r :: vs, held, h =>
      have : Held r held := ⟨(Held.of_cons.mp h).1.sub⟩
      have : Held vs held := (Held.of_cons.mp h).2
      .bind (orderly_stepFrom ho hm hd r s) fun _ _ =>
        .last (orderly_stepFromAll s vs) fun _ _ => rfl
  | .int _ :: vs, held, h | .bool _ :: vs, held, h | .null :: vs, held, h
  | .void :: vs, held, h =>
      have : Held vs held := (Held.of_cons.mp h).2
      orderly_stepFromAll s vs

theorem orderly_walk : ∀ (steps : List Effect.Step) (vs : List Value) {held : List Ref}
    [Held vs held],
      Run.Orderly K n (Journey.walk hc steps vs : (walk env c steps vs).Journey P held)
  | [], _, _, _ => .calm (h := .pure) fun _ => rfl
  | s :: steps, vs, _, _ => .bind (orderly_stepFromAll ho hm hd s vs) fun vs _ =>
      orderly_walk steps vs

theorem orderly_reach (path : Effect.Path) (this : Option Ref) (args : List Value)
    {held : List Ref} [Held this held] [Held args held] : Run.Orderly K n
      (Journey.reach hc path this args : (reach env c path this args).Journey P held) :=
  .bind (.calm fun _ => rfl) fun start _ =>
    .last (orderly_walk ho hm hd start.2 start.1) fun _ _ => rfl

end

theorem orderly_checkObjects (site : SiteId) (o : Obligation)
    (h : Allowed P o.clause.origin .expr o.clause.expr.parts)
    (hk : ∀ r, Allowed (K (some r)) o.clause.origin .expr o.clause.expr.parts) : ∀ (rs : List Ref)
    {held : List Ref} [Held rs held], Run.Orderly K n
      (Journey.checkObjects hc site o h rs : (checkObjects env c site o rs).Journey P held)
  | [], _, _ => .calm (h := .pure) fun _ => rfl
  | r :: rs, held, hrs =>
      have : Held r held := (Held.of_cons.mp hrs).1
      have : Held rs held := (Held.of_cons.mp hrs).2
      .bind (orderly_holds ho hm (Frame.start o.clause.origin (some r) []) o.clause h (hk r)) fun
        | true, _ => orderly_checkObjects site o h hk rs
        | false, _ => .calm (h := .violation) fun _ => rfl

theorem orderly_checkObligations {src : Surface.Program} (hd : env.DeclaredBy src) (site : SiteId)
    (this : Option Ref) (args : List Value) :
    ∀ (os : List Obligation) {held : List Ref} [Held this held] [Held args held]
      (h : ∀ o ∈ os, Allowed P o.clause.origin .expr o.clause.expr.parts),
        (∀ o ∈ os, ∀ r, Allowed (K (some r)) o.clause.origin .expr o.clause.expr.parts) →
          Run.Orderly K n (Journey.checkObligations hc site this args os h :
            (checkObligations env c site this args os).Journey P held)
  | [], _, _, _, _, _ => .calm (h := .pure) fun _ => rfl
  | o :: os, _, _, _, _, hk => .bind (orderly_reach ho hm hd o.object this args) fun rs _ =>
      .bind (orderly_checkObjects ho hm site o _ (hk o List.mem_cons_self) rs) fun _ _ =>
        orderly_checkObligations hd site this args os _ fun o' ho' =>
          hk o' (List.mem_cons_of_mem _ ho')

end

/-! ## Members -/

variable {p : WovenProgram} {src : Surface.Program} {hc : c.Journey p.Places}

section

variable (ho : hc.Orderly p.env K n) (hp : p.Constructive src) (hk : p.env.Lets n K)

include ho hp hk

theorem orderly_runInitItem {this : Ref} (hthis : n ≤ this) {held : List Ref} [Held this held] :
    ∀ item, Run.Orderly K n
      (Journey.runInitItem hc this item : (runInitItem p.env c this item).Journey p.Places held)
  | .field id => .byCases
      (fun _ _ => .byCases
        (fun init hinit => .ofRun (.bind
          (.part (opens_eval ho hp.methods (Frame.start id (some this) []) init
              (p.places_init hinit))
            (hk.allowed (.of_le hthis id) _ _))
          fun _ _ => .under .brief))
        fun _ => .ofRun (.calm (h := .pure) fun _ => rfl))
      fun _ => .ofRun (.calm (h := .pure) fun _ => rfl)
  | .block id => by
      rw [Journey.runInitItem]
      exact .watchFrom
        (orderly_execAll ho hp.methods (Frame.start id (some this) []) _ _ _
          (hk.allowed (.of_le hthis id) _ _) (hk.allowed (.of_le hthis id) _ _))
        (fun _ _ => .calm (h := .pure) fun _ => rfl) fun _ _ => .calm (h := .throw) fun _ => rfl

theorem orderly_runInitItems {this : Ref} (hthis : n ≤ this) : ∀ (items : List InitItem)
    {held : List Ref} [Held this held], Run.Orderly K n
      (Journey.runInitItems hc this items : (runInitItems p.env c this items).Journey p.Places held)
  | [], _, _ => .calm (h := .pure) fun _ => rfl
  | item :: items, _, _ => .bind (orderly_runInitItem ho hp hk hthis item) fun _ _ =>
      orderly_runInitItems hthis items

section

variable {held : List Ref} {this : Ref} (hthis : n ≤ this) [Held this held]

include hthis

theorem orderly_runInitializers (className : String) : Run.Orderly K n
    (Journey.runInitializers hc this className :
      (runInitializers p.env c this className).Journey p.Places held) :=
  .byCases (fun info _ => .ofRun (orderly_runInitItems ho hp hk hthis info.initOrder))
    fun _ => .ofRun (.calm (h := .pure) fun _ => rfl)

omit hp hk in
/-- There is a constructor that takes nothing if there is a superclass. -/
theorem orderly_runSuperDefault {className : String}
    (h : ∀ s, (p.env.class? className).bind (·.superclass) = some s →
      ∃ d, p.env.defaultConstructor? s = some d) : Run.Orderly K n
    (Journey.runSuperDefault hc this className :
      (runSuperDefault p.env c this className).Journey p.Places held) :=
  .byCases
    (fun s hs => .byCases
      (fun _ _ => .ofRun
        (.last (orderly_invoke ho (some this) [] (.of_le hthis _)) fun _ _ => rfl))
      fun hnone => by
        obtain ⟨d, hd⟩ := h s hs
        exact absurd (hnone.symm.trans hd) (by simp))
    fun _ => .ofRun (.calm (h := .pure) fun _ => rfl)

variable (f : Frame) [Held f held]

omit hk in
/-- A constructor has its superclass part from a constructor of the superclass. -/
theorem orderly_runSuper {className : String} {info : ClassInfo}
    (hi : p.env.class? className = some info) (hf : ∀ w, K f.this f.decl w) :
    ∀ (body : List Stmt) (hb : Allowed p.Places f.decl .stmt (Typed.stmtsInner body))
      (he : Allowed p.Places f.decl .expr (Typed.stmtsParts body)), SuperPart p.env info body →
        RunWith.Orderly K n (Journey.runSuper hc this f className body hb he :
          (runSuper p.env c f this className body).Journey p.Places held)
  | .superCall _ _ ctor args :: _, hb, _, _ => (RunWith.Opens.around (h := hb.left.head)
      (.bind
        (.inScope fun scopes => orderly_evalAll ho hp.methods { f with scopes } args _ fun _ _ => hf _)
        fun vs => .bind (.under (.keep (orderly_invoke ho (some this) vs (.of_le hthis ctor))))
          fun _ => .yields)).orderly (hf _)
  | [], _, _, h | .declare .. :: _, _, _, h | .setVar .. :: _, _, _, h | .setField .. :: _, _, _, h
  | .setStatic .. :: _, _, _, h | .setIndex .. :: _, _, _, h | .expr .. :: _, _, _, h
  | .branch .. :: _, _, _, h | .loop .. :: _, _, _, h | .ret .. :: _, _, _, h
  | .throw .. :: _, _, _, h | .attempt .. :: _, _, _, h | .block .. :: _, _, _, h =>
      .bind (.under (.keep (orderly_runSuperDefault ho hthis (h.default_of_plain hi nofun))))
        fun _ => .yields

end

section

variable {held : List Ref} (f : Frame) [Held f held] {m : MethodInfo}

/-- The constructor of an object that was not there before. -/
theorem orderly_runConstructor (hm : p.env.method? m.id = some m) (hctor : m.isConstructor = true)
    (hdecl : m.id = f.decl) (hthis : ∀ r, f.this = some r → n ≤ r) : RunWith.Orderly K n
      (Journey.runConstructor hc f m hdecl : (runConstructor p.env c f m).Journey p.Places held) := by
  obtain ⟨info, hi, _⟩ := hp.declared.type_of_constructor hm hctor
  have hfree : p.env.Free n f.this f.decl := fun r hr hlt => absurd hlt (Nat.not_lt.mpr (hthis r hr))
  exact .byCases
    (fun r hr => .ofEq
      (have : Held r held := .of_eq_some hr
      RunWith.Orderly.bind
        (orderly_runSuper ho hp (hthis r hr) f hi (hk hfree) _ _ _ (hp.supers hm hctor hi)) fun _ =>
          .bind (.under (.keep (orderly_runInitializers ho hp hk (hthis r hr) m.owner))) fun _ =>
            orderly_execAll ho hp.methods f _ _ _ (hk.allowed hfree _ _) (hk.allowed hfree _ _)))
    fun _ => .ofEq (RunWith.Orderly.keep (.calm (h := .defect nofun) fun _ => rfl))

theorem orderly_runMethod (hdecl : m.id = f.decl) (hfree : p.env.Free n f.this f.decl) :
    RunWith.Orderly K n
      (Journey.runMethod hc f m hdecl : (runMethod p.env c f m).Journey p.Places held) :=
  .byCases
    (fun _ _ => .ofEq (orderly_execAll ho hp.methods f _ _ _
      (hk.allowed hfree _ _) (hk.allowed hfree _ _)))
    fun _ => .ofEq (RunWith.Orderly.keep (.calm (h := by
      have hfatal (className : String) : (fatal (.noImplementation (p.env.describe m.id) className) :
          Run Flow).Sure := .stop nofun
      cases f.this <;> exact .bind (k := hfatal)) fun _ => rfl))

theorem orderly_runBody (hm : p.env.method? m.id = some m) (hdecl : m.id = f.decl)
    (hinvoke : p.env.Admits n m.id f.this) : RunWith.Orderly K n
      (Journey.runBody hc f m hdecl : (runBody p.env c f m).Journey p.Places held) :=
  .ite
    (fun hctor => orderly_runConstructor ho hp hk f hm hctor hdecl fun r hr =>
      Nat.not_lt.mp fun hlt => hinvoke r hr hlt ⟨m, hm, hctor⟩)
    fun _ => orderly_runMethod ho hp hk f hdecl (hdecl ▸ hinvoke.free hp.declared hm)

section

variable (hf : p.Places f.decl .leave) (hfree : p.env.Free n f.this f.decl)

include hfree

theorem orderly_leaveNormally (flow : Flow) [Held flow held] : Run.Orderly K n
    (Journey.leaveNormally hc f hf flow : (leave p c f (.ok flow)).Journey p.Places held) := by
  have hfree : p.env.Free n (Frame.returning f flow).this (Frame.returning f flow).decl := by
    cases flow <;> exact hfree
  exact .starting (hk hfree _) (.watchFrom
    (orderly_runCodes ho hp.methods (Frame.returning f flow) _ _ fun _ _ => hk.fits hfree _)
    (fun _ _ => .calm (h := .pure) fun _ => rfl) fun _ _ => .calm (h := .throw) fun _ => rfl)

theorem orderly_leaveThrowing (e : Ref) [Held e held] : Run.Orderly K n
    (Journey.leaveThrowing hc f hf e : (leave p c f (.error (.throw e))).Journey p.Places held) :=
  .starting (hk hfree _) (.watchFrom
    (orderly_runCodes ho hp.methods { f with thrown := some e } _ _ fun _ _ => hk.fits hfree _)
    (fun _ _ => .calm (h := .throw) fun _ => rfl) fun _ _ => .calm (h := .throw) fun _ => rfl)

end

section

variable (hm : p.env.method? m.id = some m) (hdecl : m.id = f.decl) (hf : p.Places f.decl .leave)
  (hinvoke : p.env.Admits n m.id f.this)

include hm hinvoke

theorem orderly_complete : Run.Orderly K n
    (Journey.complete hc f m hdecl hf : (do
      let (completed, scopes) ← withState (runBody p.env c f m) f.scopes
      leave p c { f with scopes } completed : Run Value).Journey p.Places held) :=
  have hfree : p.env.Free n f.this f.decl := hdecl ▸ hinvoke.free hp.declared hm
  .watchFrom (orderly_runBody ho hp hk f hm hdecl hinvoke)
    (fun flow scopes => orderly_leaveNormally ho hp hk { f with scopes } hf hfree flow)
    fun e scopes => orderly_leaveThrowing ho hp hk { f with scopes } hf hfree e

theorem orderly_work : Run.Orderly K n
    (Journey.work hc f m hdecl hf : (do
      let (entered, slots) ← withState (runCodes p.env c f (p.codesAt m.id .entry)) Table.empty
      let f := { f with slots }
      match entered with
      | .ok () =>
        let (completed, scopes) ← withState (runBody p.env c f m) f.scopes
        leave p c { f with scopes } completed
      | .error u => leave p c f (.error u) : Run Value).Journey p.Places held) :=
  have hfree : p.env.Free n f.this f.decl := hdecl ▸ hinvoke.free hp.declared hm
  .watchFrom (orderly_runCodes ho hp.methods f _ _ fun _ _ => hk.fits hfree _)
    (fun _ slots => orderly_complete ho hp hk { f with slots } hm hdecl hf hinvoke)
    fun e slots => orderly_leaveThrowing ho hp hk { f with slots } hf hfree e

end

end

theorem orderly_activate {id : DeclId} {m : MethodInfo} (hm : p.env.method? id = some m)
    (this : Option Ref) (args : List Value) (hinvoke : p.env.Admits n id this) {held : List Ref}
    [Held this held] [Held args held] : Run.Orderly K n
      (Journey.activate hc hm this args : (activate p c m this args).Journey p.Places held) := by
  obtain rfl := hp.declared.method_id hm
  exact .starting (hk (hinvoke.free hp.declared hm) _)
    (orderly_work ho hp hk { Frame.start m.id this args with scopes := paramScopes m args } hm rfl _
      hinvoke)

theorem orderly_invokeWith (limit : Nat) {id : DeclId} (this : Option Ref) (args : List Value)
    (hinvoke : p.env.Admits n id this) : Run.Orderly K n
      (Journey.invokeWith hc limit id this args :
        (invokeWith p limit c id this args).Journey p.Places _) :=
  .byCases
    (fun _ hm => .ofRun (.bind (.calm fun _ => rfl) fun _ _ =>
      .ite (.calm (h := .stop nofun) fun _ => rfl)
        (.deeper (orderly_activate ho hp hk hm this args hinvoke))))
    fun _ => .ofRun (.calm (h := .defect nofun) fun _ => rfl)

end

/-- By induction on how deep calls go. -/
theorem orderly_calls (hp : p.Constructive src) (hk : p.env.Lets n K) (limit : Nat) :
    ∀ bound, (Journey.calls p limit bound).Orderly p.env K n
  | 0 => ⟨fun _ _ _ _ => .calm (h := .exhausted) fun _ => rfl,
      fun _ _ _ _ => .calm (h := .exhausted) fun _ => rfl⟩
  | bound + 1 => ⟨fun _ this args hinvoke =>
        orderly_invokeWith (orderly_calls hp hk limit bound) hp hk limit this args hinvoke,
      fun _ site this args => orderly_checkObligations (orderly_calls hp hk limit bound) hp.methods
        hp.declared site this args _ _ fun _ ho _ =>
          hk.allowed (.of_builds (hp.obligations ho)) _ _⟩

end Run

end Covenant
