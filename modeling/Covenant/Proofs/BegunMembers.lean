import Covenant.Proofs.BegunTerms
import Covenant.Proofs.ProgramJourneys

/-!
# How members begin

Whatever begins of a body or of a first value does so in a frame whose scopes bind
the names that were in scope when it was checked. The frame of a member starts with
its parameters, which is where the numbers of arguments matter; those of first values
and of initializer blocks start without names. What a member checks at its entry and
at its exits begins in its own frame as a part of a clause, whatever is in scope.
-/

namespace Covenant

open Typed (Expr Stmt)

/-- What begins in a frame was checked in a scope that has the names of the frame, or it is a part
of a clause that is evaluated in such frames. -/
def WovenProgram.Scoped (p : WovenProgram) (src : Surface.Program) (f : Frame) : Task → Prop
  | .stmt st => ∃ s, Typing.ProgramChecks src p.env f.decl s (.stmt st) ∧ s.Has f.scopes.names
  | .expr e => (∃ s, Typing.ProgramChecks src p.env f.decl s (.expr e) ∧ s.Has f.scopes.names) ∨
      ∃ x, p.Evaluates f.decl x ∧ e ∈ x.parts
  | .check _ | .enter | .leave => True

section

variable {p : WovenProgram} {src : Surface.Program}

theorem scoped_of_evaluates {f : Frame} {x : Expr} (hx : p.Evaluates f.decl x) :
    Allowed (fun _ => p.Scoped src f) f.decl .expr x.parts :=
  fun _ he => .inr ⟨x, hx, he⟩

theorem scoped_of_checks {f : Frame} {s : Typing.Scope} {w : Task}
    (hw : Typing.ProgramChecks src p.env f.decl s w) (hs : s.Has f.scopes.names) :
    p.Scoped src f w := by
  cases w with
  | stmt st => exact ⟨s, hw, hs⟩
  | expr e => exact .inl ⟨s, hw, hs⟩
  | check | enter | leave => trivial

theorem ready_of_checks {f : Frame} {R : Typing.Scope → Task → Prop}
    (h : ∀ s w, R s w → Typing.ProgramChecks src p.env f.decl s w) :
    Run.Ready (p.Scoped src) f R :=
  fun s w hR scopes hs => scoped_of_checks (f := { f with scopes }) (h s w hR) hs

end

namespace Run

variable {p : WovenProgram} {src : Surface.Program} {c : Calls} {hc : c.Journey p.Places}

/-! ## Members that take nothing -/

theorem takes_accessor {env : Env} (hd : env.DeclaredBy src) {className name : String}
    {m : MethodInfo} (h : ((env.lookupMethods className name).find? fun m =>
      !m.isStatic && m.params.isEmpty) = some m) : env.Takes m.id 0 := by
  have hprop := List.find?_some h
  obtain ⟨_, hempty⟩ := Bool.and_eq_true_iff.mp hprop
  exact ⟨m, (hd.mem_lookupMethods.mp (List.mem_of_find?_eq_some h)).1,
    List.length_eq_zero_iff.mpr (List.isEmpty_iff.mp hempty)⟩

theorem takes_default {env : Env} (hd : env.DeclaredBy src) {className : String} {m : MethodInfo}
    (h : env.defaultConstructor? className = some m) : env.Takes m.id 0 := by
  rw [Env.defaultConstructor?] at h
  have hempty := List.find?_some h
  exact ⟨m, (hd.mem_constructors (List.mem_of_find?_eq_some h)).1,
    List.length_eq_zero_iff.mpr (List.isEmpty_iff.mp hempty)⟩

section

variable (hb : hc.Begins p.env (p.Scoped src)) (hcount : Counted p.env p.Places)

include hb hcount

/-! ## Checks -/

section

variable (f : Frame)

theorem begins_holds (clause : BoundClause) {held : List Ref} [Held f held]
    (h : Allowed p.Places f.decl .expr clause.expr.parts) (hx : p.Evaluates f.decl clause.expr) :
    Run.Begins (p.Scoped src)
      (Journey.holds hc f clause h : (holds p.env c f clause).Journey p.Places held) :=
  .bind (begins_eval hb hcount f clause.expr h (scoped_of_evaluates hx)) fun v _ => by
    cases v <;> exact .quiet fun _ => rfl

theorem begins_firstFalse : ∀ (clauses : List BoundClause) {held : List Ref} [Held f held]
    (h : ∀ clause ∈ clauses, Allowed p.Places f.decl .expr clause.expr.parts),
      (∀ clause ∈ clauses, p.Evaluates f.decl clause.expr) →
        Run.Begins (p.Scoped src)
          (Journey.firstFalse hc f clauses h : (firstFalse p.env c f clauses).Journey p.Places held)
  | [], _, _, _, _ => .quiet fun _ => rfl
  | clause :: clauses, _, _, h, hx =>
      .bind (begins_holds hb hcount f clause (h _ List.mem_cons_self) (hx _ List.mem_cons_self)) fun
        | true, _ => begins_firstFalse clauses _ fun d hd => hx d (List.mem_cons_of_mem _ hd)
        | false, _ => .quiet fun _ => rfl

theorem begins_failures : ∀ (groups : List (List BoundClause)) {held : List Ref} [Held f held]
    (h : ∀ group ∈ groups, ∀ clause ∈ group, Allowed p.Places f.decl .expr clause.expr.parts),
      (∀ group ∈ groups, ∀ clause ∈ group, p.Evaluates f.decl clause.expr) →
        Run.Begins (p.Scoped src)
          (Journey.failures hc f groups h : (failures p.env c f groups).Journey p.Places held)
  | [], _, _, _, _ => .quiet fun _ => rfl
  | group :: groups, _, _, h, hx =>
      .bind (begins_firstFalse hb hcount f group (h _ List.mem_cons_self) (hx _ List.mem_cons_self)) fun
        | none, _ => .quiet fun _ => rfl
        | some _, _ => .last
            (begins_failures groups _ fun group' h' => hx group' (List.mem_cons_of_mem _ h'))
            fun _ _ => rfl

theorem begins_store : ∀ (es : List Expr) (n : Nat) {held : List Ref} [Held f held]
    (h : ∀ e ∈ es, Allowed p.Places f.decl .expr e.parts), (∀ e ∈ es, p.Evaluates f.decl e) →
      RunWith.Begins (p.Scoped src) (fun _ => True)
        (Journey.store hc f es n h : (store p.env c f n es).Journey p.Places held)
  | [], _, _, _, _, _ => .quiet fun _ => rfl
  | e :: es, n, _, _, h, hx =>
      .bind
        (.withSlots fun slots => begins_eval hb hcount { f with slots } e (h e List.mem_cons_self)
          (scoped_of_evaluates (f := { f with slots }) (hx e List.mem_cons_self)))
        .any fun _ => .bind (.quiet fun _ => rfl) .any fun _ =>
          begins_store es (n + 1) _ fun e' he' => hx e' (List.mem_cons_of_mem _ he')

theorem begins_runCode : ∀ (code : CheckCode) {held : List Ref} [Held f held]
    (h : Fits p.Places f.decl code), (∀ e ∈ code.exprs, p.Evaluates f.decl e) →
      RunWith.Begins (p.Scoped src) (fun _ => True)
        (Journey.runCode hc f code h : (runCode p.env c f code).Journey p.Places held)
  | .snapshot s, _, _, h, hx => .checking h.check (fun _ => trivial)
      (begins_store hb hcount f s.slots 0 h.exprs hx)
  | .precondition groups, _, _, h, hx => .checking h.check (fun _ => trivial)
      (.withSlots fun slots => .bind
        (begins_failures hb hcount { f with slots } groups _ fun _ hg _ hclause =>
          hx _ (List.mem_map_of_mem (List.mem_flatten_of_mem hg hclause)))
        fun failed _ => by cases failed <;> exact .quiet fun _ => rfl)
  | .postcondition clauses, _, _, h, hx => .checking h.check (fun _ => trivial)
      (.withSlots fun slots => .bind
        (begins_firstFalse hb hcount { f with slots } clauses _ fun _ hclause =>
          hx _ (List.mem_map_of_mem hclause))
        fun failed _ => by cases failed <;> exact .quiet fun _ => rfl)
  | .throws .., _, _, h, _ => .checking h.check (fun _ => trivial)
      (.withSlots fun _ => .quiet fun _ => rfl)
  | .reverify _, _, _, h, _ => .checking h.check (fun _ => trivial) (.quiet fun _ => rfl)

theorem begins_runCodes : ∀ (codes : List CheckCode) {held : List Ref} [Held f held]
    (h : ∀ code ∈ codes, Fits p.Places f.decl code),
      (∀ code ∈ codes, ∀ e ∈ code.exprs, p.Evaluates f.decl e) →
        RunWith.Begins (p.Scoped src) (fun _ => True)
          (Journey.runCodes hc f codes h : (runCodes p.env c f codes).Journey p.Places held)
  | [], _, _, _, _ => .quiet fun _ => rfl
  | code :: codes, _, _, h, hx =>
      .bind (begins_runCode hb hcount f code (h _ List.mem_cons_self) (hx _ List.mem_cons_self))
        .any fun _ => begins_runCodes codes _ fun d hd => hx d (List.mem_cons_of_mem _ hd)

end

/-! ## Paths and obligations -/

variable (hd : p.env.DeclaredBy src)

section

include hd

theorem begins_callAccessor (r : Ref) (name : String) {held : List Ref} [Held r held] :
    Run.Begins (p.Scoped src)
      (Journey.callAccessor hc r name : (callAccessor p.env c r name).Journey p.Places held) :=
  .bind (.quiet fun _ => rfl) fun _ _ => .byCases
    (fun _ h => .ofRun (begins_invoke hb (some r) [] (hcount.dispatch _ _ _ (takes_accessor hd h))))
    fun _ => .quiet fun _ => rfl

theorem begins_stepFrom (r : Ref) {held : List Ref} [Held r held] : ∀ s,
    Run.Begins (p.Scoped src)
      (Journey.stepFrom hc r s : (stepFrom p.env c r s).Journey p.Places held)
  | .field _ => .last (.quiet fun _ => rfl) fun _ _ => rfl
  | .accessor name => .last (begins_callAccessor hb hcount hd r name) fun _ _ => rfl
  | .elements => .last (.quiet fun _ => rfl) fun _ _ => rfl

theorem begins_stepFromAll (s : Effect.Step) : ∀ (vs : List Value) {held : List Ref} [Held vs held],
    Run.Begins (p.Scoped src)
      (Journey.stepFromAll hc s vs : (stepFromAll p.env c s vs).Journey p.Places held)
  | [], _, _ => .quiet fun _ => rfl
  | .ref r :: vs, held, h =>
      have : Held r held := ⟨(Held.of_cons.mp h).1.sub⟩
      have : Held vs held := (Held.of_cons.mp h).2
      .bind (begins_stepFrom hb hcount hd r s) fun _ _ =>
        .last (begins_stepFromAll s vs) fun _ _ => rfl
  | .int _ :: vs, held, h | .bool _ :: vs, held, h | .null :: vs, held, h
  | .void :: vs, held, h =>
      have : Held vs held := (Held.of_cons.mp h).2
      begins_stepFromAll s vs

theorem begins_walk : ∀ (steps : List Effect.Step) (vs : List Value) {held : List Ref}
    [Held vs held], Run.Begins (p.Scoped src)
      (Journey.walk hc steps vs : (walk p.env c steps vs).Journey p.Places held)
  | [], _, _, _ => .quiet fun _ => rfl
  | s :: steps, vs, _, _ => .bind (begins_stepFromAll hb hcount hd s vs) fun vs _ =>
      begins_walk steps vs

theorem begins_reach (path : Effect.Path) (this : Option Ref) (args : List Value)
    {held : List Ref} [Held this held] [Held args held] : Run.Begins (p.Scoped src)
      (Journey.reach hc path this args : (reach p.env c path this args).Journey p.Places held) :=
  .bind (.quiet fun _ => rfl) fun start _ =>
    .last (begins_walk hb hcount hd start.2 start.1) fun _ _ => rfl

end

theorem begins_checkObjects (site : SiteId) (o : Obligation)
    (h : Allowed p.Places o.clause.origin .expr o.clause.expr.parts)
    (hx : p.Evaluates o.clause.origin o.clause.expr) : ∀ (rs : List Ref) {held : List Ref}
    [Held rs held], Run.Begins (p.Scoped src)
      (Journey.checkObjects hc site o h rs : (checkObjects p.env c site o rs).Journey p.Places held)
  | [], _, _ => .quiet fun _ => rfl
  | r :: rs, held, hrs =>
      have : Held r held := (Held.of_cons.mp hrs).1
      have : Held rs held := (Held.of_cons.mp hrs).2
      .bind (begins_holds hb hcount (Frame.start o.clause.origin (some r) []) o.clause h hx) fun
        | true, _ => begins_checkObjects site o h hx rs
        | false, _ => .quiet fun _ => rfl

include hd

theorem begins_checkObligations (site : SiteId) (this : Option Ref) (args : List Value) :
    ∀ (os : List Obligation) {held : List Ref} [Held this held] [Held args held]
      (h : ∀ o ∈ os, Allowed p.Places o.clause.origin .expr o.clause.expr.parts),
        (∀ o ∈ os, p.Evaluates o.clause.origin o.clause.expr) →
          Run.Begins (p.Scoped src) (Journey.checkObligations hc site this args os h :
            (checkObligations p.env c site this args os).Journey p.Places held)
  | [], _, _, _, _, _ => .quiet fun _ => rfl
  | o :: os, _, _, _, _, hx => .bind (begins_reach hb hcount hd o.object this args) fun rs _ =>
      .bind (begins_checkObjects hb hcount site o _ (hx o List.mem_cons_self) rs) fun _ _ =>
        begins_checkObligations site this args os _ fun o' ho' => hx o' (List.mem_cons_of_mem _ ho')

end

/-! ## Bodies and first values -/

/-- A body that was checked in a scope with these names, and may begin as that was. Its first
statement may call a constructor of the superclass. -/
inductive SitedBody (env : Env) (Q : Frame → Task → Prop) (f : Frame)
    (levels : List (Set String)) : List Stmt → Prop
  | plain {body} (h : SitedAll Q f levels body) : SitedBody env Q f levels body
  | super {span site ctor args rest}
      (self : ∀ scopes, Scopes.At levels scopes →
        Q { f with scopes } (.stmt (.superCall span site ctor args)))
      (own : ∀ scopes, Scopes.At levels scopes →
        Allowed (fun _ => Q { f with scopes }) f.decl .expr (Expr.partsAll args))
      (takes : env.Takes ctor args.length) (h : SitedAll Q f levels rest) :
      SitedBody env Q f levels (.superCall span site ctor args :: rest)

section

variable {Q : Frame → Task → Prop} {f : Frame} {levels : List (Set String)} {env : Env}

theorem SitedAll.noSuper {span : Span} {site : SiteId} {ctor : DeclId} {args : List Expr}
    {rest : List Stmt} : ¬ SitedAll Q f levels (.superCall span site ctor args :: rest)
  | .intro he _ _ => by
      cases he with
      | cons hc _ => cases hc

theorem SitedBody.behind {body : List Stmt} : SitedBody env Q f levels body →
    SitedAll Q f levels (Typed.behindSuper body)
  | .super _ _ _ h => h
  | .plain h => by
      rw [Typed.behindSuper.eq_def]
      split
      · exact absurd h SitedAll.noSuper
      · exact h

end

section

variable (hp : src.WellFormed) (h : Typing.checkProgram src = .ok p.env)

include hp h

/-- The body of a member is sited where the parameters are in scope. -/
theorem method_sited {m : MethodInfo} (hm : p.env.method? m.id = some m) {f : Frame}
    (hf : f.decl = m.id) {args : List Value} (hargs : m.params.length = args.length) :
    SitedBody p.env (p.Scoped src) f (paramScopes m args).names ((p.env.body? m.id).getD []) ∧
      (m.isConstructor = false →
        SitedAll (p.Scoped src) f (paramScopes m args).names ((p.env.body? m.id).getD [])) := by
  have hnone : SitedAll (p.Scoped src) f (paramScopes m args).names [] :=
    .intro (k := ⟨false, .void⟩) .nil (Typing.Scope.has_ofMethod p.env hargs) nofun
  cases hb : p.env.body? m.id with
  | none => exact ⟨.plain hnone, fun _ => hnone⟩
  | some body =>
      rcases Typing.method_checks hp h hm hb with rfl | ⟨env₀, u, cs, h₀, hdecls, he, hchecks⟩
      · exact ⟨.plain hnone, fun _ => hnone⟩
      · have hs := Typing.Scope.has_ofMethod env₀ hargs
        rw [← hf] at hchecks
        cases he with
        | plain he =>
            have hall := SitedAll.intro he hs
              (ready_of_checks fun s w hw => hchecks s w (.stmts hw))
            exact ⟨.plain hall, fun _ => hall⟩
        | super hctor _ _ ha hsel hr =>
            refine ⟨.super ?_ ?_ ?_ ?_, fun hno => absurd (hno.symm.trans hctor) (by simp)⟩
            · exact (ready_of_checks hchecks).at (.super ha) hs
            · exact fun scopes hlevels e he =>
                (ready_of_checks hchecks).at (.superArgs ha he) hs scopes hlevels
            · have hctor := (h₀.mem_constructors (Typing.selectOverload?_ok hsel).1).1
              exact hdecls.takes (Typing.takes_of_selected hctor hsel)
            · exact .intro hr hs (ready_of_checks fun s w hw => hchecks s w (.behindSuper hw))

/-- An initializer block is sited where nothing is in scope. -/
theorem block_sited {name : String} {info : ClassInfo} (hi : p.env.class? name = some info)
    {id : DeclId} (hitem : .block id ∈ info.initOrder) {f : Frame} (hf : f.decl = id) :
    SitedAll (p.Scoped src) f [∅] ((p.env.body? id).getD []) := by
  have hnone : SitedAll (p.Scoped src) f [∅] [] :=
    .intro (k := ⟨false, .void⟩) .nil (Typing.Scope.has_ofBody p.env name id false) nofun
  rcases (Env.declaredBy_of_check hp h).item_of_type hi hitem with
    ⟨_, _, _, _, heq⟩ | ⟨t, ht, _, d, hdin, heq⟩
  · cases heq
  · cases heq
    cases hb : p.env.body? d.id with
    | none => exact hnone
    | some body =>
        rcases Typing.block_checks hp h ht hdin hb with rfl | ⟨env₀, u, cs, he, hchecks⟩
        · exact hnone
        · cases he with
          | plain he =>
              exact .intro he (Typing.Scope.has_ofBody _ _ _ _)
                (ready_of_checks fun s w hw => hf ▸ hchecks s w (.stmts hw))
          | super hctor => cases hctor

/-- A first value begins where nothing is in scope. -/
theorem init_scoped {f : Frame} (hf : f.scopes.names = [∅]) {init : Expr}
    (hi : p.env.fieldInits.get? f.decl = some init) :
    Allowed (fun _ => p.Scoped src f) f.decl .expr init.parts := by
  intro e he
  obtain ⟨env₀, className, isStatic, hchecks⟩ := Typing.init_checks hp h hi he
  exact scoped_of_checks hchecks (hf ▸ Typing.Scope.has_ofBody ..)

end

theorem names_start (decl : DeclId) (this : Option Ref) (args : List Value) :
    Scopes.At [∅] (Frame.start decl this args).scopes :=
  congrArg ([·]) Table.bound_empty

/-! ## Members -/

section

variable (hb : hc.Begins p.env (p.Scoped src)) (hcount : Counted p.env p.Places)
  (hp : src.WellFormed) (h : Typing.checkProgram src = .ok p.env)

include hb hcount hp h

theorem begins_runInitItem (this : Ref) {held : List Ref} [Held this held] {name : String}
    {info : ClassInfo} (hi : p.env.class? name = some info) : ∀ item ∈ info.initOrder,
      Run.Begins (p.Scoped src)
        (Journey.runInitItem hc this item : (runInitItem p.env c this item).Journey p.Places held)
  | .field id, _ => .byCases
      (fun _ _ => .byCases
        (fun init hinit => .ofRun (.bind
          (begins_eval hb hcount (Frame.start id (some this) []) init _
            (init_scoped hp h (names_start ..) hinit))
          fun _ _ => .under .brief))
        fun _ => .quiet fun _ => rfl)
      fun _ => .quiet fun _ => rfl
  | .block id, hitem => by
      rw [Journey.runInitItem]
      exact .watchFrom
        (begins_execAll hb hcount (Frame.start id (some this) []) _ _ _ (List.cons_ne_nil _ _)
          (block_sited hp h hi hitem rfl))
        (names_start ..) (fun _ _ => .quiet fun _ => rfl) fun _ _ => .quiet fun _ => rfl

theorem begins_runInitItems (this : Ref) {name : String} {info : ClassInfo}
    (hi : p.env.class? name = some info) : ∀ (items : List InitItem) {held : List Ref}
    [Held this held], items ⊆ info.initOrder → Run.Begins (p.Scoped src)
      (Journey.runInitItems hc this items : (runInitItems p.env c this items).Journey p.Places held)
  | [], _, _, _ => .quiet fun _ => rfl
  | item :: items, _, _, hsub =>
      .bind (begins_runInitItem hb hcount hp h this hi item (hsub List.mem_cons_self)) fun _ _ =>
        begins_runInitItems this hi items fun _ hmem => hsub (List.mem_cons_of_mem _ hmem)

section

variable {held : List Ref} (this : Ref) [Held this held]

theorem begins_runInitializers (className : String) : Run.Begins (p.Scoped src)
    (Journey.runInitializers hc this className :
      (runInitializers p.env c this className).Journey p.Places held) :=
  .byCases
    (fun info hi => .ofRun
      (begins_runInitItems hb hcount hp h this hi info.initOrder (List.Subset.refl _)))
    fun _ => .quiet fun _ => rfl

theorem begins_runSuperDefault (className : String) : Run.Begins (p.Scoped src)
    (Journey.runSuperDefault hc this className :
      (runSuperDefault p.env c this className).Journey p.Places held) :=
  .byCases
    (fun _ _ => .byCases
      (fun _ hctor => .ofRun (.last (begins_invoke hb (some this) []
        (takes_default (Env.declaredBy_of_check hp h) hctor)) fun _ _ => rfl))
      fun _ => .quiet fun _ => rfl)
    fun _ => .quiet fun _ => rfl

variable (f : Frame) [Held f held] {levels : List (Set String)}

theorem begins_runSuper (className : String) : ∀ (body : List Stmt)
    (hi : Allowed p.Places f.decl .stmt (Typed.stmtsInner body))
    (hparts : Allowed p.Places f.decl .expr (Typed.stmtsParts body)),
      SitedBody p.env (p.Scoped src) f levels body →
        RunWith.Begins (p.Scoped src) (Scopes.At levels)
          (Journey.runSuper hc this f className body hi hparts :
            (runSuper p.env c f this className body).Journey p.Places held)
  | .superCall _ _ _ args :: _, hi, _, .super self own takes _ => .around (h := hi.left.head) self
      (.bindTo (J := fun vs _ => vs.length = args.length)
        (.inScope fun scopes hs => begins_evalAll hb hcount { f with scopes } args _ (own scopes hs))
        (fun _ _ _ _ hvs => length_evalArgs hvs) fun vs => .given fun hvs =>
          .last (.under (.keep (begins_invoke hb (some this) vs (hvs ▸ takes)))) fun _ _ => rfl)
  | .superCall .. :: _, _, _, .plain hall => absurd hall SitedAll.noSuper
  | [], _, _, _ | .declare .. :: _, _, _, _ | .setVar .. :: _, _, _, _ | .setField .. :: _, _, _, _
  | .setStatic .. :: _, _, _, _ | .setIndex .. :: _, _, _, _ | .expr .. :: _, _, _, _
  | .branch .. :: _, _, _, _ | .loop .. :: _, _, _, _ | .ret .. :: _, _, _, _
  | .throw .. :: _, _, _, _ | .attempt .. :: _, _, _, _ | .block .. :: _, _, _, _ =>
      .last (.under (.keep (begins_runSuperDefault hb hcount hp h this className))) fun _ _ => rfl

omit this [Held this held] in
theorem begins_runConstructor (m : MethodInfo) (hdecl : m.id = f.decl) (hlevels : levels ≠ [])
    (hbody : SitedBody p.env (p.Scoped src) f levels ((p.env.body? m.id).getD [])) :
    RunWith.Begins (p.Scoped src) (Scopes.At levels)
      (Journey.runConstructor hc f m hdecl : (runConstructor p.env c f m).Journey p.Places held) :=
  .byCases
    (fun r hr => .ofEq
      (have : Held r held := .of_eq_some hr
      RunWith.Begins.bind (begins_runSuper hb hcount hp h r f m.owner _ _ _ hbody)
        (runSuper_names p.env c f r m.owner _).at fun _ =>
          .bind (.under (.keep (begins_runInitializers hb hcount hp h r m.owner)))
            (RunWith.KeepsNames.keep _).at fun _ =>
              begins_execAll hb hcount f _ _ _ hlevels hbody.behind))
    fun _ => .quiet fun _ => rfl

omit this [Held this held] hp h in
theorem begins_runMethod (m : MethodInfo) (hdecl : m.id = f.decl) (hlevels : levels ≠ [])
    (hbody : SitedAll (p.Scoped src) f levels ((p.env.body? m.id).getD [])) :
    RunWith.Begins (p.Scoped src) (Scopes.At levels)
      (Journey.runMethod hc f m hdecl : (runMethod p.env c f m).Journey p.Places held) :=
  .byCases
    (fun body hget => .ofEq
      (begins_execAll hb hcount f body _ _ hlevels (getD_of_body hget ▸ hbody)))
    fun _ => .quiet fun _ => rfl

omit this [Held this held] in
/-- From the scope of the parameters on. -/
theorem begins_runBody {m : MethodInfo} (hm : p.env.method? m.id = some m) (hdecl : m.id = f.decl)
    {args : List Value} (hargs : m.params.length = args.length) :
    RunWith.Begins (p.Scoped src) (Scopes.At (paramScopes m args).names)
      (Journey.runBody hc f m hdecl : (runBody p.env c f m).Journey p.Places held) :=
  have hlevels : (paramScopes m args).names ≠ [] := List.cons_ne_nil _ _
  .ite
    (fun _ => begins_runConstructor hb hcount hp h f m hdecl hlevels
      (method_sited hp h hm hdecl.symm hargs).1)
    fun hctor => begins_runMethod hb hcount f m hdecl hlevels
      ((method_sited hp h hm hdecl.symm hargs).2 hctor)

omit this [Held this held] hp h in
theorem begins_leaveNormally (hf : p.Places f.decl .leave) (flow : Flow) [Held flow held] :
    Run.Begins (p.Scoped src)
      (Journey.leaveNormally hc f hf flow : (leave p c f (.ok flow)).Journey p.Places held) :=
  .starting trivial (.watchFrom
    (begins_runCodes hb hcount (Frame.returning f flow) _ _ fun _ hcode _ he =>
      p.evaluates_check hcode he)
    trivial (fun _ _ => .quiet fun _ => rfl) fun _ _ => .quiet fun _ => rfl)

omit this [Held this held] hp h in
theorem begins_leaveThrowing (hf : p.Places f.decl .leave) (e : Ref) [Held e held] :
    Run.Begins (p.Scoped src)
      (Journey.leaveThrowing hc f hf e : (leave p c f (.error (.throw e))).Journey p.Places held) :=
  .starting trivial (.watchFrom
    (begins_runCodes hb hcount { f with thrown := some e } _ _ fun _ hcode _ he =>
      p.evaluates_check hcode he)
    trivial (fun _ _ => .quiet fun _ => rfl) fun _ _ => .quiet fun _ => rfl)

section

variable {m : MethodInfo} (hm : p.env.method? m.id = some m) (hdecl : m.id = f.decl)
  (hf : p.Places f.decl .leave) {args : List Value} (hargs : m.params.length = args.length)
  (hscopes : f.scopes = paramScopes m args)

include hm hargs hscopes

omit this [Held this held] in
theorem begins_complete : Run.Begins (p.Scoped src)
    (Journey.complete hc f m hdecl hf : (do
      let (completed, scopes) ← withState (runBody p.env c f m) f.scopes
      leave p c { f with scopes } completed : Run Value).Journey p.Places held) :=
  .watchFrom (begins_runBody hb hcount hp h f hm hdecl hargs) (congrArg Scopes.names hscopes)
    (fun flow scopes => begins_leaveNormally hb hcount { f with scopes } hf flow)
    fun e scopes => begins_leaveThrowing hb hcount { f with scopes } hf e

omit this [Held this held] in
theorem begins_work : Run.Begins (p.Scoped src)
    (Journey.work hc f m hdecl hf : (do
      let (entered, slots) ← withState (runCodes p.env c f (p.codesAt m.id .entry)) Table.empty
      let f := { f with slots }
      match entered with
      | .ok () =>
        let (completed, scopes) ← withState (runBody p.env c f m) f.scopes
        leave p c { f with scopes } completed
      | .error u => leave p c f (.error u) : Run Value).Journey p.Places held) :=
  .watchFrom
    (begins_runCodes hb hcount f _ _ fun _ hcode _ he => hdecl ▸ p.evaluates_check hcode he)
    trivial
    (fun _ slots => begins_complete hb hcount hp h { f with slots } hm hdecl hf hargs hscopes)
    fun e slots => begins_leaveThrowing hb hcount { f with slots } hf e

end

end

theorem begins_activate {id : DeclId} {m : MethodInfo} (hm : p.env.method? id = some m)
    (this : Option Ref) {args : List Value} (hargs : m.params.length = args.length)
    {held : List Ref} [Held this held] [Held args held] :
    Run.Begins (p.Scoped src)
      (Journey.activate hc hm this args : (activate p c m this args).Journey p.Places held) :=
  have hid := ((Env.declaredBy_of_check hp h).method_cases id m hm).1
  .starting trivial (begins_work hb hcount hp h
    { Frame.start m.id this args with scopes := paramScopes m args } (hid ▸ hm) rfl _ hargs rfl)

theorem begins_invokeWith (limit : Nat) {id : DeclId} (this : Option Ref) {args : List Value}
    (htakes : p.env.Takes id args.length) : Run.Begins (p.Scoped src)
      (Journey.invokeWith hc limit id this args :
        (invokeWith p limit c id this args).Journey p.Places _) :=
  .byCases
    (fun m hm => .ofRun (.bind (.quiet fun _ => rfl) fun _ _ => .ite (.quiet fun _ => rfl)
      (.deeper (begins_activate hb hcount hp h hm this (by
        obtain ⟨m', hm', hargs⟩ := htakes
        exact Option.some.inj (hm.symm.trans hm') ▸ hargs)))))
    fun _ => .quiet fun _ => rfl

end

/-! ## Runs -/

section

variable (hcount : Counted p.env p.Places) (hp : src.WellFormed)
  (h : Typing.checkProgram src = .ok p.env)

include hcount hp h

/-- By induction on how deep calls go. -/
theorem begins_calls (limit : Nat) : ∀ n, (Journey.calls p limit n).Begins p.env (p.Scoped src)
  | 0 => ⟨fun _ _ _ _ => .quiet fun _ => rfl, fun _ _ _ _ => .quiet fun _ => rfl⟩
  | n + 1 => ⟨fun _ this _ htakes =>
        begins_invokeWith (begins_calls limit n) hcount hp h limit this htakes,
      fun _ site this args => begins_checkObligations (begins_calls limit n) hcount
        (Env.declaredBy_of_check hp h) site this args _ _ fun _ => p.evaluates_obligation⟩

variable (hb : hc.Begins p.env (p.Scoped src))

include hb

theorem begins_evalStatics : ∀ (fs : List FieldInfo) {held : List Ref},
    Run.Begins (p.Scoped src)
      (Journey.evalStatics hc fs : (evalStatics p.env c fs).Journey p.Places held)
  | [], _ => .quiet fun _ => rfl
  | f :: fs, _ => .byCases
      (fun init hinit => .ofRun (.bind
        (begins_eval hb hcount (Frame.start f.id none []) init _
          (init_scoped hp h (names_start ..) hinit))
        fun _ _ => .bind (.brief (h := _)) fun _ _ => begins_evalStatics fs))
      fun _ => .ofRun (begins_evalStatics fs)

theorem begins_runFrom {id : DeclId} (htakes : p.env.Takes id 0) :
    Run.Begins (p.Scoped src)
      (Journey.runFrom hc id : (runFrom p.env c id).Journey p.Places []) :=
  .bind (.bind .brief fun _ _ => begins_evalStatics hcount hp h hb _) fun _ _ =>
    begins_invoke hb none [] htakes

end

end Run

end Covenant
