import Covenant.Proofs.ObjectWorks
import Covenant.Proofs.ReturnedValues

/-!
# The work of constructors

A constructor does its work on an object in a fixed order: the checks at its entry, what
makes the superclass part of the object, the initializers of its class as they stand in
the text, the rest of its body and the checks at its exit. `Built` says this of the work
of a constructor and of all those that it relies on, along the chain of superclasses. It
is proved by induction on how deep calls go; all that is evaluated in between shows no
other work on the object.
-/

namespace Covenant

open HasRefs (refs)
open Typed (Expr Stmt)
open World (machine)
open Env (builds_eq_true)

/-! ## Work in order -/

/-- Work of a declaration that consists in some tasks. -/
def WorkOf (decl : DeclId) (tasks : List Task) (ws : List Work) : Prop :=
  ∀ x ∈ ws, x.1 = decl ∧ x.2 ∈ tasks

/-- What begins of an expression once it has begun itself. -/
def Typed.Expr.tasks (e : Expr) : List Task := e.parts.tail.map .expr

/-- What begins of a statement once it has begun itself. -/
def Typed.Stmt.tasks (s : Stmt) : List Task := s.inner.tail.map .stmt ++ s.parts.map .expr

/-- What begins of a check once it has begun itself. -/
def CheckCode.tasks (code : CheckCode) : List Task := (code.exprs.flatMap Expr.parts).map .expr

/-- The work on the members of a list, one after the other. -/
inductive InTurn {τ : Type} (R : τ → List Work → Prop) : List τ → List Work → Prop
  | nil : InTurn R [] []
  | cons {a as ws rest} (first : R a ws) (behind : InTurn R as rest) :
      InTurn R (a :: as) (ws ++ rest)

/-- The work on a check. -/
inductive CodeRun (decl : DeclId) (code : CheckCode) : List Work → Prop
  | intro {ws} (within : WorkOf decl code.tasks ws) : CodeRun decl code ((decl, .check code) :: ws)

/-- The work on statements: each is run once, in their order, to the end or to one that returns. -/
inductive StmtsRun (decl : DeclId) : List Stmt → List Work → Prop
  | done : StmtsRun decl [] []
  | next {s rest ws later} (within : WorkOf decl s.tasks ws) (behind : StmtsRun decl rest later) :
      StmtsRun decl (s :: rest) ((decl, .stmt s) :: ws ++ later)
  | left {s rest ws span value} (within : WorkOf decl s.tasks ws)
      (returns : .ret span value ∈ s.inner) : StmtsRun decl (s :: rest) ((decl, .stmt s) :: ws)

/-- The work on an initializer. -/
inductive ItemRun (env : Env) : InitItem → List Work → Prop
  | field {id init ws} (value : env.fieldInits.get? id = some init)
      (within : WorkOf id init.tasks ws) : ItemRun env (.field id) ((id, .expr init) :: ws)
  | block {id body ws} (statements : env.body? id = some body) (run : StmtsRun id body ws) :
      ItemRun env (.block id) ws

/-- A constructor of a class. -/
structure Env.Makes (env : Env) (info : ClassInfo) (m : MethodInfo) : Prop where
  method : env.method? m.id = some m
  isConstructor : m.isConstructor = true
  owner : env.class? m.owner = some info

theorem Env.DeclaredBy.makes {env : Env} {src : Surface.Program} (hd : env.DeclaredBy src)
    {id : DeclId} {m : MethodInfo} (hm : env.method? id = some m) (hc : m.isConstructor = true) :
    m.id = id ∧ ∃ info, env.Makes info m := by
  obtain rfl := hd.method_id hm
  obtain ⟨info, hi, _⟩ := hd.type_of_constructor hm hc
  exact ⟨rfl, info, hm, hc, hi⟩

mutual

/-- The work of a constructor, and of all those along a chain of classes that it relies on: the
checks at its entry, its body, and the checks at its exit. -/
inductive Built (p : WovenProgram) : List ClassInfo → DeclId → List Work → Prop
  | intro {info m chain stored pre entry body exit} (makes : p.env.Makes info m)
      (checks : p.codesAt m.id .entry = stored ++ pre)
      (snapshots : ∀ code ∈ stored, ∃ s, code = .snapshot s)
      (preconditions : ∀ code ∈ pre, ∃ groups, code = .precondition groups)
      (entered : InTurn (CodeRun m.id) (stored ++ pre) entry)
      (run : BodyBuilt p info m chain body)
      (left : InTurn (CodeRun m.id) (p.codesAt m.id .normalExit) exit) :
      Built p (info :: chain) m.id ((m.id, .enter) :: (entry ++ (body ++ (m.id, .leave) :: exit)))

/-- The work of the body of a constructor: the superclass part of the object is made first, then
the initializers of the class are run, and then the rest of the body is. -/
inductive BodyBuilt (p : WovenProgram) :
    ClassInfo → MethodInfo → List ClassInfo → List Work → Prop
  | intro {info m chain above inits rest}
      (super : SuperBuilt p info m.id ((p.env.body? m.id).getD []) chain above)
      (initialized : InTurn (ItemRun p.env) info.initOrder inits)
      (finished : StmtsRun m.id (Typed.behindSuper ((p.env.body? m.id).getD [])) rest) :
      BodyBuilt p info m chain (above ++ (inits ++ rest))

/-- The work on the superclass part of an object: what one constructor of the superclass does, if
there is a superclass, behind the arguments that it is called with. -/
inductive SuperBuilt (p : WovenProgram) :
    ClassInfo → DeclId → List Stmt → List ClassInfo → List Work → Prop
  | root {info decl body}
      (plain : ∀ span site id args rest, body ≠ .superCall span site id args :: rest)
      (superclass : info.superclass = none) : SuperBuilt p info decl body [] []
  | explicit {info decl span site ctor es rest d chain args ws}
      (superclass : info.superclass = some d.owner) (method : p.env.method? ctor = some d)
      (within : WorkOf decl ((Expr.partsAll es).map .expr) args) (built : Built p chain ctor ws) :
      SuperBuilt p info decl (.superCall span site ctor es :: rest) chain
        ((decl, .stmt (.superCall span site ctor es)) :: args ++ ws)
  | implicit {info decl body s d chain ws}
      (plain : ∀ span site id args rest, body ≠ .superCall span site id args :: rest)
      (superclass : info.superclass = some s) (default : p.env.defaultConstructor? s = some d)
      (built : Built p chain d.id ws) : SuperBuilt p info decl body chain ws

end

/-! ## The work of parts -/

/-- Work of one declaration that consists in some tasks. -/
def OwnTasks (decl : DeclId) (tasks : List Task) : DeclId → Task → Prop :=
  fun d w => d = decl ∧ w ∈ tasks

theorem allowed_own {env : Env} {r : Ref} {this : Option Ref} {decl : DeclId} {tasks : List Task}
    {τ : Type} {kind : τ → Task} {l : List τ} (h : ∀ a ∈ l, kind a ∈ tasks) :
    Allowed (Own env r (OwnTasks decl tasks) this) decl kind l :=
  fun a ha _ _ => ⟨rfl, h a ha⟩

namespace Run

variable {p : WovenProgram} {src : Surface.Program} {c : Calls} {hc : c.Journey p.Places} {r : Ref}
  (ho : ∀ D, hc.Orderly p.env (Own p.env r D) (r + 1)) (hp : p.Constructive src)

section

include ho hp

theorem shows_runCode (f : Frame) (hthis : f.this = some r) (hb : p.env.builds f.decl = true)
    (code : CheckCode) {held : List Ref} [Held f held] (h : Fits p.Places f.decl code) :
    RunWith.Shows p.env r (fun _ ws => CodeRun f.decl code ws)
      (Journey.runCode hc f code h : (runCode p.env c f code).Journey p.Places held) :=
  .imp
    (Opens.shows
      (opens_runCode (ho (OwnTasks f.decl code.tasks)) hp.methods f code h fun e he =>
        allowed_own fun _ ha => List.mem_map_of_mem (List.mem_flatMap.mpr ⟨e, he, ha⟩))
      hthis hb)
    fun _ _ ⟨_, heq, hinner⟩ => heq ▸ .intro hinner

theorem shows_runCodes (f : Frame) (hthis : f.this = some r) (hb : p.env.builds f.decl = true) :
    ∀ (codes : List CheckCode) {held : List Ref} [Held f held]
      (h : ∀ code ∈ codes, Fits p.Places f.decl code),
        RunWith.Shows p.env r (fun _ ws => InTurn (CodeRun f.decl) codes ws)
          (Journey.runCodes hc f codes h : (runCodes p.env c f codes).Journey p.Places held)
  | [], _, _, _ => .yields .nil
  | code :: codes, _, _, h =>
      .bind (shows_runCode ho hp f hthis hb code (h _ List.mem_cons_self)) fun _ =>
        (shows_runCodes f hthis hb codes _).imp fun _ _ hws _ hfirst => .cons hfirst hws

/-- A statement that is run begins, and if it returns, it has a return in it. -/
theorem shows_exec (f : Frame) (hthis : f.this = some r) (hb : p.env.builds f.decl = true)
    (st : Stmt) {held : List Ref} [Held f held] (hi : Allowed p.Places f.decl .stmt st.inner)
    (he : Allowed p.Places f.decl .expr st.parts) :
    RunWith.Shows p.env r
      (fun flow ws => (∃ inner, ws = (f.decl, .stmt st) :: inner ∧ WorkOf f.decl st.tasks inner) ∧
        (flow ≠ .normal → ∃ span value, .ret span value ∈ st.inner))
      (Journey.exec hc f st hi he : (exec p.env c f st).Journey p.Places held) := by
  refine .and
    (Opens.shows
      (opens_exec (ho (OwnTasks f.decl st.tasks)) hp.methods f st hi he
        (allowed_own fun _ ha => List.mem_append_left _ (List.mem_map_of_mem ha))
        (allowed_own fun _ ha => List.mem_append_right _ (List.mem_map_of_mem ha)))
      hthis hb)
    fun s flow t hends hflow => ?_
  cases flow with
  | normal => exact absurd rfl hflow
  | ret v span =>
      obtain ⟨⟨⟨_, s'⟩, μ⟩, hx, heq⟩ := Option.map_eq_some_iff.mp hends
      cases heq
      obtain ⟨value, hreturns⟩ := returns_of_exec hx
      exact ⟨span, value, hreturns.mem⟩

theorem shows_execAll (f : Frame) (hthis : f.this = some r) (hb : p.env.builds f.decl = true)
    (body : List Stmt) {held : List Ref} [Held f held]
    (hi : Allowed p.Places f.decl .stmt (Typed.stmtsInner body))
    (he : Allowed p.Places f.decl .expr (Typed.stmtsParts body)) :
    RunWith.Shows p.env r (fun _ ws => StmtsRun f.decl body ws)
      (Journey.execAll hc f body hi he : (execAll p.env c f body).Journey p.Places held) := by
  induction body generalizing held with
  | nil => exact .yields .done
  | cons st rest ih =>
    refine .bind (shows_exec ho hp f hthis hb st hi.left he.left) fun flow => ?_
    cases flow with
    | normal =>
      refine (ih hi.right he.right).imp fun _ _ hws _ hfirst => ?_
      obtain ⟨⟨_, heq, hinner⟩, _⟩ := hfirst
      exact heq ▸ .next hinner hws
    | ret value span =>
      refine .yields fun _ hfirst => ?_
      obtain ⟨⟨_, heq, hinner⟩, hreturns⟩ := hfirst
      obtain ⟨_, _, hmem⟩ := hreturns nofun
      rw [List.append_nil, heq]
      exact .left hinner hmem

/-! ## The work of a constructor -/

section

variable {name : String} {info : ClassInfo} (hi : p.env.class? name = some info)

include hi

theorem shows_runInitItem {held : List Ref} [Held r held] (item : InitItem)
    (hitem : item ∈ info.initOrder) :
    Run.Shows p.env r (fun _ ws => ItemRun p.env item ws)
      (Journey.runInitItem hc r item : (runInitItem p.env c r item).Journey p.Places held) := by
  cases item with
  | field id =>
    obtain ⟨f, init, hf, hinit⟩ := hp.inits hi hitem
    have hb : p.env.builds id = true := builds_eq_true.mpr ⟨name, info, hi, .inr (.inl hitem)⟩
    rw [Journey.runInitItem]
    refine .byCases (fun _ _ => .byCases (fun init' hinit' => ?_) fun hnone => ?_) fun hnone => ?_
    · obtain rfl := Option.some.inj (hinit.symm.trans hinit')
      refine Run.Shows.ofRun (.bind
        (Opens.shows
          (opens_eval (ho (OwnTasks id init.tasks)) hp.methods (Frame.start id (some r) []) init
            (p.places_init hinit) (allowed_own fun _ ha => List.mem_map_of_mem ha))
          rfl hb)
        fun v => .under (.brief fun _ _ hfirst => ?_))
      obtain ⟨inner, heq, hinner⟩ := hfirst
      rw [List.append_nil, heq]
      exact .field hinit hinner
    · exact absurd (hnone.symm.trans hinit) (by simp)
    · exact absurd (hnone.symm.trans hf) (by simp)
  | block id =>
    obtain ⟨body, hbody⟩ := hp.blocks hi hitem
    have hb : p.env.builds id = true := builds_eq_true.mpr ⟨name, info, hi, .inr (.inr hitem)⟩
    rw [Journey.runInitItem]
    refine .watchFrom (shows_execAll ho hp (Frame.start id (some r) []) rfl hb _ _ _)
      (fun _ _ => .calm (fun _ => rfl) fun _ ws hws => ?_) fun _ _ _ _ _ h => by cases h
    rw [hbody] at hws
    rw [List.append_nil]
    exact .block hbody hws

theorem shows_runInitItems : ∀ (items : List InitItem) {held : List Ref} [Held r held],
    items ⊆ info.initOrder → Run.Shows p.env r (fun _ ws => InTurn (ItemRun p.env) items ws)
      (Journey.runInitItems hc r items : (runInitItems p.env c r items).Journey p.Places held)
  | [], _, _, _ => .calm (fun _ => rfl) fun _ => .nil
  | item :: items, _, _, hsub =>
      .bind (shows_runInitItem ho hp hi item (hsub List.mem_cons_self)) fun _ =>
        (shows_runInitItems items fun _ h => hsub (List.mem_cons_of_mem _ h)).imp
          fun _ _ hws _ hfirst => .cons hfirst hws

theorem shows_runInitializers {held : List Ref} [Held r held] :
    Run.Shows p.env r (fun _ ws => InTurn (ItemRun p.env) info.initOrder ws)
      (Journey.runInitializers hc r name :
        (runInitializers p.env c r name).Journey p.Places held) := by
  refine .byCases (fun info' hi' => ?_) fun hnone => absurd (hnone.symm.trans hi) (by simp)
  obtain rfl := Option.some.inj (hi.symm.trans hi')
  exact .ofRun (shows_runInitItems ho hp hi info.initOrder (List.Subset.refl _))

end

section

variable (hsuper : ∀ {info d} (args : List Value), p.env.Makes info d →
  Run.Shows p.env r (fun _ ws => Built p (p.env.classChain d.owner) d.id ws)
    (hc.invoke d.id (some r) args))

include hsuper

omit ho in
/-- Without a call of one, the constructor that takes nothing makes the superclass part. -/
theorem shows_runSuperDefault {className : String} {info : ClassInfo}
    (hi : p.env.class? className = some info) (decl : DeclId) {body : List Stmt}
    (h : SuperPart p.env info body)
    (hplain : ∀ span site id args rest, body ≠ .superCall span site id args :: rest)
    {held : List Ref} [Held r held] :
    Run.Shows p.env r
      (fun _ ws => SuperBuilt p info decl body (info.superclass.elim [] p.env.classChain) ws)
      (Journey.runSuperDefault hc r className :
        (runSuperDefault p.env c r className).Journey p.Places held) := by
  have hbind : (p.env.class? className).bind (·.superclass) = info.superclass := by rw [hi]; rfl
  cases h with
  | explicit => exact absurd rfl (hplain _ _ _ _ _)
  | root _ hnone =>
      refine .byCases (fun s hs => absurd (hnone.symm.trans (hbind.symm.trans hs)) (by simp))
        fun _ => .ofRun (.calm (fun _ => rfl) fun _ => ?_)
      rw [hnone]
      exact .root hplain hnone
  | @implicit _ s d _ hsuperclass hdefault =>
      obtain ⟨hget, rfl, hctor, _⟩ :=
        hp.declared.mem_constructors (List.mem_of_find?_eq_some hdefault)
      obtain ⟨_, info', hmakes⟩ := hp.declared.makes hget hctor
      have hsuperclass' := hbind.trans hsuperclass
      refine .byCases (fun s' hs' => .byCases (fun d' hd' => ?_) fun hnone => ?_) fun hnone => ?_
      · obtain rfl := Option.some.inj (hsuperclass'.symm.trans hs')
        obtain rfl := Option.some.inj (hdefault.symm.trans hd')
        refine Run.Shows.ofRun (.bind (.weaken (hsuper [] hmakes)) fun _ =>
          .calm (fun _ => rfl) fun _ ws hws => ?_)
        rw [List.append_nil, hsuperclass]
        exact .implicit hplain hsuperclass hdefault hws
      · obtain rfl := Option.some.inj (hsuperclass'.symm.trans hs')
        exact absurd (hnone.symm.trans hdefault) (by simp)
      · exact absurd (hnone.symm.trans hsuperclass') (by simp)

section

variable {held : List Ref} [Held r held] (f : Frame) [Held f held] (hthis : f.this = some r)
  (hb : p.env.builds f.decl = true)

include hthis hb

/-- The superclass part is made by a constructor of the superclass. -/
theorem shows_runSuper {className : String} {info : ClassInfo}
    (hi : p.env.class? className = some info) : ∀ (body : List Stmt)
    (hs : Allowed p.Places f.decl .stmt (Typed.stmtsInner body))
    (he : Allowed p.Places f.decl .expr (Typed.stmtsParts body)), SuperPart p.env info body →
      RunWith.Shows p.env r
        (fun _ ws => SuperBuilt p info f.decl body (info.superclass.elim [] p.env.classChain) ws)
        (Journey.runSuper hc r f className body hs he :
          (runSuper p.env c f r className body).Journey p.Places held)
  | .superCall span site ctor args :: rest, hs, _, h => by
      cases h with
      | root hplain | implicit hplain => exact absurd rfl (hplain _ _ _ _ _)
      | explicit hsuperclass hmethod howner hctor =>
          subst howner
          obtain ⟨rfl, _, hmakes⟩ := hp.declared.makes hmethod hctor
          refine .around hs.left.head hthis hb (.bind
            (Orderly.shows (RunWith.Orderly.inScope fun scopes => orderly_evalAll
              (ho (OwnTasks f.decl ((Expr.partsAll args).map .expr))) hp.methods { f with scopes }
              args _ (allowed_own fun _ ha => List.mem_map_of_mem ha)))
            fun vs => .bind (.under (.keep fun μ => hsuper vs hmakes μ)) fun _ =>
              .yields fun ws hws within hwithin => ?_)
          rw [List.append_nil, hsuperclass]
          exact .explicit hsuperclass hmethod hwithin hws
  | [], _, _, h | .declare .. :: _, _, _, h | .setVar .. :: _, _, _, h | .setField .. :: _, _, _, h
  | .setStatic .. :: _, _, _, h | .setIndex .. :: _, _, _, h | .expr .. :: _, _, _, h
  | .branch .. :: _, _, _, h | .loop .. :: _, _, _, h | .ret .. :: _, _, _, h
  | .throw .. :: _, _, _, h | .attempt .. :: _, _, _, h | .block .. :: _, _, _, h =>
      .bind (.under (.keep (shows_runSuperDefault hp hsuper hi f.decl h nofun))) fun _ =>
        .yields fun ws hws => (List.append_nil ws).symm ▸ hws

variable {info : ClassInfo} {m : MethodInfo} (hm : p.env.Makes info m) (hdecl : m.id = f.decl)

include hm

omit [Held r held] in
theorem shows_runBody : RunWith.Shows p.env r
    (fun _ ws => BodyBuilt p info m (info.superclass.elim [] p.env.classChain) ws)
    (Journey.runBody hc f m hdecl : (runBody p.env c f m).Journey p.Places held) := by
  refine .ite (fun _ => ?_) fun hno => absurd (hm.isConstructor.symm.trans hno) (by simp)
  refine .byCases (fun this h => ?_) fun hnone => absurd (hnone.symm.trans hthis) (by simp)
  obtain rfl := Option.some.inj (hthis.symm.trans h)
  have : Held r held := .of_eq_some h
  refine .ofEq (RunWith.Shows.bind
    (shows_runSuper ho hp hsuper f hthis hb hm.owner _ _ _
      (hp.supers hm.method hm.isConstructor hm.owner)) fun _ =>
        .bind (.under (.keep (shows_runInitializers ho hp hm.owner))) fun _ =>
          (shows_execAll ho hp f hthis hb _ _ _).imp fun _ _ hrest inits hinits above habove => ?_)
  exact .intro (hdecl ▸ habove) hinits (hdecl ▸ hrest)

omit hsuper hm [Held r held] in
theorem shows_leaveNormally (hf : p.Places f.decl .leave) (flow : Flow) [Held flow held] :
    Run.Shows p.env r
      (fun _ ws => ∃ exit, ws = (f.decl, .leave) :: exit ∧
        InTurn (CodeRun f.decl) (p.codesAt f.decl .normalExit) exit)
      (Journey.leaveNormally hc f hf flow : (leave p c f (.ok flow)).Journey p.Places held) := by
  rw [← decl_returning f flow] at hb ⊢
  have hthis' : (Frame.returning f flow).this = some r := by cases flow <;> exact hthis
  refine .starting hthis' hb (.watchFrom (shows_runCodes ho hp _ hthis' hb _ _)
    (fun _ _ => .calm (fun _ => rfl) fun _ exit hexit => ?_) fun _ _ _ _ _ h => by cases h)
  exact ⟨exit, by rw [List.append_nil], hexit⟩

omit [Held r held] in
theorem shows_complete (hf : p.Places f.decl .leave) :
    Run.Shows p.env r
      (fun _ ws => ∃ body exit, ws = body ++ (m.id, .leave) :: exit ∧
        BodyBuilt p info m (info.superclass.elim [] p.env.classChain) body ∧
        InTurn (CodeRun m.id) (p.codesAt m.id .normalExit) exit)
      (Journey.complete hc f m hdecl hf : (do
        let (completed, scopes) ← withState (runBody p.env c f m) f.scopes
        leave p c { f with scopes } completed : Run Value).Journey p.Places held) := by
  refine .watchFrom (shows_runBody ho hp hsuper f hthis hb hm hdecl)
    (fun flow scopes => (shows_leaveNormally ho hp { f with scopes } hthis hb hf flow).imp
      fun _ _ ⟨exit, heq, hexit⟩ body hbody => ⟨body, exit, ?_, hbody, hdecl ▸ hexit⟩)
    fun _ _ _ _ _ h => leave_error_ne_ok h
  rw [heq, hdecl]

omit [Held r held] in
theorem shows_work (hf : p.Places f.decl .leave) :
    Run.Shows p.env r
      (fun _ ws => Built p (info :: info.superclass.elim [] p.env.classChain) m.id
        ((m.id, .enter) :: ws))
      (Journey.work hc f m hdecl hf : (do
        let (entered, slots) ← withState (runCodes p.env c f (p.codesAt m.id .entry)) Table.empty
        let f := { f with slots }
        match entered with
        | .ok () =>
          let (completed, scopes) ← withState (runBody p.env c f m) f.scopes
          leave p c { f with scopes } completed
        | .error u => leave p c f (.error u) : Run Value).Journey p.Places held) := by
  obtain ⟨stored, pre, hchecks, hstored, hpre⟩ := hp.entries hm.method hm.isConstructor
  refine .watchFrom (shows_runCodes ho hp f hthis hb _ _)
    (fun _ slots => (shows_complete ho hp hsuper { f with slots } hthis hb hm hdecl hf).imp
      fun _ _ ⟨body, exit, heq, hbody, hexit⟩ entry hentry => ?_)
    fun _ _ _ _ _ h => leave_error_ne_ok h
  rw [hchecks, ← hdecl] at hentry
  exact heq ▸ .intro hm hchecks hstored hpre hentry hbody hexit

end

theorem shows_activate {info : ClassInfo} {m : MethodInfo} (hm : p.env.Makes info m)
    (args : List Value) {held : List Ref} [Held (some r) held] [Held args held] :
    Run.Shows p.env r
      (fun _ ws => Built p (info :: info.superclass.elim [] p.env.classChain) m.id ws)
      (Journey.activate hc hm.method (some r) args :
        (activate p c m (some r) args).Journey p.Places held) :=
  have hb := hp.declared.builds_of_constructor ⟨m, hm.method, hm.isConstructor⟩
  .starting rfl hb (shows_work ho hp hsuper
    { Frame.start m.id (some r) args with scopes := paramScopes m args } rfl hb hm rfl _)

theorem shows_invokeWith (limit : Nat) {info : ClassInfo} {m : MethodInfo}
    (hm : p.env.Makes info m) (args : List Value) :
    Run.Shows p.env r (fun _ ws => Built p (p.env.classChain m.owner) m.id ws)
      (Journey.invokeWith hc limit m.id (some r) args :
        (invokeWith p limit c m.id (some r) args).Journey p.Places _) := by
  rw [hp.declared.classChain_super hm.owner]
  refine .byCases (fun m' hm' => ?_) fun hnone => absurd (hnone.symm.trans hm.method) (by simp)
  obtain rfl := Option.some.inj (hm.method.symm.trans hm')
  refine .ofRun (.bind (.calm (fun _ => rfl) fun _ => rfl) fun _ =>
    .ite (.never fun _ _ _ h => by cases h)
      (.deeper ((shows_activate ho hp hsuper hm args).imp fun _ _ hws _ heq => ?_)))
  exact heq ▸ hws

end

end

/-- By induction on how deep calls go: the constructors of superclasses run behind it. -/
theorem shows_calls (hp : p.Constructive src) (limit : Nat) (r : Ref) :
    ∀ (bound : Nat) {info : ClassInfo} {m : MethodInfo} (args : List Value), p.env.Makes info m →
      Run.Shows p.env r (fun _ ws => Built p (p.env.classChain m.owner) m.id ws)
        ((Journey.calls p limit bound).invoke m.id (some r) args)
  | 0, _, _, _, _ => .never fun _ _ _ h => by cases h
  | bound + 1, _, _, args, hm =>
      shows_invokeWith (fun _ => orderly_calls hp lets_own limit bound) hp
        (shows_calls hp limit r bound) limit hm args

end Run

end Covenant
