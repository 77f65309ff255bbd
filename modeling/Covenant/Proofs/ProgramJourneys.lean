import Covenant.Proofs.FirstRaised
import Covenant.Proofs.TermJourneys

/-!
# What a run comes through

A program has a place for all that can begin: the parts of a body and of a first
value belong to frames of their declaration, and so does a clause to frames of the
declaration whose check it is. An invariant belongs to frames of the declaration
that it was written for, on whatever object it is checked. So checks, members and
whole runs have journeys, in which everything begins in its place.
-/

namespace Covenant

open HasRefs (refs)
open Typed (Expr Stmt)

/-! ## Places of a program -/

/-- The expressions that a check of a member evaluates in the member's own frame. -/
def CheckCode.exprs : CheckCode → List Expr
  | .snapshot s => s.slots
  | .precondition groups => groups.flatten.map (·.expr)
  | .postcondition clauses => clauses.map (·.expr)
  | .throws .. | .reverify _ => []

namespace WovenProgram

/-- The clauses that are evaluated in frames of a declaration. -/
inductive Evaluates (p : WovenProgram) : DeclId → Expr → Prop
  | own {c e} (placed : c ∈ p.checks) (clause : e ∈ c.code.exprs) : Evaluates p c.decl e
  | invariant {c o} (placed : c ∈ p.checks) (obligation : o ∈ c.code.obligations) :
      Evaluates p o.clause.origin o.clause.expr

/-- What can begin in frames of a declaration. -/
def Places (p : WovenProgram) (decl : DeclId) : Task → Prop
  | .expr e => e ∈ p.env.partsOf decl ∨ ∃ x, p.Evaluates decl x ∧ e ∈ x.parts
  | .stmt s => s ∈ p.env.stmtsOf decl
  | .check code => ∃ point, code ∈ p.codesAt decl point
  | .enter | .leave => ∃ id m, p.env.method? id = some m ∧ m.id = decl

end WovenProgram

/-! ## Checks -/

namespace Run

variable {P : DeclId → Task → Prop} {env : Env} {c : Calls}

section

variable (hc : c.Journey P)

def Journey.holds (f : Frame) (clause : BoundClause) {held : List Ref} [Held f held]
    (h : Allowed P f.decl .expr clause.expr.parts) : (holds env c f clause).Journey P held :=
  .bind (.eval hc f clause.expr h) fun
    | .bool _ => .yields _
    | .int _ | .ref _ | .null | .void => .stops _

def Journey.firstFalse (f : Frame) : ∀ (clauses : List BoundClause) {held : List Ref}
    [Held f held], (∀ clause ∈ clauses, Allowed P f.decl .expr clause.expr.parts) →
      (firstFalse env c f clauses).Journey P held
  | [], _, _, _ => .yields none
  | clause :: clauses, _, _, h => .bind (Journey.holds hc f clause (h _ List.mem_cons_self)) fun
      | true => Journey.firstFalse f clauses fun d hd => h d (List.mem_cons_of_mem _ hd)
      | false => .yields (some clause)

def Journey.failures (f : Frame) : ∀ (groups : List (List BoundClause)) {held : List Ref}
    [Held f held], (∀ group ∈ groups, ∀ clause ∈ group,
      Allowed P f.decl .expr clause.expr.parts) → (failures env c f groups).Journey P held
  | [], _, _, _ => .yields (some [])
  | group :: groups, _, _, h =>
      .bind (Journey.firstFalse hc f group (h _ List.mem_cons_self)) fun
        | none => .yields none
        | some _ => .bind
            (Journey.failures f groups fun group' h' => h group' (List.mem_cons_of_mem _ h'))
            fun _ => .yields _

def Journey.store (f : Frame) : ∀ (es : List Expr) (n : Nat) {held : List Ref} [Held f held],
    (∀ e ∈ es, Allowed P f.decl .expr e.parts) → (store env c f n es).Journey P held
  | [], _, _, _, _ => .yields _
  | e :: es, n, _, _, h =>
      .bind (.withSlots fun slots => .eval hc { f with slots } e (h e List.mem_cons_self)) fun v =>
        .bind (.change fun s => List.Subset.trans (HasRefs.refs_insert s n v) (by grind)) fun _ =>
          Journey.store f es (n + 1) fun e' he' => h e' (List.mem_cons_of_mem _ he')

def Journey.checkPrecondition (f : Frame) (groups : List (List BoundClause)) {held : List Ref}
    [Held f held] (h : ∀ group ∈ groups, ∀ clause ∈ group,
      Allowed P f.decl .expr clause.expr.parts) :
    (checkPrecondition env c f groups).Journey P held :=
  .bind (Journey.failures hc f groups h) fun
    | none => .yields _
    | some _ => .stops _

def Journey.checkPostcondition (f : Frame) (clauses : List BoundClause) {held : List Ref}
    [Held f held] (h : ∀ clause ∈ clauses, Allowed P f.decl .expr clause.expr.parts) :
    (checkPostcondition env c f clauses).Journey P held :=
  .bind (Journey.firstFalse hc f clauses h) fun
    | none => .yields _
    | some _ => .stops _

/-- A check begins in the frame of its member, and so do its clauses. -/
structure Fits (P : DeclId → Task → Prop) (decl : DeclId) (code : CheckCode) : Prop where
  check : P decl (.check code)
  exprs : ∀ e ∈ code.exprs, Allowed P decl .expr e.parts

def Journey.runCode (f : Frame) : ∀ (code : CheckCode) {held : List Ref} [Held f held],
    Fits P f.decl code → (runCode env c f code).Journey P held
  | .snapshot s, _, _, h => .checking f h.check (Journey.store hc f s.slots 0 h.exprs)
  | .precondition groups, _, _, h => .checking f h.check
      (RunWith.Journey.withSlots (x := (Run.checkPrecondition env c · groups)) fun slots =>
        Journey.checkPrecondition hc { f with slots } groups fun _ hg _ hclause =>
          h.exprs _ (List.mem_map_of_mem (List.mem_flatten_of_mem hg hclause)))
  | .postcondition clauses, _, _, h => .checking f h.check
      (RunWith.Journey.withSlots (x := (Run.checkPostcondition env c · clauses)) fun slots =>
        Journey.checkPostcondition hc { f with slots } clauses fun _ hclause =>
          h.exprs _ (List.mem_map_of_mem hclause))
  | .throws checks mayThrow, _, _, h => .checking f h.check
      (RunWith.Journey.withSlots (x := (Run.checkThrows env · checks mayThrow)) fun _ =>
        .calm)
  | .reverify _, _, _, h => .checking f h.check (.yields _)

def Journey.runCodes (f : Frame) : ∀ (codes : List CheckCode) {held : List Ref} [Held f held],
    (∀ code ∈ codes, Fits P f.decl code) → (runCodes env c f codes).Journey P held
  | [], _, _, _ => .yields _
  | code :: codes, _, _, h => .bind (Journey.runCode hc f code (h _ List.mem_cons_self)) fun _ =>
      Journey.runCodes f codes fun d hd => h d (List.mem_cons_of_mem _ hd)

def Journey.callAccessor (r : Ref) (name : String) {held : List Ref} [Held r held] :
    (callAccessor env c r name).Journey P held :=
  .bind .calm fun className =>
    .byCases ((env.lookupMethods className name).find? fun m => !m.isStatic && m.params.isEmpty)
      (fun m h => Run.Journey.ofRun (by rw [h])
        (Journey.invoke hc (some r) [] (env.dispatch className m.id)))
      fun h => Run.Journey.ofRun (x := defect (.noAccessor name className))
        (by rw [h]) (Run.Journey.stops _)

def Journey.stepFrom (r : Ref) {held : List Ref} [Held r held] :
    ∀ s, (stepFrom env c r s).Journey P held
  | .field _ => .bind .calm fun _ => .yields _
  | .accessor name => .bind (Journey.callAccessor hc r name) fun _ => .yields _
  | .elements => .bind .calm fun μ => .calm (h := by
      rcases hr : μ.heap[r]? with _ | ⟨_, _⟩ | items
      · infer_instance
      · infer_instance
      · exact .pure (h := ⟨(Held.object hr held).sub⟩))

def Journey.stepFromAll (s : Effect.Step) : ∀ (vs : List Value) {held : List Ref}
    [Held vs held], (stepFromAll env c s vs).Journey P held
  | [], _, _ => .yields _
  | .ref r :: vs, held, h =>
      have : Held r held := ⟨(Held.of_cons.mp h).1.sub⟩
      have : Held vs held := (Held.of_cons.mp h).2
      .bind (Journey.stepFrom hc r s) fun _ => .bind (Journey.stepFromAll s vs) fun _ => .yields _
  | .int _ :: vs, held, h | .bool _ :: vs, held, h | .null :: vs, held, h
  | .void :: vs, held, h =>
      have : Held vs held := (Held.of_cons.mp h).2
      Journey.stepFromAll s vs

def Journey.walk : ∀ (steps : List Effect.Step) (vs : List Value) {held : List Ref}
    [Held vs held], (walk env c steps vs).Journey P held
  | [], _, _, _ => .yields _
  | s :: steps, vs, _, _ => .bind (Journey.stepFromAll hc s vs) fun vs => Journey.walk steps vs

def Journey.reach (path : Effect.Path) (this : Option Ref) (args : List Value) {held : List Ref}
    [Held this held] [Held args held] : (reach env c path this args).Journey P held :=
  .bind .calm fun start => .bind (Journey.walk hc start.2 start.1) fun _ => .yields _

def Journey.checkObjects (site : SiteId) (o : Obligation)
    (h : Allowed P o.clause.origin .expr o.clause.expr.parts) :
    ∀ (rs : List Ref) {held : List Ref} [Held rs held],
      (checkObjects env c site o rs).Journey P held
  | [], _, _ => .yields _
  | r :: rs, held, hrs =>
      have : Held r held := (Held.of_cons.mp hrs).1
      have : Held rs held := (Held.of_cons.mp hrs).2
      .bind (Journey.holds hc (Frame.start o.clause.origin (some r) []) o.clause h) fun
        | true => Journey.checkObjects site o h rs
        | false => .stops _

def Journey.checkObligations (site : SiteId) (this : Option Ref) (args : List Value) :
    ∀ (os : List Obligation) {held : List Ref} [Held this held] [Held args held],
      (∀ o ∈ os, Allowed P o.clause.origin .expr o.clause.expr.parts) →
        (checkObligations env c site this args os).Journey P held
  | [], _, _, _, _ => .yields _
  | o :: os, _, _, _, h => .bind (Journey.reach hc o.object this args) fun rs =>
      .bind (Journey.checkObjects hc site o (h o List.mem_cons_self) rs) fun _ =>
        Journey.checkObligations site this args os fun o' ho' => h o' (List.mem_cons_of_mem _ ho')

end

end Run

namespace WovenProgram

variable {p : WovenProgram} {decl : DeclId}

theorem places_body {id : DeclId} {body : List Stmt} (hid : id = decl)
    (hb : (p.env.body? id).getD [] = body) : Allowed p.Places decl .expr (Typed.stmtsParts body) :=
  fun _ he => .inl (List.mem_append_left _ (by rw [← hid, hb]; exact he))

theorem places_stmts {id : DeclId} {body : List Stmt} (hid : id = decl)
    (hb : (p.env.body? id).getD [] = body) : Allowed p.Places decl .stmt (Typed.stmtsInner body) :=
  fun s hs => by
    show s ∈ p.env.stmtsOf decl
    rw [Env.stmtsOf, ← hid, hb]
    exact hs

theorem places_init {init : Expr} (h : p.env.fieldInits.get? decl = some init) :
    Allowed p.Places decl .expr init.parts := fun e he =>
  .inl (List.mem_append_right _ (by rw [h]; exact he))

theorem evaluates_check {point : ProgramPoint} {code : CheckCode} (h : code ∈ p.codesAt decl point)
    {e : Expr} (he : e ∈ code.exprs) : p.Evaluates decl e := by
  obtain ⟨placed, hplaced, rfl⟩ := List.mem_map.mp h
  obtain ⟨hmem, hat⟩ := List.mem_filter.mp hplaced
  obtain ⟨hdecl, _⟩ := Bool.and_eq_true_iff.mp hat
  exact eq_of_beq hdecl ▸ .own hmem he

theorem evaluates_obligation {site : SiteId} {o : Obligation}
    (h : o ∈ (p.codesAt decl (.afterCall site)).flatMap CheckCode.obligations) :
    p.Evaluates o.clause.origin o.clause.expr := by
  obtain ⟨code, hcode, ho⟩ := List.mem_flatMap.mp h
  obtain ⟨placed, hplaced, rfl⟩ := List.mem_map.mp hcode
  exact .invariant (List.mem_filter.mp hplaced).1 ho

theorem places_check {point : ProgramPoint} {code : CheckCode} (h : code ∈ p.codesAt decl point) :
    Run.Fits p.Places decl code where
  check := ⟨point, h⟩
  exprs e he x hx := .inr ⟨e, evaluates_check h he, hx⟩

theorem places_obligation {site : SiteId} {o : Obligation}
    (h : o ∈ (p.codesAt decl (.afterCall site)).flatMap CheckCode.obligations) :
    Allowed p.Places o.clause.origin .expr o.clause.expr.parts :=
  fun _ he => .inr ⟨_, evaluates_obligation h, he⟩

end WovenProgram

/-! ## Members -/

namespace Typed

/-- What is left of the body of a constructor once the superclass part of its object is made. -/
def behindSuper : List Stmt → List Stmt
  | .superCall .. :: rest => rest
  | body => body

theorem stmtsInner_behindSuper (body : List Stmt) :
    stmtsInner (behindSuper body) ⊆ stmtsInner body := by
  cases body with
  | nil => exact List.Subset.refl _
  | cons s rest =>
      cases s with
      | superCall => exact List.subset_append_right ..
      | _ => exact List.Subset.refl _

theorem stmtsParts_behindSuper (body : List Stmt) :
    stmtsParts (behindSuper body) ⊆ stmtsParts body := by
  cases body with
  | nil => exact List.Subset.refl _
  | cons s rest =>
      cases s with
      | superCall => exact List.subset_append_right ..
      | _ => exact List.Subset.refl _

end Typed

namespace Run

variable {p : WovenProgram} {c : Calls} (hc : c.Journey p.Places)

def Journey.runInitItem (this : Ref) {held : List Ref} [Held this held] :
    ∀ item, (runInitItem p.env c this item).Journey p.Places held
  | .field id =>
      .byCases (p.env.field? id)
        (fun field hf => .byCases (p.env.fieldInits.get? id)
          (fun init hi => Run.Journey.ofRun (by rw [Run.runInitItem, hf, hi])
            (Run.Journey.bind
              (Journey.eval hc (Frame.start id (some this) []) init (p.places_init hi)) fun v =>
                .under (Frame.start id (some this) [])
                  (.brief (h := (.setField : (setField this field.name v).Brief _)))))
          fun hi => Run.Journey.ofRun (by rw [Run.runInitItem, hf, hi]) (Run.Journey.yields ()))
        fun hf => Run.Journey.ofRun (by rw [Run.runInitItem, hf]) (Run.Journey.yields ())
  | .block id => .watchFrom
      (Journey.execAll hc (Frame.start id (some this) []) ((p.env.body? id).getD [])
        (p.places_stmts rfl rfl) (p.places_body rfl rfl))
      (fun _ _ => .yields _) (fun _ _ => .stops _) fun _ _ _ _ => rfl

def Journey.runInitItems (this : Ref) : ∀ (items : List InitItem) {held : List Ref}
    [Held this held], (runInitItems p.env c this items).Journey p.Places held
  | [], _, _ => .yields _
  | item :: items, _, _ => .bind (Journey.runInitItem hc this item) fun _ =>
      Journey.runInitItems this items

section

variable {held : List Ref} (this : Ref) [Held this held]

def Journey.runInitializers (className : String) :
    (runInitializers p.env c this className).Journey p.Places held :=
  .byCases (p.env.class? className)
    (fun info h => Run.Journey.ofRun (by rw [Run.runInitializers, h])
      (Journey.runInitItems hc this info.initOrder))
    fun h => Run.Journey.ofRun (by rw [Run.runInitializers, h]) (Run.Journey.yields ())

def Journey.runSuperDefault (className : String) :
    (runSuperDefault p.env c this className).Journey p.Places held :=
  .byCases ((p.env.class? className).bind (·.superclass))
    (fun s hs => .byCases (p.env.defaultConstructor? s)
      (fun ctor h => Run.Journey.ofRun (by simp only [Run.runSuperDefault, hs, h])
        (Run.Journey.bind (Journey.invoke hc (some this) [] ctor.id) fun _ => .yields ()))
      fun h => Run.Journey.ofRun (x := defect (.noDefaultConstructor s))
        (by simp only [Run.runSuperDefault, hs, h]) (Run.Journey.stops _))
    fun h => Run.Journey.ofRun (by rw [Run.runSuperDefault, h]) (Run.Journey.yields ())

variable (f : Frame) [Held f held]

def Journey.runSuper (className : String) : ∀ (body : List Stmt),
    Allowed p.Places f.decl .stmt (Typed.stmtsInner body) →
      Allowed p.Places f.decl .expr (Typed.stmtsParts body) →
        (runSuper p.env c f this className body).Journey p.Places held
  | .superCall _ _ ctor args :: _, hs, h => .around f hs.left.head
      (.bind (.inScope fun scopes => .evalAll hc { f with scopes } args h.left) fun vs =>
        .bind (.under f (.keep (Journey.invokeOn hc this vs ctor))) fun _ => .yields _)
  | [], _, _ | .declare .. :: _, _, _ | .setVar .. :: _, _, _ | .setField .. :: _, _, _
  | .setStatic .. :: _, _, _ | .setIndex .. :: _, _, _ | .expr .. :: _, _, _
  | .branch .. :: _, _, _ | .loop .. :: _, _, _ | .ret .. :: _, _, _ | .throw .. :: _, _, _
  | .attempt .. :: _, _, _ | .block .. :: _, _, _ =>
      .bind (.under f (.keep (Journey.runSuperDefault hc this className))) fun _ => .yields _

omit hc this f [Held this held] [Held f held] in
/-- What is left of a constructor does not depend on how its first part went. -/
theorem runSuper_bind {env : Env} (f : Frame) (this : Ref) (className : String)
    (body : List Stmt) {β : Type} (k : List Stmt → RunWith Scopes β) :
    (runSuper env c f this className body >>= k) =
      runSuper env c f this className body >>= fun _ => k (Typed.behindSuper body) := by
  cases body with
  | nil => simp [runSuper, Typed.behindSuper]
  | cons s rest => cases s <;> simp [runSuper, Typed.behindSuper]

omit this [Held this held] in
def Journey.runConstructor (m : MethodInfo) (hdecl : m.id = f.decl) :
    (runConstructor p.env c f m).Journey p.Places held :=
  .byCases f.this
    (fun this h => .ofEq
      (x := RunWith.process (Run.runSuper p.env c f this m.owner ((p.env.body? m.id).getD []) >>=
        fun _ => keep (Run.runInitializers p.env c this m.owner) >>= fun _ =>
          Run.execAll p.env c f (Typed.behindSuper ((p.env.body? m.id).getD []))))
      (fun _ => by simp only [Run.runConstructor, h]; rw [runSuper_bind])
      (have hthis : Held this held := .of_eq_some h
      RunWith.Journey.bind
        (Journey.runSuper hc this f m.owner ((p.env.body? m.id).getD [])
          (p.places_stmts hdecl rfl) (p.places_body hdecl rfl))
        fun _ => .bind (.under f (.keep (Journey.runInitializers hc this m.owner))) fun _ =>
          Journey.execAll hc f _ ((p.places_stmts hdecl rfl).mono (Typed.stmtsInner_behindSuper _))
            ((p.places_body hdecl rfl).mono (Typed.stmtsParts_behindSuper _))))
    fun h => .ofEq (x := RunWith.process (keep (defect .constructorWithoutObject)))
      (fun _ => by simp only [Run.runConstructor, h]) (RunWith.Journey.keep (Run.Journey.stops _))

omit hc this f [Held this held] [Held f held] in
theorem getD_of_body {m : MethodInfo} {body : List Stmt}
    (h : (if m.hasBody then p.env.body? m.id else none) = some body) :
    (p.env.body? m.id).getD [] = body := by
  split at h
  · rw [h]
    rfl
  · cases h

omit this [Held this held] in
def Journey.runMethod (m : MethodInfo) (hdecl : m.id = f.decl) :
    (runMethod p.env c f m).Journey p.Places held :=
  .byCases (if m.hasBody then p.env.body? m.id else none)
    (fun body h => .ofEq (fun _ => by rw [Run.runMethod, h])
      (have hb := getD_of_body h
      Journey.execAll hc f body (p.places_stmts hdecl hb) (p.places_body hdecl hb)))
    fun h => .ofEq (x := RunWith.process (keep do
        let c ← match f.this with
          | some r => classOf r
          | none => pure ""
        fatal (.noImplementation (p.env.describe m.id) c)))
      (fun _ => by
        rw [Run.runMethod]
        generalize (if m.hasBody then p.env.body? m.id else none) = body at h
        subst h
        rfl)
      (RunWith.Journey.keep (Run.Journey.calm (h := by cases f.this <;> infer_instance)))

omit this [Held this held] in
def Journey.runBody (m : MethodInfo) (hdecl : m.id = f.decl) :
    (runBody p.env c f m).Journey p.Places held :=
  .ite (Journey.runConstructor hc f m hdecl) (Journey.runMethod hc f m hdecl)

omit hc this f [Held this held] [Held f held] in
theorem decl_returning (f : Frame) (flow : Flow) : (Frame.returning f flow).decl = f.decl := by
  cases flow <;> rfl

omit this [Held this held] in
def Journey.leaveNormally (hf : p.Places f.decl .leave) (flow : Flow) [Held flow held] :
    (leave p c f (.ok flow)).Journey p.Places held :=
  .starting (Frame.returning f flow) (decl_returning f flow ▸ hf)
    (.watchFrom (Journey.runCodes hc (Frame.returning f flow) _ fun _ => p.places_check)
      (fun _ _ => .yields _) (fun _ _ => .stops _) fun _ _ _ _ => rfl)

omit this [Held this held] in
def Journey.leaveThrowing (hf : p.Places f.decl .leave) (e : Ref) [Held e held] :
    (leave p c f (.error (.throw e))).Journey p.Places held :=
  .starting { f with thrown := some e } hf
    (.watchFrom (Journey.runCodes hc { f with thrown := some e } _ fun _ => p.places_check)
      (fun _ _ => .stops _) (fun _ _ => .stops _) fun _ _ _ _ => rfl)

omit hc this f [Held this held] [Held f held] in
theorem ends_leave_uncatchable (f : Frame) (p : WovenProgram) {u : Unwind}
    (hu : u.uncatchable? = some u) (μ : Machine) :
    (leave p c f (.error u)).ends μ = some (.error u, μ) :=
  congrArg (ends · μ) (leave_uncatchable f p hu)

omit this [Held this held] in
/-- The body of a member, and what it does when it leaves. -/
def Journey.complete (m : MethodInfo) (hdecl : m.id = f.decl) (hf : p.Places f.decl .leave) :
    (do
      let (completed, scopes) ← withState (Run.runBody p.env c f m) f.scopes
      leave p c { f with scopes } completed : Run Value).Journey p.Places held :=
  .watchFrom (Journey.runBody hc f m hdecl)
    (fun flow scopes => Journey.leaveNormally hc { f with scopes } hf flow)
    (fun e scopes => Journey.leaveThrowing hc { f with scopes } hf e)
    fun _ _ hu => ends_leave_uncatchable _ p hu

omit this [Held this held] in
/-- The checks of a member at its entry, and all that follows. -/
def Journey.work (m : MethodInfo) (hdecl : m.id = f.decl) (hf : p.Places f.decl .leave) :
    (do
      let (entered, slots) ← withState (Run.runCodes p.env c f (p.codesAt m.id .entry)) Table.empty
      let f := { f with slots }
      match entered with
      | .ok () =>
        let (completed, scopes) ← withState (Run.runBody p.env c f m) f.scopes
        leave p c { f with scopes } completed
      | .error u => leave p c f (.error u) : Run Value).Journey p.Places held :=
  .watchFrom (Journey.runCodes hc f _ fun _ h => p.places_check (hdecl ▸ h))
    (fun _ slots => Journey.complete hc { f with slots } m hdecl hf)
    (fun e slots => Journey.leaveThrowing hc { f with slots } hf e)
    fun _ _ hu => ends_leave_uncatchable _ p hu

end

def Journey.activate {id : DeclId} {m : MethodInfo} (hm : p.env.method? id = some m)
    (this : Option Ref) (args : List Value) {held : List Ref} [Held this held] [Held args held] :
    (activate p c m this args).Journey p.Places held :=
  .starting { Frame.start m.id this args with scopes := paramScopes m args } (w := .enter)
    ⟨id, m, hm, rfl⟩
    (Journey.work hc { Frame.start m.id this args with scopes := paramScopes m args } m rfl
      ⟨id, m, hm, rfl⟩)

def Journey.invokeWith (limit : Nat) (id : DeclId) (this : Option Ref) (args : List Value) :
    (invokeWith p limit c id this args).Journey p.Places (refs this ++ refs args) :=
  .byCases (p.env.method? id)
    (fun m h => Run.Journey.ofRun (by rw [Run.invokeWith, h])
      (Run.Journey.bind .calm fun _ =>
        .ite .calm (.deeper (Journey.activate hc h this args))))
    fun h => Run.Journey.ofRun (x := defect (.unknownMember id))
      (by rw [Run.invokeWith, h]) (Run.Journey.stops _)

/-- By induction on how deep calls go. -/
def Journey.calls (p : WovenProgram) (limit : Nat) : ∀ n, (calls p limit n).Journey p.Places
  | 0 => ⟨fun _ _ _ => .calm (h := .exhausted), fun _ _ _ _ => .calm (h := .exhausted)⟩
  | n + 1 => ⟨Journey.invokeWith (Journey.calls p limit n) limit,
      fun _ site this args =>
        Journey.checkObligations (Journey.calls p limit n) site this args _
          fun _ => p.places_obligation⟩

/-! ## Runs -/

def Journey.evalStatics : ∀ (fs : List FieldInfo) {held : List Ref},
    (evalStatics p.env c fs).Journey p.Places held
  | [], _ => .yields _
  | f :: fs, held => .byCases (p.env.fieldInits.get? f.id)
      (fun init h => Run.Journey.ofRun (by rw [Run.evalStatics, h])
        (Run.Journey.bind
          (Journey.eval hc (Frame.start f.id none []) init (p.places_init h)) fun v =>
            Run.Journey.bind
              (.brief (h := .statics fun _ =>
                List.Subset.trans (HasRefs.refs_insert ..) (by grind)))
              fun _ => Journey.evalStatics fs))
      fun h => Run.Journey.ofRun (by rw [Run.evalStatics, h]) (Journey.evalStatics fs)

def Journey.runFrom (id : DeclId) : (runFrom p.env c id).Journey p.Places [] :=
  .bind (.bind (.brief (h := .resetStatics)) fun _ => Journey.evalStatics hc _)
    fun _ => Journey.invoke hc none [] id

end Run

/-- What a run comes through. -/
def WovenProgram.journey (p : WovenProgram) (limit bound : Nat) (entry : String) :
    (p.entered limit bound entry).Journey p.Places [] :=
  match h : Run.findEntry p.env entry with
  | .error e => Run.Journey.ofRun (x := Run.fatal e) (by rw [entered, h]) (Run.Journey.stops _)
  | .ok id => Run.Journey.ofRun (by rw [entered, h])
      (Run.Journey.runFrom (Run.Journey.calls p limit bound) id)

/-- The moments of a run on a machine. -/
def WovenProgram.moments (p : WovenProgram) (limit bound : Nat) (entry : String) (μ : Machine) :
    List Moment :=
  (p.journey limit bound entry).moments μ

end Covenant
