import Covenant.Proofs.Activity
import Covenant.Proofs.FirstRaised

/-!
# The members that are active in a run

Each function that a run is made of has an activity, which is put together as the
function is. A member becomes active in one place only, where it is invoked: its
checks, its body and all that is behind them then have it at the bottom of their
chains.
-/

namespace Covenant

/-- Which members become active behind calls. -/
structure Calls.Activity (limit : Nat) (c : Calls) where
  invoke : ∀ id this args, (c.invoke id this args).Activity limit
  recheck : ∀ caller site this args, (c.recheck caller site this args).Activity limit

namespace Run

open Typed (Expr Stmt)

variable {limit : Nat} {env : Env} {c : Calls}

/-! ## Expressions -/

def Activity.checkedCall {x : Run Value} {check : Run Unit} (hx : x.Activity limit)
    (hcheck : check.Activity limit) :
    (do
      match ← liftM x.run with
      | .ok v =>
        check
        return v
      | .error (.throw e) =>
        check
        stop (.throw e)
      | .error u => stop u : Run Value).Activity limit :=
  .watch hx (fun _ => .bind hcheck fun _ => .still) (fun _ => .bind hcheck fun _ => .still)
    fun u hu => by cases u <;> first | rfl | cases hu

def Activity.callMethod (hc : c.Activity limit) (caller : DeclId) (site : SiteId) (method : DeclId)
    (args : List Value) :
    ∀ this : Option Ref, (callMethod env c caller site method this args).Activity limit
  | none => .bind .still fun target =>
      .checkedCall (hc.invoke target none args) (hc.recheck caller site none args)
  | some r => .bind .still fun _ => .bind .still fun target =>
      .checkedCall (hc.invoke target (some r) args) (hc.recheck caller site (some r) args)

def Activity.construct (hc : c.Activity limit) (caller : DeclId) (site : SiteId)
    (className : String) (ctor : DeclId) (args : List Value) :
    (construct env c caller site className ctor args).Activity limit :=
  .bind .still fun r => .bind (hc.invoke ctor (some r) args) fun _ =>
    .bind (hc.recheck caller site (some r) args) fun _ => .still

mutual

def Activity.eval (hc : c.Activity limit) (f : Frame) :
    ∀ e : Expr, (eval env c f e).Activity limit
  | .int .. | .bool .. | .null .. | .result .. => .yields _
  | .old .. | .spread .. => .stops id
  | .this .. => .still (h := by rw [Run.eval]; cases f.this <;> infer_instance)
  | .var _ _ name => .still (h := by rw [Run.eval]; cases f.scopes.get? name <;> infer_instance)
  | .param _ _ i _ => .still (h := by rw [Run.eval]; cases f.args[i]? <;> infer_instance)
  | .slot _ _ n => .still (h := by rw [Run.eval]; cases f.slots.get? n <;> infer_instance)
  | .staticField _ _ className name => .still (h := .getStatic env className name)
  | .field _ _ o _ => .bind (Activity.eval hc f o) fun _ => .bind .still fun _ => .still
  | .length _ a => .bind (Activity.eval hc f a) fun _ => .bind .still fun _ => .still
  | .index _ _ a i => .bind (Activity.eval hc f a) fun _ => .bind .still fun _ =>
      .bind (Activity.eval hc f i) fun _ => .bind .still fun _ => .still
  | .binary _ .and l r => .bind (Activity.eval hc f l) fun _ => .bind .still fun
      | true => .bind (Activity.eval hc f r) fun _ => .bind .still fun _ => .still
      | false => .yields _
  | .binary _ .or l r => .bind (Activity.eval hc f l) fun _ => .bind .still fun
      | true => .yields _
      | false => .bind (Activity.eval hc f r) fun _ => .bind .still fun _ => .still
  | .binary _ .add l r | .binary _ .sub l r | .binary _ .mul l r | .binary _ .div l r
  | .binary _ .mod l r | .binary _ .eq l r | .binary _ .neq l r | .binary _ .lt l r
  | .binary _ .gt l r | .binary _ .ltEq l r | .binary _ .gtEq l r =>
      .bind (Activity.eval hc f l) fun _ => .bind (Activity.eval hc f r) fun _ => .still
  | .unary _ _ e => .bind (Activity.eval hc f e) fun _ => .still
  | .call _ _ site receiver m _ args => .bind (Activity.evalReceiver hc f receiver) fun this =>
      .bind (Activity.evalAll hc f args) fun vs => .callMethod hc f.decl site m vs this
  | .new _ site className ctor args => .bind (Activity.evalAll hc f args) fun vs =>
      .construct hc f.decl site className ctor vs
  | .newArray _ _ len => .bind (Activity.eval hc f len) fun _ => .bind .still fun _ =>
      .bind .still fun _ => .still

def Activity.evalReceiver (hc : c.Activity limit) (f : Frame) :
    ∀ e : Option Expr, (evalReceiver env c f e).Activity limit
  | none => .yields _
  | some e => .bind (Activity.eval hc f e) fun _ => .bind .still fun _ => .still

def Activity.evalAll (hc : c.Activity limit) (f : Frame) :
    ∀ es : List Expr, (evalAll env c f es).Activity limit
  | [] => .yields _
  | e :: es => .bind (Activity.eval hc f e) fun _ => .bind (Activity.evalAll hc f es) fun _ =>
      .still

end

/-! ## Statements -/

section

variable (hc : c.Activity limit) (f : Frame)

def Activity.evalIn (e : Expr) : (inScope f (Run.eval env c · e)).Activity limit :=
  RunWith.Activity.inScope fun scopes => .eval hc { f with scopes } e

def Activity.evalOr (absent : Value) : ∀ e : Option Expr, (evalOr env c f absent e).Activity limit
  | none => .yields _
  | some e => Activity.evalIn hc f e

def Activity.evalBool (e : Expr) : (Run.inScope f (evalBool env c · e)).Activity limit :=
  RunWith.Activity.inScope fun scopes => .bind (.eval hc { f with scopes } e) fun _ => .still

def Activity.evalInt (e : Expr) : (Run.inScope f (evalInt env c · e)).Activity limit :=
  RunWith.Activity.inScope fun scopes => .bind (.eval hc { f with scopes } e) fun _ => .still

def Activity.evalObject (e : Expr) : (Run.inScope f (evalObject env c · e)).Activity limit :=
  RunWith.Activity.inScope fun scopes => .bind (.eval hc { f with scopes } e) fun _ => .still

mutual

def Activity.exec : ∀ s : Stmt, (exec env c f s).Activity limit
  | .declare _ type _ value => .bind (Activity.evalOr hc f (Value.default type) value) fun _ =>
      .bind .still fun _ => .still
  | .setVar _ _ value => .bind (Activity.evalIn hc f value) fun _ => .bind .still fun _ =>
      .still
  | .setField _ o _ value => .bind (Activity.evalObject hc f o) fun _ =>
      .bind (Activity.evalIn hc f value) fun _ => .bind .still fun _ => .still
  | .setStatic _ _ _ value => .bind (Activity.evalIn hc f value) fun _ =>
      .bind .still fun _ => .still
  | .setIndex _ a i value => .bind (Activity.evalObject hc f a) fun _ =>
      .bind (Activity.evalInt hc f i) fun _ => .bind (Activity.evalIn hc f value) fun _ =>
        .bind .still fun _ => .still
  | .expr _ value => .bind (Activity.evalIn hc f value) fun _ => .still
  | .branch _ condition a b => .bind (Activity.evalBool hc f condition) fun
      | true => .inBlock _ (Activity.exec a)
      | false => Activity.execElse b
  | .loop _ condition body =>
      .iterate (Activity.evalBool hc f condition) (.inBlock _ (Activity.exec body)) c.rounds
  | .ret _ value => .bind (Activity.evalOr hc f .void value) fun _ => .still
  | .throw _ value => .bind (Activity.evalObject hc f value) fun _ => .still
  | .superCall .. => .yields _
  | .attempt _ body handlers cleanup =>
      .withCleanup
        (.catching (.inBlock _ (Activity.execAll body)) fun e =>
          .bind .still fun className => Activity.execHandlers e className handlers)
        (Activity.execCleanup cleanup)
  | .block _ body => .inBlock _ (Activity.execAll body)

def Activity.execAll : ∀ ss : List Stmt, (execAll env c f ss).Activity limit
  | [] => .yields _
  | s :: rest => .bind (Activity.exec s) fun
      | .normal => Activity.execAll rest
      | .ret _ _ => .yields _

def Activity.execElse : ∀ s : Option Stmt, (execElse env c f s).Activity limit
  | none => .yields _
  | some s => .inBlock _ (Activity.exec s)

def Activity.execHandlers (e : Ref) (className : String) :
    ∀ hs : List Typed.Handler, (execHandlers env c f e className hs).Activity limit
  | [] => .keep (Activity.stops id)
  | .mk _ _ body :: rest =>
      .ite (.inBlock _ (Activity.execAll body)) (Activity.execHandlers e className rest)

def Activity.execCleanup : ∀ b : Option (List Stmt), (execCleanup env c f b).Activity limit
  | none => .yields _
  | some body => .inBlock _ (Activity.execAll body)

end

end

/-! ## Checks -/

section

variable (hc : c.Activity limit)

def Activity.holds (f : Frame) (clause : BoundClause) : (holds env c f clause).Activity limit :=
  .bind (.eval hc f clause.expr) fun
    | .bool _ => .yields _
    | .int _ | .ref _ | .null | .void => .stops id

def Activity.firstFalse (f : Frame) : ∀ clauses, (firstFalse env c f clauses).Activity limit
  | [] => .yields _
  | clause :: clauses => .bind (Activity.holds hc f clause) fun
      | true => Activity.firstFalse f clauses
      | false => .yields _

def Activity.failures (f : Frame) : ∀ groups, (failures env c f groups).Activity limit
  | [] => .yields _
  | group :: groups => .bind (Activity.firstFalse hc f group) fun
      | none => .yields _
      | some _ => .bind (Activity.failures f groups) fun _ => .still

def Activity.store (f : Frame) : ∀ es n, (store env c f n es).Activity limit
  | [], _ => .yields _
  | e :: es, n => .bind (.withSlots fun slots => .eval hc { f with slots } e) fun _ =>
      .bind .still fun _ => Activity.store f es (n + 1)

def Activity.checkPrecondition (f : Frame) (groups : List (List BoundClause)) :
    (checkPrecondition env c f groups).Activity limit :=
  .bind (Activity.failures hc f groups) fun
    | none => .yields _
    | some _ => .still

def Activity.checkPostcondition (f : Frame) (clauses : List BoundClause) :
    (checkPostcondition env c f clauses).Activity limit :=
  .bind (Activity.firstFalse hc f clauses) fun
    | none => .yields _
    | some _ => .still

omit hc in
def Activity.checkThrows (f : Frame) (checks : List ThrowsCheck) (mayThrow : List String) :
    (checkThrows env f checks mayThrow).Activity limit :=
  .still (h := by
    have judged (thrown : Option String) : Still (match brokenThrows? env f.slots thrown checks
        mayThrow with
      | none => pure ()
      | some (t, detail) => stop (.violation (exitViolation env .exceptionalPostcondition f
          t.clause detail))) := by
      cases brokenThrows? env f.slots thrown checks mayThrow <;> infer_instance
    rw [Run.checkThrows]
    cases f.thrown with
    | none => exact judged none
    | some e => exact .bind (k := fun className => judged className))

def Activity.runCode (f : Frame) : ∀ code, (runCode env c f code).Activity limit
  | .snapshot s => Activity.store hc f s.slots 0
  | .precondition groups =>
      RunWith.Activity.withSlots (f := f) (x := (Run.checkPrecondition env c · groups))
        fun slots => Activity.checkPrecondition hc { f with slots } groups
  | .postcondition clauses =>
      RunWith.Activity.withSlots (f := f) (x := (Run.checkPostcondition env c · clauses))
        fun slots => Activity.checkPostcondition hc { f with slots } clauses
  | .throws checks mayThrow =>
      RunWith.Activity.withSlots (f := f) (x := (Run.checkThrows env · checks mayThrow))
        fun slots => Activity.checkThrows { f with slots } checks mayThrow
  | .reverify .. => .yields _

def Activity.runCodes (f : Frame) : ∀ codes, (runCodes env c f codes).Activity limit
  | [] => .yields _
  | code :: codes => .bind (Activity.runCode hc f code) fun _ => Activity.runCodes f codes

def Activity.callAccessor (r : Ref) (name : String) :
    (callAccessor env c r name).Activity limit :=
  .bind .still fun className =>
    .byCases ((env.lookupMethods className name).find? fun m => !m.isStatic && m.params.isEmpty)
      (fun m h => .ofEq (fun _ => by rw [h]) (hc.invoke (env.dispatch className m.id) (some r) []))
      fun h => .ofEq (x := (defect (.noAccessor name className) : Run Value).ends)
        (fun _ => by rw [h]) (Activity.stops id)

def Activity.stepFrom (r : Ref) : ∀ s, (stepFrom env c r s).Activity limit
  | .field name => .bind (.still (h := .getField r name)) fun _ => .yields _
  | .accessor name => .bind (Activity.callAccessor hc r name) fun _ => .still
  | .elements => .bind .still fun μ => .still (h := by
      rcases μ.heap[r]? with _ | ⟨_, _⟩ | _ <;> infer_instance)

def Activity.stepFromAll (s : Effect.Step) : ∀ vs, (stepFromAll env c s vs).Activity limit
  | [] => .yields _
  | .ref r :: vs => .bind (Activity.stepFrom hc r s) fun _ =>
      .bind (Activity.stepFromAll s vs) fun _ => .still
  | .int _ :: vs | .bool _ :: vs | .null :: vs | .void :: vs => Activity.stepFromAll s vs

def Activity.walk : ∀ steps vs, (walk env c steps vs).Activity limit
  | [], _ => .yields _
  | s :: steps, vs => .bind (Activity.stepFromAll hc s vs) fun vs => Activity.walk steps vs

omit hc in
theorem startOf_still (p : Effect.Path) (this : Option Ref) (args : List Value) :
    Still (startOf env p this args) := by
  rw [startOf]
  split <;> infer_instance

def Activity.reach (p : Effect.Path) (this : Option Ref) (args : List Value) :
    (reach env c p this args).Activity limit :=
  .bind (.still (h := startOf_still p this args)) fun start =>
    .bind (Activity.walk hc start.2 start.1) fun _ => .yields _

def Activity.checkObjects (site : SiteId) (o : Obligation) :
    ∀ rs, (checkObjects env c site o rs).Activity limit
  | [] => .yields _
  | r :: rs => .bind (Activity.holds hc (Frame.start o.clause.origin (some r) []) o.clause) fun
      | true => Activity.checkObjects site o rs
      | false => .stops id

def Activity.checkObligations (site : SiteId) (this : Option Ref) (args : List Value) :
    ∀ os, (checkObligations env c site this args os).Activity limit
  | [] => .yields _
  | o :: os => .bind (Activity.reach hc o.object this args) fun rs =>
      .bind (Activity.checkObjects hc site o rs) fun _ =>
        Activity.checkObligations site this args os

/-! ## Members -/

def Activity.runInitItem (this : Ref) : ∀ item, (runInitItem env c this item).Activity limit
  | .field id =>
      .byCases (env.field? id)
        (fun field hf => .byCases (env.fieldInits.get? id)
          (fun init hi => .ofEq (fun _ => by rw [Run.runInitItem, hf, hi])
            (Run.Activity.bind (Activity.eval hc (Frame.start id (some this) []) init) fun v =>
              .still (h := .setField this field.name v)))
          fun hi => .ofEq (fun _ => by rw [Run.runInitItem, hf, hi]) (Activity.yields ()))
        fun hf => .ofEq (fun _ => by rw [Run.runInitItem, hf]) (Activity.yields ())
  | .block id => .watchFrom
      (Activity.execAll hc (Frame.start id (some this) []) ((env.body? id).getD []))
      (fun _ _ => .yields _) (fun _ _ => .stops not_false) fun _ _ _ => rfl

def Activity.runInitItems (this : Ref) : ∀ items, (runInitItems env c this items).Activity limit
  | [] => .yields _
  | item :: items => .bind (Activity.runInitItem hc this item) fun _ =>
      Activity.runInitItems this items

def Activity.runInitializers (this : Ref) (className : String) :
    (runInitializers env c this className).Activity limit :=
  .byCases (env.class? className)
    (fun info h => .ofEq (fun _ => by rw [Run.runInitializers, h])
      (Activity.runInitItems hc this info.initOrder))
    fun h => .ofEq (fun _ => by rw [Run.runInitializers, h]) (Activity.yields ())

def Activity.runSuperDefault (this : Ref) (className : String) :
    (runSuperDefault env c this className).Activity limit :=
  .byCases ((env.class? className).bind (·.superclass))
    (fun s hs => .byCases (env.defaultConstructor? s)
      (fun ctor h => .ofEq (fun _ => by simp only [Run.runSuperDefault, hs, h])
        (Run.Activity.bind (hc.invoke ctor.id (some this) []) fun _ => Activity.yields ()))
      fun h => .ofEq (x := (defect (.noDefaultConstructor s) : Run Unit).ends)
        (fun _ => by simp only [Run.runSuperDefault, hs, h]) (Activity.stops id))
    fun h => .ofEq (fun _ => by rw [Run.runSuperDefault, h]) (Activity.yields ())

variable (f : Frame)

def Activity.runSuper (this : Ref) (className : String) :
    ∀ body, (runSuper env c f this className body).Activity limit
  | .superCall _ _ ctor args :: _ => .bind (.inScope fun scopes =>
      .evalAll hc { f with scopes } args) fun vs =>
        .bind (.keep (hc.invoke ctor (some this) vs)) fun _ => .still
  | [] | .declare .. :: _ | .setVar .. :: _ | .setField .. :: _ | .setStatic .. :: _
  | .setIndex .. :: _ | .expr .. :: _ | .branch .. :: _ | .loop .. :: _ | .ret .. :: _
  | .throw .. :: _ | .attempt .. :: _ | .block .. :: _ =>
      .bind (.keep (Activity.runSuperDefault hc this className)) fun _ => .still

def Activity.runConstructor (m : MethodInfo) : (runConstructor env c f m).Activity limit :=
  .byCases f.this
    (fun this h => .ofEq (fun _ => by simp only [Run.runConstructor, h]; rfl)
      (RunWith.Activity.bind (Activity.runSuper hc f this m.owner ((env.body? m.id).getD []))
        fun rest => .bind (.keep (Activity.runInitializers hc this m.owner)) fun _ =>
          Activity.execAll hc f rest))
    fun h => .ofEq (x := RunWith.process (keep (defect .constructorWithoutObject)))
      (fun _ => by simp only [Run.runConstructor, h]) (RunWith.Activity.keep (Activity.stops id))

def Activity.runMethod (m : MethodInfo) : (runMethod env c f m).Activity limit :=
  .byCases (if m.hasBody then env.body? m.id else none)
    (fun body h => .ofEq (fun _ => by rw [Run.runMethod, h]) (Activity.execAll hc f body))
    fun h => RunWith.Activity.still (h := by
      rw [Run.runMethod, h]
      cases f.this <;> infer_instance)

def Activity.runBody (m : MethodInfo) : (runBody env c f m).Activity limit :=
  .ite (Activity.runConstructor hc f m) (Activity.runMethod hc f m)

variable (p : WovenProgram)

def Activity.leaveNormally (flow : Flow) : (leave p c f (.ok flow)).Activity limit :=
  .watchFrom (Activity.runCodes hc (Frame.returning f flow) (p.codesAt _ .normalExit))
    (fun _ _ => .yields _) (fun _ _ => .stops id) fun _ _ _ => rfl

def Activity.leaveThrowing (e : Ref) : (leave p c f (.error (.throw e))).Activity limit :=
  .watchFrom
    (Activity.runCodes hc { f with thrown := some e } (p.codesAt _ .exceptionalExit))
    (fun _ _ => .stops id) (fun _ _ => .stops id) fun _ _ _ => rfl

omit hc in
theorem stop_eq_leave {u : Unwind} (hu : u.uncatchable? = some u) :
    stop u = leave p c f (.error u) := (leave_uncatchable f p hu).symm

def Activity.activate (m : MethodInfo) (this : Option Ref) (args : List Value) :
    (activate p c m this args).Activity limit :=
  .watchFrom (Activity.runCodes hc _ (p.codesAt m.id .entry))
    (fun _ _ => .watchFrom (Activity.runBody hc _ m)
      (fun flow _ => Activity.leaveNormally hc _ p flow)
      (fun e _ => Activity.leaveThrowing hc _ p e)
      fun _ _ hu => stop_eq_leave _ p hu)
    (fun e _ => Activity.leaveThrowing hc _ p e)
    fun _ _ hu => stop_eq_leave _ p hu

def Activity.invokeWith (id : DeclId) (this : Option Ref) (args : List Value) :
    (invokeWith p limit c id this args).Activity limit :=
  .byCases (p.env.method? id)
    (fun m h => .ofEq (fun _ => by rw [Run.invokeWith, h])
      (Activity.invocation m (Activity.activate hc p m this args)))
    fun h => .ofEq (x := (defect (.unknownMember id) : Run Value).ends)
      (fun _ => by rw [Run.invokeWith, h]) (Activity.stops not_false)

end

/-- By induction on how deep calls go. -/
def Activity.calls (p : WovenProgram) : ∀ n, (calls p limit n).Activity limit
  | 0 => ⟨fun _ _ _ => .still (h := .exhausted), fun _ _ _ _ => .still (h := .exhausted)⟩
  | n + 1 => ⟨Activity.invokeWith (Activity.calls p n) p,
      fun _ site this args =>
        Activity.checkObligations (Activity.calls p n) site this args _⟩

/-! ## Runs -/

section

variable (hc : c.Activity limit)

def Activity.evalStatics : ∀ fs, (evalStatics env c fs).Activity limit
  | [] => .yields _
  | f :: fs => .byCases (env.fieldInits.get? f.id)
      (fun init h => .ofEq (fun _ => by rw [Run.evalStatics, h])
        (Run.Activity.bind (Activity.eval hc (Frame.start f.id none []) init) fun v =>
          Run.Activity.bind (.still (x := modify fun m =>
              { m with statics := m.statics.insert (f.owner, f.name) v })
            (h := .modify fun _ => rfl)) fun _ => Activity.evalStatics fs))
      fun h => .ofEq (fun _ => by rw [Run.evalStatics, h]) (Activity.evalStatics fs)

def Activity.runFrom (id : DeclId) : (runFrom env c id).Activity limit :=
  .bind (.bind (.still (h := .modify fun _ => rfl)) fun _ => Activity.evalStatics hc _)
    fun _ => hc.invoke id none []

end

/-- An entry point that does not exist has nothing to do with the limit on calls. -/
theorem findEntry_error {entry : String} {e : RunError} (h : findEntry env entry = .error e) :
    ¬(Unwind.fatal e).CutOff := by
  rw [findEntry] at h
  repeat' split at h
  all_goals cases h
  all_goals exact id

end Run

/-- Which members become active in a run. -/
def WovenProgram.activity (p : WovenProgram) (limit bound : Nat) (entry : String) :
    (p.entered limit bound entry).Activity limit :=
  match h : Run.findEntry p.env entry with
  | .error e => .ofEq (fun _ => by rw [entered, h]; rfl)
      (Run.Activity.stops (Run.findEntry_error h))
  | .ok id => .ofEq (fun _ => by rw [entered, h])
      (Run.Activity.runFrom (Run.Activity.calls p bound) id)

end Covenant
