import Covenant.Proofs.Built
import Covenant.Proofs.Chronicles
import Covenant.Proofs.Refinement

/-!
# Violations and fatal errors end a run

Each function that a run is made of has a chronicle, which is put together as the
function is. So what is raised first in a run is how the run ends, whatever catch
clauses, checks at exits and `finally` blocks stand on the way:
`first_raised_prevails`.
-/

namespace Covenant

/-- What is raised behind calls. -/
structure Calls.Chronicle (c : Calls) where
  invoke : ∀ id this args, (c.invoke id this args).Chronicle
  recheck : ∀ caller site this args, (c.recheck caller site this args).Chronicle

namespace Run

open Typed (Expr Stmt)

variable {env : Env} {c : Calls}

/-! ## Expressions -/

/-- What is raised in a method and in the checks behind its call. -/
def Chronicle.checkedCall {x : Run Value} {check : Run Unit} (hx : x.Chronicle)
    (hcheck : check.Chronicle) :
    (do
      match ← liftM x.run with
      | .ok v =>
        check
        return v
      | .error (.throw e) =>
        check
        stop (.throw e)
      | .error u => stop u : Run Value).Chronicle :=
  .watch hx (fun _ => .bind hcheck fun _ => .once _) (fun _ => .bind hcheck fun _ => .once _)
    fun u hu => by cases u <;> first | rfl | cases hu

def Chronicle.callMethod (hc : c.Chronicle) (caller : DeclId) (site : SiteId) (method : DeclId)
    (args : List Value) :
    ∀ this : Option Ref, (callMethod env c caller site method this args).Chronicle
  | none => .bind (.once _) fun target =>
      .checkedCall (hc.invoke target none args) (hc.recheck caller site none args)
  | some r => .bind (.once _) fun _ => .bind (.once _) fun target =>
      .checkedCall (hc.invoke target (some r) args) (hc.recheck caller site (some r) args)

def Chronicle.construct (hc : c.Chronicle) (caller : DeclId) (site : SiteId) (className : String)
    (ctor : DeclId) (args : List Value) :
    (construct env c caller site className ctor args).Chronicle :=
  .bind (.once _) fun r => .bind (hc.invoke ctor (some r) args) fun _ =>
    .bind (hc.recheck caller site (some r) args) fun _ => .once _

mutual

def Chronicle.eval (hc : c.Chronicle) (f : Frame) : ∀ e : Expr, (eval env c f e).Chronicle
  | .int .. | .bool .. | .null .. | .this .. | .var .. | .param .. | .staticField ..
  | .result .. | .slot .. | .old .. | .spread .. => .once _
  | .field _ _ o _ => .bind (Chronicle.eval hc f o) fun _ => .bind (.once _) fun _ => .once _
  | .length _ a => .bind (Chronicle.eval hc f a) fun _ => .bind (.once _) fun _ => .once _
  | .index _ _ a i => .bind (Chronicle.eval hc f a) fun _ => .bind (.once _) fun _ =>
      .bind (Chronicle.eval hc f i) fun _ => .bind (.once _) fun _ => .once _
  | .binary _ .and l r => .bind (Chronicle.eval hc f l) fun _ => .bind (.once _) fun
      | true => .bind (Chronicle.eval hc f r) fun _ => .bind (.once _) fun _ => .once _
      | false => .once _
  | .binary _ .or l r => .bind (Chronicle.eval hc f l) fun _ => .bind (.once _) fun
      | true => .once _
      | false => .bind (Chronicle.eval hc f r) fun _ => .bind (.once _) fun _ => .once _
  | .binary _ .add l r | .binary _ .sub l r | .binary _ .mul l r | .binary _ .div l r
  | .binary _ .mod l r | .binary _ .eq l r | .binary _ .neq l r | .binary _ .lt l r
  | .binary _ .gt l r | .binary _ .ltEq l r | .binary _ .gtEq l r =>
      .bind (Chronicle.eval hc f l) fun _ => .bind (Chronicle.eval hc f r) fun _ => .once _
  | .unary _ _ e => .bind (Chronicle.eval hc f e) fun _ => .once _
  | .call _ _ site receiver m _ args => .bind (Chronicle.evalReceiver hc f receiver) fun this =>
      .bind (Chronicle.evalAll hc f args) fun vs => .callMethod hc f.decl site m vs this
  | .new _ site className ctor args => .bind (Chronicle.evalAll hc f args) fun vs =>
      .construct hc f.decl site className ctor vs
  | .newArray _ _ len => .bind (Chronicle.eval hc f len) fun _ => .bind (.once _) fun _ =>
      .bind (.once _) fun _ => .once _

def Chronicle.evalReceiver (hc : c.Chronicle) (f : Frame) :
    ∀ e : Option Expr, (evalReceiver env c f e).Chronicle
  | none => .once _
  | some e => .bind (Chronicle.eval hc f e) fun _ => .bind (.once _) fun _ => .once _

def Chronicle.evalAll (hc : c.Chronicle) (f : Frame) :
    ∀ es : List Expr, (evalAll env c f es).Chronicle
  | [] => .once _
  | e :: es => .bind (Chronicle.eval hc f e) fun _ => .bind (Chronicle.evalAll hc f es) fun _ =>
      .once _

end

/-! ## Statements -/

section

variable (hc : c.Chronicle) (f : Frame)

def Chronicle.evalIn (e : Expr) : (inScope f (Run.eval env c · e)).Chronicle :=
  RunWith.Chronicle.inScope fun scopes => .eval hc { f with scopes } e

def Chronicle.evalOr (absent : Value) : ∀ e : Option Expr, (evalOr env c f absent e).Chronicle
  | none => .once _
  | some e => Chronicle.evalIn hc f e

def Chronicle.evalBool (e : Expr) : (Run.inScope f (evalBool env c · e)).Chronicle :=
  RunWith.Chronicle.inScope fun scopes => .bind (.eval hc { f with scopes } e) fun _ => .once _

def Chronicle.evalInt (e : Expr) : (Run.inScope f (evalInt env c · e)).Chronicle :=
  RunWith.Chronicle.inScope fun scopes => .bind (.eval hc { f with scopes } e) fun _ => .once _

def Chronicle.evalObject (e : Expr) : (Run.inScope f (evalObject env c · e)).Chronicle :=
  RunWith.Chronicle.inScope fun scopes => .bind (.eval hc { f with scopes } e) fun _ => .once _

mutual

def Chronicle.exec : ∀ s : Stmt, (exec env c f s).Chronicle
  | .declare _ type _ value => .bind (Chronicle.evalOr hc f (Value.default type) value) fun _ =>
      .bind (.once _) fun _ => .once _
  | .setVar _ _ value => .bind (Chronicle.evalIn hc f value) fun _ => .bind (.once _) fun _ =>
      .once _
  | .setField _ o _ value => .bind (Chronicle.evalObject hc f o) fun _ =>
      .bind (Chronicle.evalIn hc f value) fun _ => .bind (.once _) fun _ => .once _
  | .setStatic _ _ _ value => .bind (Chronicle.evalIn hc f value) fun _ =>
      .bind (.once _) fun _ => .once _
  | .setIndex _ a i value => .bind (Chronicle.evalObject hc f a) fun _ =>
      .bind (Chronicle.evalInt hc f i) fun _ => .bind (Chronicle.evalIn hc f value) fun _ =>
        .bind (.once _) fun _ => .once _
  | .expr _ value => .bind (Chronicle.evalIn hc f value) fun _ => .once _
  | .branch _ condition a b => .bind (Chronicle.evalBool hc f condition) fun
      | true => .inBlock _ (Chronicle.exec a)
      | false => Chronicle.execElse b
  | .loop _ condition body =>
      .iterate (Chronicle.evalBool hc f condition) (.inBlock _ (Chronicle.exec body)) c.rounds
  | .ret _ value => .bind (Chronicle.evalOr hc f .void value) fun _ => .once _
  | .throw _ value => .bind (Chronicle.evalObject hc f value) fun _ => .once _
  | .superCall .. => .once _
  | .attempt _ body handlers cleanup =>
      .withCleanup
        (.catching (.inBlock _ (Chronicle.execAll body)) fun e =>
          .bind (.once _) fun className => Chronicle.execHandlers e className handlers)
        (Chronicle.execCleanup cleanup)
  | .block _ body => .inBlock _ (Chronicle.execAll body)

def Chronicle.execAll : ∀ ss : List Stmt, (execAll env c f ss).Chronicle
  | [] => .once _
  | s :: rest => .bind (Chronicle.exec s) fun
      | .normal => Chronicle.execAll rest
      | .ret _ _ => .once _

def Chronicle.execElse : ∀ s : Option Stmt, (execElse env c f s).Chronicle
  | none => .once _
  | some s => .inBlock _ (Chronicle.exec s)

def Chronicle.execHandlers (e : Ref) (className : String) :
    ∀ hs : List Typed.Handler, (execHandlers env c f e className hs).Chronicle
  | [] => .once _
  | .mk _ _ body :: rest =>
      .ite (.inBlock _ (Chronicle.execAll body)) (Chronicle.execHandlers e className rest)

def Chronicle.execCleanup : ∀ b : Option (List Stmt), (execCleanup env c f b).Chronicle
  | none => .once _
  | some body => .inBlock _ (Chronicle.execAll body)

end

end

/-! ## Checks -/

section

variable (hc : c.Chronicle)

def Chronicle.holds (f : Frame) (clause : BoundClause) : (holds env c f clause).Chronicle :=
  .bind (.eval hc f clause.expr) fun _ => .once _

def Chronicle.firstFalse (f : Frame) : ∀ clauses, (firstFalse env c f clauses).Chronicle
  | [] => .once _
  | clause :: clauses => .bind (Chronicle.holds hc f clause) fun
      | true => Chronicle.firstFalse f clauses
      | false => .once _

def Chronicle.failures (f : Frame) : ∀ groups, (failures env c f groups).Chronicle
  | [] => .once _
  | group :: groups => .bind (Chronicle.firstFalse hc f group) fun
      | none => .once _
      | some _ => .bind (Chronicle.failures f groups) fun _ => .once _

def Chronicle.store (f : Frame) : ∀ es n, (store env c f n es).Chronicle
  | [], _ => .once _
  | e :: es, n => .bind (.withSlots fun slots => .eval hc { f with slots } e) fun _ =>
      .bind (.once _) fun _ => Chronicle.store f es (n + 1)

def Chronicle.checkPrecondition (f : Frame) (groups : List (List BoundClause)) :
    (checkPrecondition env c f groups).Chronicle :=
  .bind (Chronicle.failures hc f groups) fun
    | none => .once _
    | some _ => .once _

def Chronicle.checkPostcondition (f : Frame) (clauses : List BoundClause) :
    (checkPostcondition env c f clauses).Chronicle :=
  .bind (Chronicle.firstFalse hc f clauses) fun
    | none => .once _
    | some _ => .once _

def Chronicle.runCode (f : Frame) : ∀ code, (runCode env c f code).Chronicle
  | .snapshot s => Chronicle.store hc f s.slots 0
  | .precondition groups =>
      RunWith.Chronicle.withSlots (f := f) (x := (Run.checkPrecondition env c · groups))
        fun slots => Chronicle.checkPrecondition hc { f with slots } groups
  | .postcondition clauses =>
      RunWith.Chronicle.withSlots (f := f) (x := (Run.checkPostcondition env c · clauses))
        fun slots => Chronicle.checkPostcondition hc { f with slots } clauses
  | .throws .. | .reverify .. => .once _

def Chronicle.runCodes (f : Frame) : ∀ codes, (runCodes env c f codes).Chronicle
  | [] => .once _
  | code :: codes => .bind (Chronicle.runCode hc f code) fun _ => Chronicle.runCodes f codes

def Chronicle.callAccessor (r : Ref) (name : String) : (callAccessor env c r name).Chronicle :=
  .bind (.once _) fun className =>
    .byCases ((env.lookupMethods className name).find? fun m => !m.isStatic && m.params.isEmpty)
      (fun m h => .ofEq (fun _ => by rw [h]) (hc.invoke (env.dispatch className m.id) (some r) []))
      fun h => .ofEq (fun _ => by rw [h]) (.once (defect (.noAccessor name className)).ends)

def Chronicle.stepFrom (r : Ref) : ∀ s, (stepFrom env c r s).Chronicle
  | .field _ => .once _
  | .accessor name => .bind (Chronicle.callAccessor hc r name) fun _ => .once _
  | .elements => .once _

def Chronicle.stepFromAll (s : Effect.Step) : ∀ vs, (stepFromAll env c s vs).Chronicle
  | [] => .once _
  | .ref r :: vs => .bind (Chronicle.stepFrom hc r s) fun _ =>
      .bind (Chronicle.stepFromAll s vs) fun _ => .once _
  | .int _ :: vs | .bool _ :: vs | .null :: vs | .void :: vs => Chronicle.stepFromAll s vs

def Chronicle.walk : ∀ steps vs, (walk env c steps vs).Chronicle
  | [], _ => .once _
  | s :: steps, vs => .bind (Chronicle.stepFromAll hc s vs) fun vs => Chronicle.walk steps vs

def Chronicle.reach (p : Effect.Path) (this : Option Ref) (args : List Value) :
    (reach env c p this args).Chronicle :=
  .bind (.once _) fun start => .bind (Chronicle.walk hc start.2 start.1) fun _ => .once _

def Chronicle.checkObjects (site : SiteId) (o : Obligation) :
    ∀ rs, (checkObjects env c site o rs).Chronicle
  | [] => .once _
  | r :: rs => .bind (Chronicle.holds hc (Frame.start o.clause.origin (some r) []) o.clause) fun
      | true => Chronicle.checkObjects site o rs
      | false => .once _

def Chronicle.checkObligations (site : SiteId) (this : Option Ref) (args : List Value) :
    ∀ os, (checkObligations env c site this args os).Chronicle
  | [] => .once _
  | o :: os => .bind (Chronicle.reach hc o.object this args) fun rs =>
      .bind (Chronicle.checkObjects hc site o rs) fun _ => Chronicle.checkObligations site this args os

/-! ## Members -/

def Chronicle.runInitItem (this : Ref) : ∀ item, (runInitItem env c this item).Chronicle
  | .field id =>
      .byCases (env.field? id)
        (fun field hf => .byCases (env.fieldInits.get? id)
          (fun init hi => .ofEq (fun _ => by rw [Run.runInitItem, hf, hi])
            (Run.Chronicle.bind (Chronicle.eval hc (Frame.start id (some this) []) init) fun v =>
              .once (setField this field.name v).ends))
          fun hi => .ofEq (fun _ => by rw [Run.runInitItem, hf, hi]) (.once (ends (pure ()))))
        fun hf => .ofEq (fun _ => by rw [Run.runInitItem, hf]) (.once (ends (pure ())))
  | .block id => .watchFrom
      (Chronicle.execAll hc (Frame.start id (some this) []) ((env.body? id).getD []))
      (fun _ _ => .once _) (fun _ _ => .once _) fun _ _ _ => rfl

def Chronicle.runInitItems (this : Ref) : ∀ items, (runInitItems env c this items).Chronicle
  | [] => .once _
  | item :: items => .bind (Chronicle.runInitItem hc this item) fun _ =>
      Chronicle.runInitItems this items

def Chronicle.runInitializers (this : Ref) (className : String) :
    (runInitializers env c this className).Chronicle :=
  .byCases (env.class? className)
    (fun info h => .ofEq (fun _ => by rw [Run.runInitializers, h])
      (Chronicle.runInitItems hc this info.initOrder))
    fun h => .ofEq (fun _ => by rw [Run.runInitializers, h]) (.once (ends (pure ())))

def Chronicle.runSuperDefault (this : Ref) (className : String) :
    (runSuperDefault env c this className).Chronicle :=
  .byCases ((env.class? className).bind (·.superclass))
    (fun s hs => .byCases (env.defaultConstructor? s)
      (fun ctor h => .ofEq (fun _ => by simp only [Run.runSuperDefault, hs, h])
        (Run.Chronicle.bind (hc.invoke ctor.id (some this) []) fun _ => .once (ends (pure ()))))
      fun h => .ofEq (fun _ => by simp only [Run.runSuperDefault, hs, h])
        (.once (ends (defect (.noDefaultConstructor s)))))
    fun h => .ofEq (fun _ => by rw [Run.runSuperDefault, h]) (.once (ends (pure ())))

variable (f : Frame)

def Chronicle.runSuper (this : Ref) (className : String) :
    ∀ body, (runSuper env c f this className body).Chronicle
  | .superCall _ _ ctor args :: _ => .bind (.inScope fun scopes =>
      .evalAll hc { f with scopes } args) fun vs =>
        .bind (.keep (hc.invoke ctor (some this) vs)) fun _ => .once _
  | [] | .declare .. :: _ | .setVar .. :: _ | .setField .. :: _ | .setStatic .. :: _
  | .setIndex .. :: _ | .expr .. :: _ | .branch .. :: _ | .loop .. :: _ | .ret .. :: _
  | .throw .. :: _ | .attempt .. :: _ | .block .. :: _ =>
      .bind (.keep (Chronicle.runSuperDefault hc this className)) fun _ => .once _

def Chronicle.runConstructor (m : MethodInfo) : (runConstructor env c f m).Chronicle :=
  .byCases f.this
    (fun this h => .ofEq (fun _ => by simp only [Run.runConstructor, h]; rfl)
      (RunWith.Chronicle.bind (Chronicle.runSuper hc f this m.owner ((env.body? m.id).getD []))
        fun rest => .bind (.keep (Chronicle.runInitializers hc this m.owner)) fun _ =>
          Chronicle.execAll hc f rest))
    fun h => .ofEq (fun _ => by simp only [Run.runConstructor, h])
      (.once (RunWith.process (keep (defect .constructorWithoutObject))))

def Chronicle.runMethod (m : MethodInfo) : (runMethod env c f m).Chronicle :=
  .byCases (if m.hasBody then env.body? m.id else none)
    (fun body h => .ofEq (fun _ => by rw [Run.runMethod, h]) (Chronicle.execAll hc f body))
    fun _ => .once _

def Chronicle.runBody (m : MethodInfo) : (runBody env c f m).Chronicle :=
  .ite (Chronicle.runConstructor hc f m) (Chronicle.runMethod hc f m)

variable (p : WovenProgram)

/-- What is raised by the checks at the exit of a member whose body completed. -/
def Chronicle.leaveNormally (flow : Flow) : (leave p c f (.ok flow)).Chronicle :=
  .watchFrom (Chronicle.runCodes hc (Frame.returning f flow) (p.codesAt _ .normalExit))
    (fun _ _ => .once _) (fun _ _ => .once _) fun _ _ _ => rfl

/-- What is raised by the checks at the exit of a member that threw. -/
def Chronicle.leaveThrowing (e : Ref) : (leave p c f (.error (.throw e))).Chronicle :=
  .watchFrom
    (Chronicle.runCodes hc { f with thrown := some e } (p.codesAt _ .exceptionalExit))
    (fun _ _ => .once _) (fun _ _ => .once _) fun _ _ _ => rfl

theorem leave_uncatchable {u : Unwind} (hu : u.uncatchable? = some u) :
    leave p c f (.error u) = stop u := by
  cases u with
  | throw => cases hu
  | violation | fatal => rfl

def Chronicle.activate (m : MethodInfo) (this : Option Ref) (args : List Value) :
    (activate p c m this args).Chronicle :=
  .watchFrom (Chronicle.runCodes hc _ (p.codesAt m.id .entry))
    (fun _ _ => .watchFrom (Chronicle.runBody hc _ m)
      (fun flow _ => Chronicle.leaveNormally hc _ p flow)
      (fun e _ => Chronicle.leaveThrowing hc _ p e)
      fun _ _ hu => leave_uncatchable _ p (Unwind.eq_of_uncatchable? hu ▸ hu))
    (fun e _ => Chronicle.leaveThrowing hc _ p e)
    fun _ _ hu => leave_uncatchable _ p (Unwind.eq_of_uncatchable? hu ▸ hu)

def Chronicle.invokeWith (limit : Nat) (id : DeclId) (this : Option Ref) (args : List Value) :
    (invokeWith p limit c id this args).Chronicle :=
  .byCases (p.env.method? id)
    (fun m h => .ofEq (fun _ => by rw [Run.invokeWith, h])
      (Run.Chronicle.bind (.once (ends get)) fun _ => .ite
        (.once (ends (fatal (.recursionLimit m.qualifiedName limit))))
        (.deeper (Chronicle.activate hc p m this args))))
    fun h => .ofEq (fun _ => by rw [Run.invokeWith, h]) (.once (ends (defect (.unknownMember id))))

end

/-- What is raised behind calls, by induction on how deep they go. -/
def Chronicle.calls (p : WovenProgram) (limit : Nat) : ∀ n, (calls p limit n).Chronicle
  | 0 => ⟨fun _ _ _ => .once _, fun _ _ _ _ => .once _⟩
  | n + 1 => ⟨Chronicle.invokeWith (Chronicle.calls p limit n) p limit,
      fun _ site this args =>
        Chronicle.checkObligations (Chronicle.calls p limit n) site this args _⟩

/-! ## Runs -/

section

variable (hc : c.Chronicle)

def Chronicle.evalStatics : ∀ fs, (evalStatics env c fs).Chronicle
  | [] => .once _
  | f :: fs => .byCases (env.fieldInits.get? f.id)
      (fun init h => .ofEq (fun _ => by rw [Run.evalStatics, h])
        (Run.Chronicle.bind (Chronicle.eval hc (Frame.start f.id none []) init) fun v =>
          Run.Chronicle.bind (.once (ends (modify _))) fun _ => Chronicle.evalStatics fs))
      fun h => .ofEq (fun _ => by rw [Run.evalStatics, h]) (Chronicle.evalStatics fs)

def Chronicle.runFrom (id : DeclId) : (runFrom env c id).Chronicle :=
  .bind (.bind (.once _) fun _ => Chronicle.evalStatics hc _) fun _ => hc.invoke id none []

end

/-- What comes of the way in which a run ended: the violation or the fatal error, if it was one. -/
def uncaught? : Except RunError Outcome → Option Unwind
  | .ok (.violated v) => some (.violation v)
  | .ok (.returned _) | .ok (.threw _) => none
  | .error e => some (.fatal e)

theorem uncaught?_eq_violation {o : Except RunError Outcome} {v : Violation} :
    uncaught? o = some (.violation v) ↔ o = .ok (.violated v) := by
  rcases o with _ | _ | _ | _ <;> simp [uncaught?]

theorem uncaught?_toOutcome {r : Except Unwind Value} {o : Except RunError Outcome}
    {μ μ' : Machine} (h : toOutcome r μ = some (o, μ')) : uncaught? o = uncatchable? r := by
  rcases r with (_ | _ | _) | _ <;> cases h <;> rfl

theorem toOutcome_ends (r : Except Unwind Value) (μ : Machine) :
    ∃ o, toOutcome r μ = some o := by
  rcases r with (_ | _ | _) | _ <;> exact ⟨_, rfl⟩

end Run

namespace WovenProgram

variable (p : WovenProgram) (limit bound : Nat) (entry : String)

/-- A run of a program from an entry point, before its end is read off. -/
def entered : Run Value :=
  match Run.findEntry p.env entry with
  | .error e => Run.fatal e
  | .ok id => Run.runFrom p.env (Run.calls p limit bound) id

theorem run_eq_entered (μ : Machine) :
    p.run limit bound entry μ =
      ((p.entered limit bound entry).ends μ).bind fun o => Run.toOutcome o.1 o.2 := by
  cases he : Run.findEntry p.env entry with
  | error e =>
      rw [run, entered, he]
      rfl
  | ok id => rw [run_eq p limit bound he, entered, he]

def chronicle : (p.entered limit bound entry).Chronicle :=
  match h : Run.findEntry p.env entry with
  | .error e => .ofEq (fun _ => by rw [entered, h]) (.once (Run.fatal e).ends)
  | .ok id => .ofEq (fun _ => by rw [entered, h])
      (Run.Chronicle.runFrom (Run.Chronicle.calls p limit bound) id)

end WovenProgram

/-- A run that has an end ends with what was raised first in it, unchanged, and without any
violation or fatal error if none was raised. And it has an end if anything was raised, unless a
`finally` block on the way has none. -/
theorem first_raised_prevails (p : WovenProgram) (limit bound : Nat) (entry : String)
    (μ : Machine) :
    (∀ o μ', p.run limit bound entry μ = some (o, μ') →
      Run.uncaught? o = ((p.chronicle limit bound entry).raised μ).head?) ∧
    (∀ u later, (p.chronicle limit bound entry).raised μ = u :: later →
      (p.chronicle limit bound entry).hangs μ = false →
      ∃ o μ', p.run limit bound entry μ = some (o, μ') ∧ Run.uncaught? o = some u) := by
  rw [p.run_eq_entered]
  have hfirst {o μ'} (h : ((p.entered limit bound entry).ends μ).bind
      (fun o => Run.toOutcome o.1 o.2) = some (o, μ')) :
      Run.uncaught? o = ((p.chronicle limit bound entry).raised μ).head? := by
    obtain ⟨⟨r, μ₁⟩, hends, hout⟩ := Option.bind_eq_some_iff.mp h
    rw [Run.uncaught?_toOutcome hout]
    exact (p.chronicle limit bound entry).first hends
  refine ⟨fun o μ' h => hfirst h, fun u later hraised hhangs => ?_⟩
  obtain ⟨⟨r, μ₁⟩, hends⟩ :=
    (p.chronicle limit bound entry).ends (hraised ▸ List.cons_ne_nil u later) hhangs
  obtain ⟨⟨o, μ'⟩, hout⟩ := Run.toOutcome_ends r μ₁
  have hrun : ((p.entered limit bound entry).ends μ).bind (fun o => Run.toOutcome o.1 o.2) =
      some (o, μ') := by
    rw [hends]
    exact hout
  exact ⟨o, μ', hrun, by rw [hfirst hrun, hraised]; rfl⟩

/-- The `finally` block behind a violation returns, and raises another violation before it. -/
def maskingSource : String :=
  "class Main {
    /** @pre | n > 0 */ static int keep(int n) { return n; }
    static int main() {
      try { return keep(0); }
      catch (Throwable t) { return 1; }
      finally { try { keep(-1); } finally { return 2; } }
    }
  }"

/-- Evaluates what is said of `maskingSource`. -/
def maskingCheck : Option Bool := do
  let b ← (build maskingSource {}).toOption
  match (b.program.chronicle 8 8 "Main.main").raised .initial with
  | [.violation _, .violation _] =>
    return !(b.program.chronicle 8 8 "Main.main").hangs .initial
  | _ => none

/-- Two violations are raised, and the run ends with the one of `keep(0)`. -/
theorem first_raised_prevails_masking :
    ∃ b v w o μ', build maskingSource {} = .ok b ∧
      (b.program.chronicle 8 8 "Main.main").raised .initial = [.violation v, .violation w] ∧
      (b.program.chronicle 8 8 "Main.main").hangs .initial = false ∧
      b.program.run 8 8 "Main.main" .initial = some (o, μ') ∧
      o = .ok (.violated v) := by
  have h : maskingCheck = some true := by
    set_option maxRecDepth 20000 in
    rw [maskingCheck, show maskingSource = String.ofList _ from rfl, build_ofList]
    decide +kernel
  rw [maskingCheck] at h
  obtain ⟨b, hb, h⟩ := Option.bind_eq_some_iff.mp h
  split at h
  · next v w hraised =>
      have hhangs : (b.program.chronicle 8 8 "Main.main").hangs .initial = false := by
        simpa using h
      obtain ⟨o, μ', hrun, ho⟩ :=
        (first_raised_prevails b.program 8 8 "Main.main" .initial).2 _ _ hraised hhangs
      exact ⟨b, v, w, o, μ', ok_of_toOption hb, hraised, hhangs, hrun,
        Run.uncaught?_eq_violation.mp ho⟩
  · cases h

end Covenant
