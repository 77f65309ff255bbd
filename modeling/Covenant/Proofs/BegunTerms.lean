import Covenant.Proofs.Beginnings
import Covenant.Proofs.CheckedScopes
import Covenant.Proofs.CountedArguments
import Covenant.Proofs.TermJourneys

/-!
# How terms begin

A statement begins where its scopes bind what the checker had in scope, if the
statement in front of it did, and with it all that it evaluates. The scopes of a
frame do not change in the course of an evaluation, so for expressions only the
calls need care: a callee gets an argument for each of its parameters, so that its
own scopes start with all of them.
-/

namespace Covenant

open HasRefs (refs)
open Typed (Expr Stmt)

/-- What goes on behind calls with the right number of arguments begins as it should. -/
structure Calls.Journey.Begins {P : DeclId → Task → Prop} {c : Calls} (env : Env)
    (Q : Frame → Task → Prop) (hc : c.Journey P) : Prop where
  invoke : ∀ id this args, env.Takes id args.length → Run.Begins Q (hc.invoke id this args)
  recheck : ∀ caller site this args, Run.Begins Q (hc.recheck caller site this args)

namespace Run

variable {P : DeclId → Task → Prop} {Q : Frame → Task → Prop} {env : Env} {c : Calls}
  {hc : c.Journey P} {held : List Ref}

/-- As many values come of arguments as there are arguments. -/
theorem length_evalAll {f : Frame} : ∀ {es : List Expr} {vs : List Value} {μ μ' : Machine},
    (evalAll env c f es).ends μ = some (.ok vs, μ') → vs.length = es.length
  | [], _, _, _, h => by
      cases h
      rfl
  | e :: es, _, _, _, h => by
      rw [evalAll] at h
      obtain ⟨_, _, hr⟩ | ⟨v, _, _, h⟩ := ends_bind_eq_some.mp h
      · cases hr
      · obtain ⟨_, _, hr⟩ | ⟨vs, _, hvs, h⟩ := ends_bind_eq_some.mp h
        · cases hr
        · cases h
          exact congrArg (· + 1) (length_evalAll hvs)

theorem begins_checkedCall {x : Run Value} {check : Run Unit} {d : x.Journey P held}
    {e : check.Journey P held} (hd : Run.Begins Q d) (he : Run.Begins Q e) :
    Run.Begins Q (Journey.checkedCall d e) :=
  .watch hd (fun _ => .last (.weaken he) fun _ _ => rfl)
    fun _ => .last (.weaken he) fun _ _ => rfl

/-- What a program lets an evaluation rely on: a callee takes what it is called with. -/
structure Counted (env : Env) (P : DeclId → Task → Prop) : Prop where
  parts : ∀ decl e, P decl (.expr e) → e.Counts env
  dispatch : ∀ id n className, env.Takes id n → env.Takes (env.dispatch className id) n

section

variable (hb : hc.Begins env Q) (hcount : Counted env P)

include hb

section

variable (this : Option Ref) (args : List Value) [Held this held] [Held args held]

theorem begins_invoke {id : DeclId} (h : env.Takes id args.length) :
    Run.Begins Q (Journey.invoke hc this args id : (c.invoke id this args).Journey P held) :=
  .weaken (hb.invoke id this args h)

theorem begins_recheck (caller : DeclId) (site : SiteId) :
    Run.Begins Q
      (Journey.recheck hc this args caller site : (c.recheck caller site this args).Journey P held) :=
  .weaken (hb.recheck caller site this args)

omit [Held this held] in
theorem begins_construct (caller : DeclId) (site : SiteId) (className : String) {ctor : DeclId}
    (h : env.Takes ctor args.length) :
    Run.Begins Q (Journey.construct hc args caller site className ctor :
      (construct env c caller site className ctor args).Journey P held) :=
  .bind .brief fun _ _ => .bind (begins_invoke hb _ args h) fun _ _ =>
    .last (begins_recheck hb _ args caller site) fun _ _ => rfl

include hcount

omit this [Held this held] in
theorem begins_callMethod (caller : DeclId) (site : SiteId) {method : DeclId}
    (h : env.Takes method args.length) : ∀ (this : Option Ref) [Held this held],
      Run.Begins Q (Journey.callMethod hc args caller site method this :
        (callMethod env c caller site method this args).Journey P held)
  | none, _ => begins_checkedCall (begins_invoke hb none args h) (begins_recheck hb none args _ _)
  | some r, _ => .bind (.quiet fun _ => rfl) fun className _ =>
      begins_checkedCall (begins_invoke hb (some r) args (hcount.dispatch _ _ className h))
        (begins_recheck hb (some r) args _ _)

end

include hcount

variable (f : Frame)

mutual

theorem begins_eval : ∀ (e : Expr) {held : List Ref} [Held f held]
    (h : Allowed P f.decl .expr e.parts), Allowed (fun _ => Q f) f.decl .expr e.parts →
      Run.Begins Q (Journey.eval hc f e h : (eval env c f e).Journey P held)
  | .int .., _, _, _, hq | .bool .., _, _, _, hq | .null .., _, _, _, hq
  | .result .., _, _, _, hq | .old .., _, _, _, hq | .spread .., _, _, _, hq
  | .this .., _, _, _, hq | .var .., _, _, _, hq | .param .., _, _, _, hq
  | .slot .., _, _, _, hq | .staticField .., _, _, _, hq =>
      .starting hq.head (.quiet fun _ => rfl)
  | .field _ _ o _, _, _, h, hq => .starting hq.head
      (.bind (begins_eval o h.tail hq.tail) fun _ _ =>
        .last (.under .brief) fun _ _ => rfl)
  | .length _ a, _, _, h, hq => .starting hq.head
      (.bind (begins_eval a h.tail hq.tail) fun _ _ =>
        .last (.under .brief) fun _ _ => rfl)
  | .index _ _ a i, _, _, h, hq => .starting hq.head
      (.bind (begins_eval a h.tail.left hq.tail.left) fun _ _ => .bind (.under .brief) fun _ _ =>
        .bind (begins_eval i h.tail.right hq.tail.right) fun _ _ =>
          .bind (.quiet fun _ => rfl) fun _ _ => .under .brief)
  | .binary _ .and l r, _, _, h, hq => .starting hq.head
      (.bind (begins_eval l h.tail.left hq.tail.left) fun _ _ => .bind (.quiet fun _ => rfl) fun
        | true, _ => .bind (begins_eval r h.tail.right hq.tail.right) fun _ _ =>
            .last (.quiet fun _ => rfl) fun _ _ => rfl
        | false, _ => .quiet fun _ => rfl)
  | .binary _ .or l r, _, _, h, hq => .starting hq.head
      (.bind (begins_eval l h.tail.left hq.tail.left) fun _ _ => .bind (.quiet fun _ => rfl) fun
        | true, _ => .quiet fun _ => rfl
        | false, _ => .bind (begins_eval r h.tail.right hq.tail.right) fun _ _ =>
            .last (.quiet fun _ => rfl) fun _ _ => rfl)
  | .binary _ .add l r, _, _, h, hq | .binary _ .sub l r, _, _, h, hq
  | .binary _ .mul l r, _, _, h, hq | .binary _ .div l r, _, _, h, hq
  | .binary _ .mod l r, _, _, h, hq | .binary _ .eq l r, _, _, h, hq
  | .binary _ .neq l r, _, _, h, hq | .binary _ .lt l r, _, _, h, hq
  | .binary _ .gt l r, _, _, h, hq | .binary _ .ltEq l r, _, _, h, hq
  | .binary _ .gtEq l r, _, _, h, hq => .starting hq.head
      (.bind (begins_eval l h.tail.left hq.tail.left) fun _ _ =>
        .bind (begins_eval r h.tail.right hq.tail.right) fun _ _ => .under .brief)
  | .unary _ _ e, _, _, h, hq => .starting hq.head
      (.last (begins_eval e h.tail hq.tail) fun _ _ => rfl)
  | .call _ _ site receiver _ _ args, _, _, h, hq => .starting hq.head
      (.bind (begins_evalReceiver receiver h.tail.left hq.tail.left) fun this _ =>
        .bind (begins_evalAll args h.tail.right hq.tail.right) fun vs ⟨_, _, hvs⟩ =>
          .under (begins_callMethod hb hcount vs f.decl site
            (length_evalAll hvs ▸ hcount.parts _ _ h.head) this))
  | .new _ site className _ args, _, _, h, hq => .starting hq.head
      (.bind (begins_evalAll args h.tail hq.tail) fun vs ⟨_, _, hvs⟩ =>
        .under (begins_construct hb vs f.decl site className
          (length_evalAll hvs ▸ hcount.parts _ _ h.head)))
  | .newArray _ _ len, _, _, h, hq => .starting hq.head
      (.bind (begins_eval len h.tail hq.tail) fun _ _ => .bind (.quiet fun _ => rfl) fun _ _ =>
        .last (.under .brief) fun _ _ => rfl)

theorem begins_evalReceiver : ∀ (e : Option Expr) {held : List Ref} [Held f held]
    (h : Allowed P f.decl .expr (Expr.partsOpt e)),
      Allowed (fun _ => Q f) f.decl .expr (Expr.partsOpt e) →
        Run.Begins Q (Journey.evalReceiver hc f e h : (evalReceiver env c f e).Journey P held)
  | none, _, _, _, _ => .quiet fun _ => rfl
  | some e, _, _, h, hq => .bind (begins_eval e h hq) fun _ _ =>
      .last (.under .brief) fun _ _ => rfl

theorem begins_evalAll : ∀ (es : List Expr) {held : List Ref} [Held f held]
    (h : Allowed P f.decl .expr (Expr.partsAll es)),
      Allowed (fun _ => Q f) f.decl .expr (Expr.partsAll es) →
        Run.Begins Q (Journey.evalAll hc f es h : (evalAll env c f es).Journey P held)
  | [], _, _, _, _ => .quiet fun _ => rfl
  | e :: es, _, _, h, hq => .bind (begins_eval e h.left hq.left) fun _ _ =>
      .last (begins_evalAll es h.right hq.right) fun _ _ => rfl

end

end

/-! ## Statements -/

/-- Whatever is checked in a scope may begin in the frame when that binds what is in scope. -/
def Ready (Q : Frame → Task → Prop) (f : Frame) (R : Typing.Scope → Task → Prop) : Prop :=
  ∀ s w, R s w → ∀ scopes : Scopes, s.Has scopes.names → Q { f with scopes } w

theorem Ready.at {f : Frame} {R : Typing.Scope → Task → Prop} (h : Ready Q f R) {s : Typing.Scope}
    {w : Task} (hw : R s w) {levels : List (Set String)} (hs : s.Has levels) :
    ∀ scopes, Scopes.At levels scopes → Q { f with scopes } w :=
  fun scopes hlevels => h s w hw scopes (hlevels ▸ hs)

/-- A statement that was checked in a scope with these names, and may begin as that was. -/
inductive Sited (Q : Frame → Task → Prop) (f : Frame) (levels : List (Set String)) : Stmt → Prop
  | intro {k s s' u t cs} (he : Typing.ElabStmt k s u t s' cs) (hs : s.Has levels)
      (hq : Ready Q f (Typing.StmtChecks k s u t)) : Sited Q f levels t

inductive SitedAll (Q : Frame → Task → Prop) (f : Frame) (levels : List (Set String)) :
    List Stmt → Prop
  | intro {k s us ts cs} (he : Typing.ElabStmts k s us ts cs) (hs : s.Has levels)
      (hq : Ready Q f (Typing.StmtsCheck k s us ts)) : SitedAll Q f levels ts

inductive SitedHandlers (Q : Frame → Task → Prop) (f : Frame) (levels : List (Set String)) :
    List Typed.Handler → Prop
  | intro {k s us ts cs} (he : Typing.ElabHandlers k s us ts cs) (hs : s.Has levels)
      (hq : Ready Q f (Typing.HandlersCheck k s us ts)) : SitedHandlers Q f levels ts

section

variable {levels : List (Set String)} {f : Frame}

theorem Sited.self {t : Stmt} : Sited Q f levels t →
    ∀ scopes, Scopes.At levels scopes → Q { f with scopes } (.stmt t)
  | .intro he hs hq => hq.at (.self he) hs

theorem Sited.own {t : Stmt} {es : List Expr} (hes : es ⊆ t.ownParts) : Sited Q f levels t →
    ∀ scopes, Scopes.At levels scopes → Allowed (fun _ => Q { f with scopes }) f.decl .expr es
  | .intro he hs hq => fun scopes hlevels _ h => hq.at (.own he (hes h)) hs scopes hlevels

theorem Sited.thenBranch {span : Span} {e : Expr} {a : Stmt} {b : Option Stmt} :
    Sited Q f levels (.branch span e a b) → Sited Q f (∅ :: levels) a
  | .intro he hs hq => by
      cases he with
      | branch _ _ ha _ => exact .intro ha hs.block fun s w h => hq s w (.thenBranch h)

theorem Sited.elseBranch {span : Span} {e : Expr} {a b : Stmt} :
    Sited Q f levels (.branch span e a (some b)) → Sited Q f (∅ :: levels) b
  | .intro he hs hq => by
      cases he with
      | branch _ _ _ hb =>
          cases hb with
          | some hb => exact .intro hb hs.block fun s w h => hq s w (.elseBranch h)

theorem Sited.loop {span : Span} {e : Expr} {body : Stmt} :
    Sited Q f levels (.loop span e body) → Sited Q f (∅ :: levels) body
  | .intro he hs hq => by
      cases he with
      | loop _ _ hb => exact .intro hb hs.block fun s w h => hq s w (.loop h)

theorem Sited.block {span : Span} {body : List Stmt} :
    Sited Q f levels (.block span body) → SitedAll Q f (∅ :: levels) body
  | .intro he hs hq => by
      cases he with
      | block hb => exact .intro hb hs.block fun s w h => hq s w (.block h)

section

variable {span : Span} {body : List Stmt} {handlers : List Typed.Handler}
  {cleanup : Option (List Stmt)}

theorem Sited.attempt : Sited Q f levels (.attempt span body handlers cleanup) →
    SitedAll Q f (∅ :: levels) body
  | .intro he hs hq => by
      cases he with
      | attempt hb _ _ => exact .intro hb hs.block fun s w h => hq s w (.attempt h)

theorem Sited.handled : Sited Q f levels (.attempt span body handlers cleanup) →
    SitedHandlers Q f levels handlers
  | .intro he hs hq => by
      cases he with
      | attempt _ hh _ => exact .intro hh hs fun s w h => hq s w (.handler h)

theorem Sited.last {final : List Stmt} :
    Sited Q f levels (.attempt span body handlers (some final)) →
      SitedAll Q f (∅ :: levels) final
  | .intro he hs hq => by
      cases he with
      | attempt _ _ hc =>
          cases hc with
          | some hc => exact .intro hc hs.block fun s w h => hq s w (.cleanup h)

end

theorem SitedAll.head {t : Stmt} {rest : List Stmt} :
    SitedAll Q f levels (t :: rest) → Sited Q f levels t
  | .intro he hs hq => by
      cases he with
      | cons hc _ => exact .intro hc hs fun s w h => hq s w (.head h)

theorem SitedAll.tail {t : Stmt} {rest : List Stmt} (hlevels : levels ≠ []) :
    SitedAll Q f levels (t :: rest) → SitedAll Q f (t.namesBehind (.ok .normal) levels) rest
  | .intro he hs hq => by
      cases he with
      | cons hc hr => exact .intro hr (hc.has hs hlevels) fun s w h => hq s w (.tail hc h)

section

variable {className var : String} {body : List Stmt} {rest : List Typed.Handler}

theorem SitedHandlers.head (e : Ref) :
    SitedHandlers Q f levels (.mk className var body :: rest) →
      SitedAll Q f ((Table.ofList [(var, Value.ref e)]).bound :: levels) body
  | .intro he hs hq => by
      cases he with
      | cons _ hf hb _ => exact .intro hb (hs.handler _ e hf) fun s w h => hq s w (.head h)

theorem SitedHandlers.tail : SitedHandlers Q f levels (.mk className var body :: rest) →
    SitedHandlers Q f levels rest
  | .intro he hs hq => by
      cases he with
      | cons _ _ _ hr => exact .intro hr hs fun s w h => hq s w (.tail h)

end

end

/-- The same in the scopes as they are. -/
theorem length_evalArgs {f : Frame} {es : List Expr} {vs : List Value} {s t : Scopes × Machine}
    (h : (inScope f (evalAll env c · es)).process s = some (.ok vs, t)) :
    vs.length = es.length := by
  rw [RunWith.process, RunWith.ends_inScope, Option.map_map] at h
  obtain ⟨⟨r, μ⟩, hends, heq⟩ := Option.map_eq_some_iff.mp h
  cases heq
  exact length_evalAll hends

section

variable (hb : hc.Begins env Q) (hcount : Counted env P) {f : Frame} {levels : List (Set String)}

include hb hcount

section

variable {e : Expr} [Held f held] (h : Allowed P f.decl .expr e.parts)
  (hq : ∀ scopes, Scopes.At levels scopes →
    Allowed (fun _ => Q { f with scopes }) f.decl .expr e.parts)

include hq

theorem begins_evalIn : RunWith.Begins Q (Scopes.At levels)
    (Journey.evalIn hc f e h : (inScope f (Run.eval env c · e)).Journey P held) :=
  .inScope fun scopes hs => begins_eval hb hcount { f with scopes } e h (hq scopes hs)

theorem begins_evalBool : RunWith.Begins Q (Scopes.At levels)
    (Journey.evalBool hc f e h : (inScope f (Run.evalBool env c · e)).Journey P held) :=
  .inScope fun scopes hs => .last (begins_eval hb hcount { f with scopes } e h (hq scopes hs))
    fun _ _ => rfl

theorem begins_evalInt : RunWith.Begins Q (Scopes.At levels)
    (Journey.evalInt hc f e h : (inScope f (Run.evalInt env c · e)).Journey P held) :=
  .inScope fun scopes hs => .last (begins_eval hb hcount { f with scopes } e h (hq scopes hs))
    fun _ _ => rfl

theorem begins_evalObject : RunWith.Begins Q (Scopes.At levels)
    (Journey.evalObject hc f e h : (inScope f (Run.evalObject env c · e)).Journey P held) :=
  .inScope fun scopes hs => .bind (begins_eval hb hcount { f with scopes } e h (hq scopes hs))
    fun _ _ => .under .brief

end

theorem begins_evalOr (absent : Value) [Held f held] [Held absent held] : ∀ {e : Option Expr}
    (h : Allowed P f.decl .expr (Expr.partsOpt e)),
      (∀ scopes, Scopes.At levels scopes →
        Allowed (fun _ => Q { f with scopes }) f.decl .expr (Expr.partsOpt e)) →
        RunWith.Begins Q (Scopes.At levels)
          (Journey.evalOr hc f absent e h : (evalOr env c f absent e).Journey P held)
  | none, _, _ => .quiet fun _ => rfl
  | some _, h, hq => begins_evalIn hb hcount h hq

end

section

variable (hb : hc.Begins env Q) (hcount : Counted env P) (f : Frame)

include hb hcount

mutual

/-- Along a statement the names are those of its place in the body. -/
theorem begins_exec : ∀ (t : Stmt) {held : List Ref} [Held f held]
    (hi : Allowed P f.decl .stmt t.inner) (hp : Allowed P f.decl .expr t.parts)
    {levels : List (Set String)}, Sited Q f levels t →
      RunWith.Begins Q (Scopes.At levels)
        (Journey.exec hc f t hi hp : (exec env c f t).Journey P held)
  | .declare _ type _ value, _, _, _, hp, _, hq => .around hq.self
      (.bind (begins_evalOr hb hcount (Value.default type) hp (hq.own (List.Subset.refl _)))
        (evalOr_names env c f _ value).at fun _ => .last (.quiet fun _ => rfl) fun _ _ => rfl)
  | .setVar .., _, _, _, hp, _, hq => .around hq.self
      (.bind (begins_evalIn hb hcount hp (hq.own (List.Subset.refl _)))
        (RunWith.KeepsNames.inScope _ _).at fun _ => .last (.quiet fun _ => rfl) fun _ _ => rfl)
  | .setField .., _, _, _, hp, _, hq => .around hq.self
      (.bind (begins_evalObject hb hcount hp.left (hq.own (List.subset_append_left ..)))
        (RunWith.KeepsNames.inScope _ _).at fun _ =>
          .bind (begins_evalIn hb hcount hp.right (hq.own (List.subset_append_right ..)))
            (RunWith.KeepsNames.inScope _ _).at fun _ =>
              .last (.under (.keep .brief)) fun _ _ => rfl)
  | .setStatic .., _, _, _, hp, _, hq => .around hq.self
      (.bind (begins_evalIn hb hcount hp (hq.own (List.Subset.refl _)))
        (RunWith.KeepsNames.inScope _ _).at fun _ => .last (.under (.keep .brief)) fun _ _ => rfl)
  | .setIndex .., _, _, _, hp, _, hq => .around hq.self
      (.bind (begins_evalObject hb hcount hp.left (hq.own (List.subset_append_left ..)))
        (RunWith.KeepsNames.inScope _ _).at fun _ =>
          .bind (begins_evalInt hb hcount hp.right.left
              (hq.own (List.subset_append_of_subset_right _ (List.subset_append_left ..))))
            (RunWith.KeepsNames.inScope _ _).at fun _ =>
              .bind (begins_evalIn hb hcount hp.right.right
                  (hq.own (List.subset_append_of_subset_right _ (List.subset_append_right ..))))
                (RunWith.KeepsNames.inScope _ _).at fun _ =>
                  .last (.under (.keep .brief)) fun _ _ => rfl)
  | .expr .., _, _, _, hp, _, hq => .around hq.self
      (.last (begins_evalIn hb hcount hp (hq.own (List.Subset.refl _))) fun _ _ => rfl)
  | .branch _ _ a b, _, _, hi, hp, _, hq => .around hq.self
      (.bind (begins_evalBool hb hcount hp.left (hq.own (List.Subset.refl _)))
        (RunWith.KeepsNames.inScope _ _).at fun
          | true => .inBlock (begins_exec a hi.tail.left hp.right.left hq.thenBranch)
              fun _ hs => hs.block
          | false => begins_execElse b hi.tail.right hp.right.right fun _ h => (h ▸ hq).elseBranch)
  | .loop _ _ body, _, _, hi, hp, _, hq => .around hq.self
      (.iterate (begins_evalBool hb hcount hp.left (hq.own (List.Subset.refl _)))
        (RunWith.KeepsNames.inScope _ _).at
        (.inBlock (begins_exec body hi.tail hp.right hq.loop) fun _ hs => hs.block)
        (RunWith.KeepsNames.inBlock (exec_outer env c f body)).at _)
  | .ret .., _, _, _, hp, _, hq => .around hq.self
      (.last (begins_evalOr hb hcount .void hp (hq.own (List.Subset.refl _))) fun _ _ => rfl)
  | .throw .., _, _, _, hp, _, hq => .around hq.self
      (.last (begins_evalObject hb hcount hp (hq.own (List.Subset.refl _))) fun _ _ => rfl)
  | .superCall .., _, _, _, _, _, hq => .around hq.self (.quiet fun _ => rfl)
  | .attempt _ body handlers cleanup, _, _, hi, hp, _, hq => .around hq.self
      (.withCleanup
        (.catching
          (.inBlock (begins_execAll body hi.tail.left hp.left (List.cons_ne_nil _ _) hq.attempt)
            fun _ hs => hs.block)
          (RunWith.KeepsNames.inBlock (execAll_outer env c f body)).at
          fun e => .bind (.quiet fun _ => rfl) (RunWith.KeepsNames.keep _).at fun className =>
            begins_execHandlers e className handlers hi.tail.right.left hp.right.left hq.handled)
        (RunWith.KeepsNames.catching (.inBlock (execAll_outer env c f body)) fun e =>
          .bind (.keep _) fun className => execHandlers_names env c f e className handlers).at
        (begins_execCleanup cleanup hi.tail.right.right hp.right.right fun _ h =>
          (h ▸ hq).last))
  | .block _ body, _, _, hi, hp, _, hq => .around hq.self
      (.inBlock (begins_execAll body hi.tail hp (List.cons_ne_nil _ _) hq.block)
        fun _ hs => hs.block)

theorem begins_execAll : ∀ (ts : List Stmt) {held : List Ref} [Held f held]
    (hi : Allowed P f.decl .stmt (Typed.stmtsInner ts))
    (hp : Allowed P f.decl .expr (Typed.stmtsParts ts)) {levels : List (Set String)},
      levels ≠ [] → SitedAll Q f levels ts →
        RunWith.Begins Q (Scopes.At levels)
          (Journey.execAll hc f ts hi hp : (execAll env c f ts).Journey P held)
  | [], _, _, _, _, _, _, _ => .quiet fun _ => rfl
  | t :: rest, _, _, hi, hp, levels, hlevels, hq => by
      refine .bindTo (J := fun flow => Scopes.At (t.namesBehind (.ok flow) levels))
        (begins_exec t hi.left hp.left hq.head)
        (fun s flow s' hs h => (exec_names env c f t _ _ _ h).trans (congrArg _ hs)) fun flow => ?_
      cases flow with
      | normal =>
          refine begins_execAll rest hi.right hp.right (fun hnil => hlevels ?_) (hq.tail hlevels)
          have hlength := (t.namesBehind_outer (.ok .normal) levels).1
          rw [hnil] at hlength
          exact List.length_eq_zero_iff.mp hlength.symm
      | ret v span => exact .quiet fun _ => rfl

theorem begins_execElse : ∀ (b : Option Stmt) {held : List Ref} [Held f held]
    (hi : Allowed P f.decl .stmt (Typed.elseInner b))
    (hp : Allowed P f.decl .expr (Typed.elseParts b)) {levels : List (Set String)},
      (∀ t, b = some t → Sited Q f (∅ :: levels) t) →
        RunWith.Begins Q (Scopes.At levels)
          (Journey.execElse hc f b hi hp : (execElse env c f b).Journey P held)
  | none, _, _, _, _, _, _ => .quiet fun _ => rfl
  | some t, _, _, hi, hp, _, hq => .inBlock (begins_exec t hi hp (hq t rfl))
      fun _ hs => hs.block

theorem begins_execHandlers (e : Ref) (className : String) : ∀ (ts : List Typed.Handler)
    {held : List Ref} [Held f held] [Held e held]
    (hi : Allowed P f.decl .stmt (Typed.handlersInner ts))
    (hp : Allowed P f.decl .expr (Typed.handlersParts ts)) {levels : List (Set String)},
      SitedHandlers Q f levels ts →
        RunWith.Begins Q (Scopes.At levels)
          (Journey.execHandlers hc f e className ts hi hp :
            (execHandlers env c f e className ts).Journey P held)
  | [], _, _, _, _, _, _, _ => .quiet fun _ => rfl
  | .mk _ _ body :: rest, _, _, _, hi, hp, _, hq => .ite
      (fun _ => .inBlock
        (begins_execAll body hi.left hp.left (List.cons_ne_nil _ _) (hq.head e))
        fun _ hs => hs.cons _)
      fun _ => begins_execHandlers e className rest hi.right hp.right hq.tail

theorem begins_execCleanup : ∀ (b : Option (List Stmt)) {held : List Ref} [Held f held]
    (hi : Allowed P f.decl .stmt (Typed.cleanupInner b))
    (hp : Allowed P f.decl .expr (Typed.cleanupParts b)) {levels : List (Set String)},
      (∀ ts, b = some ts → SitedAll Q f (∅ :: levels) ts) →
        RunWith.Begins Q (Scopes.At levels)
          (Journey.execCleanup hc f b hi hp : (execCleanup env c f b).Journey P held)
  | none, _, _, _, _, _, _ => .quiet fun _ => rfl
  | some ts, _, _, hi, hp, _, hq =>
      .inBlock (begins_execAll ts hi hp (List.cons_ne_nil _ _) (hq ts rfl))
        fun _ hs => hs.block

end

end

end Run

end Covenant
