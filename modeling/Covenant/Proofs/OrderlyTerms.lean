import Covenant.Proofs.ObjectMakers
import Covenant.Proofs.OrderlyJourneys

/-!
# Orderly terms

An expression or a statement begins in its frame, and what goes on from then on is
orderly if its parts may begin there and if the calls in it are orderly. No call goes
to a constructor, since a constructor is not called as methods are: it runs on an
object only when that has just been made, or when another constructor of the object
hands it on.
-/

namespace Covenant

open HasRefs (refs)
open Typed (Expr Stmt)

namespace Allowed

variable {P : DeclId → Task → Prop} {decl : DeclId}

theorem inside {τ : Type} {kind : τ → Task} {l : List τ} (h : Allowed P decl kind l) :
    Allowed P decl kind l.tail :=
  h.mono (List.tail_sublist l).subset

theorem expr {e : Expr} (h : Allowed P decl .expr e.parts) : P decl (.expr e) := by
  cases e <;> exact h.head

theorem stmt {s : Stmt} (h : Allowed P decl .stmt s.inner) : P decl (.stmt s) := by
  cases s <;> exact h.head

end Allowed

/-- No constructor is invoked on one of the first `n` objects. -/
def Env.Admits (env : Env) (n : Nat) (id : DeclId) (this : Option Ref) : Prop :=
  ∀ r, this = some r → r < n → ¬ env.Constructs id

/-- What goes on behind calls is orderly. -/
structure Calls.Journey.Orderly {P : DeclId → Task → Prop} {c : Calls} (env : Env)
    (K : Option Ref → DeclId → Task → Prop) (n : Nat) (hc : c.Journey P) : Prop where
  invoke : ∀ id this args, env.Admits n id this → Run.Orderly K n (hc.invoke id this args)
  recheck : ∀ caller site this args, Run.Orderly K n (hc.recheck caller site this args)

variable {P : DeclId → Task → Prop} {K : Option Ref → DeclId → Task → Prop} {n : Nat} {env : Env}
  {c : Calls} {hc : c.Journey P} {held : List Ref}

/-- An expression begins where it may, and so do its parts. -/
theorem Run.Orderly.part {f : Frame} {e : Expr} {x : Run Value} {d : x.Journey P held}
    (h : Allowed (K f.this) f.decl .expr e.parts.tail → Run.Opens K n f (.expr e) d)
    (hk : Allowed (K f.this) f.decl .expr e.parts) : Run.Orderly K n d :=
  (h hk.inside).orderly hk.expr

/-- A statement begins where it may, and so does all that is in it. -/
theorem RunWith.Orderly.inner {f : Frame} {t : Stmt} {x : RunWith Scopes Flow}
    {d : x.Journey P held}
    (h : Allowed (K f.this) f.decl .stmt t.inner.tail →
      Allowed (K f.this) f.decl .expr t.parts → RunWith.Opens K n f (.stmt t) d)
    (hk : Allowed (K f.this) f.decl .stmt t.inner)
    (hq : Allowed (K f.this) f.decl .expr t.parts) : RunWith.Orderly K n d :=
  (h hk.inside hq).orderly hk.stmt

namespace Run

theorem orderly_checkedCall {x : Run Value} {check : Run Unit} {d : x.Journey P held}
    {e : check.Journey P held} (hd : Run.Orderly K n d) (he : Run.Orderly K n e) :
    Run.Orderly K n (Journey.checkedCall d e) :=
  .watch hd (fun _ => .last (.weaken he) fun _ _ => rfl)
    fun _ => .last (.weaken he) fun _ _ => rfl

section

variable (ho : hc.Orderly env K n)

include ho

section

variable (this : Option Ref) (args : List Value) [Held this held] [Held args held]

theorem orderly_invoke {id : DeclId} (h : env.Admits n id this) :
    Run.Orderly K n (Journey.invoke hc this args id : (c.invoke id this args).Journey P held) :=
  .weaken (ho.invoke id this args h)

theorem orderly_recheck (caller : DeclId) (site : SiteId) :
    Run.Orderly K n
      (Journey.recheck hc this args caller site : (c.recheck caller site this args).Journey P held) :=
  .weaken (ho.recheck caller site this args)

omit [Held this held] in
/-- The object that is made was not there before. -/
theorem orderly_construct (caller : DeclId) (site : SiteId) (className : String) (ctor : DeclId) :
    Run.Orderly K n (Journey.construct hc args caller site className ctor :
      (construct env c caller site className ctor args).Journey P held) :=
  .bind .brief fun r ⟨μ, _, hμ, hr⟩ => by
    have hnew : env.Admits n ctor (some r) := by
      intro s hs hlt
      obtain rfl := Option.some.inj hs
      cases hr
      exact absurd hlt (Nat.not_lt.mpr hμ)
    exact .bind (orderly_invoke ho (some r) args hnew) fun _ _ =>
      .last (orderly_recheck ho (some r) args caller site) fun _ _ => rfl

variable (hm : env.CallsMethods P)

include hm

omit this [Held this held] in
theorem orderly_callMethod (caller : DeclId) (site : SiteId) {method : DeclId}
    (h : ¬ env.Constructs method) : ∀ (this : Option Ref) [Held this held],
      Run.Orderly K n (Journey.callMethod hc args caller site method this :
        (callMethod env c caller site method this args).Journey P held)
  | none, _ => .ofEq (h := fun _ => rfl) (orderly_checkedCall (orderly_invoke ho none args nofun)
      (orderly_recheck ho none args _ _))
  | some r, _ => .ofEq (h := fun _ => rfl)
      (Run.Orderly.bind (x := classOf r) (.calm fun _ => rfl) fun className _ => orderly_checkedCall
        (orderly_invoke ho (some r) args fun _ _ _ => hm.dispatched className h)
        (orderly_recheck ho (some r) args _ _))

end

/-! ## Expressions -/

variable (hm : env.CallsMethods P) (f : Frame)

include hm

mutual

theorem opens_eval : ∀ (e : Expr) {held : List Ref} [Held f held]
    (h : Allowed P f.decl .expr e.parts), Allowed (K f.this) f.decl .expr e.parts.tail →
      Run.Opens K n f (.expr e) (Journey.eval hc f e h : (eval env c f e).Journey P held)
  | .int .., _, _, _, _ | .bool .., _, _, _, _ | .null .., _, _, _, _ | .result .., _, _, _, _ =>
      .starting (.calm (h := .pure) fun _ => rfl)
  | .old .., _, _, _, _ | .spread .., _, _, _, _ =>
      .starting (.calm (h := .defect nofun) fun _ => rfl)
  | .this .., _, _, _, _ => .starting (.calm (h := by
      rw [Run.eval]
      cases f.this <;> first | exact .pure | exact .defect nofun) fun _ => rfl)
  | .var _ _ name, _, _, _, _ => .starting (.calm (h := by
      rw [Run.eval]
      cases f.scopes.get? name <;> first | exact .pure | exact .defect nofun) fun _ => rfl)
  | .param _ _ i _, _, _, _, _ => .starting (.calm (h := by
      rw [Run.eval]
      cases f.args[i]? <;> first | exact .pure | exact .defect nofun) fun _ => rfl)
  | .slot _ _ k, _, _, _, _ => .starting (.calm (h := by
      rw [Run.eval]
      cases f.slots.get? k <;> first | exact .pure | exact .defect nofun) fun _ => rfl)
  | .staticField _ _ className name, _, _, _, _ => .starting
      (.calm (h := (.getStatic : (getStatic env className name).Sure)) fun _ => rfl)
  | .field _ _ o _, _, _, h, hk => .starting
      (.bind (.part (opens_eval o h.tail) hk) fun _ _ => .last (.under .brief) fun _ _ => rfl)
  | .length _ a, _, _, h, hk => .starting
      (.bind (.part (opens_eval a h.tail) hk) fun _ _ => .last (.under .brief) fun _ _ => rfl)
  | .index _ _ a i, _, _, h, hk => .starting
      (.bind (.part (opens_eval a h.tail.left) hk.left) fun _ _ => .bind (.under .brief) fun _ _ =>
        .bind (.part (opens_eval i h.tail.right) hk.right) fun _ _ =>
          .bind (.calm fun _ => rfl) fun _ _ => .under .brief)
  | .binary _ .and l r, _, _, h, hk => .starting
      (.bind (.part (opens_eval l h.tail.left) hk.left) fun _ _ => .bind (.calm fun _ => rfl) fun
        | true, _ => .bind (.part (opens_eval r h.tail.right) hk.right) fun _ _ =>
            .last (.calm fun _ => rfl) fun _ _ => rfl
        | false, _ => .calm (h := .pure) fun _ => rfl)
  | .binary _ .or l r, _, _, h, hk => .starting
      (.bind (.part (opens_eval l h.tail.left) hk.left) fun _ _ => .bind (.calm fun _ => rfl) fun
        | true, _ => .calm (h := .pure) fun _ => rfl
        | false, _ => .bind (.part (opens_eval r h.tail.right) hk.right) fun _ _ =>
            .last (.calm fun _ => rfl) fun _ _ => rfl)
  | .binary _ .add l r, _, _, h, hk | .binary _ .sub l r, _, _, h, hk
  | .binary _ .mul l r, _, _, h, hk | .binary _ .div l r, _, _, h, hk
  | .binary _ .mod l r, _, _, h, hk | .binary _ .eq l r, _, _, h, hk
  | .binary _ .neq l r, _, _, h, hk | .binary _ .lt l r, _, _, h, hk
  | .binary _ .gt l r, _, _, h, hk | .binary _ .ltEq l r, _, _, h, hk
  | .binary _ .gtEq l r, _, _, h, hk => .starting
      (.bind (.part (opens_eval l h.tail.left) hk.left) fun _ _ =>
        .bind (.part (opens_eval r h.tail.right) hk.right) fun _ _ => .under .brief)
  | .unary _ _ e, _, _, h, hk => .starting (.last (.part (opens_eval e h.tail) hk) fun _ _ => rfl)
  | .call _ _ site receiver _ _ args, _, _, h, hk => .starting
      (.bind (orderly_evalReceiver receiver h.tail.left hk.left) fun this _ =>
        .bind (orderly_evalAll args h.tail.right hk.right) fun vs _ =>
          .under (orderly_callMethod ho vs hm f.decl site (hm.called h.head) this))
  | .new _ site className ctor args, _, _, h, hk => .starting
      (.bind (orderly_evalAll args h.tail hk) fun vs _ =>
        .under (orderly_construct ho vs f.decl site className ctor))
  | .newArray _ _ len, _, _, h, hk => .starting
      (.bind (.part (opens_eval len h.tail) hk) fun _ _ => .bind (.calm fun _ => rfl) fun _ _ =>
        .last (.under .brief) fun _ _ => rfl)

theorem orderly_evalReceiver : ∀ (e : Option Expr) {held : List Ref} [Held f held]
    (h : Allowed P f.decl .expr (Expr.partsOpt e)),
      Allowed (K f.this) f.decl .expr (Expr.partsOpt e) →
        Run.Orderly K n (Journey.evalReceiver hc f e h : (evalReceiver env c f e).Journey P held)
  | none, _, _, _, _ => .calm (h := .pure) fun _ => rfl
  | some e, _, _, h, hk => .bind (.part (opens_eval e h) hk) fun _ _ =>
      .last (.under .brief) fun _ _ => rfl

theorem orderly_evalAll : ∀ (es : List Expr) {held : List Ref} [Held f held]
    (h : Allowed P f.decl .expr (Expr.partsAll es)),
      Allowed (K f.this) f.decl .expr (Expr.partsAll es) →
        Run.Orderly K n (Journey.evalAll hc f es h : (evalAll env c f es).Journey P held)
  | [], _, _, _, _ => .calm (h := .pure) fun _ => rfl
  | e :: es, _, _, h, hk => .bind (.part (opens_eval e h.left) hk.left) fun _ _ =>
      .last (orderly_evalAll es h.right hk.right) fun _ _ => rfl

end

end

/-! ## Statements -/

section

variable (ho : hc.Orderly env K n) (hm : env.CallsMethods P) {f : Frame}

include ho hm

section

variable {e : Expr} [Held f held] (h : Allowed P f.decl .expr e.parts)
  (hk : Allowed (K f.this) f.decl .expr e.parts)

include hk

theorem orderly_evalIn : RunWith.Orderly K n
    (Journey.evalIn hc f e h : (inScope f (Run.eval env c · e)).Journey P held) :=
  .inScope fun scopes => .part (opens_eval ho hm { f with scopes } e h) hk

theorem orderly_evalBool : RunWith.Orderly K n
    (Journey.evalBool hc f e h : (inScope f (Run.evalBool env c · e)).Journey P held) :=
  .inScope fun scopes => .last (.part (opens_eval ho hm { f with scopes } e h) hk) fun _ _ => rfl

theorem orderly_evalInt : RunWith.Orderly K n
    (Journey.evalInt hc f e h : (inScope f (Run.evalInt env c · e)).Journey P held) :=
  .inScope fun scopes => .last (.part (opens_eval ho hm { f with scopes } e h) hk) fun _ _ => rfl

theorem orderly_evalObject : RunWith.Orderly K n
    (Journey.evalObject hc f e h : (inScope f (Run.evalObject env c · e)).Journey P held) :=
  .inScope fun scopes => .bind (.part (opens_eval ho hm { f with scopes } e h) hk) fun _ _ =>
    .under .brief

end

theorem orderly_evalOr (absent : Value) [Held f held] [Held absent held] : ∀ {e : Option Expr}
    (h : Allowed P f.decl .expr (Expr.partsOpt e)),
      Allowed (K f.this) f.decl .expr (Expr.partsOpt e) → RunWith.Orderly K n
        (Journey.evalOr hc f absent e h : (evalOr env c f absent e).Journey P held)
  | none, _, _ => .yields
  | some _, h, hk => orderly_evalIn ho hm h hk

end

section

variable (ho : hc.Orderly env K n) (hm : env.CallsMethods P) (f : Frame)

include ho hm

mutual

theorem opens_exec : ∀ (t : Stmt) {held : List Ref} [Held f held]
    (hi : Allowed P f.decl .stmt t.inner) (hp : Allowed P f.decl .expr t.parts),
      Allowed (K f.this) f.decl .stmt t.inner.tail → Allowed (K f.this) f.decl .expr t.parts →
        RunWith.Opens K n f (.stmt t)
          (Journey.exec hc f t hi hp : (exec env c f t).Journey P held)
  | .declare _ type _ _, _, _, _, hp, _, hq => .around
      (.bind (orderly_evalOr ho hm (Value.default type) hp hq) fun _ =>
        .bind .change fun _ => .yields)
  | .setVar .., _, _, _, hp, _, hq => .around
      (.bind (orderly_evalIn ho hm hp hq) fun _ => .bind .assign fun _ => .yields)
  | .setField .., _, _, _, hp, _, hq => .around
      (.bind (orderly_evalObject ho hm hp.left hq.left) fun _ =>
        .bind (orderly_evalIn ho hm hp.right hq.right) fun _ =>
          .bind (.under (.keep .brief)) fun _ => .yields)
  | .setStatic .., _, _, _, hp, _, hq => .around
      (.bind (orderly_evalIn ho hm hp hq) fun _ => .bind (.under (.keep .brief)) fun _ => .yields)
  | .setIndex .., _, _, _, hp, _, hq => .around
      (.bind (orderly_evalObject ho hm hp.left hq.left) fun _ =>
        .bind (orderly_evalInt ho hm hp.right.left hq.right.left) fun _ =>
          .bind (orderly_evalIn ho hm hp.right.right hq.right.right) fun _ =>
            .bind (.under (.keep .brief)) fun _ => .yields)
  | .expr .., _, _, _, hp, _, hq => .around
      (.bind (orderly_evalIn ho hm hp hq) fun _ => .yields)
  | .branch _ _ a b, _, _, hi, hp, hk, hq => .around
      (.bind (orderly_evalBool ho hm hp.left hq.left) fun
        | true => .inBlock (.inner (opens_exec a hi.tail.left hp.right.left) hk.left hq.right.left)
        | false => orderly_execElse b hi.tail.right hp.right.right hk.right hq.right.right)
  | .loop _ _ body, _, _, hi, hp, hk, hq => .around
      (.iterate (orderly_evalBool ho hm hp.left hq.left)
        (.inBlock (.inner (opens_exec body hi.tail hp.right) hk hq.right)) _)
  | .ret .., _, _, _, hp, _, hq => .around
      (.bind (orderly_evalOr ho hm .void hp hq) fun _ => .yields)
  | .throw .., _, _, _, hp, _, hq => .around
      (.bind (orderly_evalObject ho hm hp hq) fun _ => .keep (.calm fun _ => rfl))
  | .superCall .., _, _, _, _, _, _ => .around .yields
  | .attempt _ body handlers cleanup, _, _, hi, hp, hk, hq => .around
      (.withCleanup
        (.catching
          (.inBlock (orderly_execAll body hi.tail.left hp.left hk.left hq.left))
          fun e => .bind (.keep (.calm fun _ => rfl)) fun className =>
            orderly_execHandlers e className handlers hi.tail.right.left hp.right.left
              hk.right.left hq.right.left)
        (orderly_execCleanup cleanup hi.tail.right.right hp.right.right hk.right.right
          hq.right.right))
  | .block _ body, _, _, hi, hp, hk, hq => .around
      (.inBlock (orderly_execAll body hi.tail hp hk hq))

theorem orderly_execAll : ∀ (ts : List Stmt) {held : List Ref} [Held f held]
    (hi : Allowed P f.decl .stmt (Typed.stmtsInner ts))
    (hp : Allowed P f.decl .expr (Typed.stmtsParts ts)),
      Allowed (K f.this) f.decl .stmt (Typed.stmtsInner ts) →
        Allowed (K f.this) f.decl .expr (Typed.stmtsParts ts) →
          RunWith.Orderly K n
            (Journey.execAll hc f ts hi hp : (execAll env c f ts).Journey P held)
  | [], _, _, _, _, _, _ => .yields
  | t :: rest, _, _, hi, hp, hk, hq =>
      .bind (.inner (opens_exec t hi.left hp.left) hk.left hq.left) fun
        | .normal => orderly_execAll rest hi.right hp.right hk.right hq.right
        | .ret _ _ => .yields

theorem orderly_execElse : ∀ (b : Option Stmt) {held : List Ref} [Held f held]
    (hi : Allowed P f.decl .stmt (Typed.elseInner b))
    (hp : Allowed P f.decl .expr (Typed.elseParts b)),
      Allowed (K f.this) f.decl .stmt (Typed.elseInner b) →
        Allowed (K f.this) f.decl .expr (Typed.elseParts b) →
          RunWith.Orderly K n
            (Journey.execElse hc f b hi hp : (execElse env c f b).Journey P held)
  | none, _, _, _, _, _, _ => .yields
  | some t, _, _, hi, hp, hk, hq => .inBlock (.inner (opens_exec t hi hp) hk hq)

theorem orderly_execHandlers (e : Ref) (className : String) : ∀ (ts : List Typed.Handler)
    {held : List Ref} [Held f held] [Held e held]
    (hi : Allowed P f.decl .stmt (Typed.handlersInner ts))
    (hp : Allowed P f.decl .expr (Typed.handlersParts ts)),
      Allowed (K f.this) f.decl .stmt (Typed.handlersInner ts) →
        Allowed (K f.this) f.decl .expr (Typed.handlersParts ts) →
          RunWith.Orderly K n (Journey.execHandlers hc f e className ts hi hp :
            (execHandlers env c f e className ts).Journey P held)
  | [], _, _, _, _, _, _, _ => .keep (.calm fun _ => rfl)
  | .mk _ _ body :: rest, _, _, _, hi, hp, hk, hq => .ite
      (fun _ => .inBlock (orderly_execAll body hi.left hp.left hk.left hq.left))
      fun _ => orderly_execHandlers e className rest hi.right hp.right hk.right hq.right

theorem orderly_execCleanup : ∀ (b : Option (List Stmt)) {held : List Ref} [Held f held]
    (hi : Allowed P f.decl .stmt (Typed.cleanupInner b))
    (hp : Allowed P f.decl .expr (Typed.cleanupParts b)),
      Allowed (K f.this) f.decl .stmt (Typed.cleanupInner b) →
        Allowed (K f.this) f.decl .expr (Typed.cleanupParts b) →
          RunWith.Orderly K n
            (Journey.execCleanup hc f b hi hp : (execCleanup env c f b).Journey P held)
  | none, _, _, _, _, _, _ => .yields
  | some ts, _, _, hi, hp, hk, hq => .inBlock (orderly_execAll ts hi hp hk hq)

end

end

end Run

end Covenant
