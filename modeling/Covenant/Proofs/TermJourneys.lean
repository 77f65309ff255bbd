import Covenant.Proofs.CallSites
import Covenant.Proofs.RunJourneys

/-!
# What terms come through

Evaluation has a journey, and so has the execution of statements, which is put
together as they are. Every expression and every statement begins in a frame, and
what goes on behind a call goes on behind the frame of the caller. They may begin
where all of their parts have a place.
-/

namespace Covenant

open HasRefs (refs)
open Typed (Expr Stmt)

/-! ## Places -/

/-- Whether all of a list can begin in frames of a declaration. -/
def Allowed {τ : Type} (P : DeclId → Task → Prop) (decl : DeclId) (kind : τ → Task)
    (l : List τ) : Prop :=
  ∀ a ∈ l, P decl (kind a)

namespace Allowed

variable {τ : Type} {P : DeclId → Task → Prop} {decl : DeclId} {kind : τ → Task} {a : τ}
  {l l' : List τ}

theorem head (h : Allowed P decl kind (a :: l)) : P decl (kind a) := h a List.mem_cons_self

theorem tail (h : Allowed P decl kind (a :: l)) : Allowed P decl kind l :=
  fun b hb => h b (List.mem_cons_of_mem _ hb)

theorem left (h : Allowed P decl kind (l ++ l')) : Allowed P decl kind l :=
  (List.forall_mem_append.mp h).1

theorem mono (h : Allowed P decl kind l) (hsub : l' ⊆ l) : Allowed P decl kind l' :=
  fun a ha => h a (hsub ha)

theorem right (h : Allowed P decl kind (l ++ l')) : Allowed P decl kind l' :=
  (List.forall_mem_append.mp h).2

end Allowed

/-- What goes on behind calls. -/
structure Calls.Journey (P : DeclId → Task → Prop) (c : Calls) where
  invoke : ∀ id this args, (c.invoke id this args).Journey P (refs this ++ refs args)
  recheck : ∀ caller site this args,
    (c.recheck caller site this args).Journey P (refs this ++ refs args)

namespace Run

variable {P : DeclId → Task → Prop} {env : Env} {c : Calls}

section

variable {held : List Ref} (hc : c.Journey P) (this : Option Ref) (args : List Value)
  [hthis : Held this held] [hargs : Held args held]

def Journey.invoke (id : DeclId) : (c.invoke id this args).Journey P held :=
  .weaken (hc.invoke id this args) (List.append_subset.mpr ⟨hthis.sub, hargs.sub⟩)

omit this args hthis hargs in
/-- On arguments that have just been evaluated. -/
def Journey.invokeOn (this : Ref) [Held this held] (vs : List Value) (id : DeclId) :
    (c.invoke id (some this) vs).Journey P (refs vs ++ held) :=
  Journey.invoke hc (some this) vs id

def Journey.recheck (caller : DeclId) (site : SiteId) :
    (c.recheck caller site this args).Journey P held :=
  .weaken (hc.recheck caller site this args) (List.append_subset.mpr ⟨hthis.sub, hargs.sub⟩)

/-! ## Expressions -/

omit this args hthis hargs in
def Journey.checkedCall {x : Run Value} {check : Run Unit} (hx : x.Journey P held)
    (hcheck : check.Journey P held) :
    (do
      match ← liftM x.run with
      | .ok v =>
        check
        return v
      | .error (.throw e) =>
        check
        stop (.throw e)
      | .error u => stop u : Run Value).Journey P held :=
  .watch hx (fun _ => .bind (.weaken hcheck (List.subset_append_right ..)) fun _ => .calm)
    (fun _ => .bind (.weaken hcheck (List.subset_append_right ..)) fun _ => .calm)
    fun u hu _ => by cases u <;> first | rfl | cases hu

omit this hthis in
def Journey.callMethod (caller : DeclId) (site : SiteId) (method : DeclId) :
    ∀ (this : Option Ref) [Held this held],
      (callMethod env c caller site method this args).Journey P held
  | none, _ => .ofEq (fun _ => by rfl)
      (Journey.checkedCall (Journey.invoke hc none args method)
        (Journey.recheck hc none args caller site))
  | some r, _ => .ofEq (fun _ => by rfl)
      (Run.Journey.bind (x := classOf r) .calm fun className => Journey.checkedCall
        (Journey.invoke hc (some r) args (env.dispatch className method))
        (Journey.recheck hc (some r) args caller site))

omit this hthis in
def Journey.construct (caller : DeclId) (site : SiteId) (className : String) (ctor : DeclId) :
    (construct env c caller site className ctor args).Journey P held :=
  .bind .brief fun r => .bind (Journey.invoke hc (some r) args ctor) fun _ =>
    .bind (Journey.recheck hc (some r) args caller site) fun _ => .calm

end

section

variable (hc : c.Journey P) (f : Frame)

mutual

def Journey.eval : ∀ (e : Expr) {held : List Ref} [Held f held],
    Allowed P f.decl .expr e.parts → (eval env c f e).Journey P held
  | .int .., _, _, h | .bool .., _, _, h | .null .., _, _, h | .result .., _, _, h =>
      .starting f h.head (.yields _)
  | .old .., _, _, h | .spread .., _, _, h => .starting f h.head (.stops _)
  | .this .., _, _, h => .starting f h.head (.calm (h := by
      rw [Run.eval]
      cases hr : f.this with
      | none => exact .defect
      | some r => exact .pure (h := ⟨(Held.of_eq_some hr).sub⟩)))
  | .var _ _ name, _, _, h => .starting f h.head (.calm (h := by
      rw [Run.eval]
      cases hv : f.scopes.get? name with
      | none => exact .defect
      | some v => exact .pure (h := .of_eq_some hv)))
  | .param _ _ i _, _, _, h => .starting f h.head (.calm (h := by
      rw [Run.eval]
      cases hv : f.args[i]? with
      | none => exact .defect
      | some v => exact .pure (h := .of_eq_some hv)))
  | .slot _ _ n, _, _, h => .starting f h.head (.calm (h := by
      rw [Run.eval]
      cases hv : f.slots.get? n with
      | none => exact .defect
      | some v => exact .pure (h := .of_eq_some hv)))
  | .staticField _ _ className name, _, _, h => .starting f h.head
      (.calm (h := (.getStatic : (getStatic env className name).Calm _)))
  | .field _ _ o _, _, _, h => .starting f h.head (.bind (Journey.eval o h.tail) fun _ =>
      .bind (.under f .brief) fun _ => .calm)
  | .length _ a, _, _, h => .starting f h.head (.bind (Journey.eval a h.tail) fun _ =>
      .bind (.under f .brief) fun _ => .calm)
  | .index _ _ a i, _, _, h => .starting f h.head (.bind (Journey.eval a h.tail.left) fun _ =>
      .bind (.under f .brief) fun _ => .bind (Journey.eval i h.tail.right) fun _ =>
        .bind .calm fun _ => .under f .brief)
  | .binary _ .and l r, _, _, h => .starting f h.head (.bind (Journey.eval l h.tail.left) fun _ =>
      .bind .calm fun
        | true => .bind (Journey.eval r h.tail.right) fun _ => .bind .calm fun _ => .calm
        | false => .yields _)
  | .binary _ .or l r, _, _, h => .starting f h.head (.bind (Journey.eval l h.tail.left) fun _ =>
      .bind .calm fun
        | true => .yields _
        | false => .bind (Journey.eval r h.tail.right) fun _ => .bind .calm fun _ => .calm)
  | .binary _ .add l r, _, _, h | .binary _ .sub l r, _, _, h | .binary _ .mul l r, _, _, h
  | .binary _ .div l r, _, _, h | .binary _ .mod l r, _, _, h | .binary _ .eq l r, _, _, h
  | .binary _ .neq l r, _, _, h | .binary _ .lt l r, _, _, h | .binary _ .gt l r, _, _, h
  | .binary _ .ltEq l r, _, _, h | .binary _ .gtEq l r, _, _, h =>
      .starting f h.head (.bind (Journey.eval l h.tail.left) fun _ =>
        .bind (Journey.eval r h.tail.right) fun _ => .under f .brief)
  | .unary _ _ e, _, _, h => .starting f h.head (.bind (Journey.eval e h.tail) fun _ => .calm)
  | .call _ _ site receiver m _ args, _, _, h => .starting f h.head
      (.bind (Journey.evalReceiver receiver h.tail.left) fun this =>
        .bind (Journey.evalAll args h.tail.right) fun vs =>
          .under f (Journey.callMethod hc vs f.decl site m this))
  | .new _ site className ctor args, _, _, h => .starting f h.head
      (.bind (Journey.evalAll args h.tail) fun vs =>
        .under f (Journey.construct hc vs f.decl site className ctor))
  | .newArray _ _ len, _, _, h => .starting f h.head (.bind (Journey.eval len h.tail) fun _ =>
      .bind .calm fun _ => .bind (.under f .brief) fun _ => .calm)

def Journey.evalReceiver : ∀ (e : Option Expr) {held : List Ref} [Held f held],
    Allowed P f.decl .expr (Expr.partsOpt e) → (evalReceiver env c f e).Journey P held
  | none, _, _, _ => .yields _
  | some e, _, _, h => .bind (Journey.eval e h) fun _ => .bind (.under f .brief) fun _ => .calm

def Journey.evalAll : ∀ (es : List Expr) {held : List Ref} [Held f held],
    Allowed P f.decl .expr (Expr.partsAll es) → (evalAll env c f es).Journey P held
  | [], _, _, _ => .yields _
  | e :: es, _, _, h => .bind (Journey.eval e h.left) fun _ =>
      .bind (Journey.evalAll es h.right) fun _ => .calm

end

/-! ## Statements -/

def Journey.evalIn (e : Expr) {held : List Ref} [Held f held]
    (h : Allowed P f.decl .expr e.parts) : (inScope f (Run.eval env c · e)).Journey P held :=
  RunWith.Journey.inScope fun scopes => .eval hc { f with scopes } e h

def Journey.evalOr (absent : Value) : ∀ (e : Option Expr) {held : List Ref} [Held f held]
    [Held absent held], Allowed P f.decl .expr (Expr.partsOpt e) →
      (evalOr env c f absent e).Journey P held
  | none, _, _, _, _ => .yields _
  | some e, _, _, _, h => Journey.evalIn hc f e h

def Journey.evalBool (e : Expr) {held : List Ref} [Held f held]
    (h : Allowed P f.decl .expr e.parts) :
    (Run.inScope f (Run.evalBool env c · e)).Journey P held :=
  RunWith.Journey.inScope fun scopes => .bind (.eval hc { f with scopes } e h) fun _ => .calm

def Journey.evalInt (e : Expr) {held : List Ref} [Held f held]
    (h : Allowed P f.decl .expr e.parts) :
    (Run.inScope f (Run.evalInt env c · e)).Journey P held :=
  RunWith.Journey.inScope fun scopes => .bind (.eval hc { f with scopes } e h) fun _ => .calm

def Journey.evalObject (e : Expr) {held : List Ref} [Held f held]
    (h : Allowed P f.decl .expr e.parts) :
    (Run.inScope f (Run.evalObject env c · e)).Journey P held :=
  RunWith.Journey.inScope fun scopes => .bind (.eval hc { f with scopes } e h) fun _ =>
    .under { f with scopes } .brief

mutual

def Journey.exec : ∀ (s : Stmt) {held : List Ref} [Held f held],
    Allowed P f.decl .stmt s.inner → Allowed P f.decl .expr s.parts →
      (exec env c f s).Journey P held
  | .declare _ type name value, _, _, hs, h => .around f hs.head
      (.bind (Journey.evalOr hc f (Value.default type) value h) fun v =>
        .bind (.change fun s => List.Subset.trans (HasRefs.refs_declare s name v) (by grind))
          fun _ => .yields _)
  | .setVar _ name value, _, _, hs, h => .around f hs.head
      (.bind (Journey.evalIn hc f value h) fun v => .bind (.assign name v) fun _ => .yields _)
  | .setField _ o _ value, _, _, hs, h => .around f hs.head
      (.bind (Journey.evalObject hc f o h.left) fun _ =>
        .bind (Journey.evalIn hc f value h.right) fun _ =>
          .bind (.under f (.keep .brief)) fun _ => .yields _)
  | .setStatic _ _ _ value, _, _, hs, h => .around f hs.head
      (.bind (Journey.evalIn hc f value h) fun _ =>
        .bind (.under f (.keep .brief)) fun _ => .yields _)
  | .setIndex _ a i value, _, _, hs, h => .around f hs.head
      (.bind (Journey.evalObject hc f a h.left) fun _ =>
        .bind (Journey.evalInt hc f i h.right.left) fun _ =>
          .bind (Journey.evalIn hc f value h.right.right) fun _ =>
            .bind (.under f (.keep .brief)) fun _ => .yields _)
  | .expr _ value, _, _, hs, h => .around f hs.head
      (.bind (Journey.evalIn hc f value h) fun _ => .yields _)
  | .branch _ condition a b, _, _, hs, h => .around f hs.head
      (.bind (Journey.evalBool hc f condition h.left) fun
        | true => .inBlock f _ (Journey.exec a hs.tail.left h.right.left)
        | false => Journey.execElse b hs.tail.right h.right.right)
  | .loop _ condition body, _, _, hs, h => .around f hs.head
      (.iterate (Journey.evalBool hc f condition h.left)
        (.inBlock f _ (Journey.exec body hs.tail h.right)) c.rounds)
  | .ret _ value, _, _, hs, h => .around f hs.head
      (.bind (Journey.evalOr hc f .void value h) fun v => .yields (Flow.ret v _))
  | .throw _ value, _, _, hs, h => .around f hs.head
      (.bind (Journey.evalObject hc f value h) fun _ => .keep .calm)
  | .superCall .., _, _, hs, _ => .around f hs.head (.yields _)
  | .attempt _ body handlers cleanup, _, _, hs, h => .around f hs.head
      (.withCleanup
        (.catching (.inBlock f _ (Journey.execAll body hs.tail.left h.left)) fun e =>
          .bind (.keep .calm) fun className =>
            Journey.execHandlers e className handlers hs.tail.right.left h.right.left)
        (Journey.execCleanup cleanup hs.tail.right.right h.right.right))
  | .block _ body, _, _, hs, h => .around f hs.head
      (.inBlock f _ (Journey.execAll body hs.tail h))

def Journey.execAll : ∀ (ss : List Stmt) {held : List Ref} [Held f held],
    Allowed P f.decl .stmt (Typed.stmtsInner ss) → Allowed P f.decl .expr (Typed.stmtsParts ss) →
      (execAll env c f ss).Journey P held
  | [], _, _, _, _ => .yields _
  | s :: rest, _, _, hs, h => .bind (Journey.exec s hs.left h.left) fun
      | .normal => Journey.execAll rest hs.right h.right
      | .ret v span => .yields (Flow.ret v span)

def Journey.execElse : ∀ (s : Option Stmt) {held : List Ref} [Held f held],
    Allowed P f.decl .stmt (Typed.elseInner s) → Allowed P f.decl .expr (Typed.elseParts s) →
      (execElse env c f s).Journey P held
  | none, _, _, _, _ => .yields _
  | some s, _, _, hs, h => .inBlock f _ (Journey.exec s hs h)

def Journey.execHandlers (e : Ref) (className : String) :
    ∀ (hs : List Typed.Handler) {held : List Ref} [Held f held] [Held e held],
      Allowed P f.decl .stmt (Typed.handlersInner hs) →
        Allowed P f.decl .expr (Typed.handlersParts hs) →
          (execHandlers env c f e className hs).Journey P held
  | [], _, _, _, _, _ => .keep (.stops _)
  | .mk _ _ body :: rest, _, _, _, hs, h =>
      .ite (.inBlock f _ (Journey.execAll body hs.left h.left))
        (Journey.execHandlers e className rest hs.right h.right)

def Journey.execCleanup : ∀ (b : Option (List Stmt)) {held : List Ref} [Held f held],
    Allowed P f.decl .stmt (Typed.cleanupInner b) → Allowed P f.decl .expr (Typed.cleanupParts b) →
      (execCleanup env c f b).Journey P held
  | none, _, _, _, _ => .yields _
  | some body, _, _, hs, h => .inBlock f _ (Journey.execAll body hs h)

end

end

end Run

end Covenant
