import Covenant.Proofs.Ends
import Covenant.Proofs.ElaboratedBodies
import Covenant.Proofs.OldTerms

/-!
# Refinement of runs

A computation refines another if the other has every result that it has, with the
same machine behind it. What runs above calls refines whatever its calls refine:
`eval` and `exec` do nothing with a call but go on from its result. So a run that
has a result keeps it if calls may go deeper and loops may go round more often,
which is `run_mono`.

The frames of the two sides may differ in the entry values that they hold, as
long as they agree on those that are read. No body reads any.
-/

namespace Covenant

variable {σ α β : Type}

namespace Typed

open Expr (slotNumbersAll)

mutual

/-- The numbers of the slots that a statement reads. -/
def Stmt.slotNumbers : Stmt → List Nat
  | .declare _ _ _ e | .ret _ e => Expr.slotNumbersOpt e
  | .setVar _ _ e | .setStatic _ _ _ e | .expr _ e | .throw _ e => e.slotNumbers
  | .setField _ o _ e => o.slotNumbers ++ e.slotNumbers
  | .setIndex _ a i e => a.slotNumbers ++ (i.slotNumbers ++ e.slotNumbers)
  | .branch _ c a b => c.slotNumbers ++ (a.slotNumbers ++ elseSlotNumbers b)
  | .loop _ c b => c.slotNumbers ++ b.slotNumbers
  | .superCall _ _ _ args => slotNumbersAll args
  | .attempt _ body handlers cleanup =>
    stmtsSlotNumbers body ++ (handlersSlotNumbers handlers ++ cleanupSlotNumbers cleanup)
  | .block _ body => stmtsSlotNumbers body

def elseSlotNumbers : Option Stmt → List Nat
  | none => []
  | some s => s.slotNumbers

def stmtsSlotNumbers : List Stmt → List Nat
  | [] => []
  | s :: rest => s.slotNumbers ++ stmtsSlotNumbers rest

def handlersSlotNumbers : List Handler → List Nat
  | [] => []
  | .mk _ _ body :: rest => stmtsSlotNumbers body ++ handlersSlotNumbers rest

def cleanupSlotNumbers : Option (List Stmt) → List Nat
  | none => []
  | some body => stmtsSlotNumbers body

end

end Typed

namespace Run

/-- Whether `y` has every result of `x`. -/
def Refines (x y : Run α) : Prop := ∀ ⦃μ o⦄, x.ends μ = some o → y.ends μ = some o

namespace Refines

variable {x y : Run α} {f g : α → Run β}

theorem refl (x : Run α) : Refines x x := fun _ _ h => h

theorem trans {z : Run α} (h : Refines x y) (h' : Refines y z) : Refines x z :=
  fun _ _ hx => h' (h hx)

theorem antisymm (h : x.Refines y) (h' : y.Refines x) : x = y := by
  refine ext_ends fun μ => ?_
  cases hx : x.ends μ with
  | some o => exact (h hx).symm
  | none =>
      cases hy : y.ends μ with
      | none => rfl
      | some o => exact absurd (hx.symm.trans (h' hy)) (by simp)

theorem exhausted (x : Run α) : Refines Run.exhausted x := fun _ _ h => absurd h (by simp)

theorem bind (hx : Refines x y) (hf : ∀ a, Refines (f a) (g a)) : Refines (x >>= f) (y >>= g) := by
  rintro μ ⟨r, μ'⟩ h
  rw [ends_bind_eq_some] at h ⊢
  rcases h with ⟨u, h, rfl⟩ | ⟨a, μ₁, h, h'⟩
  · exact Or.inl ⟨u, hx h, rfl⟩
  · exact Or.inr ⟨a, μ₁, hx h, hf a h'⟩

theorem ite {z w : Run α} {b : Bool} (h : Refines x z) (h' : Refines y w) :
    Refines (if b then x else y) (if b then z else w) := by
  cases b
  · exact h'
  · exact h

theorem lift (h : Refines x y) :
    Refines (liftM x.run : Run (Except Unwind α)) (liftM y.run : Run (Except Unwind α)) := by
  intro μ o hx
  rw [ends_lift, Option.map_eq_some_iff] at hx ⊢
  obtain ⟨r, hr, ho⟩ := hx
  exact ⟨r, h hr, ho⟩

theorem deeper (h : Refines x y) : Refines (deeper x) (deeper y) := by
  intro μ o hx
  rw [ends_deeper, Option.map_eq_some_iff] at hx ⊢
  obtain ⟨r, hr, ho⟩ := hx
  exact ⟨r, h hr, ho⟩

end Refines

end Run

namespace RunWith

open Run (keep observe inBlock inScope)

def Refines (x y : RunWith σ α) : Prop := ∀ ⦃s μ o⦄, x.ends s μ = some o → y.ends s μ = some o

namespace Refines

theorem refl (x : RunWith σ α) : Refines x x := fun _ _ _ h => h

/-- It is enough to look at what the first part can yield. -/
theorem bind_of_ok {x y : RunWith σ α} {f g : α → RunWith σ β} (hx : Refines x y)
    (hf : ∀ a s s' μ μ', x.ends s μ = some ((.ok a, s'), μ') → Refines (f a) (g a)) :
    Refines (x >>= f) (y >>= g) := by
  rintro s μ ⟨⟨r, s'⟩, μ'⟩ h
  rw [ends_bind_eq_some] at h ⊢
  rcases h with ⟨u, h, rfl⟩ | ⟨a, s₁, μ₁, h, h'⟩
  · exact Or.inl ⟨u, hx h, rfl⟩
  · exact Or.inr ⟨a, s₁, μ₁, hx h, hf a s s₁ μ μ₁ h h'⟩

theorem bind {x y : RunWith σ α} {f g : α → RunWith σ β} (hx : Refines x y)
    (hf : ∀ a, Refines (f a) (g a)) : Refines (x >>= f) (y >>= g) :=
  bind_of_ok hx fun a _ _ _ _ _ => hf a

theorem ite {x y z w : RunWith σ α} {b : Bool} (h : Refines x z) (h' : Refines y w) :
    Refines (if b then x else y) (if b then z else w) := by
  cases b
  · exact h'
  · exact h

theorem keep {x y : Run α} (h : x.Refines y) :
    Refines (keep x : RunWith σ α) (Run.keep y) := by
  intro s μ o hx
  rw [ends_keep, Option.map_eq_some_iff] at hx ⊢
  obtain ⟨r, hr, ho⟩ := hx
  exact ⟨r, h hr, ho⟩

theorem observe {x y : RunWith σ α} (h : Refines x y) : Refines (observe x) (Run.observe y) := by
  intro s μ o hx
  rw [ends_observe, Option.map_eq_some_iff] at hx ⊢
  obtain ⟨r, hr, ho⟩ := hx
  exact ⟨r, h hr, ho⟩

theorem inBlock {x y : RunWith Scopes α} (vars : Table String Value) (h : Refines x y) :
    Refines (inBlock vars x) (Run.inBlock vars y) := by
  intro s μ o hx
  rw [ends_inBlock, Option.map_eq_some_iff] at hx ⊢
  obtain ⟨r, hr, ho⟩ := hx
  exact ⟨r, h hr, ho⟩

theorem inScope {f g : Frame} {x y : Frame → Run α}
    (h : ∀ scopes, (x { f with scopes }).Refines (y { g with scopes })) :
    Refines (inScope f x) (Run.inScope g y) := by
  intro s μ o hx
  rw [ends_inScope, Option.map_eq_some_iff] at hx ⊢
  obtain ⟨r, hr, ho⟩ := hx
  exact ⟨r, h s hr, ho⟩

theorem withSlots {f : Frame} {x y : Frame → Run α}
    (h : ∀ slots, (x { f with slots }).Refines (y { f with slots })) :
    Refines (Run.withSlots f x) (Run.withSlots f y) :=
  bind (refl _) fun slots => keep (h slots)

theorem withState {x y : RunWith σ α} (h : Refines x y) (s : σ) :
    (Run.withState x s).Refines (Run.withState y s) := by
  intro μ o hx
  rw [Run.ends_withState, Option.map_eq_some_iff] at hx ⊢
  obtain ⟨r, hr, ho⟩ := hx
  exact ⟨r, h hr, ho⟩

end Refines

end RunWith

/-- Whether what `c` does behind a call `d` does too, and loops may go round at least as often. -/
structure Calls.Refines (c d : Calls) : Prop where
  invoke : ∀ id this args, (c.invoke id this args).Refines (d.invoke id this args)
  recheck : ∀ caller site this args,
    (c.recheck caller site this args).Refines (d.recheck caller site this args)
  rounds : c.rounds ≤ d.rounds

namespace Run

open Typed (Expr Stmt)

/-! ## Expressions -/

/-- Whether two collections of entry values agree on some numbers. -/
def AgreesOn (s t : Slots) (ns : List Nat) : Prop := ∀ n ∈ ns, t.get? n = s.get? n

theorem AgreesOn.left {s t : Slots} {ns ms : List Nat} (h : AgreesOn s t (ns ++ ms)) :
    AgreesOn s t ns := fun n hn => h n (List.mem_append_left _ hn)

theorem AgreesOn.right {s t : Slots} {ns ms : List Nat} (h : AgreesOn s t (ns ++ ms)) :
    AgreesOn s t ms := fun n hn => h n (List.mem_append_right _ hn)

theorem AgreesOn.nil (s t : Slots) : AgreesOn s t [] := fun _ hn => absurd hn List.not_mem_nil

theorem AgreesOn.refl (s : Slots) (ns : List Nat) : AgreesOn s s ns := fun _ _ => rfl

section

variable {env : Env} {c d : Calls}

theorem callMethod_refines (hc : c.Refines d) (caller : DeclId) (site : SiteId) (method : DeclId)
    (this : Option Ref) (args : List Value) :
    (callMethod env c caller site method this args).Refines
      (callMethod env d caller site method this args) := by
  have recheck := hc.recheck caller site this args
  simp only [callMethod]
  cases this with
  | none =>
      refine .bind (.refl _) fun target => .bind (hc.invoke target none args).lift fun r => ?_
      rcases r with (e | v | e) | v
      · exact recheck.bind fun _ => .refl _
      · exact .refl _
      · exact .refl _
      · exact recheck.bind fun _ => .refl _
  | some o =>
      refine .bind (.refl _) fun c => .bind (.refl _) fun target => ?_
      refine .bind (hc.invoke target (some o) args).lift fun r => ?_
      rcases r with (e | v | e) | v
      · exact recheck.bind fun _ => .refl _
      · exact .refl _
      · exact .refl _
      · exact recheck.bind fun _ => .refl _

theorem construct_refines (hc : c.Refines d) (caller : DeclId) (site : SiteId) (className : String) (ctor : DeclId)
    (args : List Value) :
    (construct env c caller site className ctor args).Refines
      (construct env d caller site className ctor args) :=
  .bind (.refl _) fun r => .bind (hc.invoke ctor (some r) args) fun _ =>
    .bind (hc.recheck caller site (some r) args) fun _ => .refl _

mutual

theorem eval_refines (hc : c.Refines d) {f : Frame} {t : Slots} : ∀ e : Expr, AgreesOn f.slots t e.slotNumbers →
    (eval env c f e).Refines (eval env d { f with slots := t } e)
  | .int .., _ => by
    rw [eval, eval]
    exact .refl _
  | .bool .., _ => by
    rw [eval, eval]
    exact .refl _
  | .null .., _ => by
    rw [eval, eval]
    exact .refl _
  | .this .., _ => by
    rw [eval, eval]
    exact .refl _
  | .var .., _ => by
    rw [eval, eval]
    exact .refl _
  | .param .., _ => by
    rw [eval, eval]
    exact .refl _
  | .staticField .., _ => by
    rw [eval, eval]
    exact .refl _
  | .result .., _ => by
    rw [eval, eval]
    exact .refl _
  | .old .., _ => by
    rw [eval, eval]
    exact .refl _
  | .spread .., _ => by
    rw [eval, eval]
    exact .refl _
  | .slot _ _ n, h => by
    rw [eval, eval, h n List.mem_cons_self]
    exact .refl _
  | .field _ _ o _, h => by
    rw [eval, eval]
    exact .bind (eval_refines hc o h) fun _ => .refl _
  | .length _ a, h => by
    rw [eval, eval]
    exact .bind (eval_refines hc a h) fun _ => .refl _
  | .index _ _ a i, h => by
    rw [eval, eval]
    exact .bind (eval_refines hc a h.left) fun _ => .bind (.refl _) fun _ =>
      .bind (eval_refines hc i h.right) fun _ => .refl _
  | .binary _ op l r, h => by
    have hl := eval_refines hc l h.left
    have hr := eval_refines hc r h.right
    cases op with
    | and =>
        rw [eval, eval]
        exact .bind hl fun _ => .bind (.refl _) fun b =>
          .ite (.bind hr fun _ => .refl _) (.refl _)
    | or =>
        rw [eval, eval]
        exact .bind hl fun _ => .bind (.refl _) fun b =>
          .ite (.refl _) (.bind hr fun _ => .refl _)
    | _ =>
        simp only [eval]
        exact .bind hl fun _ => .bind hr fun _ => .refl _
  | .unary _ _ e, h => by
    rw [eval, eval]
    exact .bind (eval_refines hc e h) fun _ => .refl _
  | .call _ _ site receiver m _ args, h => by
    rw [eval, eval]
    exact .bind (evalReceiver_refines hc receiver h.left) fun this =>
      .bind (evalAll_refines hc args h.right) fun vs => callMethod_refines hc f.decl site m this vs
  | .new _ site className ctor args, h => by
    rw [eval, eval]
    exact .bind (evalAll_refines hc args h) fun vs =>
      construct_refines hc f.decl site className ctor vs
  | .newArray _ _ len, h => by
    rw [eval, eval]
    exact .bind (eval_refines hc len h) fun _ => .refl _

theorem evalReceiver_refines (hc : c.Refines d) {f : Frame} {t : Slots} : ∀ e : Option Expr,
    AgreesOn f.slots t (Expr.slotNumbersOpt e) →
    (evalReceiver env c f e).Refines (evalReceiver env d { f with slots := t } e)
  | none, _ => by
    rw [evalReceiver, evalReceiver]
    exact .refl _
  | some e, h => by
    rw [evalReceiver, evalReceiver]
    exact .bind (eval_refines hc e h) fun _ => .refl _

theorem evalAll_refines (hc : c.Refines d) {f : Frame} {t : Slots} : ∀ es : List Expr,
    AgreesOn f.slots t (Expr.slotNumbersAll es) →
    (evalAll env c f es).Refines (evalAll env d { f with slots := t } es)
  | [], _ => by
    rw [evalAll, evalAll]
    exact .refl _
  | e :: es, h => by
    rw [evalAll, evalAll]
    exact .bind (eval_refines hc e h.left) fun _ => .bind (evalAll_refines hc es h.right) fun _ =>
      .refl _

end

/-! ## Statements -/

theorem iterate_refines {x x' : RunWith Scopes Bool} {y y' : RunWith Scopes Flow}
    (hx : RunWith.Refines x x') (hy : RunWith.Refines y y') {n : Nat} :
    ∀ {m : Nat}, n ≤ m → RunWith.Refines (iterate x y n) (iterate x' y' m) := by
  induction n with
  | zero =>
      intro m _ s μ o h
      rw [iterate, RunWith.ends_keep] at h
      exact absurd h (by simp)
  | succ n ih =>
      intro m hm
      obtain ⟨m, rfl⟩ : ∃ k, m = k + 1 := ⟨m - 1, by omega⟩
      rw [iterate, iterate]
      refine .bind hx fun b => .ite (.bind hy fun flow => ?_) (.refl _)
      cases flow with
      | normal => exact ih (by omega)
      | ret v span => exact .refl _

theorem catching_refines {x y : RunWith Scopes Flow} {g h : Ref → RunWith Scopes Flow}
    (hx : RunWith.Refines x y) (hg : ∀ e, RunWith.Refines (g e) (h e)) :
    RunWith.Refines (catching x g) (catching y h) := by
  refine .bind hx.observe fun r => ?_
  rcases r with (e | v | e) | flow
  · exact hg e
  · exact .refl _
  · exact .refl _
  · exact .refl _

theorem withCleanup_refines {x y z w : RunWith Scopes Flow} (hx : RunWith.Refines x y)
    (hz : RunWith.Refines z w) : RunWith.Refines (withCleanup x z) (withCleanup y w) :=
  .bind hx.observe fun _ => .bind hz.observe fun _ => .refl _

section

variable {f : Frame} {t : Slots}

theorem inScope_eval_refines (hc : c.Refines d) (e : Expr) (h : AgreesOn f.slots t e.slotNumbers) :
    RunWith.Refines (inScope f (eval env c · e)) (inScope { f with slots := t } (eval env d · e)) :=
  .inScope fun scopes => eval_refines hc (f := { f with scopes }) e h

theorem evalOr_refines (hc : c.Refines d) (v : Value) (e : Option Expr)
    (h : AgreesOn f.slots t (Expr.slotNumbersOpt e)) :
    RunWith.Refines (evalOr env c f v e) (evalOr env d { f with slots := t } v e) := by
  cases e with
  | none => exact .refl _
  | some e => exact inScope_eval_refines hc e h

theorem evalBool_refines (hc : c.Refines d) (e : Expr) (h : AgreesOn f.slots t e.slotNumbers) :
    RunWith.Refines (inScope f (evalBool env c · e))
      (inScope { f with slots := t } (evalBool env d · e)) :=
  .inScope fun scopes => .bind (eval_refines hc (f := { f with scopes }) e h) fun _ => .refl _

theorem evalInt_refines (hc : c.Refines d) (e : Expr) (h : AgreesOn f.slots t e.slotNumbers) :
    RunWith.Refines (inScope f (evalInt env c · e))
      (inScope { f with slots := t } (evalInt env d · e)) :=
  .inScope fun scopes => .bind (eval_refines hc (f := { f with scopes }) e h) fun _ => .refl _

theorem evalObject_refines (hc : c.Refines d) (e : Expr) (h : AgreesOn f.slots t e.slotNumbers) :
    RunWith.Refines (inScope f (evalObject env c · e))
      (inScope { f with slots := t } (evalObject env d · e)) :=
  .inScope fun scopes => .bind (eval_refines hc (f := { f with scopes }) e h) fun _ => .refl _

mutual

theorem exec_refines (hc : c.Refines d) : ∀ s : Stmt, AgreesOn f.slots t s.slotNumbers →
    RunWith.Refines (exec env c f s) (exec env d { f with slots := t } s)
  | .declare _ type _ value, h => by
    rw [exec, exec]
    exact .bind (evalOr_refines hc (Value.default type) value h) fun _ => .refl _
  | .setVar _ _ value, h => by
    rw [exec, exec]
    exact .bind (inScope_eval_refines hc value h) fun _ => .refl _
  | .setField _ o _ value, h => by
    rw [exec, exec]
    exact .bind (evalObject_refines hc o h.left) fun _ =>
      .bind (inScope_eval_refines hc value h.right) fun _ => .refl _
  | .setStatic _ _ _ value, h => by
    rw [exec, exec]
    exact .bind (inScope_eval_refines hc value h) fun _ => .refl _
  | .setIndex _ a i value, h => by
    rw [exec, exec]
    exact .bind (evalObject_refines hc a h.left) fun _ =>
      .bind (evalInt_refines hc i h.right.left) fun _ =>
        .bind (inScope_eval_refines hc value h.right.right) fun _ => .refl _
  | .expr _ value, h => by
    rw [exec, exec]
    exact .bind (inScope_eval_refines hc value h) fun _ => .refl _
  | .branch _ condition a b, h => by
    rw [exec, exec]
    exact .bind (evalBool_refines hc condition h.left) fun _ =>
      .ite ((exec_refines hc a h.right.left).inBlock _) (execElse_refines hc b h.right.right)
  | .loop _ condition body, h => by
    rw [exec, exec]
    exact iterate_refines (evalBool_refines hc condition h.left)
      ((exec_refines hc body h.right).inBlock _) hc.rounds
  | .ret _ value, h => by
    rw [exec, exec]
    exact .bind (evalOr_refines hc .void value h) fun _ => .refl _
  | .throw _ value, h => by
    rw [exec, exec]
    exact .bind (evalObject_refines hc value h) fun _ => .refl _
  | .superCall .., _ => by
    rw [exec, exec]
    exact .refl _
  | .attempt _ body handlers cleanup, h => by
    rw [exec, exec]
    refine withCleanup_refines (catching_refines ?_ fun e => ?_)
      (execCleanup_refines hc cleanup h.right.right)
    · exact (execAll_refines hc body h.left).inBlock _
    · exact .bind (.refl _) fun c => execHandlers_refines hc e c handlers h.right.left
  | .block _ body, h => by
    rw [exec, exec]
    exact (execAll_refines hc body h).inBlock _

theorem execAll_refines (hc : c.Refines d) : ∀ ss : List Stmt,
    AgreesOn f.slots t (Typed.stmtsSlotNumbers ss) →
    RunWith.Refines (execAll env c f ss) (execAll env d { f with slots := t } ss)
  | [], _ => by
    rw [execAll, execAll]
    exact .refl _
  | s :: rest, h => by
    rw [execAll, execAll]
    refine .bind (exec_refines hc s h.left) fun flow => ?_
    cases flow with
    | normal => exact execAll_refines hc rest h.right
    | ret v span => exact .refl _

theorem execElse_refines (hc : c.Refines d) : ∀ s : Option Stmt,
    AgreesOn f.slots t (Typed.elseSlotNumbers s) →
    RunWith.Refines (execElse env c f s) (execElse env d { f with slots := t } s)
  | none, _ => by
    rw [execElse, execElse]
    exact .refl _
  | some s, h => by
    rw [execElse, execElse]
    exact (exec_refines hc s h).inBlock _

theorem execHandlers_refines (hc : c.Refines d) (e : Ref) (className : String) :
    ∀ hs : List Typed.Handler, AgreesOn f.slots t (Typed.handlersSlotNumbers hs) →
    RunWith.Refines (execHandlers env c f e className hs)
      (execHandlers env d { f with slots := t } e className hs)
  | [], _ => by
    rw [execHandlers, execHandlers]
    exact .refl _
  | .mk _ _ body :: rest, h => by
    rw [execHandlers, execHandlers]
    exact .ite ((execAll_refines hc body h.left).inBlock _)
      (execHandlers_refines hc e className rest h.right)

theorem execCleanup_refines (hc : c.Refines d) : ∀ b : Option (List Stmt),
    AgreesOn f.slots t (Typed.cleanupSlotNumbers b) →
    RunWith.Refines (execCleanup env c f b) (execCleanup env d { f with slots := t } b)
  | none, _ => by
    rw [execCleanup, execCleanup]
    exact .refl _
  | some body, h => by
    rw [execCleanup, execCleanup]
    exact (execAll_refines hc body h).inBlock _

end

end

theorem execAll_refines_same (hc : c.Refines d) (f : Frame) (ss : List Stmt) :
    RunWith.Refines (execAll env c f ss) (execAll env d f ss) :=
  execAll_refines hc ss (.refl f.slots _)

/-! ## Checks -/

theorem holds_refines (hc : c.Refines d) (f : Frame) (clause : BoundClause) :
    (holds env c f clause).Refines (holds env d f clause) :=
  .bind (eval_refines hc clause.expr (.refl f.slots _)) fun _ => .refl _

theorem firstFalse_refines (hc : c.Refines d) (f : Frame) (clauses : List BoundClause) :
    (firstFalse env c f clauses).Refines (firstFalse env d f clauses) := by
  induction clauses with
  | nil => exact .refl _
  | cons clause clauses ih => exact .bind (holds_refines hc f clause) fun _ => .ite ih (.refl _)

theorem failures_refines (hc : c.Refines d) (f : Frame) (groups : List (List BoundClause)) :
    (failures env c f groups).Refines (failures env d f groups) := by
  induction groups with
  | nil => exact .refl _
  | cons group groups ih =>
      refine .bind (firstFalse_refines hc f group) fun r => ?_
      cases r with
      | none => exact .refl _
      | some clause => exact .bind ih fun _ => .refl _

theorem store_refines (hc : c.Refines d) (f : Frame) (es : List Expr) (n : Nat) :
    RunWith.Refines (store env c f n es) (store env d f n es) := by
  induction es generalizing n with
  | nil => exact .refl _
  | cons e es ih =>
      refine .bind (.withSlots fun slots => ?_) fun v => .bind (.refl _) fun _ => ih (n + 1)
      exact eval_refines hc (f := { f with slots }) e (.refl _ _)

theorem runCode_refines (hc : c.Refines d) (f : Frame) (code : CheckCode) :
    RunWith.Refines (runCode env c f code) (runCode env d f code) := by
  cases code with
  | snapshot s => exact store_refines hc f s.slots 0
  | precondition groups =>
      rw [runCode, runCode]
      exact .withSlots fun slots => .bind (failures_refines hc _ groups) fun _ => .refl _
  | postcondition clauses =>
      rw [runCode, runCode]
      exact .withSlots fun slots => .bind (firstFalse_refines hc _ clauses) fun _ => .refl _
  | throws checks mayThrow => exact .refl _
  | reverify obligations => exact .refl _

theorem runCodes_refines (hc : c.Refines d) (f : Frame) (codes : List CheckCode) :
    RunWith.Refines (runCodes env c f codes) (runCodes env d f codes) := by
  induction codes with
  | nil => exact .refl _
  | cons code codes ih => exact .bind (runCode_refines hc f code) fun _ => ih

theorem stepFrom_refines (hc : c.Refines d) (r : Ref) (s : Effect.Step) :
    (stepFrom env c r s).Refines (stepFrom env d r s) := by
  cases s with
  | field name => exact .refl _
  | accessor name =>
      refine .bind (.bind (.refl _) fun className => ?_) fun _ => .refl _
      split
      · next m _ => exact hc.invoke (env.dispatch className m.id) (some r) []
      · exact .refl _
  | elements => exact .refl _

theorem stepFromAll_refines (hc : c.Refines d) (s : Effect.Step) (vs : List Value) :
    (stepFromAll env c s vs).Refines (stepFromAll env d s vs) := by
  induction vs with
  | nil => exact .refl _
  | cons v vs ih =>
      cases v with
      | ref r => exact .bind (stepFrom_refines hc r s) fun _ => .bind ih fun _ => .refl _
      | int | bool | null | void => exact ih

theorem walk_refines (hc : c.Refines d) (steps : List Effect.Step) (vs : List Value) :
    (walk env c steps vs).Refines (walk env d steps vs) := by
  induction steps generalizing vs with
  | nil => exact .refl _
  | cons s steps ih => exact .bind (stepFromAll_refines hc s vs) ih

theorem checkObjects_refines (hc : c.Refines d) (site : SiteId) (o : Obligation)
    (rs : List Ref) : (checkObjects env c site o rs).Refines (checkObjects env d site o rs) := by
  induction rs with
  | nil => exact .refl _
  | cons r rs ih => exact .bind (holds_refines hc _ o.clause) fun _ => .ite ih (.refl _)

theorem checkObligations_refines (hc : c.Refines d) (site : SiteId) (this : Option Ref)
    (args : List Value) (os : List Obligation) :
    (checkObligations env c site this args os).Refines
      (checkObligations env d site this args os) := by
  induction os with
  | nil => exact .refl _
  | cons o os ih =>
      refine .bind (.bind (.refl _) fun start => .bind (walk_refines hc _ _) fun _ => .refl _) ?_
      exact fun rs => .bind (checkObjects_refines hc site o rs) fun _ => ih

/-! ## Members -/

theorem runInitItems_refines (hc : c.Refines d) (this : Ref) (items : List InitItem) :
    (runInitItems env c this items).Refines (runInitItems env d this items) := by
  induction items with
  | nil => exact .refl _
  | cons item items ih =>
      refine .bind ?_ fun _ => ih
      cases item with
      | field id =>
          rw [runInitItem, runInitItem]
          split
          · next field init _ _ =>
              exact .bind (eval_refines hc init (.refl .empty _)) fun _ => .refl _
          · exact .refl _
      | block id =>
          rw [runInitItem, runInitItem]
          exact .bind ((execAll_refines_same hc _ _).withState _) fun _ => .refl _

theorem runInitializers_refines (hc : c.Refines d) (this : Ref) (className : String) :
    (runInitializers env c this className).Refines (runInitializers env d this className) := by
  rw [runInitializers, runInitializers]
  split
  · next info _ => exact runInitItems_refines hc this info.initOrder
  · exact .refl _

theorem runSuperDefault_refines (hc : c.Refines d) (this : Ref) (className : String) :
    (runSuperDefault env c this className).Refines (runSuperDefault env d this className) := by
  rw [runSuperDefault, runSuperDefault]
  split
  · exact .refl _
  · split
    · next ctor _ => exact .bind (hc.invoke ctor.id (some this) []) fun _ => .refl _
    · exact .refl _

section

variable {f : Frame} {t : Slots}

/-- Refinement of the first part of a constructor, which hands on statements of the body only. -/
theorem runSuper_refines (hc : c.Refines d) (this : Ref) (className : String)
    (body : List Stmt) (h : AgreesOn f.slots t (Typed.stmtsSlotNumbers body)) :
    RunWith.Refines (runSuper env c f this className body)
      (runSuper env d { f with slots := t } this className body) := by
  have plain : RunWith.Refines
      (do keep (runSuperDefault env c this className); return body : RunWith Scopes (List Stmt))
      (do keep (runSuperDefault env d this className); return body) :=
    .bind (.keep (runSuperDefault_refines hc this className)) fun _ => .refl _
  cases body with
  | nil => exact plain
  | cons s rest =>
      cases s with
      | superCall span site ctor args =>
          refine .bind (.inScope fun scopes => evalAll_refines hc args h.left) fun vs => ?_
          exact .bind (.keep (hc.invoke ctor (some this) vs)) fun _ => .refl _
      | _ => exact plain

/-- The statements that are left are some of the body. -/
theorem runSuper_ok {this : Ref} {className : String} {body rest : List Stmt}
    {s s' : Scopes} {μ μ' : Machine}
    (h : (runSuper env c f this className body).ends s μ = some ((.ok rest, s'), μ')) :
    rest = body ∨ ∃ s, body = s :: rest := by
  have plain (h : (do keep (runSuperDefault env c this className); return body :
      RunWith Scopes (List Stmt)).ends s μ = some ((.ok rest, s'), μ')) : rest = body := by
    rcases RunWith.ends_bind_eq_some.mp h with ⟨u, _, he⟩ | ⟨_, _, _, _, he⟩
    · exact absurd he (by simp)
    · cases he
      rfl
  cases body with
  | nil => exact .inl (plain h)
  | cons st stmts =>
      cases st with
      | superCall span site ctor args =>
          rcases RunWith.ends_bind_eq_some.mp h with ⟨u, _, he⟩ | ⟨vs, s₁, μ₁, _, h₁⟩
          · exact absurd he (by simp)
          · rcases RunWith.ends_bind_eq_some.mp h₁ with ⟨u, _, he⟩ | ⟨_, _, _, _, he⟩
            · exact absurd he (by simp)
            · cases he
              exact .inr ⟨_, rfl⟩
      | _ => exact .inl (plain h)

theorem runBody_refines (hc : c.Refines d) (m : MethodInfo)
    (h : ∀ body, env.body? m.id = some body → AgreesOn f.slots t (Typed.stmtsSlotNumbers body)) :
    RunWith.Refines (runBody env c f m) (runBody env d { f with slots := t } m) := by
  rw [runBody, runBody]
  refine .ite ?_ ?_
  · rw [runConstructor, runConstructor]
    obtain ⟨decl, this, args, scopes, slots, result, exit, thrown⟩ := f
    cases this with
    | none => exact .refl _
    | some this =>
        have hbody : AgreesOn slots t (Typed.stmtsSlotNumbers ((env.body? m.id).getD [])) := by
          cases hb : env.body? m.id with
          | none => exact .nil slots t
          | some body => exact h body hb
        refine .bind_of_ok (runSuper_refines hc this m.owner _ hbody) ?_
        intro rest s s' μ μ' hok
        refine .bind (.keep (runInitializers_refines hc this m.owner)) fun _ => ?_
        refine execAll_refines hc rest ?_
        rcases runSuper_ok hok with rfl | ⟨first, heq⟩
        · exact hbody
        · rw [heq] at hbody
          exact hbody.right
  · rw [runMethod, runMethod]
    split
    · next body hb =>
        refine execAll_refines hc body (h body ?_)
        split at hb
        · exact hb
        · exact absurd hb (by simp)
    · exact .refl _

end

theorem runBody_refines_same (hc : c.Refines d) (f : Frame) (m : MethodInfo) :
    RunWith.Refines (runBody env c f m) (runBody env d f m) :=
  runBody_refines hc m (t := f.slots) fun _ _ => .refl f.slots _

theorem leave_refines (hc : c.Refines d) (p : WovenProgram) (f : Frame)
    (r : Except Unwind Flow) : (leave p c f r).Refines (leave p d f r) := by
  rcases r with (e | v | e) | flow
  · rw [leave, leave]
    exact .bind ((runCodes_refines hc _ _).withState _) fun _ => .refl _
  · exact .refl _
  · exact .refl _
  · rw [leave, leave]
    exact .bind ((runCodes_refines hc _ _).withState _) fun _ => .refl _

theorem activate_refines (hc : c.Refines d) (p : WovenProgram) (m : MethodInfo)
    (this : Option Ref) (args : List Value) :
    (activate p c m this args).Refines (activate p d m this args) := by
  rw [activate, activate]
  refine .bind ((runCodes_refines hc _ _).withState _) fun entered => ?_
  rcases entered with ⟨u | _, slots⟩
  · exact leave_refines hc p _ _
  · refine .bind ((runBody_refines_same hc _ m).withState _) fun completed => ?_
    exact leave_refines hc p _ _

theorem invokeWith_refines (hc : c.Refines d) (p : WovenProgram) (limit : Nat) (id : DeclId)
    (this : Option Ref) (args : List Value) :
    (invokeWith p limit c id this args).Refines (invokeWith p limit d id this args) := by
  rw [invokeWith, invokeWith]
  split
  · exact .refl _
  · next m _ =>
      refine .bind (.refl _) fun μ => ?_
      split
      · exact .refl _
      · exact (activate_refines hc p m this args).deeper

end

/-! ## Runs -/

/-- With a larger bound calls can do more. -/
theorem calls_refines (p : WovenProgram) (limit : Nat) {n m : Nat} (h : n ≤ m) :
    (calls p limit n).Refines (calls p limit m) := by
  induction n generalizing m with
  | zero => exact ⟨fun _ _ _ => .exhausted _, fun _ _ _ _ => .exhausted _, Nat.zero_le _⟩
  | succ n ih =>
      obtain ⟨m, rfl⟩ : ∃ k, m = k + 1 := ⟨m - 1, by omega⟩
      have hc := ih (m := m) (by omega)
      exact ⟨fun id this args => invokeWith_refines hc p limit id this args,
        fun caller site this args => checkObligations_refines hc site this args _, by
          show n ≤ m
          omega⟩

theorem evalStatics_refines {env : Env} {c d : Calls} (hc : c.Refines d) (fs : List FieldInfo) :
    (evalStatics env c fs).Refines (evalStatics env d fs) := by
  induction fs with
  | nil => exact .refl _
  | cons f fs ih =>
      rw [evalStatics, evalStatics]
      split
      · next init _ =>
          refine .bind (eval_refines hc init (.refl .empty _)) fun v => ?_
          exact .bind (.refl _) fun _ => ih
      · exact ih

/-- A run from an entry point, with what may happen behind its calls. -/
def runFrom (env : Env) (calls : Calls) (id : DeclId) : Run Value := do
  initStatics env calls
  calls.invoke id none []

theorem runFrom_refines {env : Env} {c d : Calls} (hc : c.Refines d) (id : DeclId) :
    (runFrom env c id).Refines (runFrom env d id) :=
  .bind (.bind (.refl _) fun _ => evalStatics_refines hc _) fun _ => hc.invoke id none []

end Run

/-- How a run ends that has an entry point, from how its computation ends. -/
theorem WovenProgram.run_eq (p : WovenProgram) (limit bound : Nat) {entry : String} {id : DeclId}
    (h : Run.findEntry p.env entry = .ok id) (μ : Machine) :
    (p.run limit bound entry) μ =
      ((Run.runFrom p.env (Run.calls p limit bound) id).ends μ).bind fun (r, μ') =>
        (Run.toOutcome r) μ' := by
  rw [run, h]
  rfl

/-- A run that has a result has the same one with every larger bound. -/
theorem WovenProgram.run_mono (p : WovenProgram) (limit : Nat) {n m : Nat} (h : n ≤ m)
    {entry : String} {μ : Machine} {o : Except RunError Outcome × Machine}
    (hr : p.run limit n entry μ = some o) : p.run limit m entry μ = some o := by
  cases he : Run.findEntry p.env entry with
  | error e =>
      rw [run, he] at hr ⊢
      exact hr
  | ok id =>
      rw [run_eq p limit _ he] at hr ⊢
      obtain ⟨r, hrun, hend⟩ := Option.bind_eq_some_iff.mp hr
      rw [Run.runFrom_refines (Run.calls_refines p limit h) id hrun]
      exact hend

end Covenant
