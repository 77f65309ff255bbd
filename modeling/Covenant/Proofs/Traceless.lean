import Covenant.Proofs.Built
import Covenant.Proofs.BoundClauses
import Covenant.Proofs.EntryValues
import Covenant.Proofs.ExceptionalExits
import Covenant.Proofs.Placed

/-!
# Checks that leave no trace

A clause without calls and creations only reads: if its evaluation completes, the
machine is what it was before. The same holds of every check that consists of
such clauses, and of the way to the objects that are checked behind a call if the
accessors on the way leave no trace themselves. What the clauses of a build are
is decided where they are written: inheritance, scheduling and the analysis of
effects only hand them on.
-/

namespace Covenant

variable {σ α β : Type}

namespace Typed.Expr

/-- Whether an expression contains no call and makes no object or array. -/
def callFree : Expr → Bool
  | int .. | bool .. | null .. | this .. | var .. | param .. | staticField .. | result ..
  | slot .. => true
  | field _ _ e _ | length _ e | unary _ _ e | old _ e | spread _ e => e.callFree
  | index _ _ l r | binary _ _ l r => l.callFree && r.callFree
  | call .. | new .. | newArray .. => false

end Typed.Expr

namespace Run

/-- Whether a computation leaves the machine alone if it completes. -/
def Traceless (x : Run α) : Prop := ∀ ⦃μ a μ'⦄, x.ends μ = some (.ok a, μ') → μ' = μ

namespace Traceless

theorem pure (a : α) : Traceless (Pure.pure a) := by
  intro μ b μ' h
  cases h
  rfl

theorem stop (u : Unwind) : Traceless (Run.stop u : Run α) := by
  intro μ b μ' h
  cases h

theorem bind {x : Run α} {f : α → Run β} (hx : Traceless x) (hf : ∀ a, Traceless (f a)) :
    Traceless (x >>= f) := by
  intro μ b μ' h
  rcases ends_bind_eq_some.mp h with ⟨u, _, hu⟩ | ⟨a, μ₁, ha, hb⟩
  · cases hu
  · obtain rfl := hx ha
    exact hf a hb

theorem ite {x y : Run α} {b : Bool} (hx : Traceless x) (hy : Traceless y) :
    Traceless (if b then x else y) := by
  cases b
  · exact hy
  · exact hx

end Traceless

/-- Whether a computation leaves this machine alone if it completes. -/
def QuietAt (x : Run α) (μ : Machine) : Prop := ∀ ⦃a μ'⦄, x.ends μ = some (.ok a, μ') → μ' = μ

theorem Traceless.quietAt {x : Run α} {μ : Machine} (h : Traceless x) : QuietAt x μ := fun _ _ ha => h ha

theorem QuietAt.bind {x : Run α} {f : α → Run β} {μ : Machine} (hx : QuietAt x μ)
    (hf : ∀ a, QuietAt (f a) μ) : QuietAt (x >>= f) μ := by
  intro b μ' h
  rcases ends_bind_eq_some.mp h with ⟨u, _, hu⟩ | ⟨a, μ₁, ha, hb⟩
  · cases hu
  · obtain rfl := hx ha
    exact hf a hb

theorem get_traceless : Traceless (get : Run Machine) := by
  intro μ a μ' h
  cases h
  rfl

/-- Whether a computation only reads: it ends on the machine that it started on, unless it throws a
new exception there. -/
def Reads (x : Run α) : Prop :=
  ∀ μ, (∃ r, x.ends μ = some (r, μ)) ∨ ∃ className, x.ends μ = (throwNew className : Run α).ends μ

namespace Reads

theorem traceless {x : Run α} (h : Reads x) : Traceless x := by
  intro μ a μ' ha
  rcases h μ with ⟨r, hr⟩ | ⟨className, hr⟩
  · rw [hr] at ha
    cases ha
    rfl
  · rw [hr] at ha
    cases ha

theorem pure (a : α) : Reads (Pure.pure a) := fun _ => .inl ⟨_, rfl⟩

theorem stop (u : Unwind) : Reads (Run.stop u : Run α) := fun _ => .inl ⟨_, rfl⟩

theorem throwNew (className : String) : Reads (Run.throwNew className : Run α) :=
  fun _ => .inr ⟨className, rfl⟩

theorem bind {x : Run α} {f : α → Run β} (hx : Reads x) (hf : ∀ a, Reads (f a)) :
    Reads (x >>= f) := by
  intro μ
  rcases hx μ with ⟨r, hr⟩ | ⟨className, hr⟩
  · cases r with
    | ok a =>
        rw [ends_bind_ok hr]
        exact hf a μ
    | error u => exact .inl ⟨_, ends_bind_error hr⟩
  · exact .inr ⟨className, ends_bind_error hr⟩

/-- What depends on the machine only reads if it does so whatever the machine is. -/
theorem get {f : Machine → Run α} (hf : ∀ μ, Reads (f μ)) : Reads (MonadState.get >>= f) := by
  intro μ
  rw [ends_bind_ok (ends_get μ)]
  exact hf μ μ

end Reads

/-- A computation that only looks at the machine, and yields a value, throws a new exception or ends
in a defect. -/
inductive Looks : {α : Type} → Run α → Prop
  | pure {α : Type} (a : α) : Looks (Pure.pure a)
  | throwNew {α : Type} (className : String) : Looks (Run.throwNew className : Run α)
  | defect {α : Type} (d : Defect) : Looks (Run.defect d : Run α)
  | get {α : Type} {f : Machine → Run α} (h : ∀ μ, Looks (f μ)) : Looks (MonadState.get >>= f)
  | bind {α β : Type} {x : Run α} {f : α → Run β} (hx : Looks x) (hf : ∀ a, Looks (f a)) :
    Looks (x >>= f)

namespace Looks

theorem ite {x y : Run α} {b : Bool} (hx : Looks x) (hy : Looks y) :
    Looks (if b then x else y) := by
  cases b
  · exact hy
  · exact hx

theorem reads {x : Run α} (h : Looks x) : Reads x := by
  induction h with
  | pure a => exact .pure a
  | throwNew className => exact .throwNew className
  | defect d => exact .stop _
  | get _ ih => exact .get ih
  | bind _ _ ihx ihf => exact ihx.bind ihf

/-- Looking violates no contract. -/
theorem ne_violation {x : Run α} (h : Looks x) {μ μ' : Machine} {v : Violation} :
    x.ends μ ≠ some (.error (.violation v), μ') := by
  intro hends
  induction h generalizing μ with
  | pure | throwNew | defect => cases hends
  | get _ ih => exact ih μ (ends_bind_ok (ends_get μ) ▸ hends)
  | bind _ _ ihx ihf =>
      rcases ends_bind_eq_some.mp hends with ⟨u, hu, heq⟩ | ⟨a, μ₁, _, hrest⟩
      · cases heq
        exact ihx hu
      · exact ihf a hrest

end Looks

/-- Whether a computation does one thing whatever the machine is: it yields a value with a property,
throws a new exception, or ends in a defect. -/
inductive Direct (P : α → Prop) (x : Run α) : Prop
  | yields {a : α} (property : P a) (eq : x = Pure.pure a)
  | throws {className : String} (eq : x = Run.throwNew className)
  | fails {d : Defect} (eq : x = Run.defect d)

theorem Direct.looks {P : α → Prop} {x : Run α} (h : Direct P x) : Looks x := by
  cases h with
  | yields _ eq => exact eq ▸ .pure _
  | throws eq => exact eq ▸ .throwNew _
  | fails eq => exact eq ▸ .defect _

theorem Direct.reads {P : α → Prop} {x : Run α} (h : Direct P x) : Reads x := h.looks.reads

theorem asBool_direct (v : Value) : Direct (fun _ => True) (asBool v) := by
  cases v with
  | bool b => exact .yields trivial rfl
  | _ => exact .fails rfl

theorem asInt_direct (v : Value) : Direct (fun _ => True) (asInt v) := by
  cases v with
  | int n => exact .yields trivial rfl
  | _ => exact .fails rfl

/-- What a value yields as an object is what it refers to. -/
theorem asObject_direct (v : Value) : Direct (fun r => v = .ref r) (asObject v) := by
  cases v with
  | ref r => exact .yields rfl rfl
  | null => exact .throws rfl
  | _ => exact .fails rfl

/-- No operator yields an object. -/
theorem applyUnary_direct (op : UnaryOp) (v : Value) :
    Direct (fun w => w.ref? = none) (applyUnary op v) := by
  rw [applyUnary.eq_def]
  split
  · exact .yields rfl rfl
  · exact .yields rfl rfl
  · exact .fails rfl

theorem applyInts_direct (op : BinaryOp) (a b : Int64) :
    Direct (fun w => w.ref? = none) (applyInts op a b) := by
  cases op with
  | div | mod =>
      rw [applyInts]
      split
      · exact .throws rfl
      · exact .yields rfl rfl
  | eq | neq | and | or => exact .fails rfl
  | _ => exact .yields rfl rfl

theorem applyBinary_direct (op : BinaryOp) (l r : Value) :
    Direct (fun w => w.ref? = none) (applyBinary op l r) := by
  rw [applyBinary.eq_def]
  split
  · exact .yields rfl rfl
  · exact .yields rfl rfl
  · exact applyInts_direct _ _ _
  · exact .fails rfl

theorem asBool_reads (v : Value) : Reads (asBool v) := (asBool_direct v).reads

theorem asInt_reads (v : Value) : Reads (asInt v) := (asInt_direct v).reads

theorem asObject_reads (v : Value) : Reads (asObject v) := (asObject_direct v).reads

theorem applyUnary_reads (op : UnaryOp) (v : Value) : Reads (applyUnary op v) :=
  (applyUnary_direct op v).reads

theorem applyBinary_reads (op : BinaryOp) (l r : Value) : Reads (applyBinary op l r) :=
  (applyBinary_direct op l r).reads

theorem getField_looks (r : Ref) (name : String) : Looks (getField r name) := by
  refine .get fun μ => ?_
  split
  · split
    · exact .pure _
    · exact .defect _
  · exact .defect _

theorem getStatic_looks (env : Env) (className name : String) :
    Looks (getStatic env className name) := .get fun _ => .pure _

theorem classOf_looks (r : Ref) : Looks (classOf r) := .get fun _ => .pure _

theorem arrayLength_looks (r : Ref) : Looks (arrayLength r) := by
  refine .get fun μ => ?_
  split
  · exact .pure _
  · exact .defect _

theorem getItem_looks (r : Ref) (i : Int64) : Looks (getItem r i) := by
  refine .get fun μ => ?_
  split
  · split
    · exact .pure _
    · exact .throwNew _
  · exact .defect _

theorem getField_reads (r : Ref) (name : String) : Reads (getField r name) :=
  (getField_looks r name).reads

theorem getStatic_reads (env : Env) (className name : String) :
    Reads (getStatic env className name) := (getStatic_looks env className name).reads

theorem classOf_reads (r : Ref) : Reads (classOf r) := (classOf_looks r).reads

theorem arrayLength_reads (r : Ref) : Reads (arrayLength r) := (arrayLength_looks r).reads

theorem getItem_reads (r : Ref) (i : Int64) : Reads (getItem r i) := (getItem_looks r i).reads

section

variable {env : Env} {c : Calls} {f : Frame}

/-- The evaluation of an expression without calls and creations only looks. -/
theorem eval_looks : ∀ e : Typed.Expr, e.callFree = true → Looks (eval env c f e)
  | .int .., _ | .bool .., _ | .null .., _ | .result .., _ => by
    rw [eval]
    exact .pure _
  | .this .., _ | .var .., _ | .param .., _ | .slot .., _ => by
    rw [eval]
    split
    · exact .pure _
    · exact .defect _
  | .old .., _ | .spread .., _ => by
    rw [eval]
    exact .defect _
  | .staticField .., _ => by
    rw [eval]
    exact getStatic_looks env _ _
  | .field _ _ o name, h => by
    rw [eval]
    exact .bind (eval_looks o h) fun v => .bind (asObject_direct v).looks fun r =>
      getField_looks r name
  | .length _ a, h => by
    rw [eval]
    exact .bind (eval_looks a h) fun v => .bind (asObject_direct v).looks arrayLength_looks
  | .index _ _ a i, h => by
    rw [Typed.Expr.callFree, Bool.and_eq_true] at h
    rw [eval]
    exact .bind (eval_looks a h.1) fun v => .bind (asObject_direct v).looks fun r =>
      .bind (eval_looks i h.2) fun w => .bind (asInt_direct w).looks (getItem_looks r)
  | .unary _ op e, h => by
    rw [eval]
    exact .bind (eval_looks e h) fun v => (applyUnary_direct op v).looks
  | .binary _ op l r, h => by
    rw [Typed.Expr.callFree, Bool.and_eq_true] at h
    have hl := eval_looks l h.1
    have hr := eval_looks r h.2
    have right : Looks (do return Value.bool (← asBool (← eval env c f r))) :=
      .bind hr fun w => .bind (asBool_direct w).looks fun _ => .pure _
    cases op with
    | and =>
        rw [eval]
        exact .bind hl fun v => .bind (asBool_direct v).looks fun b => .ite right (.pure _)
    | or =>
        rw [eval]
        exact .bind hl fun v => .bind (asBool_direct v).looks fun b => .ite (.pure _) right
    | _ =>
        simp only [eval]
        exact .bind hl fun v => .bind hr fun w => (applyBinary_direct _ v w).looks
  | .call .., h => absurd h (by simp [Typed.Expr.callFree])
  | .new .., h => absurd h (by simp [Typed.Expr.callFree])
  | .newArray .., h => absurd h (by simp [Typed.Expr.callFree])

theorem eval_traceless (e : Typed.Expr) (h : e.callFree = true) : Traceless (eval env c f e) :=
  (eval_looks e h).reads.traceless

end

end Run

/-! ## Checks -/

/-- Whether the clauses that a check evaluates are without calls and creations. The conditions of
`throws` clauses were evaluated at entry. -/
def CheckCode.CallFree : CheckCode → Prop
  | .snapshot s => ∀ e ∈ s.slots, e.callFree = true
  | .precondition groups => ∀ cs ∈ groups, ∀ c ∈ cs, c.expr.callFree = true
  | .postcondition cs => ∀ c ∈ cs, c.expr.callFree = true
  | .throws .. => True
  | .reverify os => ∀ o ∈ os, o.clause.expr.callFree = true

/-- Whether a computation with a local state leaves the machine alone if it completes. -/
def RunWith.Traceless (x : RunWith σ α) : Prop :=
  ∀ ⦃s μ a s' μ'⦄, x.ends s μ = some ((.ok a, s'), μ') → μ' = μ

namespace RunWith.Traceless

theorem bind {x : RunWith σ α} {f : α → RunWith σ β} (hx : RunWith.Traceless x)
    (hf : ∀ a, RunWith.Traceless (f a)) : RunWith.Traceless (x >>= f) := by
  intro s μ b s' μ' h
  rcases RunWith.ends_bind_eq_some.mp h with ⟨u, _, hu⟩ | ⟨a, s₁, μ₁, ha, hb⟩
  · cases hu
  · obtain rfl := hx ha
    exact hf a hb

theorem pure (a : α) : RunWith.Traceless (Pure.pure a : RunWith σ α) := by
  intro s μ b s' μ' h
  cases h
  rfl

theorem modifyThe (f : σ → σ) : RunWith.Traceless (modifyThe σ f : RunWith σ PUnit) := by
  intro s μ b s' μ' h
  cases h
  rfl

theorem withSlots {f : Frame} {x : Frame → Run α} (h : ∀ f, (x f).Traceless) :
    RunWith.Traceless (Run.withSlots f x) := by
  intro s μ a s' μ' hx
  rw [RunWith.ends_withSlots_eq_some] at hx
  exact h _ hx.1

end RunWith.Traceless

namespace Run

section

variable {env : Env} {c : Calls} {f : Frame}

theorem holds_looks {clause : BoundClause} (h : clause.expr.callFree = true) :
    Looks (holds env c f clause) := by
  refine .bind (eval_looks clause.expr h) fun v => ?_
  cases v with
  | bool b => exact .pure b
  | _ => exact .defect _

theorem holds_traceless {clause : BoundClause} (h : clause.expr.callFree = true) :
    Traceless (holds env c f clause) := (holds_looks h).reads.traceless

theorem firstFalse_traceless {clauses : List BoundClause}
    (h : ∀ clause ∈ clauses, clause.expr.callFree = true) :
    Traceless (firstFalse env c f clauses) := by
  induction clauses with
  | nil => exact .pure _
  | cons clause clauses ih =>
      refine .bind (holds_traceless (h clause List.mem_cons_self)) fun _ => .ite ?_ (.pure _)
      exact ih fun x hx => h x (List.mem_cons_of_mem _ hx)

theorem failures_traceless {groups : List (List BoundClause)}
    (h : ∀ cs ∈ groups, ∀ clause ∈ cs, clause.expr.callFree = true) :
    Traceless (failures env c f groups) := by
  induction groups with
  | nil => exact .pure _
  | cons group groups ih =>
      refine .bind (firstFalse_traceless (h group List.mem_cons_self)) fun r => ?_
      cases r with
      | none => exact .pure _
      | some clause =>
          exact .bind (ih fun cs hcs => h cs (List.mem_cons_of_mem _ hcs)) fun _ => .pure _

theorem store_traceless {es : List Typed.Expr} (h : ∀ e ∈ es, e.callFree = true) (n : Nat) :
    RunWith.Traceless (store env c f n es) := by
  induction es generalizing n with
  | nil => exact .pure _
  | cons e es ih =>
      rw [store]
      refine .bind (.withSlots fun f => eval_traceless e (h e List.mem_cons_self)) fun v => ?_
      exact .bind (.modifyThe _) fun _ => ih (fun x hx => h x (List.mem_cons_of_mem _ hx)) (n + 1)

theorem runCode_traceless {code : CheckCode} (h : code.CallFree) :
    RunWith.Traceless (runCode env c f code) := by
  cases code with
  | snapshot s => exact store_traceless h 0
  | precondition groups =>
      rw [runCode]
      refine .withSlots fun f => .bind (failures_traceless h) fun r => ?_
      cases r with
      | none => exact .pure _
      | some failed => exact .stop _
  | postcondition clauses =>
      rw [runCode]
      refine .withSlots fun f => .bind (firstFalse_traceless h) fun r => ?_
      cases r with
      | none => exact .pure _
      | some clause => exact .stop _
  | throws checks mayThrow =>
      rw [runCode]
      refine .withSlots fun f μ a μ' h => ?_
      rw [ends_checkThrows] at h
      split at h
      · cases h
        rfl
      · cases h
  | reverify os => exact .pure _

theorem runCodes_traceless {codes : List CheckCode} (h : ∀ code ∈ codes, code.CallFree) :
    RunWith.Traceless (runCodes env c f codes) := by
  induction codes with
  | nil => exact .pure _
  | cons code codes ih =>
      exact .bind (runCode_traceless (h code List.mem_cons_self)) fun _ =>
        ih fun x hx => h x (List.mem_cons_of_mem _ hx)

/-- The way from an object to others, if the accessors on it leave no trace. -/
theorem stepFrom_traceless (hc : ∀ id this args, (c.invoke id this args).Traceless) (r : Ref)
    (s : Effect.Step) : Traceless (stepFrom env c r s) := by
  cases s with
  | field name => exact .bind (getField_reads r name).traceless fun _ => .pure _
  | accessor name =>
      refine .bind (.bind (classOf_reads r).traceless fun className => ?_) fun _ => .pure _
      split
      · exact hc _ _ _
      · exact .stop _
  | elements =>
      refine .bind get_traceless fun μ => ?_
      split
      · exact .pure _
      · exact .pure _

theorem stepFromAll_traceless (hc : ∀ id this args, (c.invoke id this args).Traceless)
    (s : Effect.Step) (vs : List Value) : Traceless (stepFromAll env c s vs) := by
  induction vs with
  | nil => exact .pure _
  | cons v vs ih =>
      cases v with
      | ref r => exact .bind (stepFrom_traceless hc r s) fun _ => .bind ih fun _ => .pure _
      | int | bool | null | void => exact ih

theorem walk_traceless (hc : ∀ id this args, (c.invoke id this args).Traceless)
    (steps : List Effect.Step) (vs : List Value) : Traceless (walk env c steps vs) := by
  induction steps generalizing vs with
  | nil => exact .pure _
  | cons s steps ih => exact .bind (stepFromAll_traceless hc s vs) ih

theorem startOf_traceless (p : Effect.Path) (this : Option Ref) (args : List Value) :
    Traceless (startOf env p this args) := by
  rw [startOf.eq_def]
  split
  · exact .pure _
  · exact .pure _
  · exact .bind get_traceless fun _ => .pure _
  · exact .pure _

/-- What is left of a path behind its start is a part of it. -/
theorem startOf_subset {p : Effect.Path} {this : Option Ref} {args : List Value}
    {x : List Value × List Effect.Step} {μ μ' : Machine}
    (h : (startOf env p this args).ends μ = some (.ok x, μ')) : x.2 ⊆ p.trail := by
  rw [startOf.eq_def] at h
  split at h
  · cases h
    exact List.Subset.refl _
  · cases h
    exact List.Subset.refl _
  · next htrail =>
      cases h
      rw [htrail]
      exact List.subset_cons_self _ _
  · cases h
    exact fun _ hs => List.mem_of_mem_tail hs

theorem checkObjects_traceless {site : SiteId} {o : Obligation}
    (h : o.clause.expr.callFree = true) (rs : List Ref) :
    Traceless (checkObjects env c site o rs) := by
  induction rs with
  | nil => exact .pure _
  | cons r rs ih => exact .bind (holds_traceless h) fun _ => .ite ih (.stop _)

theorem checkObligations_traceless (hc : ∀ id this args, (c.invoke id this args).Traceless)
    {site : SiteId} {this : Option Ref} {args : List Value} {os : List Obligation}
    (h : ∀ o ∈ os, o.clause.expr.callFree = true) :
    Traceless (checkObligations env c site this args os) := by
  induction os with
  | nil => exact .pure _
  | cons o os ih =>
      have hreach : Traceless (reach env c o.object this args) :=
        .bind (startOf_traceless o.object this args) fun start =>
          .bind (walk_traceless hc _ _) fun _ => .pure _
      refine .bind hreach fun rs => ?_
      refine .bind (checkObjects_traceless (h o List.mem_cons_self) rs) fun _ => ?_
      exact ih fun x hx => h x (List.mem_cons_of_mem _ hx)

end

end Run

/-! ## The clauses of a build -/

/-- All clauses that are written on a declaration. -/
def OwnClauses.clauses (own : OwnClauses) : List BoundClause :=
  own.preconditions ++ own.postconditions ++ own.invariants ++ own.throws.map (·.condition)
    ++ own.mayThrow.map (·.condition) ++ own.effects.inspects ++ own.effects.mutates
    ++ own.effects.mutatesProperties

namespace Contract

/-- All clauses of a program, as they are kept for their declarations and for classes. -/
def Bound.clauses (b : Bound) : List BoundClause :=
  b.decls.values.flatMap OwnClauses.clauses ++ b.invariants.values.flatten

/-- Whether every clause is without calls and creations. -/
def CallFree (cs : List BoundClause) : Prop := ∀ c ∈ cs, c.expr.callFree = true

section

variable (env : Env) (m : MethodInfo) {decls : Table DeclId OwnClauses}

theorem lineage_callFree (h : CallFree (decls.values.flatMap OwnClauses.clauses)) :
    ∀ own ∈ lineage env decls m, CallFree own.clauses := by
  have some {id : DeclId} {own : OwnClauses} (hget : decls.get? id = some own) :
      CallFree own.clauses := fun c hc =>
    h c (List.mem_flatMap.mpr ⟨own, List.mem_map.mpr ⟨_, Table.mem_of_get? hget, rfl⟩, hc⟩)
  intro own hown
  rcases List.mem_cons.mp hown with rfl | hown
  · cases hget : decls.get? m.id with
    | none => exact fun c hc => absurd hc List.not_mem_nil
    | some own => exact some hget
  · obtain ⟨id, _, hget⟩ := List.mem_filterMap.mp hown
    exact some hget

/-- Inheritance only hands clauses on. -/
theorem specificationOf_callFree (h : CallFree (decls.values.flatMap OwnClauses.clauses)) :
    (∀ cs ∈ (specificationOf env decls m).preconditions, CallFree cs) ∧
      CallFree (specificationOf env decls m).postconditions ∧
      CallFree ((specificationOf env decls m).throws.map (·.condition)) := by
  have hall := lineage_callFree env m h
  refine ⟨fun cs hcs => ?_, fun c hc => ?_, fun c hc => ?_⟩
  · obtain ⟨own, hown, rfl⟩ := List.mem_map.mp (List.mem_filter.mp hcs).1
    exact fun c hc => hall own hown c (by simp [OwnClauses.clauses, hc])
  · obtain ⟨own, hown, hc⟩ := List.mem_flatMap.mp hc
    exact hall own hown c (by simp [OwnClauses.clauses, hc])
  · obtain ⟨t, ht, rfl⟩ := List.mem_map.mp hc
    obtain ⟨own, hown, ht⟩ := List.mem_flatMap.mp ht
    have hmem : t.condition ∈ own.throws.map (·.condition) := List.mem_map.mpr ⟨t, ht, rfl⟩
    exact hall own hown _ (by simp only [OwnClauses.clauses, List.mem_append, hmem, true_or, or_true])

end

theorem slotFor_callFree {first : Nat} {slots : List Typed.Expr} {e : Typed.Expr}
    (hs : ∀ x ∈ slots, x.callFree = true) (he : e.callFree = true) :
    ∀ x ∈ (slotFor first slots e).2, x.callFree = true := by
  rw [slotFor]
  split
  · exact hs
  · exact forall_append_singleton hs he

/-- Scheduling stores no term with a call, and leaves none in the clause. -/
theorem storeOld_callFree (first : Nat) : ∀ (e : Typed.Expr) (slots : List Typed.Expr),
    (∀ x ∈ slots, x.callFree = true) → e.callFree = true →
      (storeOld first slots e).1.callFree = true ∧
        ∀ x ∈ (storeOld first slots e).2, x.callFree = true
  | .int .., _, hs, _ | .bool .., _, hs, _ | .null .., _, hs, _ | .this .., _, hs, _
  | .var .., _, hs, _ | .param .., _, hs, _ | .staticField .., _, hs, _ | .result .., _, hs, _
  | .slot .., _, hs, _ => ⟨rfl, hs⟩
  | .old _ x, slots, hs, he => by
    have ih := storeOld_callFree first x slots hs he
    rw [storeOld]
    exact ⟨rfl, slotFor_callFree ih.2 ih.1⟩
  | .field _ _ e _, slots, hs, he | .length _ e, slots, hs, he | .unary _ _ e, slots, hs, he
  | .spread _ e, slots, hs, he => by
    have ih := storeOld_callFree first e slots hs he
    rw [storeOld]
    exact ih
  | .index _ _ l r, slots, hs, he | .binary _ _ l r, slots, hs, he => by
    rw [Typed.Expr.callFree, Bool.and_eq_true] at he
    have il := storeOld_callFree first l slots hs he.1
    have ir := storeOld_callFree first r _ il.2 he.2
    rw [storeOld]
    exact ⟨Bool.and_eq_true_iff.mpr ⟨il.1, ir.1⟩, ir.2⟩
  | .call .., _, _, he | .new .., _, _, he | .newArray .., _, _, he =>
    absurd he (by simp [Typed.Expr.callFree])

theorem storePosts_callFree (first : Nat) {posts : List BoundClause} (hp : CallFree posts) :
    ∀ {slots : List Typed.Expr}, (∀ x ∈ slots, x.callFree = true) →
      CallFree (storePosts first slots posts).1 ∧
        ∀ x ∈ (storePosts first slots posts).2, x.callFree = true := by
  induction posts with
  | nil => exact fun hs => ⟨fun c hc => absurd hc List.not_mem_nil, hs⟩
  | cons c cs ih =>
      intro slots hs
      have hc := storeOld_callFree first c.expr slots hs (hp c List.mem_cons_self)
      have hcs := ih (fun x hx => hp x (List.mem_cons_of_mem _ hx)) hc.2
      rw [storePosts]
      exact ⟨fun x hx => (List.mem_cons.mp hx).elim (fun h => h ▸ hc.1) (hcs.1 x), hcs.2⟩

theorem scheduleOne_callFree {s : Specification} (hposts : CallFree s.postconditions)
    (hthrows : CallFree (s.throws.map (·.condition))) :
    CallFree (scheduleOne s).1.postconditions ∧ ∀ x ∈ (scheduleOne s).2, x.callFree = true := by
  refine storePosts_callFree _ hposts fun x hx => ?_
  obtain ⟨t, ht, rfl⟩ := List.mem_map.mp hx
  exact hthrows t.condition (List.mem_map.mpr ⟨t, ht, rfl⟩)

end Contract

/-- The checks of a build evaluate no calls if its clauses contain none. -/
theorem checks_callFree {source : String} {checks : Checks} {b : Build}
    (h : build source checks = .ok b) {p : Surface.Program} (hp : Parse.program source = .ok p)
    (hfree : Contract.CallFree
      (Contract.bind b.program.env (Clause.ofProgram p) p.siteCount).clauses) :
    ∀ c ∈ b.program.checks, c.code.CallFree := by
  have hn := nodup_keys_specs h
  have hspecs := @specs_of_build source checks b h
  obtain ⟨p', env, hp', _, hplan, _, hprog⟩ := build_eq_ok h
  obtain rfl : p' = p := by simpa [hp] using hp'.symm
  have henv : b.program.env = env := by rw [hprog]
  have hdecls : Contract.CallFree
      ((Contract.bind b.program.env (Clause.ofProgram p') p'.siteCount).decls.values.flatMap
        OwnClauses.clauses) := fun c hc => hfree c (List.mem_append_left _ hc)
  have hinvariants {name : String} {cs : List BoundClause}
      (hget : (Contract.bind b.program.env (Clause.ofProgram p') p'.siteCount).invariants.get?
        name = some cs) : Contract.CallFree cs := fun c hc =>
    hfree c (List.mem_append_right _ (List.mem_flatten.mpr
      ⟨cs, List.mem_map.mpr ⟨_, Table.mem_of_get? hget, rfl⟩, hc⟩))
  intro c hc
  rw [hprog] at hc
  rcases Contract.mem_weave hc with ⟨s, hs, hcode⟩ | ⟨site, _, rfl⟩
  · obtain ⟨p'', m, s₀, hp'', _, rfl, rfl, hsnap⟩ := hspecs (Table.get?_of_mem hn hs)
    obtain rfl : p'' = p' := by simpa [hp'] using hp''.symm
    obtain ⟨hpre, hpost, hthrows⟩ := Contract.specificationOf_callFree b.program.env m hdecls
    obtain ⟨hposts, hslots⟩ := Contract.scheduleOne_callFree hpost hthrows
    rcases Contract.mem_memberCodes hcode with
      ⟨snap, hsnap', _, heq⟩ | heq | ⟨_, heq⟩ | heq | heq
    · rw [(Prod.mk.inj heq).2]
      rw [hsnap] at hsnap'
      split at hsnap'
      · exact absurd hsnap' (by simp)
      · cases hsnap'
        exact hslots
    · rw [(Prod.mk.inj heq).2]
      exact hpre
    · rw [(Prod.mk.inj heq).2]
      exact hposts
    · rw [(Prod.mk.inj heq).2]
      exact trivial
    · rw [(Prod.mk.inj heq).2]
      exact trivial
  · intro o ho
    have hfrom (name : String)
        (ho : (o.className, o.clause) ∈ b.plan.invariantsOf b.program.env name) :
        o.clause.expr.callFree = true := by
      obtain ⟨_, cs, hcs, hmem⟩ := Effect.mem_classInvariants ho
      rw [hplan] at hcs
      exact hinvariants (henv ▸ hcs) o.clause hmem
    rw [← henv] at ho
    rcases Contract.mem_siteObligations ho with ⟨os, hos, ho⟩ | ⟨_, m, _, _, ho⟩
    · rw [hplan] at hos
      have hat : o ∈ Effect.invariantsAt env b.plan.invariants o.object := by
        rw [hplan]
        rcases Effect.mem_obligations hos ho with ⟨_, _, _, _, _, hat⟩ | ⟨_, _, _, hat⟩
        · exact hat
        · exact hat
      obtain ⟨_, name, _, hmem⟩ := Effect.mem_invariantsAt hat
      exact hfrom name (henv ▸ hmem)
    · exact hfrom _ ho

end Covenant
