import Covenant.Proofs.Comparisons

/-!
# Expressions and statements beside themselves

An expression that is evaluated in two frames, of which one has other references
in it, ends alike on machines that correspond, if calls do. The same holds of
statements as long as they write static fields that the comparison knows of.
-/

namespace Covenant

namespace Typed

mutual

/-- The static fields that a statement writes, with the classes that it names them by. -/
def Stmt.staticWrites : Stmt → List (String × String)
  | .setStatic _ c name _ => [(c, name)]
  | .branch _ _ a b => a.staticWrites ++ elseStaticWrites b
  | .loop _ _ b => b.staticWrites
  | .attempt _ body handlers cleanup => stmtsStaticWrites body ++
    (handlersStaticWrites handlers ++ cleanupStaticWrites cleanup)
  | .block _ body => stmtsStaticWrites body
  | .declare .. | .setVar .. | .setField .. | .setIndex .. | .expr .. | .ret .. | .throw ..
  | .superCall .. => []

def elseStaticWrites : Option Stmt → List (String × String)
  | none => []
  | some s => s.staticWrites

def stmtsStaticWrites : List Stmt → List (String × String)
  | [] => []
  | s :: rest => s.staticWrites ++ stmtsStaticWrites rest

def handlersStaticWrites : List Handler → List (String × String)
  | [] => []
  | .mk _ _ body :: rest => stmtsStaticWrites body ++ handlersStaticWrites rest

def cleanupStaticWrites : Option (List Stmt) → List (String × String)
  | none => []
  | some body => stmtsStaticWrites body

end

end Typed

namespace Run

open Typed (Expr Stmt Handler)

variable {K : Comparison} {α β : Type} {g : α → β}

/-! ## The machine -/

namespace Compares

theorem fatal (e : RunError) :
    Compares K g (Run.fatal e) (Run.fatal (e.rename K.ref)) := .stop (.fatal e)

theorem defect (d : Defect) : Compares K g (Run.defect d) (Run.defect (d.rename K.ref)) :=
  .stop (.fatal (.internal d))

end Compares

theorem alloc_compares (o : Obj) : (alloc o).Compares K K.ref (alloc (o.rename K.ref)) := by
  intro μ ν hm
  obtain ⟨hr, hm⟩ := K.alloc hm o
  show K.Related K.machine K.ref (some (.ok μ.heap.size, _)) (some (.ok ν.heap.size, _))
  rw [← hr]
  exact .ok hm

theorem throwNew_compares (className : String) :
    (throwNew className).Compares K g (throwNew className) :=
  .bind (alloc_compares (.inst className .empty)) fun r => .stop (.throw r)

theorem instantiate_compares (env : Env) (className : String) :
    (instantiate env className).Compares K K.ref (instantiate env className) := by
  have hobj (fields : List FieldInfo) : (Obj.inst className
      (.ofList (fields.map fun f => (f.name, Value.default f.type)))).rename K.ref =
        .inst className (.ofList (fields.map fun f => (f.name, Value.default f.type))) := by
    simp [Obj.rename, Table.mapValues_ofList, List.map_map, Function.comp_def]
  rw [instantiate]
  have halloc := alloc_compares (K := K) (.inst className (.ofList
    (((((env.classChain className).flatMap (·.fields)).filterMap env.field?).filter
      (!·.isStatic)).map fun f => (f.name, Value.default f.type))))
  rw [hobj] at halloc
  exact halloc

theorem classOf_compares (r : Ref) : (classOf r).Compares K id (classOf (K.ref r)) :=
  .get fun {μ ν} hm => by
    have hclass : ν.heap.className? (K.ref r) = μ.heap.className? r := by
      rw [Heap.className?, Heap.className?, K.heap hm, Option.bind_map]
      exact Option.bind_congr fun o _ => o.className?_rename K.ref
    rw [hclass]
    exact .ok hm

theorem getField_compares (r : Ref) (name : String) :
    (getField r name).Compares K (Value.rename K.ref) (getField (K.ref r) name) := by
  refine .get fun {μ ν} hm => ?_
  rw [K.heap hm]
  rcases μ.heap[r]? with _ | ⟨c, fields⟩ | items
  · exact Compares.defect _ hm
  · simp only [Option.map_some, Obj.rename, Table.get?_mapValues]
    cases fields.get? name with
    | none => exact Compares.defect _ hm
    | some v => exact Compares.pure rfl hm
  · exact Compares.defect _ hm

theorem updateObj_compares (r : Ref) {f f' : Obj → Obj}
    (hf : ∀ o, (f o).rename K.ref = f' (o.rename K.ref)) :
    (updateObj r f).Compares K id (updateObj (K.ref r) f') :=
  .modify fun hm => K.update hm r f f' hf

theorem setField_compares (r : Ref) (name : String) (v : Value) :
    (setField r name v).Compares K id (setField (K.ref r) name (v.rename K.ref)) := by
  refine .get fun {μ ν} hm => ?_
  rw [K.heap hm]
  rcases μ.heap[r]? with _ | ⟨c, fields⟩ | items
  · exact Compares.defect _ hm
  · exact updateObj_compares r (fun o => o.rename_setField K.ref name v) hm
  · exact Compares.defect _ hm

theorem getStatic_compares (env : Env) (className name : String) :
    (getStatic env className name).Compares K (Value.rename K.ref)
      (getStatic env className name) := by
  refine .get fun {μ ν} hm => ?_
  rw [K.statics hm]
  refine Compares.pure ?_ hm
  cases μ.statics.get? (staticKey env className name) <;> rfl

theorem setStatic_compares {env : Env} {className name : String}
    (hkey : K.keys (staticKey env className name)) (v : Value) :
    (setStatic env className name v).Compares K id
      (setStatic env className name (v.rename K.ref)) :=
  .modify fun hm => K.write hm _ v hkey

theorem arrayLength_compares (r : Ref) :
    (arrayLength r).Compares K (Value.rename K.ref) (arrayLength (K.ref r)) := by
  refine .get fun {μ ν} hm => ?_
  rw [K.heap hm]
  rcases μ.heap[r]? with _ | ⟨c, fields⟩ | items
  · exact Compares.defect _ hm
  · exact Compares.defect _ hm
  · refine Compares.pure ?_ hm
    simp [Value.rename]

theorem position?_rename (items : Array Value) (i : Int64) :
    position? (items.map (Value.rename K.ref)) i = position? items i := by
  rw [position?, position?, Array.size_map]

theorem getItem_compares (r : Ref) (i : Int64) :
    (getItem r i).Compares K (Value.rename K.ref) (getItem (K.ref r) i) := by
  refine .get fun {μ ν} hm => ?_
  rw [K.heap hm]
  rcases μ.heap[r]? with _ | ⟨c, fields⟩ | items
  · exact Compares.defect _ hm
  · exact Compares.defect _ hm
  · simp only [Option.map_some, Obj.rename, position?_rename]
    cases position? items i with
    | none => exact throwNew_compares _ hm
    | some n =>
        refine Compares.pure ?_ hm
        simp only [Array.getD_eq_getD_getElem?, Array.getElem?_map]
        cases items[n]? <;> rfl

theorem setItem_compares (r : Ref) (i : Int64) (v : Value) :
    (setItem r i v).Compares K id (setItem (K.ref r) i (v.rename K.ref)) := by
  refine .get fun {μ ν} hm => ?_
  rw [K.heap hm]
  rcases μ.heap[r]? with _ | ⟨c, fields⟩ | items
  · exact Compares.defect _ hm
  · exact Compares.defect _ hm
  · simp only [Option.map_some, Obj.rename, position?_rename]
    cases position? items i with
    | none => exact throwNew_compares _ hm
    | some n => exact updateObj_compares r (fun o => o.rename_setItem K.ref n v) hm

theorem newArray_compares (elem : Ty) (length : Int64) :
    (newArray elem length).Compares K K.ref (newArray elem length) := by
  rw [newArray]
  split
  · exact throwNew_compares _
  · have halloc := alloc_compares (K := K)
      (.array (Array.replicate length.toInt.toNat (Value.default elem)))
    simpa [Obj.rename] using halloc

/-! ## Values -/

theorem asBool_compares (v : Value) :
    (asBool v).Compares K id (asBool (v.rename K.ref)) := by
  cases v <;> first | exact .pure rfl | exact .defect (.notBoolean _)

theorem asInt_compares (v : Value) : (asInt v).Compares K id (asInt (v.rename K.ref)) := by
  cases v <;> first | exact .pure rfl | exact .defect (.notInt _)

theorem asObject_compares (v : Value) :
    (asObject v).Compares K K.ref (asObject (v.rename K.ref)) := by
  cases v with
  | ref => exact .pure rfl
  | null => exact throwNew_compares _
  | int | bool | void => exact .defect (.notObject _)

theorem applyUnary_compares (op : UnaryOp) (v : Value) :
    (applyUnary op v).Compares K (Value.rename K.ref) (applyUnary op (v.rename K.ref)) := by
  cases op <;> cases v <;> first | exact .pure rfl | exact .defect (.unaryOperand _ _)

theorem applyInts_compares (op : BinaryOp) (a b : Int64) :
    (applyInts op a b).Compares K (Value.rename K.ref) (applyInts op a b) := by
  cases op with
  | add | sub | mul | lt | gt | ltEq | gtEq => exact .pure rfl
  | div | mod =>
      simp only [applyInts]
      split
      · exact throwNew_compares _
      · exact .pure rfl
  | eq | neq | and | or => exact .defect (.binaryOperands _ _ _)

/-- References are equal on the right exactly if those that they stand for are. -/
theorem beq_rename (l r : Value) : (l.rename K.ref == r.rename K.ref) = (l == r) := by
  rw [Bool.eq_iff_iff, beq_iff_eq, beq_iff_eq]
  exact (Value.rename_injective K.injective).eq_iff

theorem applyBinary_compares (op : BinaryOp) (l r : Value) :
    (applyBinary op l r).Compares K (Value.rename K.ref)
      (applyBinary op (l.rename K.ref) (r.rename K.ref)) := by
  have other (hop : op ≠ .eq) (hop' : op ≠ .neq) : (applyBinary op l r).Compares K
      (Value.rename K.ref) (applyBinary op (l.rename K.ref) (r.rename K.ref)) := by
    have ints (a b : Int64) : applyBinary op (.int a) (.int b) = applyInts op a b := by
      cases op <;> first | rfl | exact absurd rfl hop | exact absurd rfl hop'
    cases l with
    | int a =>
        cases r with
        | int b =>
            rw [Value.rename, Value.rename, ints]
            exact applyInts_compares op a b
        | _ => cases op <;> first
            | exact .defect (.binaryOperands _ _ _)
            | exact absurd rfl hop
            | exact absurd rfl hop'
    | _ => cases op <;> first
        | exact .defect (.binaryOperands _ _ _)
        | exact absurd rfl hop
        | exact absurd rfl hop'
  cases op with
  | eq => exact .pure (congrArg Value.bool (beq_rename l r))
  | neq => exact .pure (congrArg (Value.bool ∘ not) (beq_rename l r))
  | _ => exact other (by simp) (by simp)

/-! ## Expressions -/

variable {env : Env} {c d : Calls}

/-- A call that is watched, with the checks behind it. -/
theorem checkedCall_compares {x x' : Run Value} {y y' : Run Unit}
    (hx : x.Compares K (Value.rename K.ref) x') (hy : y.Compares K id y') :
    Compares K (Value.rename K.ref)
      (do
        match ← liftM x.run with
        | .ok v =>
          y
          return v
        | .error (.throw e) =>
          y
          stop (.throw e)
        | .error u => stop u)
      (do
        match ← liftM x'.run with
        | .ok v =>
          y'
          return v
        | .error (.throw e) =>
          y'
          stop (.throw e)
        | .error u => stop u) :=
  .watch hx (fun _ => .bind hy fun _ => .pure rfl) (fun e => .bind hy fun _ => .stop (.throw e))
    (fun u hu => by cases u <;> first | rfl | cases hu)
    fun u hu => by cases u <;> first | rfl | cases hu

theorem callMethod_compares (hc : c.Compares K d) (caller : DeclId) (site : SiteId)
    (method : DeclId) (this : Option Ref) (args : List Value) :
    (callMethod env c caller site method this args).Compares K (Value.rename K.ref)
      (callMethod env d caller site method (this.map K.ref) (args.map (Value.rename K.ref))) := by
  cases this with
  | none =>
      exact .bind (g := id) (.pure rfl) fun target =>
        checkedCall_compares (hc.invoke target none args) (hc.recheck caller site none args)
  | some r =>
      exact .bind (classOf_compares r) fun className => .bind (g := id) (.pure rfl) fun target =>
        checkedCall_compares (hc.invoke target (some r) args) (hc.recheck caller site (some r) args)

theorem construct_compares (hc : c.Compares K d) (caller : DeclId) (site : SiteId)
    (className : String) (ctor : DeclId) (args : List Value) :
    (construct env c caller site className ctor args).Compares K (Value.rename K.ref)
      (construct env d caller site className ctor (args.map (Value.rename K.ref))) :=
  .bind (instantiate_compares env className) fun r => .bind (hc.invoke ctor (some r) args) fun _ =>
    .bind (hc.recheck caller site (some r) args) fun _ => .pure rfl

mutual

theorem eval_compares (hc : c.Compares K d) (f : Frame) : ∀ e : Expr,
    (eval env c f e).Compares K (Value.rename K.ref) (eval env d (f.rename K.ref) e)
  | .int .. | .bool .. | .null .. | .result .. => by
    rw [eval, eval]
    exact .pure rfl
  | .old .. | .spread .. => by
    rw [eval, eval]
    exact .defect (.notEvaluable _)
  | .staticField .. => by
    rw [eval, eval]
    exact getStatic_compares env _ _
  | .this .. => by
    rw [eval, eval, Frame.rename]
    cases f.this with
    | none => exact .defect .thisOutsideObject
    | some r => exact .pure rfl
  | .var _ _ name => by
    rw [eval, eval, Frame.rename, Scopes.get?_rename]
    cases f.scopes.get? name with
    | none => exact .defect (.unboundVariable name)
    | some v => exact .pure rfl
  | .param _ _ i name => by
    rw [eval, eval, Frame.rename, List.getElem?_map]
    cases f.args[i]? with
    | none => exact .defect (.missingArgument name)
    | some v => exact .pure rfl
  | .slot _ _ n => by
    rw [eval, eval, Frame.rename, Table.get?_mapValues]
    cases f.slots.get? n with
    | none => exact .defect (.emptySlot _)
    | some v => exact .pure rfl
  | .field _ _ o name => by
    rw [eval, eval]
    exact .bind (eval_compares hc f o) fun v => .bind (asObject_compares v) fun r =>
      getField_compares r name
  | .length _ a => by
    rw [eval, eval]
    exact .bind (eval_compares hc f a) fun v => .bind (asObject_compares v) arrayLength_compares
  | .index _ _ a i => by
    rw [eval, eval]
    exact .bind (eval_compares hc f a) fun v => .bind (asObject_compares v) fun r =>
      .bind (eval_compares hc f i) fun w => .bind (asInt_compares w) fun n => getItem_compares r n
  | .binary _ op l r => by
    have hl := eval_compares hc f l
    have hr := eval_compares hc f r
    cases op with
    | and =>
        rw [eval, eval]
        exact .bind hl fun v => .bind (asBool_compares v) fun b =>
          .ite (.bind hr fun w => .bind (asBool_compares w) fun _ => .pure rfl) (.pure rfl)
    | or =>
        rw [eval, eval]
        exact .bind hl fun v => .bind (asBool_compares v) fun b =>
          .ite (.pure rfl) (.bind hr fun w => .bind (asBool_compares w) fun _ => .pure rfl)
    | _ =>
        simp only [eval]
        exact .bind hl fun v => .bind hr fun w => applyBinary_compares _ v w
  | .unary _ op e => by
    rw [eval, eval]
    exact .bind (eval_compares hc f e) fun v => applyUnary_compares op v
  | .call _ _ site receiver m _ args => by
    rw [eval, eval]
    exact .bind (evalReceiver_compares hc f receiver) fun this =>
      .bind (evalAll_compares hc f args) fun vs => callMethod_compares hc f.decl site m this vs
  | .new _ site className ctor args => by
    rw [eval, eval]
    exact .bind (evalAll_compares hc f args) fun vs =>
      construct_compares hc f.decl site className ctor vs
  | .newArray _ elem len => by
    rw [eval, eval]
    exact .bind (eval_compares hc f len) fun v => .bind (asInt_compares v) fun n =>
      .bind (newArray_compares elem n) fun _ => .pure rfl

theorem evalReceiver_compares (hc : c.Compares K d) (f : Frame) : ∀ e : Option Expr,
    (evalReceiver env c f e).Compares K (Option.map K.ref)
      (evalReceiver env d (f.rename K.ref) e)
  | none => by
    rw [evalReceiver, evalReceiver]
    exact .pure rfl
  | some e => by
    rw [evalReceiver, evalReceiver]
    exact .bind (eval_compares hc f e) fun v => .bind (asObject_compares v) fun _ => .pure rfl

theorem evalAll_compares (hc : c.Compares K d) (f : Frame) : ∀ es : List Expr,
    (evalAll env c f es).Compares K (List.map (Value.rename K.ref))
      (evalAll env d (f.rename K.ref) es)
  | [] => by
    rw [evalAll, evalAll]
    exact .pure rfl
  | e :: es => by
    rw [evalAll, evalAll]
    exact .bind (eval_compares hc f e) fun _ => .bind (evalAll_compares hc f es) fun _ => .pure rfl

end

/-! ## Statements -/

open RunWith.Compares (Flows)

/-- The static fields that are written are among those that the comparison knows of. -/
def WritesIn (K : Comparison) (env : Env) (writes : List (String × String)) : Prop :=
  ∀ w ∈ writes, K.keys (staticKey env w.1 w.2)

theorem WritesIn.left {ws vs : List (String × String)} (h : WritesIn K env (ws ++ vs)) :
    WritesIn K env ws := fun w hw => h w (List.mem_append_left _ hw)

theorem WritesIn.right {ws vs : List (String × String)} (h : WritesIn K env (ws ++ vs)) :
    WritesIn K env vs := fun w hw => h w (List.mem_append_right _ hw)

theorem inScope_eval_compares (hc : c.Compares K d) (f : Frame) (e : Expr) :
    (inScope f (eval env c · e)).Compares K (Scopes.rename K.ref) (Value.rename K.ref)
      (inScope (f.rename K.ref) (eval env d · e)) :=
  .inScope fun scopes => eval_compares hc { f with scopes } e

theorem evalOr_compares (hc : c.Compares K d) (f : Frame) {absent : Value}
    (habsent : absent.rename K.ref = absent) (e : Option Expr) :
    (evalOr env c f absent e).Compares K (Scopes.rename K.ref) (Value.rename K.ref)
      (evalOr env d (f.rename K.ref) absent e) := by
  cases e with
  | none => exact .pure habsent.symm
  | some e => exact inScope_eval_compares hc f e

theorem evalBool_compares (hc : c.Compares K d) (f : Frame) (e : Expr) :
    (inScope f (evalBool env c · e)).Compares K (Scopes.rename K.ref) id
      (inScope (f.rename K.ref) (evalBool env d · e)) :=
  .inScope fun scopes => .bind (eval_compares hc { f with scopes } e) asBool_compares

theorem evalInt_compares (hc : c.Compares K d) (f : Frame) (e : Expr) :
    (inScope f (evalInt env c · e)).Compares K (Scopes.rename K.ref) id
      (inScope (f.rename K.ref) (evalInt env d · e)) :=
  .inScope fun scopes => .bind (eval_compares hc { f with scopes } e) asInt_compares

theorem evalObject_compares (hc : c.Compares K d) (f : Frame) (e : Expr) :
    (inScope f (evalObject env c · e)).Compares K (Scopes.rename K.ref) K.ref
      (inScope (f.rename K.ref) (evalObject env d · e)) :=
  .inScope fun scopes => .bind (eval_compares hc { f with scopes } e) asObject_compares

theorem assign_compares (name : String) (v : Value) :
    (assign name v).Compares K (Scopes.rename K.ref) id (assign name (v.rename K.ref)) := by
  refine .state fun s => ?_
  rw [Scopes.assign?_rename]
  cases s.assign? name v with
  | none => exact .keep (.defect (.unboundAssignment name))
  | some s' => exact .write rfl

mutual

theorem exec_compares (hc : c.Compares K d) (f : Frame) :
    ∀ s : Stmt, WritesIn K env s.staticWrites →
    Flows K (exec env c f s) (exec env d (f.rename K.ref) s)
  | .declare _ type name value, _ => by
    rw [exec, exec]
    exact .bind (evalOr_compares hc f (Value.rename_default K.ref type) value) fun v =>
      .bind (.modifyThe fun s => (s.rename_declare K.ref name v).symm) fun _ => .pure rfl
  | .setVar _ name value, _ => by
    rw [exec, exec]
    exact .bind (inScope_eval_compares hc f value) fun v => .bind (assign_compares name v) fun _ =>
      .pure rfl
  | .setField _ o name value, _ => by
    rw [exec, exec]
    exact .bind (evalObject_compares hc f o) fun r =>
      .bind (inScope_eval_compares hc f value) fun v =>
        .bind (.keep (setField_compares r name v)) fun _ => .pure rfl
  | .setStatic _ className name value, h => by
    rw [exec, exec]
    exact .bind (inScope_eval_compares hc f value) fun v =>
      .bind (.keep (setStatic_compares (h _ List.mem_cons_self) v)) fun _ => .pure rfl
  | .setIndex _ a i value, _ => by
    rw [exec, exec]
    exact .bind (evalObject_compares hc f a) fun r => .bind (evalInt_compares hc f i) fun n =>
      .bind (inScope_eval_compares hc f value) fun v =>
        .bind (.keep (setItem_compares r n v)) fun _ => .pure rfl
  | .expr _ value, _ => by
    rw [exec, exec]
    exact .bind (inScope_eval_compares hc f value) fun _ => .pure rfl
  | .branch _ condition a b, h => by
    rw [exec, exec]
    exact .bind (evalBool_compares hc f condition) fun _ =>
      .ite (.inBlock rfl (exec_compares hc f a h.left)) (execElse_compares hc f b h.right)
  | .loop _ condition body, h => by
    rw [exec, exec, ← hc.rounds]
    exact .iterate (evalBool_compares hc f condition) (.inBlock rfl (exec_compares hc f body h)) _
  | .ret _ value, _ => by
    rw [exec, exec]
    exact .bind (evalOr_compares hc f rfl value) fun _ => .pure rfl
  | .throw _ value, _ => by
    rw [exec, exec]
    exact .bind (evalObject_compares hc f value) fun r => .keep (.stop (.throw r))
  | .superCall .., _ => by
    rw [exec, exec]
    exact .pure rfl
  | .attempt _ body handlers cleanup, h => by
    rw [exec, exec]
    refine .withCleanup (.catching (.inBlock rfl (execAll_compares hc f body h.left)) fun e => ?_)
      (execCleanup_compares hc f cleanup h.right.right)
    exact .bind (.keep (classOf_compares e)) fun className =>
      execHandlers_compares hc f e className handlers h.right.left
  | .block _ body, h => by
    rw [exec, exec]
    exact .inBlock rfl (execAll_compares hc f body h)

theorem execAll_compares (hc : c.Compares K d) (f : Frame) :
    ∀ ss : List Stmt, WritesIn K env (Typed.stmtsStaticWrites ss) →
    Flows K (execAll env c f ss) (execAll env d (f.rename K.ref) ss)
  | [], _ => by
    rw [execAll, execAll]
    exact .pure rfl
  | s :: rest, h => by
    rw [execAll, execAll]
    refine .bind (exec_compares hc f s h.left) fun flow => ?_
    cases flow with
    | normal => exact execAll_compares hc f rest h.right
    | ret v span => exact .pure rfl

theorem execElse_compares (hc : c.Compares K d) (f : Frame) :
    ∀ s : Option Stmt, WritesIn K env (Typed.elseStaticWrites s) →
    Flows K (execElse env c f s) (execElse env d (f.rename K.ref) s)
  | none, _ => by
    rw [execElse, execElse]
    exact .pure rfl
  | some s, h => by
    rw [execElse, execElse]
    exact .inBlock rfl (exec_compares hc f s h)

theorem execHandlers_compares (hc : c.Compares K d) (f : Frame) (e : Ref) (className : String) :
    ∀ hs : List Handler, WritesIn K env (Typed.handlersStaticWrites hs) →
    Flows K (execHandlers env c f e className hs)
      (execHandlers env d (f.rename K.ref) (K.ref e) className hs)
  | [], _ => by
    rw [execHandlers, execHandlers]
    exact .keep (.stop (.throw e))
  | .mk _ var body :: rest, h => by
    rw [execHandlers, execHandlers]
    have hvar := Table.mapValues_ofList (Value.rename K.ref) [(var, Value.ref e)]
    exact .ite (.inBlock hvar.symm (execAll_compares hc f body h.left))
      (execHandlers_compares hc f e className rest h.right)

theorem execCleanup_compares (hc : c.Compares K d) (f : Frame) : ∀ b : Option (List Stmt),
    WritesIn K env (Typed.cleanupStaticWrites b) →
    Flows K (execCleanup env c f b) (execCleanup env d (f.rename K.ref) b)
  | none, _ => by
    rw [execCleanup, execCleanup]
    exact .pure rfl
  | some body, h => by
    rw [execCleanup, execCleanup]
    exact .inBlock rfl (execAll_compares hc f body h)

end

end Run

end Covenant
