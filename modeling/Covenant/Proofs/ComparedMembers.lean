import Covenant.Proofs.ComparedTerms
import Covenant.Proofs.FirstRaised

/-!
# Members beside themselves

A member that is invoked on machines that correspond, with the same arguments up
to the names of references, ends alike: so do its checks and its body, and so by
induction does what happens behind any call. The limits on calls may differ if
the run on the left may be cut off, as long as the one on the left is smaller.
-/

namespace Covenant.Run

open RunWith.Compares (Flows)
open Typed (Expr Stmt Handler)

variable {K : Comparison} {α β : Type} {g : α → β} {env : Env} {c d : Calls}

/-! ## Checks -/

theorem holds_compares (hc : c.Compares K d) (f : Frame) (clause : BoundClause) :
    (holds env c f clause).Compares K id (holds env d (f.rename K.ref) clause) := by
  refine .bind (eval_compares hc f clause.expr) fun v => ?_
  cases v with
  | bool b => exact .pure rfl
  | int | ref | null | void => exact .defect (.notBooleanClause clause.text)

theorem firstFalse_compares (hc : c.Compares K d) (f : Frame) (clauses : List BoundClause) :
    (firstFalse env c f clauses).Compares K id (firstFalse env d (f.rename K.ref) clauses) := by
  induction clauses with
  | nil => exact .pure rfl
  | cons clause clauses ih =>
      exact .bind (holds_compares hc f clause) fun _ => .ite ih (.pure rfl)

theorem failures_compares (hc : c.Compares K d) (f : Frame) (groups : List (List BoundClause)) :
    (failures env c f groups).Compares K id (failures env d (f.rename K.ref) groups) := by
  induction groups with
  | nil => exact .pure rfl
  | cons group groups ih =>
      refine .bind (firstFalse_compares hc f group) fun r => ?_
      cases r with
      | none => exact .pure rfl
      | some clause => exact .bind ih fun _ => .pure rfl

theorem checkPrecondition_compares (hc : c.Compares K d) (f : Frame)
    (groups : List (List BoundClause)) :
    (checkPrecondition env c f groups).Compares K id
      (checkPrecondition env d (f.rename K.ref) groups) := by
  refine .bind (failures_compares hc f groups) fun r => ?_
  cases r with
  | none => exact .pure rfl
  | some failed => exact .stop (.violation _)

theorem checkPostcondition_compares (hc : c.Compares K d) (f : Frame)
    (clauses : List BoundClause) :
    (checkPostcondition env c f clauses).Compares K id
      (checkPostcondition env d (f.rename K.ref) clauses) := by
  refine .bind (firstFalse_compares hc f clauses) fun r => ?_
  cases r with
  | none => exact .pure rfl
  | some clause => exact .stop (.violation _)

theorem held_mapValues (ρ : Ref → Ref) (slots : Slots) :
    ThrowsCheck.held (slots.mapValues (Value.rename ρ)) = ThrowsCheck.held slots := by
  funext t
  rw [ThrowsCheck.held, ThrowsCheck.held, Table.get?_mapValues]
  rcases slots.get? t.slot with _ | _ | _ | _ | _ | _ <;> rfl

theorem unknown_mapValues (ρ : Ref → Ref) (slots : Slots) :
    ThrowsCheck.unknown (slots.mapValues (Value.rename ρ)) = ThrowsCheck.unknown slots := by
  funext t
  rw [ThrowsCheck.unknown, ThrowsCheck.unknown, Table.get?_mapValues, Option.isNone_map]

/-- Which clause about exceptions is broken does not depend on references. -/
theorem brokenThrows?_mapValues (ρ : Ref → Ref) (slots : Slots) (thrown : Option String)
    (checks : List ThrowsCheck) (mayThrow : List String) :
    brokenThrows? env (slots.mapValues (Value.rename ρ)) thrown checks mayThrow =
      brokenThrows? env slots thrown checks mayThrow := by
  simp only [brokenThrows?, held_mapValues, unknown_mapValues]

theorem checkThrows_compares (f : Frame) (checks : List ThrowsCheck) (mayThrow : List String) :
    (checkThrows env f checks mayThrow).Compares K id
      (checkThrows env (f.rename K.ref) checks mayThrow) := by
  have hslots : (f.rename K.ref).slots = f.slots.mapValues (Value.rename K.ref) := rfl
  have hthrown : (f.rename K.ref).thrown = f.thrown.map K.ref := rfl
  rw [checkThrows, checkThrows, hthrown, hslots]
  cases f.thrown with
  | none =>
      refine .bind (g := id) (.pure rfl) fun thrown => ?_
      dsimp only [id]
      rw [brokenThrows?_mapValues]
      cases brokenThrows? env f.slots thrown checks mayThrow with
      | none => exact .pure rfl
      | some broken => exact .stop (.violation _)
  | some e =>
      refine .bind (g := id) (.bind (classOf_compares e) fun _ => .pure rfl)
        fun thrown => ?_
      dsimp only [id]
      rw [brokenThrows?_mapValues]
      cases brokenThrows? env f.slots thrown checks mayThrow with
      | none => exact .pure rfl
      | some broken => exact .stop (.violation _)

section

variable (hc : c.Compares K d) (f : Frame)

include hc

theorem store_compares (es : List Expr) (n : Nat) :
    RunWith.Compares K (Table.mapValues (Value.rename K.ref)) id (store env c f n es)
      (store env d (f.rename K.ref) n es) := by
  induction es generalizing n with
  | nil => exact .pure rfl
  | cons e es ih =>
      refine .bind (.withSlots fun slots => eval_compares hc { f with slots } e) fun v => ?_
      refine .bind (.modifyThe fun slots => ?_) fun _ => ih (n + 1)
      exact (Table.mapValues_insert _ slots n v).symm

theorem runCode_compares (code : CheckCode) :
    RunWith.Compares K (Table.mapValues (Value.rename K.ref)) id (runCode env c f code)
      (runCode env d (f.rename K.ref) code) := by
  cases code with
  | snapshot s => exact store_compares hc f s.slots 0
  | precondition groups =>
      rw [runCode, runCode]
      exact .withSlots fun slots => checkPrecondition_compares hc { f with slots } groups
  | postcondition clauses =>
      rw [runCode, runCode]
      exact .withSlots fun slots => checkPostcondition_compares hc { f with slots } clauses
  | throws checks mayThrow =>
      rw [runCode, runCode]
      exact .withSlots fun slots => checkThrows_compares { f with slots } checks mayThrow
  | reverify => exact .pure rfl

theorem runCodes_compares (codes : List CheckCode) :
    RunWith.Compares K (Table.mapValues (Value.rename K.ref)) id (runCodes env c f codes)
      (runCodes env d (f.rename K.ref) codes) := by
  induction codes with
  | nil => exact .pure rfl
  | cons code codes ih => exact .bind (runCode_compares hc f code) fun _ => ih

end

/-! ## Paths -/

theorem callAccessor_compares (hc : c.Compares K d) (r : Ref) (name : String) :
    (callAccessor env c r name).Compares K (Value.rename K.ref)
      (callAccessor env d (K.ref r) name) := by
  refine .bind (classOf_compares r) fun className => ?_
  rw [id]
  split
  · next m _ => exact hc.invoke (env.dispatch className m.id) (some r) []
  · exact .defect (.noAccessor name className)

theorem stepFrom_compares (hc : c.Compares K d) (r : Ref) (s : Effect.Step) :
    (stepFrom env c r s).Compares K (List.map (Value.rename K.ref))
      (stepFrom env d (K.ref r) s) := by
  cases s with
  | field name => exact .bind (getField_compares r name) fun _ => .pure rfl
  | accessor name => exact .bind (callAccessor_compares hc r name) fun _ => .pure rfl
  | elements =>
      refine .get fun {μ ν} hm => ?_
      rw [K.heap hm]
      rcases μ.heap[r]? with _ | ⟨c, fields⟩ | items
      · exact Compares.pure rfl hm
      · exact Compares.pure rfl hm
      · exact Compares.pure Array.toList_map hm

theorem stepFromAll_compares (hc : c.Compares K d) (s : Effect.Step) (vs : List Value) :
    (stepFromAll env c s vs).Compares K (List.map (Value.rename K.ref))
      (stepFromAll env d s (vs.map (Value.rename K.ref))) := by
  induction vs with
  | nil => exact .pure rfl
  | cons v vs ih =>
      cases v with
      | ref r =>
          exact .bind (stepFrom_compares hc r s) fun _ => .bind ih fun _ =>
            .pure List.map_append.symm
      | int | bool | null | void => exact ih

theorem walk_compares (hc : c.Compares K d) (steps : List Effect.Step) (vs : List Value) :
    (walk env c steps vs).Compares K (List.map (Value.rename K.ref))
      (walk env d steps (vs.map (Value.rename K.ref))) := by
  induction steps generalizing vs with
  | nil => exact .pure rfl
  | cons s steps ih => exact .bind (stepFromAll_compares hc s vs) ih

/-- A path starts at the same values, and has the same steps left. -/
theorem startOf_compares (p : Effect.Path) (this : Option Ref) (args : List Value) :
    (startOf env p this args).Compares K
      (fun start => (start.1.map (Value.rename K.ref), start.2))
      (startOf env p (this.map K.ref) (args.map (Value.rename K.ref))) := by
  rw [startOf, startOf]
  split
  · refine .pure ?_
    cases this <;> rfl
  · next i steps =>
      refine .pure ?_
      rw [List.getElem?_map]
      cases args[i]? <;> rfl
  · next className name steps _ _ =>
      refine .get fun {μ ν} hm => ?_
      rw [K.statics hm]
      refine Compares.pure ?_ hm
      cases μ.statics.get? (staticKey env className name) <;> rfl
  · exact .pure rfl

theorem filterMap_ref?_rename (ρ : Ref → Ref) (vs : List Value) :
    (vs.map (Value.rename ρ)).filterMap Value.ref? = (vs.filterMap Value.ref?).map ρ := by
  rw [List.filterMap_map, List.map_filterMap]
  exact congrArg (List.filterMap · vs) (funext (Value.ref?_rename ρ))

theorem reach_compares (hc : c.Compares K d) (p : Effect.Path) (this : Option Ref)
    (args : List Value) :
    (reach env c p this args).Compares K (List.map K.ref)
      (reach env d p (this.map K.ref) (args.map (Value.rename K.ref))) :=
  .bind (startOf_compares p this args) fun start =>
    .bind (walk_compares hc start.2 start.1) fun vs => .pure (filterMap_ref?_rename K.ref vs)

theorem checkObjects_compares (hc : c.Compares K d) (site : SiteId) (o : Obligation)
    (rs : List Ref) :
    (checkObjects env c site o rs).Compares K id (checkObjects env d site o (rs.map K.ref)) := by
  induction rs with
  | nil => exact .pure rfl
  | cons r rs ih =>
      exact .bind (holds_compares hc (Frame.start o.clause.origin (some r) []) o.clause) fun _ =>
        .ite ih (.stop (.violation _))

theorem checkObligations_compares (hc : c.Compares K d) (site : SiteId) (this : Option Ref)
    (args : List Value) (os : List Obligation) :
    (checkObligations env c site this args os).Compares K id
      (checkObligations env d site (this.map K.ref) (args.map (Value.rename K.ref)) os) := by
  induction os with
  | nil => exact .pure rfl
  | cons o os ih =>
      exact .bind (reach_compares hc o.object this args) fun rs =>
        .bind (checkObjects_compares hc site o rs) fun _ => ih

/-! ## Members -/

/-- The bodies of an environment write static fields that the comparison knows of. -/
def BodiesWriteIn (K : Comparison) (env : Env) : Prop :=
  ∀ id body, env.body? id = some body → WritesIn K env (Typed.stmtsStaticWrites body)

theorem BodiesWriteIn.getD (hw : BodiesWriteIn K env) (id : DeclId) :
    WritesIn K env (Typed.stmtsStaticWrites ((env.body? id).getD [])) := by
  cases hb : env.body? id with
  | none => exact fun _ hw => absurd hw List.not_mem_nil
  | some body => exact hw id body hb

section

variable (hc : c.Compares K d) (hw : BodiesWriteIn K env)

include hc hw

theorem runInitItem_compares (this : Ref) (item : InitItem) :
    (runInitItem env c this item).Compares K id (runInitItem env d (K.ref this) item) := by
  cases item with
  | field id =>
      rw [runInitItem, runInitItem]
      split
      · next field init _ _ =>
          exact .bind (eval_compares hc (Frame.start id (some this) []) init) fun v =>
            setField_compares this field.name v
      · exact .pure rfl
  | block id =>
      exact .watchFrom (execAll_compares hc (Frame.start id (some this) []) _ (hw.getD id)) rfl
        (fun _ _ => .pure rfl) (fun e _ => .stop (.throw e)) (fun _ _ _ => rfl) fun _ _ _ => rfl

theorem runInitItems_compares (this : Ref) (items : List InitItem) :
    (runInitItems env c this items).Compares K id (runInitItems env d (K.ref this) items) := by
  induction items with
  | nil => exact .pure rfl
  | cons item items ih => exact .bind (runInitItem_compares hc hw this item) fun _ => ih

theorem runInitializers_compares (this : Ref) (className : String) :
    (runInitializers env c this className).Compares K id
      (runInitializers env d (K.ref this) className) := by
  rw [runInitializers, runInitializers]
  split
  · next info _ => exact runInitItems_compares hc hw this info.initOrder
  · exact .pure rfl

omit hw in
theorem runSuperDefault_compares (this : Ref) (className : String) :
    (runSuperDefault env c this className).Compares K id
      (runSuperDefault env d (K.ref this) className) := by
  rw [runSuperDefault, runSuperDefault]
  split
  · exact .pure rfl
  · next s _ =>
      split
      · next ctor _ => exact .bind (hc.invoke ctor.id (some this) []) fun _ => .pure rfl
      · exact .defect (.noDefaultConstructor s)

omit hw in
/-- What follows the first part of a constructor has to be compared for its body only, and for what
the body goes on with behind the call of another constructor. -/
theorem runSuper_compares (f : Frame) (this : Ref) (className : String) {body : List Stmt}
    (hbody : WritesIn K env (Typed.stmtsStaticWrites body))
    {k k' : List Stmt → RunWith Scopes Flow}
    (hk : ∀ rest, WritesIn K env (Typed.stmtsStaticWrites rest) → Flows K (k rest) (k' rest)) :
    Flows K (runSuper env c f this className body >>= k)
      (runSuper env d (f.rename K.ref) (K.ref this) className body >>= k') := by
  have plain : Flows K
      ((do keep (runSuperDefault env c this className); return body) >>= k)
      ((do keep (runSuperDefault env d (K.ref this) className); return body) >>= k') := by
    rw [bind_assoc, bind_assoc]
    exact .bind (.keep (runSuperDefault_compares hc this className)) fun _ => by
      rw [pure_bind, pure_bind]
      exact hk body hbody
  cases body with
  | nil => exact plain
  | cons s rest =>
      cases s with
      | superCall span site ctor args =>
          rw [runSuper, runSuper, bind_assoc, bind_assoc]
          refine .bind (.inScope fun scopes =>
            evalAll_compares hc { f with scopes } args) fun vs => ?_
          rw [bind_assoc, bind_assoc]
          refine .bind (.keep (hc.invoke ctor (some this) vs)) fun _ => ?_
          rw [pure_bind, pure_bind]
          exact hk rest hbody.right
      | _ => exact plain

variable (f : Frame)

theorem runConstructor_compares (m : MethodInfo) :
    Flows K (runConstructor env c f m) (runConstructor env d (f.rename K.ref) m) := by
  rw [runConstructor, runConstructor]
  have hthis : (f.rename K.ref).this = f.this.map K.ref := rfl
  rw [hthis]
  cases f.this with
  | none => exact .keep (.defect .constructorWithoutObject)
  | some this =>
      refine runSuper_compares hc f this m.owner (hw.getD m.id) fun rest hrest => ?_
      exact .bind (.keep (runInitializers_compares hc hw this m.owner)) fun _ =>
        execAll_compares hc f rest hrest

theorem runMethod_compares (m : MethodInfo) :
    Flows K (runMethod env c f m) (runMethod env d (f.rename K.ref) m) := by
  rw [runMethod, runMethod]
  split
  · next body hb =>
      refine execAll_compares hc f body (hw m.id body ?_)
      split at hb
      · exact hb
      · cases hb
  · refine .keep ?_
    have hthis : (f.rename K.ref).this = f.this.map K.ref := rfl
    rw [hthis]
    cases f.this with
    | none => exact .stop (.fatal (.noImplementation _ _))
    | some r => exact .bind (classOf_compares r) fun _ => .stop (.fatal (.noImplementation _ _))

theorem runBody_compares (m : MethodInfo) :
    Flows K (runBody env c f m) (runBody env d (f.rename K.ref) m) :=
  .ite (runConstructor_compares hc hw f m) (runMethod_compares hc hw f m)

end

section

variable {p : WovenProgram} (hc : c.Compares K d)

include hc

theorem leaveNormally_compares (f : Frame) (flow : Flow) :
    (leave p c f (.ok flow)).Compares K (Value.rename K.ref)
      (leave p d (f.rename K.ref) (.ok (flow.rename K.ref))) := by
  rw [leave, leave, ← Frame.rename_returning K.ref f flow]
  exact .watchFrom (runCodes_compares hc (Frame.returning f flow) _) rfl
    (fun _ _ => .pure rfl) (fun e _ => .stop (.throw e)) (fun _ _ _ => rfl) fun _ _ _ => rfl

theorem leaveThrowing_compares (f : Frame) (e : Ref) :
    (leave p c f (.error (.throw e))).Compares K (Value.rename K.ref)
      (leave p d (f.rename K.ref) (.error (.throw (K.ref e)))) :=
  .watchFrom (runCodes_compares hc { f with thrown := some e } _) rfl
    (fun _ _ => .stop (.throw e)) (fun e _ => .stop (.throw e)) (fun _ _ _ => rfl) fun _ _ _ => rfl

theorem activate_compares (hw : BodiesWriteIn K p.env) (m : MethodInfo) (this : Option Ref)
    (args : List Value) :
    (activate p c m this args).Compares K (Value.rename K.ref)
      (activate p d m (this.map K.ref) (args.map (Value.rename K.ref))) := by
  have hscopes : paramScopes m (args.map (Value.rename K.ref)) =
      Scopes.rename K.ref (paramScopes m args) := by
    rw [paramScopes, paramScopes, Scopes.rename, List.map_singleton, Table.mapValues_ofList,
      List.zip_map_right]
    rfl
  rw [activate, activate, hscopes]
  refine .watchFrom
    (runCodes_compares hc { Frame.start m.id this args with scopes := paramScopes m args } _) rfl
    (fun _ slots => ?_) (fun e slots => ?_)
    (fun _ _ hu => leave_uncatchable _ p hu) fun _ _ hu => leave_uncatchable _ p hu
  · exact .watchFrom (runBody_compares hc hw
        { Frame.start m.id this args with scopes := paramScopes m args, slots } m) rfl
      (fun flow scopes => leaveNormally_compares hc
        { Frame.start m.id this args with scopes, slots } flow)
      (fun e scopes => leaveThrowing_compares hc
        { Frame.start m.id this args with scopes, slots } e)
      (fun _ _ hu => leave_uncatchable _ p hu) fun _ _ hu => leave_uncatchable _ p hu
  · exact leaveThrowing_compares hc
      { Frame.start m.id this args with scopes := paramScopes m args, slots } e

/-- An invocation may be cut off on the left where the limit is smaller there. -/
theorem invokeWith_compares (hw : BodiesWriteIn K p.env) {limit limit' : Nat}
    (hl : limit = limit' ∨ limit ≤ limit' ∧ K.lenient) (id : DeclId) (this : Option Ref)
    (args : List Value) :
    (invokeWith p limit c id this args).Compares K (Value.rename K.ref)
      (invokeWith p limit' d id (this.map K.ref) (args.map (Value.rename K.ref))) := by
  rw [invokeWith, invokeWith]
  split
  · exact .defect (.unknownMember id)
  · next m _ =>
      refine .get fun {μ ν} hm => ?_
      rw [K.depth hm]
      have inside := (activate_compares (p := p) hc hw m this args).deeper hm
      rcases hl with rfl | ⟨hle, hlen⟩
      · split
        · exact Compares.fatal (.recursionLimit m.qualifiedName limit) hm
        · exact inside
      · by_cases hμ : limit ≤ μ.depth
        · rw [if_pos hμ]
          exact .cut hlen
        · rw [if_neg hμ, if_neg (by omega)]
          exact inside

end

/-! ## Runs -/

theorem calls_compares {p : WovenProgram} (hw : BodiesWriteIn K p.env) {limit limit' : Nat}
    (hl : limit = limit' ∨ limit ≤ limit' ∧ K.lenient) (n : Nat) :
    (calls p limit n).Compares K (calls p limit' n) := by
  induction n with
  | zero => exact ⟨fun _ _ _ => .exhausted, fun _ _ _ _ => .exhausted, rfl⟩
  | succ n ih =>
      exact ⟨invokeWith_compares ih hw hl,
        fun _ site this args => checkObligations_compares ih site this args _, rfl⟩

theorem evalStatics_compares (hc : c.Compares K d) : ∀ fs : List FieldInfo,
    (∀ f ∈ fs, K.keys (f.owner, f.name)) →
    (evalStatics env c fs).Compares K id (evalStatics env d fs)
  | [], _ => .pure rfl
  | f :: fs, h => by
    have ih := evalStatics_compares hc fs fun g hg => h g (.tail f hg)
    rw [evalStatics, evalStatics]
    split
    · next init _ =>
        exact .bind (eval_compares hc (Frame.start f.id none []) init) fun v =>
          .bind (.modify fun hm => K.write hm _ v (h f (.head fs))) fun _ => ih
    · exact ih

/-- The machine when a run has begun: every static field has the value of its type. -/
def reset (env : Env) (μ : Machine) : Machine := { μ with
  statics := μ.statics.insertAll
    ((staticFields env).map fun f => ((f.owner, f.name), Value.default f.type)) }

/-- Two runs from an entry point end alike if the machines correspond once both have begun. -/
theorem runFrom_compares (hc : c.Compares K d)
    (hkeys : ∀ f ∈ staticFields env, K.keys (f.owner, f.name)) (main : DeclId) {μ ν : Machine}
    (hm : K.machine (reset env μ) (reset env ν)) :
    K.Related K.machine (Value.rename K.ref) ((runFrom env c main).ends μ)
      ((runFrom env d main).ends ν) := by
  have hrest : Compares K (Value.rename K.ref)
      (evalStatics env c (staticFields env) >>= fun _ => c.invoke main none [])
      (evalStatics env d (staticFields env) >>= fun _ => d.invoke main none []) :=
    .bind (evalStatics_compares hc _ hkeys) fun _ => hc.invoke main none []
  exact hrest hm

end Covenant.Run
