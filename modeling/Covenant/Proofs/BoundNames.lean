import Covenant.Proofs.CallScopes
import Covenant.Proofs.Chronicles
import Covenant.Proofs.Tables
import Mathlib.Data.Set.Insert

/-!
# The names that are bound in a run

Of the variables in the scopes of a frame only the names are looked at here. A
statement leaves all of them as they are, however it ends; only a declaration that
ends normally binds its name in the innermost scope. Behind a list of statements
the innermost scope may bind more, and the scopes around it are the same, so a block
that takes its own scope away leaves everything as it was. Nothing of this depends
on the program being checked.

For a checked program the names are those that the checker had in scope, each of
them in one scope: what is declared has a name that was not in scope.
-/

namespace Covenant

open Typed (Expr Stmt Handler)

variable {α β : Type}

/-- The names that have a value in a table. -/
def Table.bound (vars : Table String Value) : Set String := {x | vars.contains x = true}

namespace Table

variable {vars : Table String Value} {x : String}

theorem mem_bound : x ∈ vars.bound ↔ vars.contains x = true := Iff.rfl

theorem bound_empty : (empty : Table String Value).bound = ∅ := by
  ext x
  rw [mem_bound, contains, get?_empty]
  exact iff_of_false Bool.false_ne_true (Set.notMem_empty x)

theorem bound_insert (vars : Table String Value) (name : String) (v : Value) :
    (vars.insert name v).bound = Insert.insert name vars.bound := by
  ext x
  rw [mem_bound, contains_insert, Bool.or_eq_true, decide_eq_true_eq, eq_comm, Set.mem_insert_iff,
    mem_bound]

theorem bound_ofList (es : List (String × Value)) :
    (ofList es).bound = {x | x ∈ es.map (·.1)} := by
  ext x
  rw [mem_bound, contains, ofList]
  by_cases hx : x ∈ es.map (·.1)
  · obtain ⟨e, he, rfl⟩ := List.mem_map.mp hx
    obtain ⟨w, hw, _⟩ := exists_get?_insertAll (t := .empty) he
    rw [hw]
    exact iff_of_true rfl hx
  · rw [get?_insertAll_of_not_mem hx]
    exact iff_of_false Bool.false_ne_true hx

end Table

/-- The names that each scope binds, the innermost first. -/
def Scopes.names (s : Scopes) : List (Set String) := s.map Table.bound

/-- One more name in the innermost scope. -/
def bindInner (name : String) : List (Set String) → List (Set String)
  | [] => []
  | level :: outer => insert name level :: outer

namespace Scopes

variable {s s' : Scopes}

theorem names_declare (s : Scopes) (name : String) (v : Value) :
    (s.declare name v).names = bindInner name s.names := by
  cases s with
  | nil => rfl
  | cons vars rest => exact congrArg (· :: _) (vars.bound_insert name v)

theorem names_assign? {name : String} {v : Value} (h : s.assign? name v = some s') :
    s'.names = s.names := by
  induction s generalizing s' with
  | nil => cases h
  | cons vars rest ih =>
      rw [assign?] at h
      split at h
      · next hbound =>
          cases h
          have heq := vars.bound_insert name v
          rw [Set.insert_eq_of_mem (Table.mem_bound.mpr hbound)] at heq
          exact congrArg (· :: _) heq
      · obtain ⟨rest', hrest, rfl⟩ := Option.map_eq_some_iff.mp h
        exact congrArg (_ :: ·) (ih hrest)

end Scopes

/-! ## What a run does to them -/

/-- However it ends, a computation leaves the names as they are. -/
def RunWith.KeepsNames (x : RunWith Scopes α) : Prop :=
  ∀ s r t, x.process s = some (r, t) → t.1.names = s.1.names

/-- However it ends, a computation leaves the scopes around the innermost one as they are. -/
def RunWith.KeepsOuter (x : RunWith Scopes α) : Prop :=
  ∀ s r t, x.process s = some (r, t) →
    t.1.names.length = s.1.names.length ∧ t.1.names.tail = s.1.names.tail

namespace RunWith.KeepsNames

variable {x : RunWith Scopes α}

theorem keep (x : Run α) : (Run.keep x : RunWith Scopes α).KeepsNames := by
  intro s r t h
  rw [process_keep] at h
  obtain ⟨o, _, heq⟩ := Option.map_eq_some_iff.mp h
  cases heq
  rfl

theorem pure (a : α) : (Pure.pure a : RunWith Scopes α).KeepsNames := by
  intro s r t h
  cases h
  rfl

theorem current : (getThe Scopes : RunWith Scopes Scopes).KeepsNames := by
  intro s r t h
  cases h
  rfl

theorem bind {f : α → RunWith Scopes β} (hx : x.KeepsNames) (hf : ∀ a, (f a).KeepsNames) :
    (x >>= f).KeepsNames := by
  intro s r t h
  rw [process_bind] at h
  obtain ⟨⟨r₁, t₁⟩, hfirst, h⟩ := Option.bind_eq_some_iff.mp h
  cases r₁ with
  | error u =>
      cases h
      exact hx _ _ _ hfirst
  | ok a => exact (hf a _ _ _ h).trans (hx _ _ _ hfirst)

theorem inScope (f : Frame) (x : Frame → Run α) : (Run.inScope f x).KeepsNames :=
  .bind .current fun _ => .keep _

/-- A block takes its own scope away. -/
theorem inBlock {vars : Table String Value} (h : x.KeepsOuter) :
    (Run.inBlock vars x).KeepsNames := by
  intro s r t ht
  rw [process_inBlock] at ht
  obtain ⟨⟨r', t'⟩, hx, heq⟩ := Option.map_eq_some_iff.mp ht
  cases heq
  exact List.map_tail.trans (h _ _ _ hx).2

theorem assign (name : String) (v : Value) : (Run.assign name v).KeepsNames := by
  intro s r t h
  rw [Run.assign, process_bind] at h
  obtain ⟨o, ho, h⟩ := Option.bind_eq_some_iff.mp h
  cases ho
  cases hs : s.1.assign? name v with
  | none =>
      simp only [Process.orStop, hs] at h
      cases h
      rfl
  | some s' =>
      simp only [Process.orStop, hs] at h
      cases h
      exact Scopes.names_assign? hs

theorem catching {x : RunWith Scopes Flow} {handle : Ref → RunWith Scopes Flow}
    (hx : x.KeepsNames) (hh : ∀ e, (handle e).KeepsNames) :
    (Run.catching x handle).KeepsNames := by
  intro s r t h
  rw [process_catching] at h
  obtain ⟨⟨r₁, t₁⟩, hfirst, h⟩ := Option.bind_eq_some_iff.mp h
  rcases r₁ with (e | _ | _) | flow
  · exact (hh e _ _ _ h).trans (hx _ _ _ hfirst)
  all_goals
    cases h
    exact hx _ _ _ hfirst

theorem withCleanup {x y : RunWith Scopes Flow} (hx : x.KeepsNames) (hy : y.KeepsNames) :
    (Run.withCleanup x y).KeepsNames := by
  intro s r t h
  rw [process_withCleanup] at h
  obtain ⟨⟨r₁, t₁⟩, hfirst, h⟩ := Option.bind_eq_some_iff.mp h
  obtain ⟨⟨c, t₂⟩, hcleanup, heq⟩ := Option.map_eq_some_iff.mp h
  cases heq
  exact (hy _ _ _ hcleanup).trans (hx _ _ _ hfirst)

theorem iterate {condition : RunWith Scopes Bool} {body : RunWith Scopes Flow}
    (hc : condition.KeepsNames) (hb : body.KeepsNames) (n : Nat) :
    (Run.iterate condition body n).KeepsNames := by
  induction n with
  | zero => exact keep _
  | succ n ih =>
      refine bind hc fun holds => ?_
      cases holds with
      | false => exact .pure _
      | true =>
          refine bind hb fun flow => ?_
          cases flow with
          | normal => exact ih
          | ret v span => exact .pure _

theorem outer (h : x.KeepsNames) : x.KeepsOuter := fun _ _ _ hx =>
  ⟨congrArg List.length (h _ _ _ hx), congrArg List.tail (h _ _ _ hx)⟩

end RunWith.KeepsNames

/-- The names behind a statement that ended in some way. -/
def Typed.Stmt.namesBehind (st : Stmt) (r : Except Unwind Flow) (levels : List (Set String)) :
    List (Set String) :=
  match st, r with
  | .declare _ _ name _, .ok .normal => bindInner name levels
  | _, _ => levels

theorem tail_bindInner (name : String) (levels : List (Set String)) :
    (bindInner name levels).length = levels.length ∧
      (bindInner name levels).tail = levels.tail := by
  cases levels <;> exact ⟨rfl, rfl⟩

theorem Typed.Stmt.namesBehind_outer (st : Stmt) (r : Except Unwind Flow)
    (levels : List (Set String)) :
    (st.namesBehind r levels).length = levels.length ∧
      (st.namesBehind r levels).tail = levels.tail := by
  rw [namesBehind.eq_def]
  split
  · exact tail_bindInner ..
  · exact ⟨rfl, rfl⟩

namespace Run

variable (env : Env) (calls : Calls) (f : Frame)

theorem evalOr_names (absent : Value) : ∀ e, (evalOr env calls f absent e).KeepsNames
  | some e => .inScope f (eval env calls · e)
  | none => .pure _

/-- A declaration binds its name if it ends normally. -/
theorem declare_names (span : Span) (type : Ty) (name : String) (value : Option Expr)
    {s t : Scopes × Machine} {r : Except Unwind Flow}
    (h : (exec env calls f (.declare span type name value)).process s = some (r, t)) :
    t.1.names = (Stmt.declare span type name value).namesBehind r s.1.names := by
  rw [exec, RunWith.process_bind] at h
  obtain ⟨⟨r₁, t₁⟩, hvalue, h⟩ := Option.bind_eq_some_iff.mp h
  have hkept := evalOr_names env calls f _ _ _ _ _ hvalue
  cases r₁ with
  | error u =>
      cases h
      exact hkept
  | ok v =>
      cases h
      exact (Scopes.names_declare t₁.1 name v).trans (congrArg (bindInner name) hkept)

/-- What a statement does to the names, however it ends. -/
def Behind (st : Stmt) : Prop :=
  ∀ s r t, (exec env calls f st).process s = some (r, t) → t.1.names = st.namesBehind r s.1.names

mutual

theorem exec_names : ∀ (st : Stmt), Behind env calls f st
  | .declare span type name value => fun _ _ _ => declare_names env calls f span type name value
  | .setVar .. => by
      rw [Behind, exec]
      exact RunWith.KeepsNames.bind (.inScope _ _) fun _ => .bind (.assign _ _) fun _ => .pure _
  | .setField .. => by
      rw [Behind, exec]
      exact RunWith.KeepsNames.bind (.inScope _ _) fun _ => .bind (.inScope _ _) fun _ =>
        .bind (.keep _) fun _ => .pure _
  | .setStatic .. => by
      rw [Behind, exec]
      exact RunWith.KeepsNames.bind (.inScope _ _) fun _ => .bind (.keep _) fun _ => .pure _
  | .setIndex .. => by
      rw [Behind, exec]
      exact RunWith.KeepsNames.bind (.inScope _ _) fun _ => .bind (.inScope _ _) fun _ =>
        .bind (.inScope _ _) fun _ => .bind (.keep _) fun _ => .pure _
  | .expr .. => by
      rw [Behind, exec]
      exact RunWith.KeepsNames.bind (.inScope _ _) fun _ => .pure _
  | .branch _ _ a b => by
      rw [Behind, exec]
      refine RunWith.KeepsNames.bind (.inScope _ _) fun condition => ?_
      cases condition with
      | true => exact .inBlock (exec_outer a)
      | false => exact execElse_names b
  | .loop _ _ body => by
      rw [Behind, exec]
      exact RunWith.KeepsNames.iterate (.inScope _ _) (.inBlock (exec_outer body)) _
  | .ret .. => by
      rw [Behind, exec]
      exact RunWith.KeepsNames.bind (evalOr_names _ _ _ _ _) fun _ => .pure _
  | .throw .. => by
      rw [Behind, exec]
      exact RunWith.KeepsNames.bind (.inScope _ _) fun _ => .keep _
  | .superCall .. => by
      rw [Behind, exec]
      exact RunWith.KeepsNames.pure _
  | .attempt _ body handlers cleanup => by
      rw [Behind, exec]
      exact RunWith.KeepsNames.withCleanup
        (.catching (.inBlock (execAll_outer body)) fun e => .bind (.keep _) fun className =>
          execHandlers_names e className handlers)
        (execCleanup_names cleanup)
  | .block _ body => by
      rw [Behind, exec]
      exact RunWith.KeepsNames.inBlock (execAll_outer body)

theorem exec_outer (st : Stmt) : (exec env calls f st).KeepsOuter := by
  intro s r t h
  rw [exec_names st s r t h]
  exact st.namesBehind_outer _ _

theorem execAll_outer : ∀ (body : List Stmt), (execAll env calls f body).KeepsOuter
  | [] => (RunWith.KeepsNames.pure _).outer
  | st :: rest => by
      intro s r t h
      rw [execAll, RunWith.process_bind] at h
      obtain ⟨⟨r₁, t₁⟩, hst, h⟩ := Option.bind_eq_some_iff.mp h
      obtain ⟨hlength, htail⟩ := exec_outer st _ _ _ hst
      rcases r₁ with _ | _ | _
      · cases h
        exact ⟨hlength, htail⟩
      · obtain ⟨hlength', htail'⟩ := execAll_outer rest _ _ _ h
        exact ⟨hlength'.trans hlength, htail'.trans htail⟩
      · cases h
        exact ⟨hlength, htail⟩

theorem execElse_names : ∀ (st : Option Stmt), (execElse env calls f st).KeepsNames
  | none => .pure _
  | some st => .inBlock (exec_outer st)

theorem execHandlers_names (e : Ref) (className : String) : ∀ (handlers : List Handler),
    (execHandlers env calls f e className handlers).KeepsNames
  | [] => .keep _
  | .mk c var body :: rest => by
      rw [execHandlers]
      split
      · exact .inBlock (execAll_outer body)
      · exact execHandlers_names e className rest

theorem execCleanup_names : ∀ (body : Option (List Stmt)),
    (execCleanup env calls f body).KeepsNames
  | none => .pure _
  | some body => .inBlock (execAll_outer body)

end

/-- What a constructor does first binds nothing. -/
theorem runSuper_names (this : Ref) (className : String) : ∀ (body : List Stmt),
    (runSuper env calls f this className body).KeepsNames
  | .superCall .. :: _ => .bind (.inScope _ _) fun _ => .bind (.keep _) fun _ => .pure _
  | [] | .declare .. :: _ | .setVar .. :: _ | .setField .. :: _ | .setStatic .. :: _
  | .setIndex .. :: _ | .expr .. :: _ | .branch .. :: _ | .loop .. :: _ | .ret .. :: _
  | .throw .. :: _ | .attempt .. :: _ | .block .. :: _ => .bind (.keep _) fun _ => .pure _

end Run

/-! ## What the checker has in scope -/

namespace Typing

/-- The names that the checker has in scope are those in some scopes, each of them in one. -/
structure Scope.Has (s : Scope) (levels : List (Set String)) : Prop where
  mem : ∀ x, (s.local? x).isSome = true ↔ ∃ level ∈ levels, x ∈ level
  disjoint : levels.Pairwise fun a b => ∀ x ∈ a, x ∉ b

namespace Scope.Has

variable {s : Scope} {level : Set String} {outer : List (Set String)}

/-- At the start of a block. -/
theorem block (h : s.Has outer) : s.Has (∅ :: outer) where
  mem x := by
    rw [h.mem]
    simp
  disjoint := .cons (fun _ _ _ => False.elim) h.disjoint

theorem add {name : String} (type : Ty) (h : s.Has (level :: outer))
    (hf : s.local? name = none) : (s.add name type).Has (insert name level :: outer) where
  mem x := by
    rw [local?_add]
    by_cases hx : x = name
    · rw [if_pos hx]
      exact ⟨fun _ => ⟨_, List.mem_cons_self, .inl hx⟩, fun _ => rfl⟩
    · rw [if_neg hx, h.mem]
      simp [hx]
  disjoint := by
    obtain ⟨hlevel, houter⟩ := List.pairwise_cons.mp h.disjoint
    refine .cons (fun other hother x hx hin => ?_) houter
    rcases hx with rfl | hx
    · have hlocal := (h.mem x).mpr ⟨other, List.mem_cons_of_mem _ hother, hin⟩
      rw [hf] at hlocal
      cases hlocal
    · exact hlevel other hother x hx hin

/-- In the block of a handler. -/
theorem handler {var : String} (type : Ty) (e : Ref) (h : s.Has outer) (hf : s.local? var = none) :
    (s.add var type).Has ((Table.ofList [(var, Value.ref e)]).bound :: outer) := by
  rw [Table.bound_ofList]
  convert h.block.add type hf using 2
  ext x
  simp

end Scope.Has

/-- What is in scope behind a statement is what is bound there. -/
theorem ElabStmt.has {k : BodyKind} {s s₁ : Scope} {c : Surface.Stmt} {t : Stmt}
    {cs : List CallSite} (h : ElabStmt k s c t s₁ cs) {levels : List (Set String)}
    (hs : s.Has levels) (hlevels : levels ≠ []) : s₁.Has (t.namesBehind (.ok .normal) levels) := by
  obtain ⟨level, outer, rfl⟩ := List.exists_cons_of_ne_nil hlevels
  cases h with
  | declare _ hf | declareInit _ _ _ hf => exact hs.add _ hf
  | _ => exact hs

theorem Scope.has_ofBody (env : Env) (className : String) (decl : DeclId) (isStatic : Bool) :
    (Scope.ofBody env className decl isStatic).Has [∅] where
  mem x := by simp [Scope.ofBody, Scope.local?]
  disjoint := List.pairwise_singleton ..

/-- At the start of a member the parameters are in scope. -/
theorem Scope.has_ofMethod (env : Env) {m : MethodInfo} {args : List Value}
    (h : m.params.length = args.length) :
    (Scope.ofMethod env m).Has (Run.paramScopes m args).names where
  mem x := by
    have hnames : (Run.paramScopes m args).names = [{x | x ∈ m.params.map (·.1)}] := by
      rw [Run.paramScopes, Scopes.names, List.map_singleton, Table.bound_ofList,
        List.map_fst_zip (by simp [h])]
    rw [hnames, Scope.local?, Scope.ofMethod, List.lookup_isSome_iff]
    simp
  disjoint := List.pairwise_singleton ..

end Typing

end Covenant
