import Covenant.Proofs.Built
import Covenant.Proofs.Elaborated
import Covenant.Proofs.Parsed

/-!
# What binding makes of clauses

Whatever clause a specification holds, it was written in a record, parsed, and
given its meaning in the scope of the declaration that the record stands on.
`ConditionOf` and `TargetOf` say all that is known of such a clause, and
`bind_own` says that nothing else gets into a table of bound clauses.
-/

namespace Covenant.Contract

open Surface (Expr)
open Typing (Elab)

/-- The scope in which the names of a clause have their meaning. -/
def ClauseScope.typing (env : Env) (s : ClauseScope) : Typing.Scope :=
  .ofClause env s.className s.decl s.isStatic s.frame

/-- The clauses of a method or constructor stand in its frame. -/
theorem method_of_scope {env : Env} {r : ClauseRecord} {s : ClauseScope}
    (htag : r.tag ≠ .invariant) (h : scopeOf env r = .ok s) :
    ∃ d, env.method? r.owner = some d ∧
      s = ⟨d.id, d.owner, d.isStatic, ⟨d.params, resultType r.tag d⟩⟩ := by
  rw [scopeOf] at h
  split at h
  · next ht _ => exact absurd ht htag
  · next ht _ => exact absurd ht htag
  · split at h
    · next d hd => exact ⟨d, hd, (Except.ok.inj h).symm⟩
    · cases h
  · split at h
    · next d hd => exact ⟨d, hd, (Except.ok.inj h).symm⟩
    · cases h
  all_goals cases h

/-- Invariants stand on classes, and read objects of theirs. -/
theorem class_of_scope {env : Env} {r : ClauseRecord} {s : ClauseScope} (htag : r.tag = .invariant)
    (h : scopeOf env r = .ok s) :
    s = ⟨r.owner, (env.ownerOf? r.owner).getD "", false, ⟨[], none⟩⟩ := by
  simp only [scopeOf, htag] at h
  cases hk : env.declKind? r.owner with
  | none => simp [hk, clauseFault] at h
  | some kind =>
      cases kind <;> simp [hk, clauseFault] at h
      exact h.symm

/-- The conditions that a record stands for, where calls of clauses are numbered from `k` on. -/
inductive ConditionOf (env : Env) (k : SiteId) (r : ClauseRecord) : BoundClause → Prop
  | mk {s e t cs} (hs : scopeOf env r = .ok s) (hsub : checkSubject env r = .ok ())
      (he : Elab (s.typing env) e t cs) (hl : e.Lexical .condition) (hn : ∀ i ∈ e.sites, k ≤ i)
      (hf : misplaced? (r.tag = .post) s.frame.result.isSome false e = none)
      (ht : t.type = .boolean) :
      ConditionOf env k r (boundClause r t)

/-- The targets that a record stands for. -/
inductive TargetOf (env : Env) (k : SiteId) (r : ClauseRecord) : BoundClause → Prop
  | mk {s e t cs} (hs : scopeOf env r = .ok s) (he : Elab (s.typing env) e t cs)
      (hl : e.Lexical .effect) (hn : ∀ i ∈ e.sites, k ≤ i)
      (hf : misplaced? (r.tag = .post) false false e = none)
      (hb : t.parts.findSome? badSpread? = none) (hp : isPath t = true) :
      TargetOf env k r (boundClause r t)

/-- What the clauses that are written on a declaration come from. -/
structure OwnOf (env : Env) (k : SiteId) (id : DeclId) (own : OwnClauses) : Prop where
  pre : ∀ c ∈ own.preconditions, ∃ r, r.owner = id ∧ r.tag = .pre ∧ ConditionOf env k r c
  post : ∀ c ∈ own.postconditions, ∃ r, r.owner = id ∧ r.tag = .post ∧ ConditionOf env k r c
  invariant : ∀ c ∈ own.invariants, ∃ r, r.owner = id ∧ r.tag = .invariant ∧ ConditionOf env k r c
  throws : ∀ t ∈ own.throws, ∃ r, r.owner = id ∧ r.tag = .throws ∧ ConditionOf env k r t.condition ∧
    t.exception = (r.subject.map (·.val)).getD ""
  mayThrow : ∀ t ∈ own.mayThrow, ∃ r, r.owner = id ∧ r.tag = .mayThrow ∧
    ConditionOf env k r t.condition ∧ t.exception = (r.subject.map (·.val)).getD ""
  inspects : ∀ c ∈ own.effects.inspects, ∃ r, r.owner = id ∧ r.tag = .inspects ∧ TargetOf env k r c
  mutates : ∀ c ∈ own.effects.mutates, ∃ r, r.owner = id ∧ r.tag = .mutates ∧ TargetOf env k r c
  properties : ∀ c ∈ own.effects.mutatesProperties, ∃ r, r.owner = id ∧ TargetOf env k r c

/-- What a record was bound to. -/
def BindingOf (env : Env) (k : SiteId) (r : ClauseRecord) : Binding → Prop
  | .condition c => ConditionOf env k r c
  | .targets cs => ∀ c ∈ cs, TargetOf env k r c

/-! ## Binding one record -/

section

variable {env : Env} {r : ClauseRecord} {s : ClauseScope} {k : SiteId}

theorem resolve_elab {e : Expr} {t : Typed.Expr} (h : resolve env s e = .ok t) :
    ∃ cs, Elab (s.typing env) e t cs := by
  cases hr : (Typing.checkExpr (s.typing env) e).run [] with
  | error fault =>
      rw [resolve] at h
      change Prod.fst <$> (Typing.checkExpr (s.typing env) e).run [] = _ at h
      rw [hr] at h
      cases h
  | ok p =>
      obtain ⟨t', acc⟩ := p
      rw [resolve] at h
      change Prod.fst <$> (Typing.checkExpr (s.typing env) e).run [] = _ at h
      rw [hr] at h
      cases h
      obtain ⟨cs, he, _⟩ := Typing.checkExpr_elab hr
      exact ⟨cs, he⟩

theorem checkForms_ok {tag : ClauseTag} {hasResult : Bool} {e : Expr}
    (h : checkForms tag hasResult e = .ok ()) : misplaced? (tag = .post) hasResult false e = none := by
  rw [checkForms] at h
  split at h
  · exact absurd h (by simp)
  · next hf => exact hf

theorem bindCondition_ok {e : Expr} {b : Binding} (hs : scopeOf env r = .ok s)
    (hsub : checkSubject env r = .ok ()) (hl : e.Lexical .condition) (hn : ∀ i ∈ e.sites, k ≤ i)
    (h : bindCondition env r s e = .ok b) : BindingOf env k r b := by
  obtain ⟨_, hf, h₁⟩ := bind_eq_ok.mp h
  obtain ⟨t, ht, h₂⟩ := bind_eq_ok.mp h₁
  obtain ⟨cs, he⟩ := resolve_elab (mapError_eq_ok.mp ht)
  split at h₂
  · obtain ⟨_, hfail, _⟩ := bind_eq_ok.mp h₂
    exact absurd (mapError_eq_ok.mp hfail) (by simp [clauseFault])
  · next hty =>
      cases h₂
      exact .mk hs hsub he hl hn (checkForms_ok (mapError_eq_ok.mp hf)) (by simpa using hty)

theorem bindTarget_ok {e : Expr} {c : BoundClause} (hs : scopeOf env r = .ok s)
    (hl : e.Lexical .effect) (hn : ∀ i ∈ e.sites, k ≤ i) (h : bindTarget env r s e = .ok c) :
    TargetOf env k r c := by
  obtain ⟨_, hf, h₁⟩ := bind_eq_ok.mp h
  obtain ⟨t, ht, h₂⟩ := bind_eq_ok.mp h₁
  obtain ⟨_, hb, h₃⟩ := bind_eq_ok.mp h₂
  obtain ⟨cs, he⟩ := resolve_elab (mapError_eq_ok.mp ht)
  have hspread := mapError_eq_ok.mp hb
  rw [checkSpreads] at hspread
  split at hspread
  · exact absurd hspread (by simp)
  · next hsome =>
      split at h₃
      · obtain ⟨_, hfail, _⟩ := bind_eq_ok.mp h₃
        exact absurd (mapError_eq_ok.mp hfail) (by simp [clauseFault])
      · next hp =>
          cases h₃
          exact .mk hs he hl hn (checkForms_ok (mapError_eq_ok.mp hf)) hsome (by simpa using hp)

theorem bindTargets_ok {es : List Expr} {cs : List BoundClause} (hs : scopeOf env r = .ok s)
    (hl : Surface.lexicalAll .effect es) (hn : ∀ i ∈ Surface.sitesAll es, k ≤ i)
    (h : es.mapM (bindTarget env r s) = .ok cs) : ∀ c ∈ cs, TargetOf env k r c := by
  induction es generalizing cs with
  | nil =>
      cases h
      exact fun c hc => absurd hc List.not_mem_nil
  | cons e es ih =>
      rw [List.mapM_cons] at h
      obtain ⟨c, hc, h₁⟩ := bind_eq_ok.mp h
      obtain ⟨cs', hcs, h₂⟩ := bind_eq_ok.mp h₁
      cases h₂
      have hhead := bindTarget_ok hs hl.1 (fun i hi => hn i (List.mem_append_left _ hi)) hc
      have htail := ih hl.2 (fun i hi => hn i (List.mem_append_right _ hi)) hcs
      intro c' hc'
      rcases List.mem_cons.mp hc' with rfl | hc'
      · exact hhead
      · exact htail c' hc'

theorem placeRecord_ok (h : placeRecord env r = .ok s) :
    scopeOf env r = .ok s ∧ checkSubject env r = .ok () := by
  obtain ⟨s', hs, h₁⟩ := bind_eq_ok.mp (mapError_eq_ok.mp h)
  obtain ⟨_, hsub, h₂⟩ := bind_eq_ok.mp h₁
  cases h₂
  exact ⟨hs, hsub⟩

/-- Binding a record leaves the numbers of its calls behind. -/
theorem bindRecord_ok {site : SiteId} (hk : k ≤ site) :
    k ≤ (bindRecord env r site).2 ∧
      ∀ b, (bindRecord env r site).1 = .ok b → BindingOf env k r b := by
  cases hp : placeRecord env r with
  | error fault =>
      simp only [bindRecord, hp]
      exact ⟨hk, fun b hb => absurd hb (by simp)⟩
  | ok s =>
      obtain ⟨hs, hsub⟩ := placeRecord_ok hp
      cases hc : SourceFault.ofGrammar (Parse.clause r site) with
      | error fault =>
          simp only [bindRecord, hp, hc]
          exact ⟨hk, fun b hb => absurd hb (by simp)⟩
      | ok body =>
          obtain ⟨body, next⟩ := body
          simp only [bindRecord, hp, hc]
          obtain ⟨hlex, hsites⟩ := Parse.clause_parsed (mapError_eq_ok.mp hc)
          have hn : ∀ i ∈ Surface.sitesAll body.exprs, k ≤ i := fun i hi =>
            Nat.le_trans hk (hsites.numbered.bounds i hi).1
          refine ⟨Nat.le_trans hk hsites.le, fun b hb => ?_⟩
          cases body with
          | condition e =>
              exact bindCondition_ok hs hsub hlex.1
                (fun i hi => hn i (List.mem_append_left _ hi)) hb
          | targets es =>
              simp only [bindBody] at hb
              cases hcs : es.mapM (bindTarget env r s) with
              | error fault =>
                  rw [hcs] at hb
                  cases hb
              | ok cs =>
                  rw [hcs] at hb
                  cases hb
                  exact bindTargets_ok hs hlex hn hcs

theorem bindAll_ok {records : List ClauseRecord} {site : SiteId} (hk : k ≤ site) :
    ∀ p ∈ bindAll env site records, ∀ b, p.2 = .ok b → BindingOf env k p.1 b := by
  induction records generalizing site with
  | nil => exact fun p hp => absurd hp List.not_mem_nil
  | cons r rs ih =>
      obtain ⟨hnext, hb⟩ : _ ∧ ∀ b, (bindRecord env r site).1 = .ok b → BindingOf env k r b :=
        bindRecord_ok hk
      intro p hp
      rcases List.mem_cons.mp hp with rfl | hp
      · exact hb
      · exact ih hnext p hp

end

/-! ## Taking the results in -/

section

variable {env : Env} {k : SiteId} {r : ClauseRecord} {id : DeclId} {own : OwnClauses}

theorem ownOf_empty : OwnOf env k id {} := by
  constructor <;> exact fun c hc => absurd hc List.not_mem_nil

/-- Every clause of a list that has grown by one. -/
theorem forall_append_singleton {α : Type} {P : α → Prop} {xs : List α} {x : α}
    (h : ∀ y ∈ xs, P y) (hx : P x) : ∀ y ∈ xs ++ [x], P y := by
  intro y hy
  rcases List.mem_append.mp hy with hy | hy
  · exact h y hy
  · exact List.mem_singleton.mp hy ▸ hx

theorem forall_append {α : Type} {P : α → Prop} {xs ys : List α} (h : ∀ y ∈ xs, P y)
    (h' : ∀ y ∈ ys, P y) : ∀ y ∈ xs ++ ys, P y := by
  intro y hy
  exact (List.mem_append.mp hy).elim (h y) (h' y)

theorem OwnOf.addCondition {c : BoundClause} (h : OwnOf env k r.owner own)
    (hc : ConditionOf env k r c) : OwnOf env k r.owner (OwnClauses.addCondition r c own) := by
  cases ht : r.tag with
  | pre =>
      simp only [OwnClauses.addCondition, ht]
      exact { h with pre := forall_append_singleton h.pre ⟨r, rfl, ht, hc⟩ }
  | post =>
      simp only [OwnClauses.addCondition, ht]
      exact { h with post := forall_append_singleton h.post ⟨r, rfl, ht, hc⟩ }
  | invariant =>
      simp only [OwnClauses.addCondition, ht]
      exact { h with invariant := forall_append_singleton h.invariant ⟨r, rfl, ht, hc⟩ }
  | throws =>
      simp only [OwnClauses.addCondition, ht]
      exact { h with throws := forall_append_singleton h.throws ⟨r, rfl, ht, hc, rfl⟩ }
  | mayThrow =>
      simp only [OwnClauses.addCondition, ht]
      exact { h with mayThrow := forall_append_singleton h.mayThrow ⟨r, rfl, ht, hc, rfl⟩ }
  | inspects | mutates | mutatesProperties =>
      simp only [OwnClauses.addCondition, ht]
      exact h

theorem OwnOf.addTargets {cs : List BoundClause} (h : OwnOf env k r.owner own)
    (hcs : ∀ c ∈ cs, TargetOf env k r c) :
    OwnOf env k r.owner
      { own with effects := EffectClauses.addTargets r.tag cs own.effects } := by
  simp only [EffectClauses.addTargets]
  split
  · next ht =>
      exact { h with inspects := forall_append h.inspects fun c hc => ⟨r, rfl, ht, hcs c hc⟩ }
  · next ht =>
      exact { h with mutates := forall_append h.mutates fun c hc => ⟨r, rfl, ht, hcs c hc⟩ }
  · exact { h with properties := forall_append h.properties fun c hc => ⟨r, rfl, hcs c hc⟩ }

/-- The invariants that a table has for a class were written on that class. -/
def InvariantsOf (env : Env) (k : SiteId) (name : String) (cs : List BoundClause) : Prop :=
  ∀ c ∈ cs, ∃ r, r.tag = .invariant ∧ (env.ownerOf? r.owner).getD "" = name ∧ ConditionOf env k r c

/-- What is known of bound clauses. -/
structure Bound.FromRecords (env : Env) (k : SiteId) (b : Bound) : Prop where
  own : ∀ id own, b.decls.get? id = some own → OwnOf env k id own
  invariants : ∀ name cs, b.invariants.get? name = some cs → InvariantsOf env k name cs

theorem ownOf_getD {decls : Table DeclId OwnClauses}
    (h : ∀ id own, decls.get? id = some own → OwnOf env k id own) (id : DeclId) :
    OwnOf env k id ((decls.get? id).getD {}) := by
  cases hg : decls.get? id with
  | none => exact ownOf_empty
  | some own => exact h id own hg

theorem Bound.FromRecords.add {b : Bound} {result : Except SourceFault Binding}
    (h : b.FromRecords env k) (hr : ∀ x, result = .ok x → BindingOf env k r x) :
    (Bound.add env b (r, result)).FromRecords env k := by
  cases result with
  | error fault => exact ⟨h.own, h.invariants⟩
  | ok x =>
      cases x with
      | condition c =>
          have hc : ConditionOf env k r c := hr _ rfl
          refine ⟨fun id own hg => ?_, fun name cs hg => ?_⟩
          · rcases Table.get?_insert_cases hg with ⟨rfl, rfl⟩ | hg
            · exact (ownOf_getD h.own r.owner).addCondition hc
            · exact h.own id own hg
          · simp only [Bound.add] at hg
            split at hg
            · next ht =>
                rcases Table.get?_insert_cases hg with ⟨rfl, rfl⟩ | hg
                · refine forall_append_singleton ?_ ⟨r, ht, rfl, hc⟩
                  cases hold : b.invariants.get? ((env.ownerOf? r.owner).getD "") with
                  | none => exact fun c hc => absurd hc List.not_mem_nil
                  | some old => exact h.invariants _ old hold
                · exact h.invariants name cs hg
            · exact h.invariants name cs hg
      | targets cs =>
          have hcs : ∀ c ∈ cs, TargetOf env k r c := hr _ rfl
          refine ⟨fun id own hg => ?_, h.invariants⟩
          rcases Table.get?_insert_cases hg with ⟨rfl, rfl⟩ | hg
          · exact (ownOf_getD h.own r.owner).addTargets hcs
          · exact h.own id own hg

end

/-- Bound clauses come from records, each in its own place. -/
theorem bind_fromRecords (env : Env) (records : List ClauseRecord) (k : SiteId) :
    (bind env records k).FromRecords env k := by
  have hall : ∀ p ∈ bindAll env k records, ∀ b, p.2 = .ok b → BindingOf env k p.1 b :=
    bindAll_ok (Nat.le_refl k)
  have fold : ∀ (ps : List (ClauseRecord × Except SourceFault Binding)) (b : Bound),
      (∀ p ∈ ps, ∀ x, p.2 = .ok x → BindingOf env k p.1 x) → b.FromRecords env k →
      (ps.foldl (Bound.add env) b).FromRecords env k := by
    intro ps
    induction ps with
    | nil => exact fun b _ hb => hb
    | cons p ps ih =>
        intro b hps hb
        exact ih _ (fun q hq => hps q (List.mem_cons_of_mem _ hq))
          (hb.add (hps p List.mem_cons_self))
  refine fold _ _ hall ⟨fun id own hg => ?_, fun name cs hg => ?_⟩
  · exact absurd hg (by simp)
  · exact absurd hg (by simp)

/-- The clauses of a specification come from records on the member or on one that it overrides. -/
theorem mem_lineage {env : Env} {k : SiteId} {decls : Table DeclId OwnClauses} {m : MethodInfo}
    {own : OwnClauses} (h : ∀ id own, decls.get? id = some own → OwnOf env k id own)
    (hown : own ∈ lineage env decls m) :
    ∃ id, (id = m.id ∨ id ∈ ancestors env m) ∧ OwnOf env k id own := by
  rcases List.mem_cons.mp hown with rfl | hown
  · exact ⟨m.id, .inl rfl, ownOf_getD h m.id⟩
  · obtain ⟨id, hid, hget⟩ := List.mem_filterMap.mp hown
    exact ⟨id, .inr hid, h id own hget⟩

end Covenant.Contract
