import Covenant.Proofs.SparingRuns
import Covenant.Proofs.WeakerPreconditions

/-!
# Members that refuse to be entered

A member whose precondition is violated should be as good as not invoked. Clauses
without calls and creations leave the machine alone while they have values, so a
check none of whose groups holds comes to its violation on the machine on which it
began; behind a violation nothing else runs, and the invocation gives back the
machine it was given. What a constructor stores comes in front of its
precondition, and must not change the machine either; a method stores only behind.
-/

namespace Covenant

namespace Run

variable {env : Env} {c : Calls} {f : Frame} {μ μ' : Machine} {s s' : Slots}
  {group : List BoundClause} {groups : List (List BoundClause)}

/-! ## Groups that do not hold -/

/-- A clause of a group is false on a machine, and those in front of it are true there. -/
def FirstFalse (env : Env) (c : Calls) (f : Frame) (μ : Machine) (group : List BoundClause)
    (x : BoundClause) : Prop :=
  ∃ before after, group = before ++ x :: after ∧
    (∀ y ∈ before, (holds env c f y).answer? μ = some true) ∧
    (holds env c f x).answer? μ = some false

theorem FirstFalse.cons {x y : BoundClause} (hy : (holds env c f y).answer? μ = some true)
    (h : FirstFalse env c f μ group x) : FirstFalse env c f μ (y :: group) x := by
  obtain ⟨before, after, rfl, hbefore, hx⟩ := h
  exact ⟨y :: before, after, rfl, List.forall_mem_cons.mpr ⟨hy, hbefore⟩, hx⟩

theorem ends_of_quiet {α : Type} {x : Run α} (h : QuietAt x μ) {a : α}
    (ha : x.answer? μ = some a) : x.ends μ = some (.ok a, μ) := by
  obtain ⟨μ', hends⟩ := answer?_eq_some.mp ha
  exact h hends ▸ hends

/-- A group with a false clause is left behind at its first one, on the same machine. -/
theorem firstFalse_of_false (hquiet : ∀ x ∈ group, QuietAt (holds env c f x) μ)
    (hvalued : Valued env c f μ (group :: groups))
    (hfalse : ∃ x ∈ group, (holds env c f x).answer? μ = some false) :
    ∃ x, FirstFalse env c f μ group x ∧
      (firstFalse env c f group).ends μ = some (.ok (some x), μ) ∧
      Valued env c f μ groups := by
  induction group with
  | nil =>
      obtain ⟨x, hx, _⟩ := hfalse
      exact absurd hx List.not_mem_nil
  | cons y ys ih =>
      obtain ⟨v, hv⟩ := hvalued .head
      have hy := ends_of_quiet (hquiet y List.mem_cons_self) hv
      cases v with
      | false =>
          refine ⟨y, ⟨[], ys, rfl, by simp, hv⟩, ?_, fun _ _ hz => hvalued (.skip hy hz)⟩
          rw [firstFalse, ends_bind_ok hy]
          rfl
      | true =>
          obtain ⟨x, hx, hxfalse⟩ := hfalse
          have hx : x ∈ ys := by
            refine (List.mem_cons.mp hx).resolve_left ?_
            rintro rfl
            exact absurd (hv.symm.trans hxfalse) (by simp)
          obtain ⟨z, hz, hends, hrest⟩ := ih (fun x hx => hquiet x (List.mem_cons_of_mem _ hx))
            (fun _ _ hz => hvalued (.next hy hz)) ⟨x, hx, hxfalse⟩
          refine ⟨z, hz.cons hv, ?_, hrest⟩
          rw [firstFalse, ends_bind_ok hy]
          exact hends

/-- If all groups have false clauses, what failed is the first of each. -/
theorem failures_of_false (hquiet : ∀ g ∈ groups, ∀ x ∈ g, QuietAt (holds env c f x) μ)
    (hvalued : Valued env c f μ groups)
    (hfalse : ∀ g ∈ groups, ∃ x ∈ g, (holds env c f x).answer? μ = some false) :
    ∃ failed, List.Forall₂ (FirstFalse env c f μ) groups failed ∧
      (failures env c f groups).ends μ = some (.ok (some failed), μ) := by
  induction groups with
  | nil => exact ⟨[], .nil, rfl⟩
  | cons g gs ih =>
      obtain ⟨x, hx, hends, hrest⟩ := firstFalse_of_false (hquiet g List.mem_cons_self) hvalued
        (hfalse g List.mem_cons_self)
      obtain ⟨failed, hfailed, htail⟩ := ih (fun g hg => hquiet g (List.mem_cons_of_mem _ hg)) hrest
        fun g hg => hfalse g (List.mem_cons_of_mem _ hg)
      refine ⟨x :: failed, .cons hx hfailed, ?_⟩
      rw [failures, ends_bind_ok hends]
      show ((failures env c f gs >>= _ : Run (Option (List BoundClause)))).ends μ = _
      rw [ends_bind_ok htail]
      rfl

theorem checkPrecondition_of_false (hquiet : ∀ g ∈ groups, ∀ x ∈ g, QuietAt (holds env c f x) μ)
    (hvalued : Valued env c f μ groups)
    (hfalse : ∀ g ∈ groups, ∃ x ∈ g, (holds env c f x).answer? μ = some false) :
    ∃ failed, List.Forall₂ (FirstFalse env c f μ) groups failed ∧
      (checkPrecondition env c f groups).ends μ =
        some (.error (.violation (entryViolation env f failed)), μ) := by
  obtain ⟨failed, hfailed, hends⟩ := failures_of_false hquiet hvalued hfalse
  refine ⟨failed, hfailed, ?_⟩
  rw [checkPrecondition, ends_bind_ok hends]
  rfl

/-! ## A group that holds -/

theorem firstFalse_looks (hfree : ∀ x ∈ group, x.expr.callFree = true) :
    Looks (firstFalse env c f group) := by
  induction group with
  | nil => exact .pure _
  | cons x xs ih =>
      refine .bind (holds_looks (hfree x List.mem_cons_self)) fun _ => .ite ?_ (.pure _)
      exact ih fun y hy => hfree y (List.mem_cons_of_mem _ hy)

theorem failures_looks (hfree : ∀ g ∈ groups, ∀ x ∈ g, x.expr.callFree = true) :
    Looks (failures env c f groups) := by
  induction groups with
  | nil => exact .pure _
  | cons g gs ih =>
      refine .bind (firstFalse_looks (hfree g List.mem_cons_self)) fun r => ?_
      cases r with
      | none => exact .pure _
      | some x => exact .bind (ih fun g hg => hfree g (List.mem_cons_of_mem _ hg)) fun _ => .pure _

theorem firstFalse_of_true (h : ∀ x ∈ group, (holds env c f x).answer? μ = some true)
    (hquiet : ∀ x ∈ group, QuietAt (holds env c f x) μ) :
    (firstFalse env c f group).ends μ = some (.ok none, μ) := by
  induction group with
  | nil => rfl
  | cons x xs ih =>
      rw [firstFalse, ends_bind_ok (ends_of_quiet (hquiet x List.mem_cons_self)
        (h x List.mem_cons_self))]
      exact ih (fun y hy => h y (List.mem_cons_of_mem _ hy))
        fun y hy => hquiet y (List.mem_cons_of_mem _ hy)

/-- Nothing has failed where a group holds, whatever becomes of the groups in front of it. -/
theorem failures_ne_of_true (hfree : ∀ g ∈ groups, ∀ x ∈ g, x.expr.callFree = true)
    (hgroup : group ∈ groups) (htrue : ∀ x ∈ group, (holds env c f x).answer? μ = some true)
    {failed : List BoundClause} :
    (failures env c f groups).ends μ ≠ some (.ok (some failed), μ') := by
  intro h
  induction groups generalizing failed with
  | nil => exact List.not_mem_nil hgroup
  | cons g gs ih =>
      have hg := hfree g List.mem_cons_self
      obtain ⟨_, _, hr⟩ | ⟨r, μ₁, hfirst, hrest⟩ := ends_bind_eq_some.mp h
      · cases hr
      obtain rfl := firstFalse_traceless hg hfirst
      cases r with
      | none => cases hrest
      | some x =>
          obtain ⟨_, _, hr⟩ | ⟨r, μ₂, hfailures, hend⟩ := ends_bind_eq_some.mp hrest
          · cases hr
          cases r with
          | none => cases hend
          | some others =>
              cases hend
              have hfree := fun g hg => hfree g (List.mem_cons_of_mem _ hg)
              obtain rfl := failures_traceless hfree hfailures
              rcases List.mem_cons.mp hgroup with rfl | hgroup
              · rw [firstFalse_of_true htrue fun x hx => (holds_traceless (hg x hx)).quietAt] at hfirst
                cases hfirst
              · exact ih hfree hgroup hfailures

theorem checkPrecondition_ne_violation (hfree : ∀ g ∈ groups, ∀ x ∈ g, x.expr.callFree = true)
    (hgroup : group ∈ groups) (htrue : ∀ x ∈ group, (holds env c f x).answer? μ = some true)
    {v : Violation} :
    (checkPrecondition env c f groups).ends μ ≠ some (.error (.violation v), μ') := by
  intro h
  obtain ⟨u, hu, heq⟩ | ⟨r, μ₁, hfailures, hend⟩ := ends_bind_eq_some.mp h
  · cases heq
    exact (failures_looks hfree).ne_violation hu
  · cases r with
    | none => cases hend
    | some failed => exact failures_ne_of_true hfree hgroup htrue hfailures

/-! ## Entries -/

/-- All terms that are stored one after the other have values. -/
def Storable (env : Env) (c : Calls) (f : Frame) : Nat → List Typed.Expr → Slots → Machine → Prop
  | _, [], _, _ => True
  | n, e :: es, s, μ => ∃ v μ', (eval env c { f with slots := s } e).ends μ = some (.ok v, μ') ∧
    Storable env c f (n + 1) es (s.insert n v) μ'

/-- All clauses and terms that a check at an entry evaluates have values. -/
def ValuedCode (env : Env) (c : Calls) (f : Frame) (s : Slots) (μ : Machine) : CheckCode → Prop
  | .snapshot x => Storable env c f 0 x.slots s μ
  | .precondition groups => Valued env c { f with slots := s } μ groups
  | _ => True

/-- All clauses and terms that are evaluated in the course of some checks have values. -/
def ValuedCodes (env : Env) (c : Calls) (f : Frame) : List CheckCode → Slots → Machine → Prop
  | [], _, _ => True
  | code :: codes, s, μ => ValuedCode env c f s μ code ∧
    ∀ s' μ', (runCode env c f code).ends s μ = some ((.ok (), s'), μ') →
      ValuedCodes env c f codes s' μ'

theorem ends_store_of_storable {n : Nat} {es : List Typed.Expr} (h : Storable env c f n es s μ) :
    ∃ s' μ', (store env c f n es).ends s μ = some ((.ok (), s'), μ') := by
  induction es generalizing n s μ with
  | nil => exact ⟨s, μ, rfl⟩
  | cons e es ih =>
      obtain ⟨v, μ₁, he, hrest⟩ := h
      obtain ⟨s', μ', hends⟩ := ih hrest
      refine ⟨s', μ', RunWith.ends_bind_eq_some.mpr (.inr ⟨v, s, μ₁, ?_, ?_⟩)⟩
      · exact RunWith.ends_withSlots_eq_some.mpr ⟨he, rfl⟩
      · exact RunWith.ends_bind_eq_some.mpr (.inr ⟨⟨⟩, s.insert n v, μ₁, rfl, hends⟩)

theorem store_ne_violation {n : Nat} {es : List Typed.Expr} (h : ∀ e ∈ es, e.callFree = true)
    {v : Violation} : (store env c f n es).ends s μ ≠ some ((.error (.violation v), s'), μ') := by
  intro hends
  induction es generalizing n s μ with
  | nil => cases hends
  | cons e es ih =>
      obtain ⟨u, hu, heq⟩ | ⟨w, s₁, μ₁, _, hrest⟩ := RunWith.ends_bind_eq_some.mp hends
      · cases heq
        exact (eval_looks e (h e List.mem_cons_self)).ne_violation
          (RunWith.ends_withSlots_eq_some.mp hu).1
      obtain ⟨_, hu, _⟩ | ⟨_, s₂, μ₂, _, hrest⟩ := RunWith.ends_bind_eq_some.mp hrest
      · cases hu
      · exact ih (fun x hx => h x (List.mem_cons_of_mem _ hx)) hrest

theorem runCodes_append (codes codes' : List CheckCode) :
    runCodes env c f (codes ++ codes') =
      (runCodes env c f codes >>= fun _ => runCodes env c f codes') := by
  induction codes with
  | nil => rfl
  | cons code codes ih => simp only [List.cons_append, runCodes, ih, bind_assoc]

theorem ValuedCodes.append {codes codes' : List CheckCode}
    (h : ValuedCodes env c f (codes ++ codes') s μ) :
    ValuedCodes env c f codes s μ ∧ ∀ s' μ',
      (runCodes env c f codes).ends s μ = some ((.ok (), s'), μ') →
        ValuedCodes env c f codes' s' μ' := by
  induction codes generalizing s μ with
  | nil =>
      refine ⟨trivial, fun s' μ' hends => ?_⟩
      cases hends
      exact h
  | cons code codes ih =>
      refine ⟨⟨h.1, fun s₁ μ₁ hcode => (ih (h.2 s₁ μ₁ hcode)).1⟩, fun s' μ' hends => ?_⟩
      obtain ⟨_, _, hr⟩ | ⟨_, s₁, μ₁, hcode, hrest⟩ := RunWith.ends_bind_eq_some.mp hends
      · cases hr
      · exact (ih (h.2 s₁ μ₁ hcode)).2 s' μ' hrest

/-- Values that can be stored are stored. -/
theorem ends_runCodes_of_snapshots {codes : List CheckCode}
    (hsnapshots : ∀ code ∈ codes, ∃ x, code = .snapshot x) (h : ValuedCodes env c f codes s μ) :
    ∃ s' μ', (runCodes env c f codes).ends s μ = some ((.ok (), s'), μ') := by
  induction codes generalizing s μ with
  | nil => exact ⟨s, μ, rfl⟩
  | cons code codes ih =>
      obtain ⟨x, rfl⟩ := hsnapshots code List.mem_cons_self
      obtain ⟨s₁, μ₁, hcode⟩ := ends_store_of_storable h.1
      obtain ⟨s', μ', hrest⟩ := ih (fun y hy => hsnapshots y (List.mem_cons_of_mem _ hy))
        (h.2 s₁ μ₁ hcode)
      exact ⟨s', μ', RunWith.ends_bind_eq_some.mpr (.inr ⟨⟨⟩, s₁, μ₁, hcode, hrest⟩)⟩

theorem snapshots_ne_violation {codes : List CheckCode}
    (hsnapshots : ∀ code ∈ codes, ∃ x, code = .snapshot x) (hfree : ∀ code ∈ codes, code.CallFree)
    {v : Violation} :
    (runCodes env c f codes).ends s μ ≠ some ((.error (.violation v), s'), μ') := by
  intro hends
  induction codes generalizing s μ with
  | nil => cases hends
  | cons code codes ih =>
      obtain ⟨x, rfl⟩ := hsnapshots code List.mem_cons_self
      obtain ⟨u, hu, heq⟩ | ⟨_, s₁, μ₁, _, hrest⟩ := RunWith.ends_bind_eq_some.mp hends
      · cases heq
        exact store_ne_violation (hfree _ List.mem_cons_self) hu
      · exact ih (fun y hy => hsnapshots y (List.mem_cons_of_mem _ hy))
          (fun y hy => hfree y (List.mem_cons_of_mem _ hy)) hrest

/-! ### The checks around a precondition -/

theorem holds_slots {x : BoundClause} (h : x.expr.slotNumbers = []) (t : Slots) :
    holds env c f x = holds env c { f with slots := t } x := by
  rw [holds, holds, eval_slots h t]

theorem FirstFalse.of_slots (hslots : ∀ x ∈ group, x.expr.slotNumbers = []) {t : Slots}
    {x : BoundClause} (h : FirstFalse env c { f with slots := t } μ group x) :
    FirstFalse env c f μ group x := by
  obtain ⟨before, after, rfl, hbefore, hx⟩ := h
  refine ⟨before, after, rfl, fun y hy => ?_, ?_⟩
  · rw [holds_slots (hslots y (by simp [hy])) t]
    exact hbefore y hy
  · rw [holds_slots (hslots x (by simp)) t]
    exact hx

section

variable {front back : List CheckCode}
  (hsnapshots : ∀ code ∈ front ++ back, ∃ x, code = .snapshot x)
  (hfront : ∀ code ∈ front, code.CallFree)
  (hfree : ∀ g ∈ groups, ∀ x ∈ g, x.expr.callFree = true)
  (hslots : ∀ g ∈ groups, ∀ x ∈ g, x.expr.slotNumbers = [])

include hsnapshots hfront hfree hslots

theorem runCodes_of_false
    (hvalued : ValuedCodes env c f (front ++ .precondition groups :: back) s μ)
    (hfalse : ∀ g ∈ groups, ∃ x ∈ g, (holds env c f x).answer? μ = some false) :
    ∃ failed s', List.Forall₂ (FirstFalse env c f μ) groups failed ∧
      (runCodes env c f (front ++ .precondition groups :: back)).ends s μ =
        some ((.error (.violation (entryViolation env f failed)), s'), μ) := by
  obtain ⟨hvfront, hrest⟩ := hvalued.append
  obtain ⟨s₁, μ₁, hends⟩ := ends_runCodes_of_snapshots
    (fun code hcode => hsnapshots code (List.mem_append_left _ hcode)) hvfront
  obtain rfl := runCodes_traceless hfront hends
  have hfalse₁ : ∀ g ∈ groups, ∃ x ∈ g,
      (holds env c { f with slots := s₁ } x).answer? μ₁ = some false := by
    intro g hg
    obtain ⟨x, hx, hxfalse⟩ := hfalse g hg
    exact ⟨x, hx, holds_slots (hslots g hg x hx) s₁ ▸ hxfalse⟩
  obtain ⟨failed, hfailed, hcheck⟩ := checkPrecondition_of_false
    (fun g hg x hx => (holds_traceless (hfree g hg x hx)).quietAt) (hrest s₁ μ₁ hends).1 hfalse₁
  refine ⟨failed, s₁, ?_, ?_⟩
  · exact ((List.forall₂_and_left groups failed).mpr ⟨hslots, hfailed⟩).imp fun g x h => h.2.of_slots h.1
  · rw [runCodes_append]
    refine RunWith.ends_bind_eq_some.mpr (.inr ⟨⟨⟩, s₁, μ₁, hends, ?_⟩)
    refine RunWith.ends_bind_eq_some.mpr (.inl ⟨_, ?_, rfl⟩)
    rw [runCode]
    exact RunWith.ends_withSlots_eq_some.mpr ⟨hcheck, rfl⟩

theorem runCodes_ne_violation
    (hback : ValuedCodes env c f (front ++ .precondition groups :: back) s μ ∨
      ∀ code ∈ back, code.CallFree)
    (htrue : ∃ g ∈ groups, ∀ x ∈ g, (holds env c f x).answer? μ = some true) {v : Violation} :
    (runCodes env c f (front ++ .precondition groups :: back)).ends s μ ≠
      some ((.error (.violation v), s'), μ') := by
  intro hends
  rw [runCodes_append] at hends
  obtain ⟨u, hu, heq⟩ | ⟨_, s₁, μ₁, hpassed, hrest⟩ := RunWith.ends_bind_eq_some.mp hends
  · cases heq
    exact snapshots_ne_violation
      (fun code hcode => hsnapshots code (List.mem_append_left _ hcode)) hfront hu
  obtain rfl := runCodes_traceless hfront hpassed
  obtain ⟨u, hu, heq⟩ | ⟨_, s₂, μ₂, hcheck, hrest⟩ := RunWith.ends_bind_eq_some.mp hrest
  · cases heq
    obtain ⟨g, hg, hall⟩ := htrue
    rw [runCode] at hu
    refine checkPrecondition_ne_violation hfree hg (fun x hx => ?_)
      (RunWith.ends_withSlots_eq_some.mp hu).1
    exact holds_slots (hslots g hg x hx) s₁ ▸ hall x hx
  · have hsnapshots := fun code hcode => hsnapshots code (List.mem_append_right _ hcode)
    rcases hback with hvalued | hback
    · have hvback := (hvalued.append.2 s₁ μ₁ hpassed).2 s₂ μ₂ hcheck
      obtain ⟨s₃, μ₃, hstored⟩ := ends_runCodes_of_snapshots hsnapshots hvback
      cases hstored.symm.trans hrest
    · exact snapshots_ne_violation hsnapshots hback hrest

end

end Run

/-! ## Members of a build -/

theorem snapshot_of_listIf (cond : Bool) (x : Contract.Snapshot) :
    ∀ code ∈ Contract.listIf cond (CheckCode.snapshot x), ∃ y, code = .snapshot y := by
  intro code hcode
  rw [Contract.listIf] at hcode
  split at hcode
  · exact ⟨x, List.mem_singleton.mp hcode⟩
  · exact absurd hcode List.not_mem_nil

/-- What a constructor stores at entry is stored in front of its precondition, and what a method
stores behind. -/
theorem split_at_precondition {isConstructor : Bool} {stored : List CheckCode}
    {written groups : List (List BoundClause)} (hstored : ∀ code ∈ stored, ∃ x, code = .snapshot x)
    (hpre : .precondition groups ∈
      if isConstructor then stored ++ Contract.listIf (!written.isEmpty) (.precondition written)
      else Contract.listIf (!written.isEmpty) (.precondition written) ++ stored) :
    written = groups ∧ ∃ front back,
      (if isConstructor then stored ++ Contract.listIf (!written.isEmpty) (.precondition written)
        else Contract.listIf (!written.isEmpty) (.precondition written) ++ stored) =
          front ++ .precondition groups :: back ∧
      (∀ code ∈ front ++ back, ∃ x, code = .snapshot x) ∧ (isConstructor = false → front = []) := by
  have hmem : .precondition groups ∈ stored ∨ .precondition groups ∈
      Contract.listIf (!written.isEmpty) (CheckCode.precondition written) := by
    cases isConstructor with
    | true => exact List.mem_append.mp hpre
    | false => exact (List.mem_append.mp hpre).symm
  rcases hmem with hmem | hmem
  · obtain ⟨x, hx⟩ := hstored _ hmem
    cases hx
  · cases hwritten : !written.isEmpty with
    | false =>
        rw [hwritten] at hmem
        exact absurd hmem List.not_mem_nil
    | true =>
        rw [hwritten] at hmem
        obtain rfl := CheckCode.precondition.inj (List.mem_singleton.mp hmem)
        refine ⟨rfl, ?_⟩
        cases isConstructor with
        | true => exact ⟨stored, [], rfl, by simpa using hstored, nofun⟩
        | false => exact ⟨[], stored, rfl, by simpa using hstored, fun _ => rfl⟩

section

variable {source : String} {checks : Checks} {b : Build} (h : build source checks = .ok b)
  {m : MethodInfo} {groups : List (List BoundClause)}

include h

/-- The checks around a precondition only store, and its clauses read nothing that is stored. -/
theorem entry_of_precondition (hm : b.program.env.method? m.id = some m)
    (hpre : .precondition groups ∈ b.program.codesAt m.id .entry) :
    (∀ g ∈ groups, ∀ x ∈ g, x.expr.slotNumbers = []) ∧ ∃ front back,
      b.program.codesAt m.id .entry = front ++ .precondition groups :: back ∧
      (∀ code ∈ front ++ back, ∃ x, code = .snapshot x) ∧
      (m.isConstructor = false → front = []) := by
  rw [codesAt_of_build h m.id (by simp)] at hpre ⊢
  cases hs : b.plan.specs.get? m.id with
  | none =>
      rw [hs] at hpre
      exact absurd hpre List.not_mem_nil
  | some t =>
      obtain ⟨p, m', s, hp, _, hspec, rfl, hsnapshot⟩ := specs_of_build h hs
      obtain ⟨hcheck, _, _⟩ := analysis_of_build h hp
      have hfresh : Contract.FreshSpec s := hspec ▸ Contract.freshSpec_of_bind
        (Contract.owners_words (Parse.program_wellFormed hp) hcheck) (Clause.ofProgram p)
        p.siteCount m'
      rw [hs, Option.elim, memberCodes_entry, hsnapshot, hm, Option.any_some,
        Contract.entryCodes_eq] at hpre
      rw [Option.elim, memberCodes_entry, hsnapshot, hm, Option.any_some, Contract.entryCodes_eq]
      obtain ⟨hgroups, front, back, heq, hsnapshots, hfront⟩ :=
        split_at_precondition (snapshot_of_listIf _ _) hpre
      refine ⟨fun g hg => ?_, front, back, heq, hsnapshots, hfront⟩
      subst hgroups
      split at hg
      · exact hfresh.groups g hg
      · exact absurd hg List.not_mem_nil

open Run in
/-- A violated precondition is atomic. Let its clauses make no call and create nothing, nor what a
constructor stores, and let the limit of active members not be reached. If all that is evaluated at
entry has values, and every group has a clause that is false there, the invocation ends in a
violation that names the first false clause of each group, and leaves the machine as it was. If
some group holds, the checks at entry end in no violation, as long as all that is evaluated has
values or makes no call. -/
theorem precondition_atomic (hm : b.program.env.method? m.id = some m)
    (hpre : .precondition groups ∈ b.program.codesAt m.id .entry)
    (hfree : ∀ g ∈ groups, ∀ x ∈ g, x.expr.callFree = true)
    (hstored : m.isConstructor = true → ∀ s, .snapshot s ∈ b.program.codesAt m.id .entry →
      ∀ e ∈ s.slots, e.callFree = true)
    {limit : Nat} {μ : Machine} (hdepth : μ.depth < limit) (n : Nat) (this : Option Ref)
    (args : List Value) :
    let c := Run.calls b.program limit n
    let f := entryFrame m this args .empty
    let codes := b.program.codesAt m.id .entry
    (ValuedCodes b.program.env c f codes .empty μ.enter →
      (∀ g ∈ groups, ∃ x ∈ g, (holds b.program.env c f x).answer? μ.enter = some false) →
      ∃ failed v, List.Forall₂ (FirstFalse b.program.env c f μ.enter) groups failed ∧
        ((Run.calls b.program limit (n + 1)).invoke m.id this args).ends μ =
          some (.error (.violation v), μ) ∧
        v.kind = .precondition ∧ v.clause = String.intercalate " || " (failed.map (·.text))) ∧
    ((∃ g ∈ groups, ∀ x ∈ g, (holds b.program.env c f x).answer? μ.enter = some true) →
      (ValuedCodes b.program.env c f codes .empty μ.enter ∨ ∀ code ∈ codes, code.CallFree) →
      ∀ v s ν, (runCodes b.program.env c f codes).ends .empty μ.enter ≠
        some ((.error (.violation v), s), ν)) := by
  obtain ⟨hslots, front, back, hcodes, hsnapshots, hmethod⟩ := entry_of_precondition h hm hpre
  have hfront : ∀ code ∈ front, code.CallFree := by
    intro code hcode
    cases hctor : m.isConstructor with
    | true =>
        obtain ⟨x, rfl⟩ := hsnapshots code (List.mem_append_left _ hcode)
        exact hstored hctor x (hcodes ▸ List.mem_append_left _ hcode)
    | false => exact absurd (hmethod hctor ▸ hcode) List.not_mem_nil
  intro c f codes
  rw [show codes = front ++ .precondition groups :: back from hcodes]
  constructor
  · intro hvalued hfalse
    obtain ⟨failed, s, hfailed, hentry⟩ :=
      runCodes_of_false hsnapshots hfront hfree hslots hvalued hfalse
    refine ⟨failed, entryViolation b.program.env f failed, hfailed, ?_, rfl, rfl⟩
    have hactivate : (activate b.program c m this args).ends μ.enter =
        some (.error (.violation (entryViolation b.program.env f failed)), μ.enter) :=
      ends_withState_bind.mpr ⟨_, s, _, hcodes ▸ hentry, rfl⟩
    show (invokeWith b.program limit c m.id this args).ends μ = _
    rw [invokeWith, hm]
    show (get >>= fun _ => _ : Run Value).ends μ = _
    rw [ends_bind_ok (ends_get μ), if_neg (Nat.not_le.mpr hdepth), ends_deeper, hactivate]
    rfl
  · intro htrue hback v s ν
    refine runCodes_ne_violation hsnapshots hfront hfree hslots (hback.imp_right ?_) htrue
    exact fun hall code hcode => hall code (by simp [hcode])

end

/-- Evaluates what is said of `boundedSource`. -/
def refusedCheck : Option Bool := do
  let b ← (build boundedSource {}).toOption
  let main ← b.program.env.methodNamed? "M.main"
  let m ← b.program.env.methodNamed? "Sub.f"
  let (_, μ) ← Run.stateAt? b.program (Run.calls b.program 8 8) main 1
  let s ← b.plan.specs.get? m.id
  let f := Run.entryFrame m (some 0) [.int 1] .empty
  let answer? (x : BoundClause) :=
    (Run.holds b.program.env (Run.calls b.program 8 7) f x).answer? μ.enter
  return decide (b.program.env.method? m.id = some m ∧ m.isConstructor = false ∧ μ.depth < 8 ∧
    b.program.codesAt m.id .entry = [.precondition s.preconditions] ∧
    s.preconditions.map (·.map (·.text)) = [["x == 0"], ["x > low", "x < 9"]] ∧
    (∀ g ∈ s.preconditions, ∀ x ∈ g, x.expr.callFree = true ∧ (answer? x).isSome = true) ∧
    ∀ g ∈ s.preconditions, ∃ x ∈ g, answer? x = some false)

theorem precondition_atomic_bounded :
    ∃ (b : Build) (m : MethodInfo) (groups : List (List BoundClause)) (μ : Machine)
      (v : Violation), build boundedSource {} = .ok b ∧
        b.program.codesAt m.id .entry = [.precondition groups] ∧
        groups.map (·.map (·.text)) = [["x == 0"], ["x > low", "x < 9"]] ∧
        ((Run.calls b.program 8 8).invoke m.id (some 0) [.int 1]).ends μ =
          some (.error (.violation v), μ) ∧ v.kind = .precondition := by
  have h : refusedCheck = some true := by
    set_option maxRecDepth 20000 in
    rw [refusedCheck, show boundedSource = String.ofList _ from rfl, build_ofList]
    decide +kernel
  simp only [refusedCheck, Option.bind_eq_bind, Option.bind_eq_some_iff] at h
  obtain ⟨b, hb, main, _, m, _, ⟨_, μ⟩, _, s, _, h⟩ := h
  simp only [Option.pure_def, Option.some.injEq, decide_eq_true_eq] at h
  obtain ⟨hm, hctor, hdepth, hcodes, htexts, hall, hfalse⟩ := h
  have hfree := fun g hg x hx => (hall g hg x hx).1
  have hvalued : Run.Valued b.program.env (Run.calls b.program 8 7)
      (Run.entryFrame m (some 0) [.int 1] .empty) μ.enter s.preconditions := by
    refine .of_quiet (fun x hx => ?_) fun x hx => ?_
    all_goals obtain ⟨g, hg, hx⟩ := List.mem_flatten.mp hx
    · exact (Run.holds_traceless (hfree g hg x hx)).quietAt
    · exact Option.isSome_iff_exists.mp (hall g hg x hx).2
  obtain ⟨hrefused, _⟩ := precondition_atomic (ok_of_toOption hb) hm
    (hcodes ▸ List.mem_singleton_self _) hfree (fun hyes => absurd (hctor.symm.trans hyes) (by simp))
    hdepth 7 (some 0) [.int 1]
  rw [hcodes] at hrefused
  obtain ⟨_, v, _, hends, hkind, _⟩ := hrefused ⟨hvalued, fun _ _ _ => trivial⟩ hfalse
  exact ⟨b, m, s.preconditions, μ, v, ok_of_toOption hb, hcodes, htexts, hends, hkind⟩

end Covenant
