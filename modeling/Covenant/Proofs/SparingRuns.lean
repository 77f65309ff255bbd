import Covenant.Proofs.SpareValues
import Covenant.Proofs.Transparent

/-!
# Runs that spare values

`sparingRun` is the run with checks in which the evaluation of every spare entry
value has to complete and leave no trace; otherwise there is no result. So each
result of it is a result of the run with checks. It is also one of a program in
which spare values are not stored, because the slots of the two correspond:
`Matches` relates what is done with them on the two sides, at the entry of a
member and at its exits.
-/

namespace Covenant

open Typed (Expr)
open Contract (Fresh scheduleOne scheduledCodes storePosts specificationOf)

namespace Run

/-- Stores values in slots. A spare one has to be there without a trace. -/
def sparingStore (spare : Nat → Bool) (env : Env) (calls : Calls) (f : Frame) :
    Nat → List Expr → RunWith Slots Unit
  | _, [] => return
  | n, e :: es => do
    let v ← withSlots f fun f =>
      if spare n then undisturbing (eval env calls f e) else eval env calls f e
    modifyThe Slots (·.insert n v)
    sparingStore spare env calls f (n + 1) es

def sparingCode (spare : Nat → Bool) (env : Env) (calls : Calls) (f : Frame) :
    CheckCode → RunWith Slots Unit
  | .snapshot s => sparingStore spare env calls f 0 s.slots
  | code => runCode env calls f code

def sparingCodes (spare : Nat → Bool) (env : Env) (calls : Calls) (f : Frame) :
    List CheckCode → RunWith Slots Unit
  | [] => return
  | c :: cs => do
    sparingCode spare env calls f c
    sparingCodes spare env calls f cs

/-- Runs a member whose spare values have to leave no trace. -/
def sparingActivate (p : WovenProgram) (spare : DeclId → Nat → Bool) (calls : Calls)
    (m : MethodInfo) (this : Option Ref) (args : List Value) : Run Value := do
  let f := { Frame.start m.id this args with scopes := paramScopes m args }
  let (entered, slots) ←
    withState (sparingCodes (spare m.id) p.env calls f (p.codesAt m.id .entry)) .empty
  let f := { f with slots }
  match entered with
  | .ok () =>
    let (completed, scopes) ← withState (runBody p.env calls f m) f.scopes
    leave p calls { f with scopes } completed
  | .error u => leave p calls f (.error u)

def sparingInvoke (p : WovenProgram) (spare : DeclId → Nat → Bool) (limit : Nat) (calls : Calls)
    (id : DeclId) (this : Option Ref) (args : List Value) : Run Value := do
  match p.env.method? id with
  | none => defect (.unknownMember id)
  | some m =>
    if limit ≤ (← get).depth then fatal (.recursionLimit m.qualifiedName limit)
    else deeper (sparingActivate p spare calls m this args)

/-- What happens behind calls if spare values have to leave no trace. -/
def sparingCalls (p : WovenProgram) (spare : DeclId → Nat → Bool) (limit : Nat) : Nat → Calls
  | 0 => ⟨fun _ _ _ => exhausted, fun _ _ _ _ => exhausted, 0⟩
  | n + 1 => {
    invoke := fun id this args =>
      sparingInvoke p spare limit (sparingCalls p spare limit n) id this args
    recheck := fun caller site this args =>
      recheckWith p (sparingCalls p spare limit n) caller site this args
    rounds := n }

end Run

/-- The run from an entry point in which spare values have to leave no trace. -/
def WovenProgram.sparingRun (p : WovenProgram) (spare : DeclId → Nat → Bool) (limit bound : Nat)
    (entry : String) : Steps (Except RunError Outcome) :=
  match Run.findEntry p.env entry with
  | .error e => return .error e
  | .ok id => do
    let r ← ExceptT.run (Run.runFrom p.env (Run.sparingCalls p spare limit bound) id)
    Run.toOutcome r

namespace Run

variable {env : Env} {c d : Calls}

/-! ### The run with checks -/

theorem sparingStore_refines (hc : c.Refines d) (spare : Nat → Bool) (f : Frame) (es : List Expr)
    (n : Nat) : RunWith.Refines (sparingStore spare env c f n es) (store env d f n es) := by
  induction es generalizing n with
  | nil => exact .refl _
  | cons e es ih =>
      refine .bind (.withSlots fun slots => ?_) fun v => .bind (.refl _) fun _ => ih (n + 1)
      have he : (eval env c { f with slots } e).Refines (eval env d { f with slots } e) :=
        eval_refines hc (f := { f with slots }) e (.refl _ _)
      split
      · exact fun μ o h => he (ends_undisturbing h).1
      · exact he

theorem sparingCodes_refines (hc : c.Refines d) (spare : Nat → Bool) (f : Frame)
    (codes : List CheckCode) :
    RunWith.Refines (sparingCodes spare env c f codes) (runCodes env d f codes) := by
  induction codes with
  | nil => exact .refl _
  | cons code codes ih =>
      refine .bind ?_ fun _ => ih
      cases code with
      | snapshot s => exact sparingStore_refines hc spare f s.slots 0
      | precondition groups => exact runCode_refines hc f (.precondition groups)
      | postcondition clauses => exact runCode_refines hc f (.postcondition clauses)
      | throws checks mayThrow => exact runCode_refines hc f (.throws checks mayThrow)
      | reverify obligations => exact runCode_refines hc f (.reverify obligations)

theorem sparingActivate_refines (p : WovenProgram) (hc : c.Refines d) (spare : DeclId → Nat → Bool)
    (m : MethodInfo) (this : Option Ref) (args : List Value) :
    (sparingActivate p spare c m this args).Refines (activate p d m this args) := by
  rw [sparingActivate, activate]
  refine .bind ((sparingCodes_refines hc _ _ _).withState _) fun entered => ?_
  rcases entered with ⟨u | _, slots⟩
  · exact leave_refines hc p _ _
  · refine .bind ((runBody_refines_same hc _ m).withState _) fun completed => ?_
    exact leave_refines hc p _ _

theorem sparingInvoke_refines {p q : WovenProgram} {spare : DeclId → Nat → Bool} {limit : Nat}
    {id : DeclId} {this : Option Ref} {args : List Value} (henv : q.env = p.env)
    (h : ∀ m, p.env.method? id = some m →
      (sparingActivate p spare c m this args).Refines (activate q d m this args)) :
    (sparingInvoke p spare limit c id this args).Refines (invokeWith q limit d id this args) := by
  rw [sparingInvoke, invokeWith, henv]
  cases hm : p.env.method? id with
  | none => exact .refl _
  | some m =>
      refine .bind (.refl _) fun μ => ?_
      by_cases hlimit : limit ≤ μ.depth
      · simp only [hlimit, if_true]
        exact .refl _
      · simp only [hlimit, if_false]
        exact (h m hm).deeper

/-- What happens in a sparing run happens in a program in which members do the same and the same
stands behind calls. -/
theorem sparingCalls_refines {p q : WovenProgram} {spare : DeclId → Nat → Bool} {limit : Nat}
    (henv : q.env = p.env)
    (hsites : ∀ id site, q.codesAt id (.afterCall site) = p.codesAt id (.afterCall site))
    (hmembers : ∀ {c d : Calls}, c.Refines d → ∀ id m, p.env.method? id = some m →
      ∀ this args, (sparingActivate p spare c m this args).Refines (activate q d m this args))
    (n : Nat) : (sparingCalls p spare limit n).Refines (calls q limit n) := by
  induction n with
  | zero => exact ⟨fun _ _ _ => .refl _, fun _ _ _ _ => .refl _, Nat.le_refl 0⟩
  | succ n ih =>
      refine ⟨fun id this args => ?_, fun caller site this args => ?_, Nat.le_refl n⟩
      · exact sparingInvoke_refines henv fun m hm => hmembers ih id m hm this args
      · show (recheckWith p _ caller site this args).Refines (recheckWith q _ caller site this args)
        rw [recheckWith, recheckWith, henv, hsites]
        exact checkObligations_refines ih site this args _

/-! ### Slots that correspond -/

/-- Whether one computation goes as another one from slots that are related on, to slots that are
related again. -/
def Matches (R : Slots → Slots → Prop) (R' : Except Unwind Unit → Slots → Slots → Prop)
    (x y : RunWith Slots Unit) : Prop :=
  ∀ ⦃s t μ r s' μ'⦄, R s t → x.ends s μ = some ((r, s'), μ') →
    ∃ t', y.ends t μ = some ((r, t'), μ') ∧ R' r s' t'

section

variable {R : Slots → Slots → Prop} {M R' : Except Unwind Unit → Slots → Slots → Prop}
  {x y : RunWith Slots Unit} {f : Frame}

theorem Matches.bind {x' y' : RunWith Slots Unit} (h : Matches R M x y)
    (herror : ∀ u s t, M (.error u) s t → R' (.error u) s t)
    (h' : Matches (M (.ok ())) R' x' y') : Matches R R' (x >>= fun _ => x') (y >>= fun _ => y') := by
  intro s t μ r s' μ' hR hx
  rcases RunWith.ends_bind_eq_some.mp hx with ⟨u, hu, rfl⟩ | ⟨_, s₁, μ₁, hok, hrest⟩
  · obtain ⟨t', ht', hM⟩ := h hR hu
    exact ⟨t', RunWith.ends_bind_eq_some.mpr (.inl ⟨u, ht', rfl⟩), herror u s' t' hM⟩
  · obtain ⟨t₁, ht₁, hM⟩ := h hR hok
    obtain ⟨t', ht', hR'⟩ := h' hM hrest
    exact ⟨t', RunWith.ends_bind_eq_some.mpr (.inr ⟨(), t₁, μ₁, ht₁, ht'⟩), hR'⟩

theorem Matches.skip : Matches R (fun _ => R) (pure ()) (pure ()) := by
  intro s t μ r s' μ' hR hx
  cases hx
  exact ⟨t, rfl, hR⟩

theorem Matches.withSlots {x y : Frame → Run Unit}
    (h : ∀ s t, R s t → (x { f with slots := s }).Refines (y { f with slots := t })) :
    Matches R (fun _ => R) (withSlots f x) (Run.withSlots f y) := by
  intro s t μ r s' μ' hR hx
  obtain ⟨hx, rfl⟩ := RunWith.ends_withSlots_eq_some.mp hx
  exact ⟨t, RunWith.ends_withSlots_eq_some.mpr ⟨h _ t hR hx, rfl⟩, hR⟩

/-- Spare values are as good as not stored. -/
theorem sparingStore_matches_skip {spare : Nat → Bool} {es : List Expr} {n : Nat}
    (hspare : ∀ i, n ≤ i → i < n + es.length → spare i = true)
    (hR : ∀ s t i v, n ≤ i → i < n + es.length → R s t → R (s.insert i v) t) :
    Matches R (fun r s t => r = .ok () ∧ R s t) (sparingStore spare env c f n es) (pure ()) := by
  induction es generalizing n with
  | nil =>
      intro s t μ r s' μ' hst hx
      cases hx
      exact ⟨t, rfl, rfl, hst⟩
  | cons e es ih =>
      rw [List.length_cons] at hspare hR
      intro s t μ r s' μ' hst hx
      have hn : spare n = true := hspare n (Nat.le_refl n) (by omega)
      have rest := ih (n := n + 1) (fun i hi hlt => hspare i (by omega) (by omega))
        fun s t i v hi hlt => hR s t i v (by omega) (by omega)
      rcases RunWith.ends_bind_eq_some.mp hx with ⟨u, hu, _⟩ | ⟨v, s₁, μ₁, hv, hrest⟩
      · obtain ⟨hu, _⟩ := RunWith.ends_withSlots_eq_some.mp hu
        rw [if_pos hn] at hu
        obtain ⟨_, hok⟩ := completes_of_undisturbing hu
        cases hok
      · obtain ⟨hv, rfl⟩ := RunWith.ends_withSlots_eq_some.mp hv
        rw [if_pos hn] at hv
        obtain rfl := (ends_undisturbing hv).2
        exact rest (hR _ t n v (Nat.le_refl n) (by omega) hst) hrest

/-- Whether the values of the one side are those of the other under greater numbers. -/
def Shifted (k : Nat) (s t : Slots) : Prop := ∀ i, t.get? i = s.get? (i + k)

/-- Whether there are values under all numbers below `n`. -/
def FilledTo (n : Nat) (t : Slots) : Prop := ∀ i < n, (t.get? i).isSome = true

theorem shifted_empty (k : Nat) : Shifted k .empty .empty ∧ FilledTo 0 .empty :=
  ⟨fun _ => rfl, fun _ hi => absurd hi (Nat.not_lt_zero _)⟩

theorem Shifted.insert {k n : Nat} {s t : Slots} (h : Shifted k s t) (v : Value) :
    Shifted k (s.insert (n + k) v) (t.insert n v) := by
  intro i
  simp only [Table.get?_insert, h i, Nat.add_right_cancel_iff]

/-- Values that are not spare are stored in any case. -/
theorem sparingStore_matches_store (hc : c.Refines d) {spare : Nat → Bool} {k : Nat}
    {es : List Expr} (hes : ∀ e ∈ es, e.slotNumbers = []) {n : Nat}
    (hspare : ∀ i, n ≤ i → i < n + es.length → spare (i + k) = false) :
    Matches (fun s t => Shifted k s t ∧ FilledTo n t)
      (fun r s t => Shifted k s t ∧ (r = .ok () → FilledTo (n + es.length) t))
      (sparingStore spare env c f (n + k) es) (store env d f n es) := by
  induction es generalizing n with
  | nil =>
      intro s t μ r s' μ' hst hx
      cases hx
      exact ⟨t, rfl, hst.1, fun _ => hst.2⟩
  | cons e es ih =>
      rw [List.length_cons] at hspare
      intro s t μ r s' μ' hst hx
      have hn : spare (n + k) = false := hspare n (Nat.le_refl n) (by omega)
      have rest := ih (fun e he => hes e (List.mem_cons_of_mem _ he)) (n := n + 1)
        fun i hi hlt => hspare i (by omega) (by omega)
      have heval : (eval env c { f with slots := s } e).Refines
          (eval env d { f with slots := t } e) := by
        refine eval_refines hc (f := { f with slots := s }) e ?_
        rw [hes e List.mem_cons_self]
        exact .nil s t
      rcases RunWith.ends_bind_eq_some.mp hx with ⟨u, hu, rfl⟩ | ⟨v, s₁, μ₁, hv, hrest⟩
      · obtain ⟨hu, rfl⟩ := RunWith.ends_withSlots_eq_some.mp hu
        rw [if_neg (by simp [hn])] at hu
        have ht := (RunWith.ends_withSlots_eq_some (f := f) (x := (eval env d · e))).mpr
          ⟨heval hu, rfl⟩
        exact ⟨t, RunWith.ends_bind_eq_some.mpr (.inl ⟨u, ht, rfl⟩), hst.1, fun h => by cases h⟩
      · obtain ⟨hv, rfl⟩ := RunWith.ends_withSlots_eq_some.mp hv
        rw [if_neg (by simp [hn])] at hv
        have ht := (RunWith.ends_withSlots_eq_some (f := f) (x := (eval env d · e))).mpr
          ⟨heval hv, rfl⟩
        have hfilled : FilledTo (n + 1) (t.insert n v) := by
          intro i hi
          rw [Table.get?_insert]
          split
          · rfl
          · exact hst.2 i (by omega)
        rw [Nat.add_right_comm] at hrest
        obtain ⟨t', ht', hshift, hfill⟩ := rest ⟨hst.1.insert v, hfilled⟩ hrest
        refine ⟨t', RunWith.ends_bind_eq_some.mpr (.inr ⟨v, t, μ₁, ht, ht'⟩), hshift, fun hr => ?_⟩
        have := hfill hr
        rwa [Nat.add_right_comm] at this

end

/-! ### Members whose checks match -/

section

variable {p q : WovenProgram} {m : MethodInfo} {R : Except Unwind Unit → Slots → Slots → Prop}

/-- How the checks at the exits of a member go in two programs. -/
structure ExitsMatch (p q : WovenProgram) (c d : Calls) (id : DeclId)
    (R : Except Unwind Unit → Slots → Slots → Prop) : Prop where
  normal : ∀ f slots, Matches (R (.ok ())) (fun _ _ _ => True)
    (runCodes p.env c f (p.codesAt id .normalExit))
    (runCodes p.env d { f with slots } (q.codesAt id .normalExit))
  exceptional : ∀ f slots r, Matches (R r) (fun _ _ _ => True)
    (runCodes p.env c f (p.codesAt id .exceptionalExit))
    (runCodes p.env d { f with slots } (q.codesAt id .exceptionalExit))

theorem leave_refines_of_matches (henv : q.env = p.env) {f : Frame}
    (h : ExitsMatch p q c d f.decl R) {r : Except Unwind Unit} {s t : Slots} (hR : R r s t)
    (completed : Except Unwind Flow) (hr : (∃ flow, completed = .ok flow) → r = .ok ()) :
    (leave p c { f with slots := s } completed).Refines
      (leave q d { f with slots := t } completed) := by
  rintro μ ⟨o, μ'⟩ hx
  rcases completed with (e | v | e) | flow
  · rw [leave, ends_withState_bind] at hx ⊢
    obtain ⟨checked, s', μ₁, hcodes, hend⟩ := hx
    obtain ⟨t', ht, _⟩ := h.exceptional { f with slots := s, thrown := some e } t r hR hcodes
    rw [henv]
    exact ⟨checked, t', μ₁, ht, hend⟩
  · exact hx
  · exact hx
  · obtain rfl := hr ⟨flow, rfl⟩
    rw [leave, ends_withState_bind] at hx ⊢
    obtain ⟨checked, s', μ₁, hcodes, hend⟩ := hx
    rw [henv]
    cases flow with
    | normal =>
        obtain ⟨t', ht, _⟩ := h.normal { f with slots := s } t hR hcodes
        exact ⟨checked, t', μ₁, ht, hend⟩
    | ret v span =>
        obtain ⟨t', ht, _⟩ := h.normal { f with slots := s, result := v, exit := some span } t
          hR hcodes
        exact ⟨checked, t', μ₁, ht, hend⟩

/-- A member does the same in another program if its checks match. -/
theorem sparingActivate_refines_of_matches (henv : q.env = p.env) (hc : c.Refines d)
    {spare : DeclId → Nat → Bool}
    (hbody : ∀ body, p.env.body? m.id = some body → Typed.stmtsSlotNumbers body = [])
    (hentry : ∀ f, Matches (fun s t => s = .empty ∧ t = .empty) R
      (sparingCodes (spare m.id) p.env c f (p.codesAt m.id .entry))
      (runCodes p.env d f (q.codesAt m.id .entry)))
    (hexits : ExitsMatch p q c d m.id R) (this : Option Ref) (args : List Value) :
    (sparingActivate p spare c m this args).Refines (activate q d m this args) := by
  rintro μ ⟨o, μ'⟩ hx
  rw [sparingActivate, ends_withState_bind] at hx
  obtain ⟨entered, s, μ₁, hcodes, hx⟩ := hx
  obtain ⟨t, ht, hR⟩ := hentry _ ⟨rfl, rfl⟩ hcodes
  rw [activate, ends_withState_bind, henv]
  refine ⟨entered, t, μ₁, ht, ?_⟩
  rcases entered with u | _
  · exact leave_refines_of_matches henv
      (f := { Frame.start m.id this args with scopes := paramScopes m args }) hexits hR (.error u)
      (by rintro ⟨_, h⟩; cases h) hx
  · rw [ends_withState_bind] at hx ⊢
    obtain ⟨completed, scopes, μ₂, hrun, hx⟩ := hx
    have hagrees : ∀ body, p.env.body? m.id = some body →
        AgreesOn s t (Typed.stmtsSlotNumbers body) := by
      intro body hb
      rw [hbody body hb]
      exact .nil _ _
    have hsame := runBody_refines hc m (t := t)
      (f := ⟨m.id, this, args, paramScopes m args, s, .void, none, none⟩) hagrees
    exact ⟨completed, scopes, μ₂, hsame hrun, leave_refines_of_matches henv
      (f := { Frame.start m.id this args with scopes }) hexits hR completed (fun _ => rfl) hx⟩

end

/-! ### The checks of a member one by one -/

/-- Expressions that read no slots do not care for them. -/
theorem eval_slots {f : Frame} {e : Expr} (h : e.slotNumbers = []) (t : Slots) :
    eval env c f e = eval env c { f with slots := t } e := by
  have hc : c.Refines c := ⟨fun _ _ _ => .refl _, fun _ _ _ _ => .refl _, Nat.le_refl _⟩
  have forth : (eval env c f e).Refines (eval env c { f with slots := t } e) :=
    eval_refines hc e (by rw [h]; exact .nil _ _)
  have back : (eval env c { f with slots := t } e).Refines (eval env c f e) :=
    eval_refines hc (f := { f with slots := t }) (t := f.slots) e (by rw [h]; exact .nil _ _)
  exact forth.antisymm back

theorem firstFalse_slots {f : Frame} {clauses : List BoundClause}
    (h : ∀ b ∈ clauses, b.expr.slotNumbers = []) (t : Slots) :
    firstFalse env c f clauses = firstFalse env c { f with slots := t } clauses := by
  induction clauses with
  | nil => rfl
  | cons b bs ih =>
      simp only [firstFalse, holds, eval_slots (h b List.mem_cons_self) t,
        ih fun b hb => h b (List.mem_cons_of_mem _ hb)]

theorem checkPrecondition_slots {f : Frame} {groups : List (List BoundClause)}
    (h : ∀ group ∈ groups, ∀ b ∈ group, b.expr.slotNumbers = []) (t : Slots) :
    checkPrecondition env c f groups = checkPrecondition env c { f with slots := t } groups := by
  have hfailures : failures env c f groups = failures env c { f with slots := t } groups := by
    induction groups with
    | nil => rfl
    | cons group groups ih =>
        simp only [failures, firstFalse_slots (h group List.mem_cons_self) t,
          ih fun group hg => h group (List.mem_cons_of_mem _ hg)]
  simp only [checkPrecondition, hfailures]
  rfl

theorem checkPrecondition_refines (hc : c.Refines d) (f : Frame)
    (groups : List (List BoundClause)) :
    (checkPrecondition env c f groups).Refines (checkPrecondition env d f groups) :=
  .bind (failures_refines hc f groups) fun _ => .refl _

theorem checkPostcondition_refines (hc : c.Refines d) (f : Frame) (clauses : List BoundClause) :
    (checkPostcondition env c f clauses).Refines (checkPostcondition env d f clauses) :=
  .bind (firstFalse_refines hc f clauses) fun _ => .refl _

/-- Clauses about exceptions read their own slots only. -/
theorem checkThrows_slots {f : Frame} {checks : List ThrowsCheck} {t : Slots}
    (h : ∀ x ∈ checks, t.get? x.slot = f.slots.get? x.slot) (mayThrow : List String) :
    checkThrows env f checks mayThrow = checkThrows env { f with slots := t } checks mayThrow := by
  have hheld : ∀ x ∈ checks, ThrowsCheck.held f.slots x = ThrowsCheck.held t x := fun x hx => by
    rw [ThrowsCheck.held, ThrowsCheck.held, h x hx]
  have hunknown : ∀ x ∈ checks, ThrowsCheck.unknown f.slots x = ThrowsCheck.unknown t x :=
    fun x hx => by rw [ThrowsCheck.unknown, ThrowsCheck.unknown, h x hx]
  have any_congr {g g' : ThrowsCheck → Bool} (hg : ∀ x ∈ checks, g x = g' x)
      (about : ThrowsCheck → Bool) :
      (checks.filter about).any g = (checks.filter about).any g' := by
    rw [Bool.eq_iff_iff, List.any_eq_true, List.any_eq_true]
    refine exists_congr fun x => and_congr_right fun hx => ?_
    rw [hg x (List.mem_filter.mp hx).1]
  have hbroken (thrown : Option String) : brokenThrows? env f.slots thrown checks mayThrow =
      brokenThrows? env t thrown checks mayThrow := by
    simp only [brokenThrows?, List.filter_congr hheld, any_congr hunknown, any_congr hheld]
  simp only [checkThrows, hbroken]
  rfl

/-- What a member that checks groups of preconditions and stores values does at its entry. -/
def enter (spare : Nat → Bool) (env : Env) (calls : Calls) (f : Frame) (isConstructor : Bool)
    (groups : List (List BoundClause)) (es : List Expr) : RunWith Slots Unit :=
  let check : RunWith Slots Unit :=
    if groups.isEmpty then return else withSlots f (checkPrecondition env calls · groups)
  if isConstructor then do
    sparingStore spare env calls f 0 es
    check
  else do
    check
    sparingStore spare env calls f 0 es

theorem sparingCodes_entryCodes (spare : Nat → Bool) (f : Frame) (checks : Checks)
    (isConstructor : Bool) (s : Specification) (point : Contract.SnapshotPoint) (es : List Expr) :
    sparingCodes spare env c f (Contract.entryCodes checks isConstructor s
      (if es.isEmpty then none else some ⟨point, es⟩)) =
        enter spare env c f isConstructor (if checks.preconditions then s.preconditions else [])
          (if checks.postconditions || checks.exceptional then es else []) := by
  rw [Contract.entryCodes_eq]
  simp only [enter]
  generalize (if checks.preconditions then s.preconditions else []) = groups
  generalize (if checks.postconditions || checks.exceptional then es else []) = es
  cases groups <;> cases es <;> cases isConstructor <;>
    simp [Contract.listIf, sparingCodes, sparingCode, sparingStore, runCode]

theorem store_eq_sparingStore (f : Frame) (n : Nat) (es : List Expr) :
    store env c f n es = sparingStore (fun _ => false) env c f n es := by
  induction es generalizing n with
  | nil => rfl
  | cons e es ih => simp only [store, sparingStore, ih, Bool.false_eq_true, if_false]

theorem runCodes_eq_sparingCodes (f : Frame) (codes : List CheckCode) :
    runCodes env c f codes = sparingCodes (fun _ => false) env c f codes := by
  induction codes with
  | nil => rfl
  | cons code codes ih =>
      rw [runCodes, sparingCodes, ih]
      congr 1
      cases code with
      | snapshot s => exact store_eq_sparingStore f 0 s.slots
      | precondition | postcondition | throws | reverify => rfl

section

variable {R : Except Unwind Unit → Slots → Slots → Prop} {f : Frame} {spare : Nat → Bool}

/-- Entries match if what is stored matches: preconditions read none of it. -/
theorem enter_matches (hc : c.Refines d) {groups : List (List BoundClause)}
    (hgroups : ∀ group ∈ groups, ∀ b ∈ group, b.expr.slotNumbers = [])
    (isConstructor : Bool) {es es' : List Expr}
    (hstore : Matches (fun s t => s = .empty ∧ t = .empty) R (sparingStore spare env c f 0 es)
      (sparingStore (fun _ => false) env d f 0 es'))
    (herror : ∀ u s t, s = .empty ∧ t = .empty → R (.error u) s t)
    (hlater : ∀ r s t, R (.ok ()) s t → R r s t) :
    Matches (fun s t => s = .empty ∧ t = .empty) R
      (enter spare env c f isConstructor groups es)
      (enter (fun _ => false) env d f isConstructor groups es') := by
  have check (R : Slots → Slots → Prop) : Matches R (fun _ => R)
      (if groups.isEmpty then pure () else withSlots f (checkPrecondition env c · groups))
      (if groups.isEmpty then pure () else withSlots f (checkPrecondition env d · groups)) := by
    split
    · exact .skip
    · refine .withSlots fun s t _ => ?_
      rw [checkPrecondition_slots hgroups t]
      exact checkPrecondition_refines hc _ groups
  cases isConstructor with
  | true =>
      refine Matches.bind (M := R) (x := sparingStore spare env c f 0 es) hstore
        (fun u s t h => h) ?_
      intro s t μ r s' μ' hR hx
      obtain ⟨t', ht', h⟩ := check (R (.ok ())) hR hx
      exact ⟨t', ht', hlater r s' t' h⟩
  | false => exact (check _).bind herror hstore

/-- Storing a list is storing its front and then its back. -/
theorem sparingStore_append (spare : Nat → Bool) (f : Frame) (xs ys : List Expr) (n : Nat) :
    sparingStore spare env c f n (xs ++ ys) =
      (sparingStore spare env c f n xs >>= fun _ =>
        sparingStore spare env c f (n + xs.length) ys) := by
  induction xs generalizing n with
  | nil => simp only [List.nil_append, sparingStore, pure_bind, List.length_nil, Nat.add_zero]
  | cons x xs ih =>
      simp only [List.cons_append, sparingStore, ih, bind_assoc, List.length_cons, Nat.add_assoc,
        Nat.add_comm 1]

/-- Slots that agree on the conditions. -/
def AgreesBelow (k : Nat) (s t : Slots) : Prop := ∀ i < k, t.get? i = s.get? i

/-- Conditions are stored alike if spare terms follow them. -/
theorem conditions_match (hc : c.Refines d) {conditions more : List Expr}
    (hes : ∀ e ∈ conditions, e.slotNumbers = [])
    (hstored : ∀ i < conditions.length, spare i = false)
    (hspare : ∀ i, conditions.length ≤ i → i < conditions.length + more.length →
      spare i = true) :
    Matches (fun s t => s = .empty ∧ t = .empty) (fun _ => AgreesBelow conditions.length)
      (sparingStore spare env c f 0 (conditions ++ more))
      (sparingStore (fun _ => false) env d f 0 conditions) := by
  have first : Matches (fun s t => Shifted 0 s t ∧ FilledTo 0 t)
      (fun r s t => Shifted 0 s t ∧ (r = .ok () → FilledTo (0 + conditions.length) t))
      (sparingStore spare env c f 0 conditions) (store env d f 0 conditions) :=
    sparingStore_matches_store hc (k := 0) hes (n := 0) fun i _ hi => hstored i (by omega)
  have second : Matches (AgreesBelow conditions.length) (fun _ => AgreesBelow conditions.length)
      (sparingStore spare env c f (0 + conditions.length) more) (pure ()) := by
    intro s t μ r s' μ' hst hx
    obtain ⟨t', ht', _, h⟩ := sparingStore_matches_skip (R := AgreesBelow conditions.length)
      (fun i hi hlt => hspare i (by omega) (by omega)) (fun s t i v hi hlt hst j hj => by
        rw [Table.get?_insert_of_ne _ (by omega)]
        exact hst j hj) hst hx
    exact ⟨t', ht', h⟩
  rw [sparingStore_append]
  intro s t μ r s' μ' hst hx
  obtain ⟨rfl, rfl⟩ := hst
  have whole : Matches (fun s t => Shifted 0 s t ∧ FilledTo 0 t)
      (fun _ => AgreesBelow conditions.length)
      (sparingStore spare env c f 0 conditions >>= fun _ =>
        sparingStore spare env c f (0 + conditions.length) more)
      (store env d f 0 conditions >>= fun _ => pure ()) := by
    refine Matches.bind first (fun u s t h i _ => h.1 i) ?_
    intro s t μ r s' μ' hst hx
    exact second (fun i _ => hst.1 i) hx
  obtain ⟨t', ht', h⟩ := whole (shifted_empty 0) hx
  rw [bind_pure_unit] at ht'
  refine ⟨t', ?_, h⟩
  rw [← store_eq_sparingStore]
  exact ht'

/-- The terms in `old` are stored under smaller numbers if spare conditions are left out. -/
theorem terms_match (hc : c.Refines d) {conditions terms : List Expr}
    (hes : ∀ e ∈ terms, e.slotNumbers = [])
    (hspare : ∀ i < conditions.length, spare i = true)
    (hstored : ∀ i, conditions.length ≤ i → i < conditions.length + terms.length →
      spare i = false) :
    Matches (fun s t => s = .empty ∧ t = .empty)
      (fun r s t => r = .ok () → Shifted conditions.length s t ∧ FilledTo terms.length t)
      (sparingStore spare env c f 0 (conditions ++ terms))
      (sparingStore (fun _ => false) env d f 0 terms) := by
  have first : Matches (fun s t => Shifted conditions.length s t ∧ FilledTo 0 t)
      (fun r s t => r = .ok () ∧ Shifted conditions.length s t ∧ FilledTo 0 t)
      (sparingStore spare env c f 0 conditions) (pure ()) := by
    refine sparingStore_matches_skip (fun i _ hi => hspare i (by omega))
      fun s t i v _ hi hst => ⟨fun j => ?_, hst.2⟩
    rw [Table.get?_insert_of_ne _ (by omega)]
    exact hst.1 j
  have second : Matches (fun s t => Shifted conditions.length s t ∧ FilledTo 0 t)
      (fun r s t => Shifted conditions.length s t ∧
        (r = .ok () → FilledTo (0 + terms.length) t))
      (sparingStore spare env c f (0 + conditions.length) terms) (store env d f 0 terms) :=
    sparingStore_matches_store hc hes fun i _ hi => hstored _ (by omega) (by omega)
  rw [sparingStore_append]
  intro s t μ r s' μ' hst hx
  obtain ⟨rfl, rfl⟩ := hst
  have whole : Matches (fun s t => Shifted conditions.length s t ∧ FilledTo 0 t)
      (fun r s t => r = .ok () → Shifted conditions.length s t ∧ FilledTo terms.length t)
      (sparingStore spare env c f 0 conditions >>= fun _ =>
        sparingStore spare env c f (0 + conditions.length) terms)
      (pure () >>= fun _ => store env d f 0 terms) := by
    refine Matches.bind first (fun u s t h => absurd h.1 (by simp)) ?_
    intro s t μ r s' μ' hst hx
    obtain ⟨t', ht', hshift, hfill⟩ := second hst.2 hx
    exact ⟨t', ht', fun hr => ⟨hshift, by simpa using hfill hr⟩⟩
  obtain ⟨t', ht', h⟩ := whole (shifted_empty conditions.length) hx
  rw [pure_bind] at ht'
  refine ⟨t', ?_, h⟩
  rw [← store_eq_sparingStore]
  exact ht'

end

/-! ### Members of the program without the deleted clauses -/

/-- Clauses about exceptions are checked alike if the slots of the conditions agree. -/
theorem throws_match (s : Specification) (b : Bool) (f : Frame) (slots : Slots) :
    Matches (AgreesBelow (Contract.conditionTerms s).length) (fun _ _ _ => True)
      (runCodes env c f (Contract.listIf b (Contract.throwsCode (scheduleOne s).1)))
      (runCodes env d { f with slots }
        (Contract.listIf b (Contract.throwsCode (scheduleOne s).1))) := by
  cases b with
  | false =>
      intro s t μ r s' μ' _ hx
      cases hx
      exact ⟨t, rfl, trivial⟩
  | true =>
      simp only [Contract.listIf_true, runCodes, Contract.throwsCode, runCode, bind_pure_unit]
      intro a b μ r a' μ' hab hx
      obtain ⟨hx, rfl⟩ := RunWith.ends_withSlots_eq_some.mp hx
      refine ⟨b, RunWith.ends_withSlots_eq_some.mpr ⟨?_, rfl⟩, trivial⟩
      rw [checkThrows_slots (t := b) fun x hx => ?_] at hx
      · exact hx
      · obtain ⟨⟨_, i⟩, hmem, rfl⟩ := List.mem_map.mp hx
        exact hab i (List.mem_range.mp (List.of_mem_zip hmem).2)

/-- Postconditions are checked alike if the values that they read are there under other numbers. -/
theorem postconditions_match (hc : c.Refines d) {s : Specification}
    (hs : ∀ c ∈ s.postconditions, Fresh c) (f : Frame) (slots : Slots) :
    Matches (fun a b => Shifted (Contract.conditionTerms s).length a b ∧
        FilledTo (storePosts 0 [] s.postconditions).2.length b) (fun _ _ _ => True)
      (runCodes env c f (Contract.listIf (!(scheduleOne s).1.postconditions.isEmpty)
        (.postcondition (scheduleOne s).1.postconditions)))
      (runCodes env d { f with slots }
        (Contract.listIf (!(storePosts 0 [] s.postconditions).1.isEmpty)
          (.postcondition (storePosts 0 [] s.postconditions).1))) := by
  rw [(Contract.scheduleOne_of_postconditions hs).2, List.isEmpty_map]
  cases (storePosts 0 [] s.postconditions).1.isEmpty with
  | true =>
      intro a b μ r a' μ' _ hx
      cases hx
      exact ⟨b, rfl, trivial⟩
  | false =>
      simp only [Bool.not_false, Contract.listIf_true, runCodes, runCode, bind_pure_unit]
      intro a b μ r a' μ' hab hx
      obtain ⟨hx, rfl⟩ := RunWith.ends_withSlots_eq_some.mp hx
      refine ⟨b, RunWith.ends_withSlots_eq_some.mpr ⟨?_, rfl⟩, trivial⟩
      have hread : ∀ p ∈ (storePosts 0 [] s.postconditions).1,
          ShiftedOn (Contract.conditionTerms s).length a' b p.expr.slotNumbers := by
        intro p hp n hn
        have hlt : n < (storePosts 0 [] s.postconditions).2.length :=
          Contract.slotNumbers_lt (fun c hc => (hs c hc).unscheduled) p hp n hn
        obtain ⟨v, hv⟩ := Option.isSome_iff_exists.mp (hab.2 n hlt)
        exact ⟨v, hv, (hab.1 n).symm.trans hv⟩
      rw [checkPostcondition_shiftSlots (f := { f with slots := a' }) hread] at hx
      exact checkPostcondition_refines hc _ _ hx

section

variable {p : Surface.Program} {m : MethodInfo} {s : Specification}
  {spare : DeclId → Nat → Bool}

theorem checkedGroups_fresh (hfresh : Contract.FreshSpec s) {b : Bool} :
    ∀ group ∈ (if b then (scheduleOne s).1.preconditions else []),
      ∀ c ∈ group, c.expr.slotNumbers = [] := by
  cases b with
  | true => exact hfresh.groups
  | false => exact fun _ h => absurd h List.not_mem_nil

section

variable {checks : Checks} (hk : env.MethodsKeyed) (hm : env.method? m.id = some m)
  (hs : s = specificationOf env (Contract.bind env (Clause.ofProgram p) p.siteCount).decls m)
  (hfresh : Contract.FreshSpec s)
  (hbody : ∀ body, env.body? m.id = some body → Typed.stmtsSlotNumbers body = [])
  (hspare : ∀ i < (scheduleOne s).2.length, spare m.id i = s.spares checks i)

include hk hm hs hfresh hbody hspare

/-- Without its postconditions a member does the same, if its terms in `old` leave no trace. -/
theorem activate_without_postconditions (hp : checks.postconditions = false)
    (he : checks.exceptional = true) (hc : c.Refines d) (this : Option Ref) (args : List Value) :
    (sparingActivate ⟨env, Contract.weave env (.ofProgram p env) checks⟩ spare c m this
      args).Refines (activate (.covered checks p env) d m this args) := by
  obtain ⟨more, hmore⟩ := Contract.scheduleOne_of_exceptional hfresh.postconditions
  obtain ⟨hterms, hposts, hthrows, hcode⟩ := Contract.scheduleOne_covered_of_exceptional (s := s) hp he
  have hlength : (Contract.conditionTerms s).length = s.throws.length := List.length_map ..
  have hcodes (point : ProgramPoint) (hpoint : ∀ site, point ≠ .afterCall site) :=
    codesAt_member checks hk hm hs hpoint
  rw [hmore, List.length_append] at hspare
  refine sparingActivate_refines_of_matches
    (p := ⟨env, Contract.weave env (.ofProgram p env) checks⟩) (q := .covered checks p env)
    (R := fun _ => AgreesBelow (Contract.conditionTerms s).length) rfl hc hbody (fun f => ?_)
    ⟨fun f slots => ?_, fun f slots _ => ?_⟩ this args
  · obtain ⟨hentry, hentry'⟩ := hcodes .entry (by simp)
    rw [hentry, hentry', runCodes_eq_sparingCodes, scheduledCodes, scheduledCodes,
      memberCodes_entry, memberCodes_entry, sparingCodes_entryCodes, sparingCodes_entryCodes,
      hterms, hmore, hp, he]
    refine enter_matches hc (checkedGroups_fresh hfresh) m.isConstructor
      (conditions_match hc hfresh.conditions (fun i hi => ?_) fun i hi hlt => ?_) ?_
      fun _ _ _ h => h
    · rw [hspare i (by omega), Specification.spares, if_pos (hlength ▸ hi), hp]
      rfl
    · rw [hspare i hlt, Specification.spares, if_neg (by omega), hp, he]
      rfl
    · rintro _ _ _ ⟨rfl, rfl⟩
      exact fun _ _ => rfl
  · obtain ⟨hnormal, hnormal'⟩ := hcodes .normalExit (by simp)
    rw [hnormal, hnormal', scheduledCodes, scheduledCodes, memberCodes_normalExit,
      memberCodes_normalExit, hposts, hthrows, hcode, hp, he]
    exact throws_match s (!s.throws.isEmpty) f slots
  · obtain ⟨hexit, hexit'⟩ := hcodes .exceptionalExit (by simp)
    rw [hexit, hexit', scheduledCodes, scheduledCodes, memberCodes_exceptionalExit,
      memberCodes_exceptionalExit, hthrows, hcode, he]
    exact throws_match s (!s.throws.isEmpty) f slots

/-- Without its clauses about exceptions a member does the same, if their conditions leave no
trace. -/
theorem activate_without_exceptional (hp : checks.postconditions = true)
    (he : checks.exceptional = false) (hc : c.Refines d) (this : Option Ref) (args : List Value) :
    (sparingActivate ⟨env, Contract.weave env (.ofProgram p env) checks⟩ spare c m this
      args).Refines (activate (.covered checks p env) d m this args) := by
  obtain ⟨hmore, _⟩ := Contract.scheduleOne_of_postconditions hfresh.postconditions
  obtain ⟨hterms, hposts, hthrows⟩ :=
    Contract.scheduleOne_covered_of_postconditions (s := s) hp he
  have hlength : (Contract.conditionTerms s).length = s.throws.length := List.length_map ..
  have hcodes (point : ProgramPoint) (hpoint : ∀ site, point ≠ .afterCall site) :=
    codesAt_member checks hk hm hs hpoint
  rw [hmore, List.length_append] at hspare
  refine sparingActivate_refines_of_matches
    (p := ⟨env, Contract.weave env (.ofProgram p env) checks⟩) (q := .covered checks p env)
    (R := fun r a b => r = .ok () → Shifted (Contract.conditionTerms s).length a b ∧
      FilledTo (storePosts 0 [] s.postconditions).2.length b) rfl hc hbody (fun f => ?_)
    ⟨fun f slots => ?_, fun f slots _ => ?_⟩ this args
  · obtain ⟨hentry, hentry'⟩ := hcodes .entry (by simp)
    rw [hentry, hentry', runCodes_eq_sparingCodes, scheduledCodes, scheduledCodes,
      memberCodes_entry, memberCodes_entry, sparingCodes_entryCodes, sparingCodes_entryCodes,
      hterms, hmore, hp, he]
    refine enter_matches hc (checkedGroups_fresh hfresh) m.isConstructor
      (terms_match hc hfresh.terms (fun i hi => ?_) fun i hi hlt => ?_)
      (fun _ _ _ _ h => absurd h (by simp)) fun _ _ _ h _ => h rfl
    · rw [hspare i (by omega), Specification.spares, if_pos (hlength ▸ hi), hp, he]
      rfl
    · rw [hspare i hlt, Specification.spares, if_neg (by omega), he]
      rfl
  · obtain ⟨hnormal, hnormal'⟩ := hcodes .normalExit (by simp)
    rw [hnormal, hnormal', scheduledCodes, scheduledCodes, memberCodes_normalExit,
      memberCodes_normalExit, hposts, hthrows, hp, he]
    simp only [Bool.true_and, Bool.false_and, List.isEmpty_nil, Bool.not_true, Bool.and_false,
      Contract.listIf_false, List.append_nil]
    intro a b μ r a' μ' hab hx
    exact postconditions_match hc hfresh.postconditions f slots (hab trivial) hx
  · obtain ⟨hexit, hexit'⟩ := hcodes .exceptionalExit (by simp)
    rw [hexit, hexit', scheduledCodes, scheduledCodes, memberCodes_exceptionalExit,
      memberCodes_exceptionalExit, hthrows, he]
    intro a b μ r a' μ' _ hx
    cases hx
    exact ⟨b, rfl, trivial⟩

end

end

end Run

/-- How a sparing run ends. -/
theorem WovenProgram.sparingRun_eq (p : WovenProgram) (spare : DeclId → Nat → Bool)
    (limit bound : Nat) {entry : String} {id : DeclId}
    (h : Run.findEntry p.env entry = .ok id) (μ : Machine) :
    (p.sparingRun spare limit bound entry) μ =
      ((Run.runFrom p.env (Run.sparingCalls p spare limit bound) id).ends μ).bind
        fun (r, μ') => (Run.toOutcome r) μ' := by
  rw [sparingRun, h]
  rfl

/-- A sparing run goes as another run goes from its entry point, if what happens behind its calls
happens there too. -/
theorem WovenProgram.run_of_sparingRun {p q : WovenProgram} {spare : DeclId → Nat → Bool}
    {limit bound : Nat} {entry : String} {μ : Machine} {o : Except RunError Outcome × Machine}
    (hq : q.env = p.env)
    (hc : (Run.sparingCalls p spare limit bound).Refines (Run.calls q limit bound))
    (h : p.sparingRun spare limit bound entry μ = some o) :
    q.run limit bound entry μ = some o := by
  cases he : Run.findEntry p.env entry with
  | error e =>
      rw [sparingRun, he] at h
      rw [run, hq, he]
      exact h
  | ok id =>
      rw [sparingRun_eq _ _ _ _ he] at h
      obtain ⟨r, hr, hend⟩ := Option.bind_eq_some_iff.mp h
      rw [run_eq _ _ _ (hq ▸ he), hq, Run.runFrom_refines hc id hr]
      exact hend

end Covenant
