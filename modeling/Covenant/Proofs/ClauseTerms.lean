import Covenant.Proofs.FittedChecks
import Covenant.Proofs.OldTerms
import Covenant.Proofs.ProgramJourneys
import Covenant.Proofs.WovenClauses

/-!
# What is evaluated of clauses

Clauses are inherited, their terms in `old` are stored at an entry, what is left of a
postcondition reads the slots, and invariants are checked behind calls. Every
expression that is evaluated on these ways has the span of one in the clause as it was
written, and every call has its number. So all of them have what the clauses of the
records have (`evaluates_marked`), and calls of clauses have numbers behind those of
all bodies (`evaluates_from`).
-/

namespace Covenant

open Typed (Expr)

namespace Typed.Expr

/-- The number of a call or a creation. -/
def site? : Expr → Option SiteId
  | call _ _ site .. | new _ site .. => some site
  | _ => none

mutual

theorem site_mem : ∀ e : Expr, ∀ x ∈ e.parts, ∀ i, x.site? = some i → i ∈ e.sites
  | int .., _, hx, _, hi | bool .., _, hx, _, hi | null .., _, hx, _, hi | this .., _, hx, _, hi
  | var .., _, hx, _, hi | param .., _, hx, _, hi | staticField .., _, hx, _, hi
  | result .., _, hx, _, hi | slot .., _, hx, _, hi => by
    obtain rfl := List.mem_singleton.mp hx
    cases hi
  | field _ _ e _, x, hx, i, hi | length _ e, x, hx, i, hi | unary _ _ e, x, hx, i, hi
  | newArray _ _ e, x, hx, i, hi | old _ e, x, hx, i, hi | spread _ e, x, hx, i, hi => by
    rcases List.mem_cons.mp hx with rfl | hx
    · cases hi
    · exact site_mem e x hx i hi
  | index _ _ l r, x, hx, i, hi | binary _ _ l r, x, hx, i, hi => by
    rcases List.mem_cons.mp hx with rfl | hx
    · cases hi
    · exact List.mem_append.mpr ((List.mem_append.mp hx).imp (site_mem l x · i hi)
        (site_mem r x · i hi))
  | call _ _ site receiver _ _ args, x, hx, i, hi => by
    refine List.mem_append.mpr ?_
    rcases List.mem_cons.mp hx with rfl | hx
    · cases hi
      exact .inr List.mem_cons_self
    · exact (List.mem_append.mp hx).imp (site_memOpt receiver x · i hi)
        fun hx => List.mem_cons_of_mem _ (site_memAll args x hx i hi)
  | new _ site _ _ args, x, hx, i, hi => by
    rcases List.mem_cons.mp hx with rfl | hx
    · cases hi
      exact List.mem_cons_self
    · exact List.mem_cons_of_mem _ (site_memAll args x hx i hi)

theorem site_memOpt : ∀ e : Option Expr, ∀ x ∈ partsOpt e, ∀ i, x.site? = some i → i ∈ sitesOpt e
  | none, _, hx, _, _ => absurd hx List.not_mem_nil
  | some e, x, hx, i, hi => site_mem e x hx i hi

theorem site_memAll : ∀ es : List Expr, ∀ x ∈ partsAll es, ∀ i, x.site? = some i → i ∈ sitesAll es
  | [], _, hx, _, _ => absurd hx List.not_mem_nil
  | e :: es, x, hx, i, hi => List.mem_append.mpr ((List.mem_append.mp hx).imp
      (site_mem e x · i hi) (site_memAll es x · i hi))

end

end Typed.Expr

/-- Whether expressions have such spans, and such numbers if they are calls. -/
def Typed.Expr.Marked (Q : Span → Option SiteId → Prop) (es : List Expr) : Prop :=
  ∀ x ∈ es, Q x.span x.site?

namespace Contract

open Typed.Expr (Marked)

/-! ## What is left of a postcondition -/

section

variable {Q : Span → Option SiteId → Prop} {first : Nat}

theorem slotFor_marked {slots : List Expr} {x : Expr} (hs : ∀ y ∈ slots, Marked Q y.parts)
    (hx : Marked Q x.parts) : ∀ y ∈ (slotFor first slots x).2, Marked Q y.parts := by
  rw [slotFor]
  split
  · exact hs
  · exact List.forall_mem_append.mpr ⟨hs, List.forall_mem_singleton.mpr hx⟩

mutual

theorem storeOld_marked : ∀ (e : Expr) {slots : List Expr}, (∀ y ∈ slots, Marked Q y.parts) →
    Marked Q e.parts → Marked Q (storeOld first slots e).1.parts ∧
      ∀ y ∈ (storeOld first slots e).2, Marked Q y.parts
  | .int .., _, hs, he | .bool .., _, hs, he | .null .., _, hs, he | .this .., _, hs, he
  | .var .., _, hs, he | .param .., _, hs, he | .staticField .., _, hs, he
  | .result .., _, hs, he | .slot .., _, hs, he => ⟨he, hs⟩
  | .old _ x, _, hs, he => by
    obtain ⟨hself, hx⟩ := List.forall_mem_cons.mp he
    obtain ⟨hx, hs₁⟩ := storeOld_marked x hs hx
    rw [storeOld]
    exact ⟨List.forall_mem_singleton.mpr hself, slotFor_marked hs₁ hx⟩
  | .field _ _ e _, _, hs, he | .length _ e, _, hs, he | .unary _ _ e, _, hs, he
  | .newArray _ _ e, _, hs, he | .spread _ e, _, hs, he => by
    obtain ⟨hself, he⟩ := List.forall_mem_cons.mp he
    obtain ⟨he, hs₁⟩ := storeOld_marked e hs he
    rw [storeOld]
    exact ⟨List.forall_mem_cons.mpr ⟨hself, he⟩, hs₁⟩
  | .index _ _ l r, _, hs, he | .binary _ _ l r, _, hs, he => by
    obtain ⟨hself, he⟩ := List.forall_mem_cons.mp he
    obtain ⟨hl, hr⟩ := List.forall_mem_append.mp he
    obtain ⟨hl, hs₁⟩ := storeOld_marked l hs hl
    obtain ⟨hr, hs₂⟩ := storeOld_marked r hs₁ hr
    rw [storeOld]
    exact ⟨List.forall_mem_cons.mpr ⟨hself, List.forall_mem_append.mpr ⟨hl, hr⟩⟩, hs₂⟩
  | .call _ _ _ receiver _ _ args, _, hs, he => by
    obtain ⟨hself, he⟩ := List.forall_mem_cons.mp he
    obtain ⟨hr, ha⟩ := List.forall_mem_append.mp he
    obtain ⟨hr, hs₁⟩ := storeOldOpt_marked receiver hs hr
    obtain ⟨ha, hs₂⟩ := storeOldAll_marked args hs₁ ha
    rw [storeOld]
    exact ⟨List.forall_mem_cons.mpr ⟨hself, List.forall_mem_append.mpr ⟨hr, ha⟩⟩, hs₂⟩
  | .new _ _ _ _ args, _, hs, he => by
    obtain ⟨hself, ha⟩ := List.forall_mem_cons.mp he
    obtain ⟨ha, hs₁⟩ := storeOldAll_marked args hs ha
    rw [storeOld]
    exact ⟨List.forall_mem_cons.mpr ⟨hself, ha⟩, hs₁⟩

theorem storeOldOpt_marked : ∀ (e : Option Expr) {slots : List Expr},
    (∀ y ∈ slots, Marked Q y.parts) → Marked Q (Expr.partsOpt e) →
      Marked Q (Expr.partsOpt (storeOldOpt first slots e).1) ∧
        ∀ y ∈ (storeOldOpt first slots e).2, Marked Q y.parts
  | none, _, hs, he => ⟨he, hs⟩
  | some e, _, hs, he => by
    rw [storeOldOpt]
    exact storeOld_marked e hs he

theorem storeOldAll_marked : ∀ (es : List Expr) {slots : List Expr},
    (∀ y ∈ slots, Marked Q y.parts) → Marked Q (Expr.partsAll es) →
      Marked Q (Expr.partsAll (storeOldAll first slots es).1) ∧
        ∀ y ∈ (storeOldAll first slots es).2, Marked Q y.parts
  | [], _, hs, he => ⟨he, hs⟩
  | e :: es, _, hs, he => by
    obtain ⟨he, hes⟩ := List.forall_mem_append.mp he
    obtain ⟨he, hs₁⟩ := storeOld_marked e hs he
    obtain ⟨hes, hs₂⟩ := storeOldAll_marked es hs₁ hes
    rw [storeOldAll]
    exact ⟨List.forall_mem_append.mpr ⟨he, hes⟩, hs₂⟩

end

theorem storePosts_marked {posts : List BoundClause} {slots : List Expr}
    (hs : ∀ y ∈ slots, Marked Q y.parts) (hp : ∀ c ∈ posts, Marked Q c.expr.parts) :
    (∀ c ∈ (storePosts first slots posts).1, Marked Q c.expr.parts) ∧
      ∀ y ∈ (storePosts first slots posts).2, Marked Q y.parts := by
  induction posts generalizing slots with
  | nil => exact ⟨hp, hs⟩
  | cons c cs ih =>
      obtain ⟨hc, hcs⟩ := List.forall_mem_cons.mp hp
      obtain ⟨hc, hs₁⟩ := storeOld_marked c.expr hs hc
      obtain ⟨hcs, hs₂⟩ := ih hs₁ hcs
      rw [storePosts]
      exact ⟨List.forall_mem_cons.mpr ⟨hc, hcs⟩, hs₂⟩

end

/-! ## Clauses of a program -/

/-- What the condition in a record is parsed and checked to, where calls of clauses are numbered from
`k` on. -/
inductive TermOf (k : SiteId) (r : ClauseRecord) : Expr → Prop
  | mk {site e next s t cs} (hk : k ≤ site) (parsed : Parse.clause r site = .ok (.condition e, next))
      (checked : Typing.Elab s e t cs) : TermOf k r t

section

variable {env : Env} {k : SiteId} {records : List ClauseRecord}

theorem termOf_record {r : ClauseRecord} {site : SiteId} {c : BoundClause} (hk : k ≤ site)
    (h : (bindRecord env r site).1 = .ok (.condition c)) : TermOf k r c.expr := by
  cases hp : placeRecord env r with
  | error fault =>
      simp only [bindRecord, hp] at h
      cases h
  | ok s =>
      cases hc : SourceFault.ofGrammar (Parse.clause r site) with
      | error fault =>
          simp only [bindRecord, hp, hc] at h
          cases h
      | ok body =>
          obtain ⟨body, next⟩ := body
          simp only [bindRecord, hp, hc] at h
          cases body with
          | condition e =>
              obtain ⟨_, _, h₁⟩ := bind_eq_ok.mp h
              obtain ⟨t, ht, h₂⟩ := bind_eq_ok.mp h₁
              obtain ⟨cs, he⟩ := resolve_elab (mapError_eq_ok.mp ht)
              split at h₂
              · obtain ⟨_, hfail, _⟩ := bind_eq_ok.mp h₂
                exact absurd (mapError_eq_ok.mp hfail) (by simp [clauseFault])
              · cases h₂
                exact .mk hk (mapError_eq_ok.mp hc) he
          | targets es =>
              simp only [bindBody] at h
              cases hes : es.mapM (bindTarget env r s) with
              | error | ok =>
                  rw [hes] at h
                  cases h

/-- What records are bound to, if it is a condition. -/
theorem termOf_bindAll {site : SiteId} (hk : k ≤ site) :
    ∀ x ∈ bindAll env site records, ∀ c, x.2 = .ok (.condition c) →
      ∃ r ∈ records, TermOf k r c.expr := by
  induction records generalizing site with
  | nil => exact fun _ hx => absurd hx List.not_mem_nil
  | cons r rs ih =>
      refine List.forall_mem_cons.mpr ⟨fun c hc => ?_, fun x hx c hc => ?_⟩
      · exact ⟨r, List.mem_cons_self, termOf_record hk hc⟩
      · obtain ⟨r', hr', hof⟩ := ih (bindRecord_ok hk).1 x hx c hc
        exact ⟨r', List.mem_cons_of_mem _ hr', hof⟩

theorem termOf_mem {id : DeclId} {tag : ClauseTag} {x : ClauseRecord × BoundClause}
    (hx : x ∈ conditionsOn (bindAll env k records) id tag) :
    ∃ r ∈ records, TermOf k r x.2.expr := by
  obtain ⟨y, hy, hxy⟩ := List.mem_filterMap.mp hx
  obtain ⟨hok, _⟩ := conditionOn?_eq_some.mp hxy
  exact termOf_bindAll (Nat.le_refl k) y hy _ hok

/-- The invariants of classes are conditions of records. -/
theorem termOf_invariants {name : String} {cs : List BoundClause}
    (hcs : (bind env records k).invariants.get? name = some cs) :
    ∀ c ∈ cs, ∃ r ∈ records, TermOf k r c.expr := by
  have fold : ∀ (xs : List (ClauseRecord × Except SourceFault Binding)) (b : Bound),
      (∀ x ∈ xs, ∀ c, x.2 = .ok (.condition c) → ∃ r ∈ records, TermOf k r c.expr) →
      (∀ name cs, b.invariants.get? name = some cs →
        ∀ c ∈ cs, ∃ r ∈ records, TermOf k r c.expr) →
      ∀ name cs, (xs.foldl (Bound.add env) b).invariants.get? name = some cs →
        ∀ c ∈ cs, ∃ r ∈ records, TermOf k r c.expr := by
    intro xs
    induction xs with
    | nil => exact fun b _ hb => hb
    | cons x xs ih =>
        intro b hxs hb
        obtain ⟨hx, hxs⟩ := List.forall_mem_cons.mp hxs
        refine ih _ hxs fun name cs hcs => ?_
        obtain ⟨r, fault | c | targets⟩ := x
        · exact hb name cs hcs
        · simp only [Bound.add] at hcs
          split at hcs
          · rcases Table.get?_insert_cases hcs with ⟨rfl, rfl⟩ | hcs
            · refine forall_append_singleton ?_ (hx c rfl)
              cases hold : b.invariants.get? ((env.ownerOf? r.owner).getD "") with
              | none => exact fun c hc => absurd hc List.not_mem_nil
              | some old => exact hb _ old hold
            · exact hb name cs hcs
          · exact hb name cs hcs
        · exact hb name cs hcs
  exact fold _ ⟨.empty, .empty, []⟩ (termOf_bindAll (Nat.le_refl k)) (by simp) name cs hcs

variable {Q : Span → Option SiteId → Prop}

/-- All expressions in the clauses that a member checks are marked so. -/
structure SpecMarked (Q : Span → Option SiteId → Prop) (s : Specification) : Prop where
  preconditions : ∀ group ∈ s.preconditions, ∀ c ∈ group, Marked Q c.expr.parts
  postconditions : ∀ c ∈ s.postconditions, Marked Q c.expr.parts
  conditions : ∀ t ∈ s.throws, Marked Q t.condition.expr.parts

theorem specMarked_of_bind (m : MethodInfo)
    (h : ∀ r ∈ records, ∀ t, TermOf k r t → Marked Q t.parts) :
    SpecMarked Q (specificationOf env (bind env records k).decls m) := by
  obtain ⟨hpre, hpost, hthrows, _⟩ := specificationOf_bind env records k m rfl rfl
  have of_mem {id : DeclId} {tag : ClauseTag} {x : ClauseRecord × BoundClause}
      (hx : x ∈ conditionsOn (bindAll env k records) id tag) : Marked Q x.2.expr.parts := by
    obtain ⟨r, hr, hof⟩ := termOf_mem hx
    exact h r hr _ hof
  refine ⟨fun group hg c hc => ?_, fun c hc => ?_, fun t ht => ?_⟩
  · rw [hpre] at hg
    obtain ⟨id, _, rfl⟩ := List.mem_map.mp (List.mem_filter.mp hg).1
    obtain ⟨x, hx, rfl⟩ := List.mem_map.mp hc
    exact of_mem hx
  · rw [hpost] at hc
    obtain ⟨x, hx, rfl⟩ := List.mem_map.mp hc
    obtain ⟨id, _, hx⟩ := List.mem_flatMap.mp hx
    exact of_mem hx
  · rw [hthrows] at ht
    obtain ⟨x, hx, rfl⟩ := List.mem_map.mp ht
    obtain ⟨id, _, hx⟩ := List.mem_flatMap.mp hx
    exact of_mem hx

theorem SpecMarked.scheduled {s : Specification} (h : SpecMarked Q s) :
    SpecMarked Q (scheduleOne s).1 ∧ ∀ e ∈ (scheduleOne s).2, Marked Q e.parts := by
  have hleft : (∀ c ∈ (scheduleOne s).1.postconditions, Marked Q c.expr.parts) ∧
      ∀ e ∈ (scheduleOne s).2, Marked Q e.parts :=
    storePosts_marked (List.forall_mem_map.mpr h.conditions) h.postconditions
  exact ⟨⟨h.preconditions, hleft.1, h.conditions⟩, hleft.2⟩

/-- What a member checks in its own frames. -/
theorem SpecMarked.exprs {checks : Checks} {isConstructor : Bool} {s : Specification}
    {snapshot : Option Snapshot} (h : SpecMarked Q s)
    (hslots : ∀ x, snapshot = some x → ∀ e ∈ x.slots, Marked Q e.parts)
    {x : ProgramPoint × CheckCode} (hx : x ∈ memberCodes checks isConstructor s snapshot) :
    ∀ e ∈ x.2.exprs, Marked Q e.parts := by
  rcases mem_memberCodes hx with ⟨site, hs, _, rfl⟩ | rfl | ⟨_, rfl⟩ | rfl | rfl
  · exact hslots site hs
  · refine List.forall_mem_map.mpr fun c hc => ?_
    obtain ⟨group, hgroup, hc⟩ := List.mem_flatten.mp hc
    exact h.preconditions group hgroup c hc
  · exact List.forall_mem_map.mpr h.postconditions
  all_goals exact fun _ he => absurd he List.not_mem_nil

end

end Contract

section

variable {source : String} {checks : Checks} {b : Build} (h : build source checks = .ok b)
  {p : Surface.Program} (hp : Parse.program source = .ok p)

include h hp

open Contract
open Typed.Expr (Marked)

section

variable {Q : Span → Option SiteId → Prop}
  (hall : ∀ r ∈ Clause.ofProgram p, ∀ t, TermOf p.siteCount r t → Marked Q t.parts)

include hall

/-- The invariants that are checked behind calls. -/
theorem siteObligations_marked {c : CallSite} {o : Obligation}
    (ho : o ∈ siteObligations b.program.env b.plan c) : Marked Q o.clause.expr.parts := by
  obtain ⟨_, hplan, _⟩ := analysis_of_build h hp
  have hclass {c : String}
      (hc : (o.className, o.clause) ∈
        Effect.classInvariants b.program.env b.plan.invariants c) :
      Marked Q o.clause.expr.parts := by
    obtain ⟨_, cs, hcs, hmem⟩ := Effect.mem_classInvariants hc
    rw [hplan] at hcs
    obtain ⟨r, hr, hof⟩ := termOf_invariants hcs _ hmem
    exact hall r hr _ hof
  rcases mem_siteObligations ho with ⟨os, hos, ho⟩ | ⟨_, _, _, _, ho⟩
  · rw [effects_of_build h] at hos
    rcases Effect.mem_obligations hos ho with ⟨_, _, _, _, _, hat⟩ | ⟨_, _, _, hat⟩
    all_goals
      obtain ⟨_, _, _, hc⟩ := Effect.mem_invariantsAt hat
      exact hclass hc
  · exact hclass ho

/-- Whatever holds of the spans in the clauses of a program and of the numbers of their calls holds
of all that is evaluated of clauses. -/
theorem evaluates_marked {decl : DeclId} {x : Expr} (hx : b.program.Evaluates decl x) :
    Marked Q x.parts := by
  obtain ⟨_, _, hprogram⟩ := analysis_of_build h hp
  cases hx with
  | own hplaced he =>
      rw [hprogram] at hplaced
      rcases mem_weave hplaced with ⟨s, hs, hcode⟩ | ⟨site, _, rfl⟩
      · obtain ⟨p', m, s₀, hp', _, rfl, rfl, hsnapshot⟩ :=
          specs_of_build h (Table.get?_of_mem (nodup_keys_specs h) hs)
        obtain rfl := Except.ok.inj (hp.symm.trans hp')
        have hmarked : SpecMarked Q (specificationOf b.program.env
            (Contract.bind b.program.env (Clause.ofProgram p) p.siteCount).decls m) :=
          specMarked_of_bind m hall
        obtain ⟨hspec, hslots⟩ := hmarked.scheduled
        refine hspec.exprs (fun slots hx => ?_) hcode x he
        rw [hsnapshot] at hx
        split at hx <;> cases hx
        exact hslots
      · exact absurd he List.not_mem_nil
  | @invariant c _ hplaced ho =>
      rw [hprogram] at hplaced
      rcases mem_weave hplaced with ⟨s, _, hcode⟩ | ⟨site, _, rfl⟩
      · -- The checks of a member are of other forms.
        generalize hx : (c.point, c.code) = x at hcode
        rcases mem_memberCodes hcode with ⟨_, _, _, rfl⟩ | rfl | ⟨_, rfl⟩ | rfl | rfl
        all_goals
          rw [(Prod.mk.inj hx).2] at ho
          exact absurd ho List.not_mem_nil
      · exact siteObligations_marked h hp hall ho

end

/-- The calls in what is evaluated of clauses are numbered from where those of bodies end. -/
theorem evaluates_from {decl : DeclId} {x : Expr} (hx : b.program.Evaluates decl x) {e : Expr}
    (he : e ∈ x.parts) {i : SiteId} (hi : e.site? = some i) : p.siteCount ≤ i := by
  refine evaluates_marked (Q := fun _ site => ∀ i, site = some i → p.siteCount ≤ i) h hp
    (fun r _ t ⟨hk, hparsed, hchecked⟩ y hy i hi => ?_) hx e he i hi
  obtain ⟨_, hsites⟩ := Parse.clause_parsed hparsed
  have hmem := hchecked.sites_subset i (t.site_mem y hy i hi)
  exact Nat.le_trans hk (hsites.numbered.bounds i (List.mem_append_left _ hmem)).1

end

end Covenant
