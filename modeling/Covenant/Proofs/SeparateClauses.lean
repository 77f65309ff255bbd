import Covenant.Proofs.MovedSites
import Covenant.Proofs.Renaming
import Covenant.Proofs.WovenClauses

/-!
# Clauses that are bound each by itself

Binding walks over the records with one number in hand, the next free call site,
and writes into tables that all records share. Neither ties one record to
another: the number is only handed on to the calls, and what a record adds to
the tables is looked up by no other. So a record with a fault costs its own
diagnostic and nothing else, wherever the fault was found, and the tables can be
read off the results of the records one by one.
-/

namespace Covenant

namespace Typed.Expr

mutual

theorem mapSites_mapSites (f g : SiteId → SiteId) : ∀ e : Expr,
    (e.mapSites f).mapSites g = e.mapSites (g ∘ f)
  | int .. | bool .. | null .. | this .. | var .. | param .. | staticField .. | result ..
  | slot .. => by simp [mapSites]
  | field _ _ e _ | length _ e | unary _ _ e | newArray _ _ e | old _ e | spread _ e => by
    simp [mapSites, mapSites_mapSites f g e]
  | index _ _ l r | binary _ _ l r => by
    simp [mapSites, mapSites_mapSites f g l, mapSites_mapSites f g r]
  | call _ _ _ receiver _ _ args => by
    simp [mapSites, mapSitesOpt_mapSitesOpt f g receiver, mapSitesAll_mapSitesAll f g args]
  | new _ _ _ _ args => by simp [mapSites, mapSitesAll_mapSitesAll f g args]

theorem mapSitesOpt_mapSitesOpt (f g : SiteId → SiteId) : ∀ e : Option Expr,
    mapSitesOpt g (mapSitesOpt f e) = mapSitesOpt (g ∘ f) e
  | none => rfl
  | some e => congrArg some (mapSites_mapSites f g e)

theorem mapSitesAll_mapSitesAll (f g : SiteId → SiteId) : ∀ es : List Expr,
    mapSitesAll g (mapSitesAll f es) = mapSitesAll (g ∘ f) es
  | [] => rfl
  | e :: es => by
    simp [mapSitesAll, mapSites_mapSites f g e, mapSitesAll_mapSitesAll f g es]

end

end Typed.Expr

/-! ## Other numbers in all clauses -/

section

variable (f g : SiteId → SiteId)

theorem BoundClause.mapSites_mapSites (c : BoundClause) :
    (c.mapSites f).mapSites g = c.mapSites (g ∘ f) := by
  simp [mapSites, Typed.Expr.mapSites_mapSites]

def ThrowsClause.mapSites (t : ThrowsClause) : ThrowsClause :=
  { t with condition := t.condition.mapSites f }

/-- The same clauses with other numbers for their call sites. -/
def OwnClauses.mapSites (own : OwnClauses) : OwnClauses where
  preconditions := own.preconditions.map (·.mapSites f)
  postconditions := own.postconditions.map (·.mapSites f)
  invariants := own.invariants.map (·.mapSites f)
  throws := own.throws.map (·.mapSites f)
  mayThrow := own.mayThrow.map (·.mapSites f)
  effects :=
    { inspects := own.effects.inspects.map (·.mapSites f)
      mutates := own.effects.mutates.map (·.mapSites f)
      mutatesProperties := own.effects.mutatesProperties.map (·.mapSites f) }

end

namespace Contract

variable {env : Env} {results : List (ClauseRecord × Except SourceFault Binding)}

section

variable (f g : SiteId → SiteId)

theorem Binding.mapSites_mapSites (b : Binding) :
    (b.mapSites f).mapSites g = b.mapSites (g ∘ f) := by
  cases b <;> simp [mapSites, BoundClause.mapSites_mapSites]

/-- The result of binding a record with other numbers for the call sites. -/
def movedResult (x : ClauseRecord × Except SourceFault Binding) :
    ClauseRecord × Except SourceFault Binding := (x.1, x.2.map (Binding.mapSites f))

def Bound.mapSites (b : Bound) : Bound where
  decls := b.decls.mapValues (·.mapSites f)
  invariants := b.invariants.mapValues (·.map (·.mapSites f))
  errors := b.errors

theorem addCondition_mapSites (r : ClauseRecord) (c : BoundClause) (own : OwnClauses) :
    (OwnClauses.addCondition r c own).mapSites f =
      OwnClauses.addCondition r (c.mapSites f) (own.mapSites f) := by
  cases ht : r.tag <;>
    simp [OwnClauses.addCondition, OwnClauses.mapSites, ThrowsClause.mapSites, ht]

theorem addTargets_mapSites (tag : ClauseTag) (cs : List BoundClause) (own : OwnClauses) :
    OwnClauses.mapSites f { own with effects := EffectClauses.addTargets tag cs own.effects } =
      { own.mapSites f with
        effects :=
          EffectClauses.addTargets tag (cs.map (·.mapSites f)) (own.mapSites f).effects } := by
  cases tag <;> simp [EffectClauses.addTargets, OwnClauses.mapSites]

theorem getD_mapSites (own : Option OwnClauses) :
    (own.map (·.mapSites f)).getD {} = (own.getD {}).mapSites f := by
  cases own <;> rfl

theorem Bound.add_mapSites (b : Bound) (x : ClauseRecord × Except SourceFault Binding) :
    (Bound.add env b x).mapSites f = Bound.add env (b.mapSites f) (movedResult f x) := by
  obtain ⟨r, fault | c | cs⟩ := x
  · rfl
  · simp only [Bound.add, movedResult, Bound.mapSites, Except.map, Binding.mapSites, Table.alter,
      Table.mapValues_insert, Table.get?_mapValues, getD_mapSites, addCondition_mapSites]
    split
    · cases b.invariants.get? ((env.ownerOf? r.owner).getD "") <;> simp [Table.mapValues_insert]
    · rfl
  · simp only [Bound.add, movedResult, Bound.mapSites, Except.map, Binding.mapSites, Table.alter,
      Table.mapValues_insert, Table.get?_mapValues, getD_mapSites, addTargets_mapSites]

theorem Bound.foldl_add_mapSites (b : Bound) :
    (results.foldl (Bound.add env) b).mapSites f =
      (results.map (movedResult f)).foldl (Bound.add env) (b.mapSites f) := by
  induction results generalizing b with
  | nil => rfl
  | cons x results ih => rw [List.foldl_cons, ih, List.map_cons, List.foldl_cons, add_mapSites]

end

/-! ## Each record by itself -/

/-- What a record is bound to by itself, whatever numbers its calls have. -/
def alone (env : Env) (r : ClauseRecord) : ClauseRecord × Except SourceFault Binding :=
  movedResult (fun _ => 0) (r, (bindRecord env r 0).1)

theorem movedResult_alone (r : ClauseRecord) (site : SiteId) :
    movedResult (fun _ => 0) (r, (bindRecord env r site).1) = alone env r := by
  have hadd := bindRecord_add env r 0 site
  rw [Nat.zero_add] at hadd
  rw [alone, movedResult, movedResult, hadd]
  cases (bindRecord env r 0).1 with
  | error fault => rfl
  | ok b => simp only [Except.map, Binding.mapSites_mapSites, Function.comp_def]

theorem map_movedResult_bindAll (env : Env) (first : SiteId) (records : List ClauseRecord) :
    (bindAll env first records).map (movedResult fun _ => 0) = records.map (alone env) := by
  induction records generalizing first with
  | nil => rfl
  | cons r rs ih => exact congrArg₂ List.cons (movedResult_alone r first) (ih _)

/-- Each record is bound as if it were the first one, with its call sites numbered from further on. -/
theorem bindAll_forall₂ {first site : SiteId} (hle : first ≤ site) (records : List ClauseRecord) :
    List.Forall₂ (fun r x => ∃ k, x = movedResult (· + k) (r, (bindRecord env r first).1)) records
      (bindAll env site records) := by
  induction records generalizing site with
  | nil => exact .nil
  | cons r rs ih =>
      obtain ⟨k, rfl⟩ := Nat.exists_eq_add_of_le hle
      have hmoved : (r, (bindRecord env r (first + k)).1) =
          movedResult (· + k) (r, (bindRecord env r first).1) := by
        rw [bindRecord_add, movedResult]
      exact .cons ⟨k, hmoved⟩ (ih (bindRecord_ok hle).1)

/-! ## What the tables hold -/

/-- The targets that a record was bound to, if the record is of that kind and on that declaration. -/
def targetsOn (id : DeclId) (tag : ClauseTag) :
    ClauseRecord × Except SourceFault Binding → List BoundClause
  | (r, .ok (.targets cs)) => if r.owner = id ∧ r.tag = tag then cs else []
  | (_, .ok (.condition _)) | (_, .error _) => []

/-- The invariant that a record was bound to, if it is one of the class. -/
def invariantOf? (env : Env) (className : String) :
    ClauseRecord × Except SourceFault Binding → Option BoundClause
  | (r, .ok (.condition c)) =>
    if r.tag = .invariant ∧ (env.ownerOf? r.owner).getD "" = className then some c else none
  | (_, .ok (.targets _)) | (_, .error _) => none

/-- The results of records on a declaration, each in the list of its kind. -/
def ownOf (results : List (ClauseRecord × Except SourceFault Binding)) (id : DeclId) :
    OwnClauses where
  preconditions := (conditionsOn results id .pre).map (·.2)
  postconditions := (conditionsOn results id .post).map (·.2)
  invariants := (conditionsOn results id .invariant).map (·.2)
  throws := (conditionsOn results id .throws).map throwsOf
  mayThrow := (conditionsOn results id .mayThrow).map throwsOf
  effects :=
    { inspects := results.flatMap (targetsOn id .inspects)
      mutates := results.flatMap (targetsOn id .mutates)
      mutatesProperties := results.flatMap (targetsOn id .mutatesProperties) }

/-- The diagnostic of a result. -/
def diagnostic? : ClauseRecord × Except SourceFault Binding → Option Diagnostic
  | (r, .error fault) => some ⟨r.owner, fault⟩
  | (_, .ok _) => none

variable {b : Bound} {x : ClauseRecord × Except SourceFault Binding} {id : DeclId}

theorem clausesAt_add (hx : WellTagged x) (h : clausesAt b.decls id = ownOf results id) :
    clausesAt (Bound.add env b x).decls id = ownOf (results ++ [x]) id := by
  obtain ⟨r, fault | c | cs⟩ := x
  · simpa [Bound.add, ownOf, conditionsOn, conditionOn?, targetsOn, List.filterMap_cons] using h
  · by_cases hon : r.owner = id
    · subst hon
      have heffect : r.tag.isEffect = false := hx
      simp only [clausesAt, Bound.add, Table.alter, Table.get?_insert_self, Option.getD_some] at h ⊢
      rw [h]
      cases ht : r.tag <;>
        simp_all [OwnClauses.addCondition, ownOf, conditionsOn, conditionOn?, targetsOn, throwsOf,
          exceptionOf, ClauseTag.isEffect]
    · simpa [clausesAt, Bound.add, Table.alter, Table.get?_insert_of_ne _ hon, ownOf, conditionsOn,
        conditionOn?, targetsOn, hon, List.filterMap_cons] using h
  · by_cases hon : r.owner = id
    · subst hon
      have heffect : r.tag.isEffect = true := hx
      simp only [clausesAt, Bound.add, Table.alter, Table.get?_insert_self, Option.getD_some] at h ⊢
      rw [h]
      cases ht : r.tag <;>
        simp_all [EffectClauses.addTargets, ownOf, conditionsOn, conditionOn?, targetsOn,
          ClauseTag.isEffect]
    · simpa [clausesAt, Bound.add, Table.alter, Table.get?_insert_of_ne _ hon, ownOf, conditionsOn,
        conditionOn?, targetsOn, hon, List.filterMap_cons] using h

theorem invariants_add (className : String)
    (h : (b.invariants.get? className).getD [] = results.filterMap (invariantOf? env className)) :
    ((Bound.add env b x).invariants.get? className).getD [] =
      (results ++ [x]).filterMap (invariantOf? env className) := by
  obtain ⟨r, fault | c | cs⟩ := x
  · simpa [Bound.add, invariantOf?, List.filterMap_cons] using h
  · by_cases htag : r.tag = .invariant
    · by_cases hclass : (env.ownerOf? r.owner).getD "" = className
      · subst hclass
        simp [Bound.add, invariantOf?, htag, Table.alter, h]
      · simpa [Bound.add, invariantOf?, htag, Table.alter, Table.get?_insert_of_ne _ hclass, hclass]
          using h
    · simpa [Bound.add, invariantOf?, htag] using h
  · simpa [Bound.add, invariantOf?, List.filterMap_cons] using h

theorem errors_add (b : Bound) (x : ClauseRecord × Except SourceFault Binding) :
    (Bound.add env b x).errors = b.errors ++ (diagnostic? x).toList := by
  obtain ⟨r, fault | c | cs⟩ := x <;> simp [Bound.add, diagnostic?]

/-- What the tables hold once results are taken in. -/
structure Holds (env : Env) (results : List (ClauseRecord × Except SourceFault Binding))
    (b : Bound) : Prop where
  /-- On each declaration stand what its records were bound to, in their order. -/
  decls : ∀ id, clausesAt b.decls id = ownOf results id
  /-- Each class has the invariants that its records were bound to, in their order. -/
  invariants : ∀ className, (b.invariants.get? className).getD [] =
    results.filterMap (invariantOf? env className)
  /-- There is one diagnostic for each record with a fault, on its owner, in their order. -/
  errors : b.errors = results.filterMap diagnostic?

theorem Holds.add (h : Holds env results b) (hx : WellTagged x) :
    Holds env (results ++ [x]) (Bound.add env b x) where
  decls id := clausesAt_add hx (h.decls id)
  invariants className := invariants_add className (h.invariants className)
  errors := by
    rw [errors_add, h.errors, List.filterMap_append, List.filterMap_cons, List.filterMap_nil]
    cases diagnostic? x <;> rfl

theorem Holds.foldl_add {more : List (ClauseRecord × Except SourceFault Binding)}
    (h : Holds env results b) (hmore : ∀ x ∈ more, WellTagged x) :
    Holds env (results ++ more) (more.foldl (Bound.add env) b) := by
  induction more generalizing results b with
  | nil => rwa [List.append_nil]
  | cons x more ih =>
      obtain ⟨hx, hmore⟩ := List.forall_mem_cons.mp hmore
      rw [List.append_cons]
      exact ih (h.add hx) hmore

theorem bind_holds (env : Env) (records : List ClauseRecord) (first : SiteId) :
    Holds env (bindAll env first records) (bind env records first) :=
  have hnone : Holds env [] ⟨.empty, .empty, []⟩ := ⟨fun _ => rfl, fun _ => rfl, rfl⟩
  hnone.foldl_add (bindAll_wellTagged records first)

/-! ## Faults leave the tables alone -/

/-- Whether a record is bound. -/
def binds (env : Env) (first : SiteId) (r : ClauseRecord) : Bool := (bindRecord env r first).1.isOk

theorem isOk_alone (first : SiteId) (r : ClauseRecord) :
    (alone env r).2.isOk = binds env first r := by
  rw [← movedResult_alone r first, binds, movedResult]
  cases (bindRecord env r first).1 <;> rfl

theorem foldl_add_filter (b : Bound) :
    (results.filter (·.2.isOk)).foldl (Bound.add env) { b with errors := [] } =
      { results.foldl (Bound.add env) b with errors := [] } := by
  induction results generalizing b with
  | nil => rfl
  | cons x results ih =>
      obtain ⟨r, fault | c | cs⟩ := x
      · exact ih { b with errors := b.errors ++ [⟨r.owner, fault⟩] }
      · exact ih (Bound.add env b (r, .ok (.condition c)))
      · exact ih (Bound.add env b (r, .ok (.targets cs)))

theorem bind_alone (env : Env) (records : List ClauseRecord) (first : SiteId) :
    (bind env records first).mapSites (fun _ => 0) =
      (records.map (alone env)).foldl (Bound.add env) ⟨.empty, .empty, []⟩ := by
  rw [bind, Bound.foldl_add_mapSites, map_movedResult_bindAll]
  rfl

theorem diagnostic?_movedResult (f : SiteId → SiteId)
    (x : ClauseRecord × Except SourceFault Binding) :
    diagnostic? (movedResult f x) = diagnostic? x := by
  obtain ⟨r, fault | c⟩ := x <;> rfl

theorem filterMap_diagnostic?_bindAll (env : Env) (records : List ClauseRecord) (first : SiteId) :
    (bindAll env first records).filterMap diagnostic? =
      records.filterMap fun r => diagnostic? (r, (bindRecord env r first).1) := by
  have hsame (x) : diagnostic? x = diagnostic? (movedResult (fun _ => 0) x) :=
    (diagnostic?_movedResult _ x).symm
  calc (bindAll env first records).filterMap diagnostic?
    _ = ((bindAll env first records).map (movedResult fun _ => 0)).filterMap diagnostic? := by
        rw [List.filterMap_map]
        exact List.filterMap_congr fun x _ => hsame x
    _ = (records.map (alone env)).filterMap diagnostic? := by rw [map_movedResult_bindAll]
    _ = _ := by
        rw [List.filterMap_map]
        refine List.filterMap_congr fun r _ => ?_
        rw [hsame (r, (bindRecord env r first).1), movedResult_alone]
        rfl

/-! ## All targets or none -/

theorem bindTargets_forall₂ {r : ClauseRecord} {s : ClauseScope} {es : List Surface.Expr}
    {cs : List BoundClause} (h : es.mapM (bindTarget env r s) = .ok cs) :
    List.Forall₂ (fun e c => bindTarget env r s e = .ok c) es cs := by
  induction es generalizing cs with
  | nil =>
      cases h
      exact .nil
  | cons e es ih =>
      rw [List.mapM_cons] at h
      obtain ⟨c, hc, h₁⟩ := bind_eq_ok.mp h
      obtain ⟨cs', hcs, h₂⟩ := bind_eq_ok.mp h₁
      cases h₂
      exact .cons hc (ih hcs)

/-- A record of an effect that is bound is bound to all targets in its text. -/
theorem bindRecord_targets {r : ClauseRecord} {first : SiteId} {bound : Binding}
    (htag : r.tag.isEffect = true) (h : (bindRecord env r first).1 = .ok bound) :
    ∃ s es next cs, placeRecord env r = .ok s ∧
      Parse.clause r first = .ok (.targets es, next) ∧ bound = .targets cs ∧
      List.Forall₂ (fun e c => bindTarget env r s e = .ok c) es cs := by
  rw [bindRecord] at h
  cases hplace : placeRecord env r with
  | error fault => exact absurd (hplace ▸ h) (by simp)
  | ok s =>
      rw [hplace] at h
      cases hparse : Parse.clause r first with
      | error fault => exact absurd (hparse ▸ h) (by simp [SourceFault.ofGrammar, Except.mapError])
      | ok x =>
          obtain ⟨body, next⟩ := x
          rw [hparse] at h
          have hkind := Parse.clause_kind hparse
          cases body with
          | condition e => exact absurd (htag.symm.trans hkind) (by simp)
          | targets es =>
              have hbound : Binding.targets <$> es.mapM (bindTarget env r s) = .ok bound := h
              rw [← bind_pure_comp] at hbound
              obtain ⟨cs, hcs, heq⟩ := bind_eq_ok.mp hbound
              cases heq
              exact ⟨s, es, next, cs, rfl, rfl, rfl, bindTargets_forall₂ hcs⟩

/-- Records are bound each by itself. -/
structure BoundApart (env : Env) (records : List ClauseRecord) (first : SiteId) : Prop where
  /-- The result of each record is the one that it has alone, up to the numbers of its calls. -/
  results : List.Forall₂
    (fun r x => ∃ k, x = movedResult (· + k) (r, (bindRecord env r first).1)) records
    (bindAll env first records)
  /-- What is bound is what the results say, in their order. -/
  holds : Holds env (bindAll env first records) (bind env records first)
  /-- The diagnostics are those that the records have alone. -/
  diagnostics : (bind env records first).errors =
    records.filterMap fun r => diagnostic? (r, (bindRecord env r first).1)
  /-- An effect that is bound is bound to all of its targets. -/
  effects : ∀ r : ClauseRecord, r.tag.isEffect = true → ∀ b, (bindRecord env r first).1 = .ok b →
    ∃ s es next cs, placeRecord env r = .ok s ∧
      Parse.clause r first = .ok (.targets es, next) ∧ b = .targets cs ∧
      List.Forall₂ (fun e c => bindTarget env r s e = .ok c) es cs
  /-- Without the records that have faults the same is bound, up to the numbers of calls. -/
  deleted : ∀ first', (bind env (records.filter (binds env first)) first').mapSites (fun _ => 0) =
    { (bind env records first).mapSites (fun _ => 0) with errors := [] }

theorem bind_apart (env : Env) (records : List ClauseRecord) (first : SiteId) :
    BoundApart env records first where
  results := bindAll_forall₂ (Nat.le_refl _) records
  holds := bind_holds env records first
  diagnostics := (bind_holds env records first).errors.trans
    (filterMap_diagnostic?_bindAll env records first)
  effects r htag b := bindRecord_targets htag
  deleted first' := by
    have hfilter : (records.filter (binds env first)).map (alone env) =
        (records.map (alone env)).filter (·.2.isOk) := by
      rw [List.filter_map]
      congr 1
      exact List.filter_congr fun r _ => (isOk_alone first r).symm
    rw [bind_alone, bind_alone, hfilter]
    exact foldl_add_filter ⟨.empty, .empty, []⟩

end Contract

end Covenant
