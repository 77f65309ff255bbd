import Covenant.Proofs.Obligations
import Covenant.Proofs.PathTypes
import Covenant.Proofs.Purity

/-!
# Effects with more targets

A member that declares to mutate more has a closed set that leads to more places. An
invariant that was to be checked is still touched then. But of paths that are the
same only the first is kept, with the types that it came with. So the invariant is
still checked just if the object is still known by a class that has it. Along fields
and elements of a checked program it is; only `this` is known by another class where
an inherited target comes first.
-/

namespace Covenant

open Surface (Program)

/-- The second clauses are the first with more targets that are mutated, where effects are
declared. -/
structure Specification.MoreTargets (s s' : Specification) : Prop where
  same : s = { s' with effects := { s'.effects with mutates := s.effects.mutates } }
  more : s.effects.mutates ⊆ s'.effects.mutates
  declared : s.effects.isEmpty = true → s'.effects.isEmpty = true

namespace Specification.MoreTargets

variable {s s' : Specification} (h : s.MoreTargets s')

include h

theorem inspects : s.effects.inspects = s'.effects.inspects := by
  rw [h.same]

theorem mutatesProperties : s.effects.mutatesProperties = s'.effects.mutatesProperties := by
  rw [h.same]

theorem isEmpty : s.effects.isEmpty = s'.effects.isEmpty := by
  refine Bool.eq_iff_iff.mpr ⟨h.declared, fun he => ?_⟩
  simp only [EffectClauses.isEmpty, Bool.and_eq_true, List.isEmpty_iff] at he ⊢
  rw [h.inspects, h.mutatesProperties]
  exact ⟨⟨he.1.1, List.subset_nil.mp (he.1.2 ▸ h.more)⟩, he.2⟩

end Specification.MoreTargets

namespace Effect

/-! ## Closed sets that lead to the same places -/

/-- Each path of the first set has one in the second that is the same. -/
def CoveredBy (closed closed' : List Path) : Prop := ∀ q ∈ closed, ∃ q' ∈ closed', q'.same q = true

theorem CoveredBy.firsts {closed closed' : List Path} (hc : CoveredBy closed closed') :
    CoveredBy (firsts Path.same closed) (firsts Path.same closed') := by
  intro q hq
  obtain ⟨q', hq', hsame⟩ := hc q (mem_firsts hq)
  obtain ⟨q'', hq'', hsame'⟩ := exists_mem_firsts Path.same_refl hq'
  exact ⟨q'', hq'', Path.same_trans hsame' hsame⟩

theorem CoveredBy.callTargets {closed closed' : List Path} (hc : CoveredBy closed closed')
    (m : MethodInfo) (site : CallSite) (receiver : Path) :
    CoveredBy (callTargets m site receiver closed) (callTargets m site receiver closed') := by
  intro q hq
  obtain ⟨q₀, hq₀, hsub⟩ := List.mem_filterMap.mp hq
  obtain ⟨q₁, hq₁, hsame⟩ := hc q₀ hq₀
  obtain ⟨q', hq', hsame'⟩ := Path.substitute_same (Path.same_symm hsame) hsub
  exact ⟨q', List.mem_filterMap.mpr ⟨q₁, hq₁, hq'⟩, Path.same_symm hsame'⟩

theorem touches_mono {closed closed' : List Path} (hc : CoveredBy closed closed') {object : Path}
    {clause : BoundClause} (ht : touches closed object clause = true) :
    touches closed' object clause = true := by
  obtain ⟨r, hr, q, hq, hover⟩ := touches_iff.mp ht
  obtain ⟨q', hq', hsame⟩ := hc q hq
  refine touches_iff.mpr ⟨r, hr, q', hq', ?_⟩
  rw [Path.overlaps_comm, Path.overlaps_congr hsame, Path.overlaps_comm]
  exact hover

/-! ## Specifications with more targets -/

/-- The second specifications are the first with more targets that are mutated. -/
def MoreTargets (specs specs' : Table DeclId Specification) : Prop :=
  List.Forall₂ (fun x y => x.1 = y.1 ∧ x.2.MoreTargets y.2) specs.entries specs'.entries

section

variable {specs specs' : Table DeclId Specification} (h : MoreTargets specs specs')

include h

theorem MoreTargets.get? (id : DeclId) : (specs.get? id = none ∧ specs'.get? id = none) ∨
    ∃ s s', specs.get? id = some s ∧ specs'.get? id = some s' ∧ s.MoreTargets s' := by
  rw [Table.get?, Table.get?]
  rw [MoreTargets] at h
  generalize specs.entries = xs, specs'.entries = ys at h ⊢
  induction h with
  | nil => exact .inl ⟨rfl, rfl⟩
  | @cons x y _ _ hxy _ ih =>
      obtain ⟨i, s⟩ := x
      obtain ⟨i', s'⟩ := y
      obtain ⟨rfl, hmore⟩ := hxy
      by_cases hi : i = id
      · exact .inr ⟨s, s', by simp [Table.find?, hi], by simp [Table.find?, hi], hmore⟩
      · simpa [Table.find?, hi] using ih

theorem MoreTargets.declaredEffects? (id : DeclId) :
    (declaredEffects? specs id = none ∧ declaredEffects? specs' id = none) ∨
      ∃ s s' : Specification, declaredEffects? specs id = some s.effects ∧
        declaredEffects? specs' id = some s'.effects ∧ s.MoreTargets s' := by
  rcases h.get? id with ⟨hs, hs'⟩ | ⟨s, s', hs, hs', hmore⟩
  · exact .inl (by simp [Effect.declaredEffects?, hs, hs'])
  · rw [Effect.declaredEffects?, Effect.declaredEffects?, hs, hs']
    cases he : s'.effects.isEmpty with
    | true => exact .inl (by simp [hmore.isEmpty, he])
    | false => exact .inr ⟨s, s', by simp [hmore.isEmpty, he], by simp [he], hmore⟩

theorem MoreTargets.referencedAccessors :
    referencedAccessors specs' = referencedAccessors specs := by
  rw [Effect.referencedAccessors, Effect.referencedAccessors, Table.values, Table.values]
  rw [MoreTargets] at h
  generalize specs.entries = xs, specs'.entries = ys at h ⊢
  induction h with
  | nil => rfl
  | cons hxy _ ih =>
      rw [List.map_cons, List.map_cons, List.flatMap_cons, List.flatMap_cons, ih, hxy.2.inspects,
        hxy.2.mutatesProperties]

theorem MoreTargets.moreEffects : MoreEffects specs specs' where
  undeclared id hnone := by
    rcases h.declaredEffects? id with ⟨hs, _⟩ | ⟨s, s', _, hs', _⟩
    · exact hs
    · exact absurd (hnone.symm.trans hs') (by simp)
  inspectsOnly id := by
    rintro ⟨e, he, hmutates, hproperties⟩
    rcases h.declaredEffects? id with ⟨_, hs'⟩ | ⟨s, s', hs, hs', hmore⟩
    · exact absurd (hs'.symm.trans he) (by simp)
    · obtain rfl := Option.some.inj (he.symm.trans hs')
      exact ⟨s.effects, hs, List.subset_nil.mp (hmutates ▸ hmore.more),
        hmore.mutatesProperties.trans hproperties⟩
  referenced id hid := h.referencedAccessors ▸ hid

/-! ## The classes of members -/

omit h in
theorem classOf_classifyAll_eq {env : Env} {id : DeclId} :
    classOf (classifyAll env specs) id =
      if id ∈ env.methods.keys then classify env specs id else .unconstrained := by
  split
  · next hin => rw [classOf, classifyAll, Table.get?, find?_map_key _ hin, Option.getD_some]
  · next hnot => rw [classOf, Table.get?_eq_none (keys_classifyAll ▸ hnot), Option.getD_none]

/-- The same members are declared. -/
theorem MoreTargets.declared_iff {env : Env} {id : DeclId} :
    classOf (classifyAll env specs) id = .declared ↔
      classOf (classifyAll env specs') id = .declared := by
  have declared {specs : Table DeclId Specification} :
      classify env specs id = .declared ↔ (Effect.declaredEffects? specs id).isSome = true := by
    rw [classify]
    split
    · next hsome => simp [hsome]
    · next hnone => split <;> simp [hnone]
  rw [classOf_classifyAll_eq, classOf_classifyAll_eq]
  split
  · rw [declared, declared]
    rcases h.declaredEffects? id with ⟨hs, hs'⟩ | ⟨s, s', hs, hs', _⟩ <;> simp [hs, hs']
  · exact Iff.rfl

/-- What may do anything may still do anything. -/
theorem MoreTargets.unconstrained {env : Env} {id : DeclId}
    (hfree : classOf (classifyAll env specs) id = .unconstrained) :
    classOf (classifyAll env specs') id = .unconstrained := by
  rw [classOf_classifyAll_eq] at hfree ⊢
  split at hfree
  · next hin =>
      rw [if_pos hin, classify]
      rw [classify] at hfree
      split at hfree
      · cases hfree
      · next hnone =>
          split at hfree
          · cases hfree
          · next hpure =>
              have hnone' : ¬(Effect.declaredEffects? specs' id).isSome = true := by
                rcases h.declaredEffects? id with ⟨_, hs'⟩ | ⟨s, s', hs, _, _⟩
                · simp [hs']
                · exact absurd hnone (by simp [hs])
              rw [if_neg hnone', if_neg fun hpure' => hpure (isPure_mono h.moreEffects hpure')]
  · next hnot => rw [if_neg hnot]

/-- With more targets closed sets lead to no fewer places. -/
theorem MoreTargets.coveredBy_closureFrom {env : Env} (n : Nat) (visiting : List DeclId)
    (id : DeclId) :
    CoveredBy (closureFrom env specs (classifyAll env specs) n visiting id)
      (closureFrom env specs' (classifyAll env specs') n visiting id) := by
  induction n generalizing visiting id with
  | zero => exact fun q hq => absurd hq List.not_mem_nil
  | succ n ih =>
      rw [closureFrom, closureFrom]
      split
      · exact fun q hq => absurd hq List.not_mem_nil
      · next hopen =>
          rw [Bool.or_eq_true, bne_iff_ne, not_or, not_not] at hopen
          rw [if_neg (by
            rw [Bool.or_eq_true, bne_iff_ne, not_or, not_not]
            exact ⟨h.declared_iff.mp hopen.1, hopen.2⟩)]
          rcases h.get? id with ⟨hs, hs'⟩ | ⟨s, s', hs, hs', hmore⟩
          · rw [hs]
            exact fun q hq => absurd hq List.not_mem_nil
          · rw [hs, hs']
            cases hm : env.method? id with
            | none => exact fun q hq => absurd hq List.not_mem_nil
            | some m =>
                refine CoveredBy.firsts fun q hq => ?_
                rcases List.mem_append.mp hq with hq | hq
                · -- A target.
                  refine ⟨q, List.mem_append_left _ ?_, Path.same_refl q⟩
                  refine List.mem_append.mpr ((List.mem_append.mp hq).imp_right fun hq => ?_)
                  obtain ⟨c, hc, hpath⟩ := List.mem_filterMap.mp hq
                  exact List.mem_filterMap.mpr ⟨c, hmore.more hc, hpath⟩
                · -- Something that a call mutates.
                  obtain ⟨site, hsite, hq⟩ := List.mem_flatMap.mp hq
                  have hlicensed : licensedReceiver? m s site = licensedReceiver? m s' site := by
                    rw [licensedReceiver?, licensedReceiver?, hmore.mutatesProperties]
                  cases hr : licensedReceiver? m s site with
                  | none =>
                      simp only [hr] at hq
                      exact absurd hq List.not_mem_nil
                  | some receiver =>
                      simp only [hr] at hq
                      obtain ⟨q', hq', hsame⟩ :=
                        (ih (id :: visiting) site.callee).callTargets m site receiver q hq
                      refine ⟨q', List.mem_append_right _ (List.mem_flatMap.mpr ⟨site, hsite, ?_⟩),
                        hsame⟩
                      simp only [← hlicensed, hr]
                      exact hq'

theorem MoreTargets.targetsWritten {env : Env} {k : SiteId} (hw : TargetsWritten env k specs') :
    TargetsWritten env k specs := by
  intro m s hm hs c hc
  rcases h.get? m.id with ⟨hnone, _⟩ | ⟨s₁, s', hs₁, hs', hmore⟩
  · exact absurd (hnone.symm.trans hs) (by simp)
  · obtain rfl := Option.some.inj (hs.symm.trans hs₁)
    exact hw m s' hm hs' c (hmore.more hc)

end

/-! ## What is still checked -/

/-- A path of the closed set goes through the object, and knows it there by a class that has the
invariant. -/
def KnownWith (env : Env) (invariants : Invariants) (closed : List Path) (object : Path)
    (clause : BoundClause) : Prop :=
  ∃ q ∈ closed, ∃ p ∈ q.prefixes, p.same object = true ∧
    ∃ c, p.type = .ofClass c ∧ HasInvariant env invariants c clause

section

variable {env : Env} {invariants : Invariants} {specs specs' : Table DeclId Specification}
  (h : MoreTargets specs specs') {object : Path} {clause : BoundClause}

include h

/-- In a checked program an object is known by the same types, however many targets lead to it, if
they lead there along fields and elements. Only `this` is known by the types that targets are
written in. -/
theorem MoreTargets.knownWith {source : Program} (hp : source.WellFormed)
    (hcheck : Typing.checkProgram source = .ok env)
    (hw : TargetsWritten env source.siteCount specs') {m : MethodInfo}
    (hm : env.method? m.id = some m) (hsteps : ∀ name, .accessor name ∉ object.trail)
    (hthis : object.root = .this → object.trail = [] →
      HasInvariant env invariants m.owner clause ∧ ∀ s, specs'.get? m.id = some s →
        ∀ t ∈ s.effects.mutates, ∀ d, env.method? t.origin = some d →
          HasInvariant env invariants d.owner clause)
    (hknown : KnownWith env invariants (closure env specs (classifyAll env specs) m.id) object
      clause) :
    KnownWith env invariants (closure env specs' (classifyAll env specs') m.id) object clause := by
  obtain ⟨q, hq, p, hprefix, hsame, c, hc, hinv⟩ := hknown
  obtain ⟨q', hq', hsame'⟩ := h.coveredBy_closureFrom _ _ _ q hq
  obtain ⟨p', hprefix', hpsame⟩ := Path.exists_prefix_same hsame' hprefix
  have hobject := Path.same_trans hpsame hsame
  obtain ⟨hroot, htrail⟩ := Path.same_iff.mp hobject
  refine ⟨q', hq', p', hprefix', hobject, ?_⟩
  by_cases hself : object.root = .this ∧ object.trail = []
  · -- The object itself: its type is that of the root.
    obtain ⟨hown, htargets⟩ := hthis hself.1 hself.2
    obtain ⟨s, hs, o, htyped, ho⟩ := framed_closureFrom hp hcheck hm hw hq'
    obtain rfl := Path.eq_root_of_prefix hprefix' (htrail.trans hself.2)
    have hthis : q'.root = .this := hroot.trans hself.1
    simp only [Path.RootTyped, hthis] at htyped
    refine ⟨o, htyped, ?_⟩
    rcases ho with rfl | ⟨t, ht, d, hd, rfl⟩
    · exact hown
    · exact htargets s hs t ht d hd
  · have stands {specs : Table DeclId Specification} (hw : TargetsWritten env source.siteCount specs)
        {q p : Path} (hq : q ∈ closure env specs (classifyAll env specs) m.id)
        (hp' : p ∈ q.prefixes) : p.Fits env m ∧ p.Rooted env m := by
      obtain ⟨hleads, hrooted⟩ := stands_closureFrom hp hcheck hw hm hq
      exact ⟨(hleads.fits hrooted).of_initial hp', hrooted.of_initial hp'⟩
    obtain ⟨hfits, hrooted⟩ := stands (h.targetsWritten hw) hq hprefix
    obtain ⟨hfits', hrooted'⟩ := stands hw hq' hprefix'
    have htype : p'.type = p.type :=
      type_unique (Env.declaredBy_of_check hp hcheck) hm hpsame hfits' hrooted' hfits hrooted
        (fun name => htrail ▸ hsteps name) fun hr hnil => hself ⟨hroot ▸ hr, htrail ▸ hnil⟩
    exact ⟨c, htype.trans hc, hinv⟩

/-- What is checked behind a call is still checked if targets are added, just if the object is still
known by a class with the invariant. In a checked program this is so, if the object is reached along
fields and elements; if it is the receiver itself, then as far as the invariant belongs to the
classes that its targets are written in. -/
theorem obligation_kept (hn : env.methods.keys.Nodup) {id : DeclId}
    (hlisted : Listed (((EffectAnalysis.ofSpecs env specs invariants).obligations.get? id).getD [])
      object clause) :
    (Listed (((EffectAnalysis.ofSpecs env specs' invariants).obligations.get? id).getD [])
        object clause ↔
      ((EffectAnalysis.ofSpecs env specs' invariants).classOf id = .declared →
        KnownWith env invariants (closure env specs' (classifyAll env specs') id) object clause)) ∧
    ∀ (source : Program) (m : MethodInfo), source.WellFormed →
      Typing.checkProgram source = .ok env → TargetsWritten env source.siteCount specs' →
      env.method? m.id = some m → m.id = id → (∀ name, .accessor name ∉ object.trail) →
      (object.root = .this → object.trail = [] →
        HasInvariant env invariants m.owner clause ∧ ∀ s, specs'.get? id = some s →
          ∀ t ∈ s.effects.mutates, ∀ d, env.method? t.origin = some d →
            HasInvariant env invariants d.owner clause) →
      Listed (((EffectAnalysis.ofSpecs env specs' invariants).obligations.get? id).getD [])
        object clause := by
  rw [obligations_eq hn] at hlisted ⊢
  cases hclass : (EffectAnalysis.ofSpecs env specs invariants).classOf id with
  | declared =>
      have hclass' : (EffectAnalysis.ofSpecs env specs' invariants).classOf id = .declared :=
        h.declared_iff.mp hclass
      rw [hclass] at hlisted
      rw [hclass']
      obtain ⟨htouches, hknown⟩ := listed_declared.mp hlisted
      have htouches' := touches_mono (h.coveredBy_closureFrom _ [] id) htouches
      have hiff : Listed (obligationsBy env specs' invariants id .declared) object clause ↔
          KnownWith env invariants (closure env specs' (classifyAll env specs') id) object clause :=
        listed_declared.trans (and_iff_right htouches')
      refine ⟨hiff.trans ⟨fun hk _ => hk, fun hk => hk rfl⟩, ?_⟩
      rintro source m hp hcheck hw hm rfl hsteps hthis
      exact hiff.mpr (h.knownWith hp hcheck hw hm hsteps hthis hknown)
  | pureAccessor =>
      rw [hclass] at hlisted
      obtain ⟨o, ho, _⟩ := hlisted
      exact absurd ho List.not_mem_nil
  | unconstrained =>
      have hclass' : (EffectAnalysis.ofSpecs env specs' invariants).classOf id = .unconstrained :=
        h.unconstrained hclass
      rw [hclass] at hlisted
      rw [hclass']
      have hlisted' : Listed (obligationsBy env specs' invariants id .unconstrained) object clause :=
        hlisted
      exact ⟨⟨fun _ hd => (nomatch hd), fun _ => hlisted'⟩, fun _ _ _ _ _ _ _ _ _ => hlisted'⟩

end

/-- The clauses without the targets that read so. -/
def withoutTarget (text : String) (s : Specification) : Specification :=
  { s with effects := { s.effects with mutates := s.effects.mutates.filter (·.text != text) } }

/-- The specifications without the targets that read so. -/
def withoutTargets (text : String) (specs : Table DeclId Specification) :
    Table DeclId Specification :=
  ⟨specs.entries.map fun x => (x.1, withoutTarget text x.2)⟩

theorem moreTargets_withoutTargets {text : String} {specs : Table DeclId Specification}
    (h : ∀ x ∈ specs.entries, (withoutTarget text x.2).effects.isEmpty = true →
      x.2.effects.isEmpty = true) : MoreTargets (withoutTargets text specs) specs := by
  rw [MoreTargets, withoutTargets]
  refine List.forall₂_map_left_iff.mpr (List.forall₂_same.mpr fun x hx => ⟨rfl, rfl, ?_, h x hx⟩)
  exact List.filter_sublist.subset

end Effect

open Effect

/-- A box declares that it mutates its cell, beside what it mutates of the cell. -/
def boxSource : String :=
  "/** @invar | value >= 0 */ class Cell { int value; }
   class Box {
     Cell cell = new Cell();
     /** @mutates | this.cell.value
      * @mutates | this.cell */
     void put(int n) { cell.value = n; }
   }"

/-- Evaluates what is said of `boxSource`. -/
def boxCheck : Option Bool := do
  let b ← (build boxSource {}).toOption
  let m ← b.program.env.methodNamed? "Box.put"
  let (_, clause) ← (classInvariants b.program.env b.plan.invariants "Cell").head?
  let fewer := withoutTargets "this.cell" b.plan.specs
  return decide (b.program.env.method? m.id = some m ∧ fewer.entries ≠ b.plan.specs.entries ∧
    (∀ x ∈ b.plan.specs.entries, (withoutTarget "this.cell" x.2).effects.isEmpty = true →
      x.2.effects.isEmpty = true) ∧
    Listed (((EffectAnalysis.ofSpecs b.program.env fewer
      b.plan.invariants).obligations.get? m.id).getD [])
      ((Path.this "Box").step (.field "cell") (.ofClass "Cell")) clause)

/-- The invariant of the cell is checked with and without the second target. -/
theorem obligation_kept_box :
    ∃ (b : Build) (m : MethodInfo) (clause : BoundClause), build boxSource {} = .ok b ∧
      b.program.env.method? m.id = some m ∧
      (withoutTargets "this.cell" b.plan.specs).entries ≠ b.plan.specs.entries ∧
      MoreTargets (withoutTargets "this.cell" b.plan.specs) b.plan.specs ∧
      Listed (((EffectAnalysis.ofSpecs b.program.env (withoutTargets "this.cell" b.plan.specs)
        b.plan.invariants).obligations.get? m.id).getD [])
        ((Path.this "Box").step (.field "cell") (.ofClass "Cell")) clause ∧
      Listed (((EffectAnalysis.ofSpecs b.program.env b.plan.specs
        b.plan.invariants).obligations.get? m.id).getD [])
        ((Path.this "Box").step (.field "cell") (.ofClass "Cell")) clause := by
  have h : boxCheck = some true := by
    set_option maxRecDepth 20000 in
    rw [boxCheck, show boxSource = String.ofList _ from rfl, build_ofList]
    decide +kernel
  simp only [boxCheck, Option.bind_eq_bind, Option.bind_eq_some_iff] at h
  obtain ⟨b, hb, m, _, ⟨owner, clause⟩, _, h⟩ := h
  simp only [Option.pure_def, Option.some.injEq, decide_eq_true_eq] at h
  obtain ⟨hm, hne, hempty, hlisted⟩ := h
  have hb := ok_of_toOption hb
  obtain ⟨p, env, hp, hcheck, _, _, hprog⟩ := build_eq_ok hb
  have hcheck : Typing.checkProgram p = .ok b.program.env := hprog ▸ hcheck
  have hmore := moreTargets_withoutTargets hempty
  refine ⟨b, m, clause, hb, hm, hne, hmore, hlisted, ?_⟩
  refine (obligation_kept hmore (methodsKeyed_of_build hb).nodup hlisted).2 p m
    (Parse.program_wellFormed hp) hcheck (targetsWritten_of_build hb hp) hm rfl ?_ ?_
  · exact fun name => by simp [Path.trail, Path.step, Path.this]
  · exact fun _ h => absurd h (by simp [Path.trail, Path.step, Path.this])

/-- An inherited target, which stands in front of the same path of a call. -/
def inheritedTargetSource : String :=
  "class Cell {
     int value;
     /** @mutates | this.value */ void set(int n) { value = n; }
   }
   class Base {
     Cell cell = new Cell();
     /** @mutates_properties | this.cell
      * @mutates | this.cell.value */
     void put(int n) { cell.set(n); }
   }
   /** @invar | cell.value >= 0 */ class Sub extends Base {
     void put(int n) { cell.set(n); }
   }"

/-- Evaluates what is said of `inheritedTargetSource`. -/
def inheritedTargetCheck : Option Bool := do
  let b ← (build inheritedTargetSource {}).toOption
  let m ← b.program.env.methodNamed? "Sub.put"
  let (_, clause) ← (classInvariants b.program.env b.plan.invariants "Sub").head?
  return decide (b.program.env.method? m.id = some m ∧ m.qualifiedName = "Sub.put" ∧
    (∀ x ∈ b.plan.specs.entries, (withoutTarget "this.cell.value" x.2).effects.isEmpty = true →
      x.2.effects.isEmpty = true) ∧
    Listed (((EffectAnalysis.ofSpecs b.program.env
      (withoutTargets "this.cell.value" b.plan.specs)
      b.plan.invariants).obligations.get? m.id).getD []) (.this "Sub") clause ∧
    ¬Listed (((EffectAnalysis.ofSpecs b.program.env b.plan.specs
      b.plan.invariants).obligations.get? m.id).getD []) (.this "Sub") clause)

/-- With one target more an invariant is not checked any more. -/
theorem obligation_lost :
    ∃ (b : Build) (m : MethodInfo) (clause : BoundClause), build inheritedTargetSource {} = .ok b ∧
      b.program.env.method? m.id = some m ∧ m.qualifiedName = "Sub.put" ∧
      MoreTargets (withoutTargets "this.cell.value" b.plan.specs) b.plan.specs ∧
      (∃ p, Parse.program inheritedTargetSource = .ok p ∧
        TargetsWritten b.program.env p.siteCount b.plan.specs) ∧
      Listed (((EffectAnalysis.ofSpecs b.program.env (withoutTargets "this.cell.value" b.plan.specs)
        b.plan.invariants).obligations.get? m.id).getD []) (.this "Sub") clause ∧
      ¬Listed (((EffectAnalysis.ofSpecs b.program.env b.plan.specs
        b.plan.invariants).obligations.get? m.id).getD []) (.this "Sub") clause := by
  have h : inheritedTargetCheck = some true := by
    set_option maxRecDepth 20000 in
    rw [inheritedTargetCheck, show inheritedTargetSource = String.ofList _ from rfl, build_ofList]
    decide +kernel
  simp only [inheritedTargetCheck, Option.bind_eq_bind, Option.bind_eq_some_iff] at h
  obtain ⟨b, hb, m, _, ⟨owner, clause⟩, _, h⟩ := h
  simp only [Option.pure_def, Option.some.injEq, decide_eq_true_eq] at h
  obtain ⟨hm, hname, hempty, hlisted, hnot⟩ := h
  have hb := ok_of_toOption hb
  obtain ⟨p, _, hp, _⟩ := build_eq_ok hb
  exact ⟨b, m, clause, hb, hm, hname, moreTargets_withoutTargets hempty,
    ⟨p, hp, targetsWritten_of_build hb hp⟩, hlisted, hnot⟩

end Covenant
