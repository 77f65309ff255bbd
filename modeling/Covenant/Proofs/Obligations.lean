import Covenant.Proofs.ClosedSets

/-!
# Which invariants are checked behind a call

Two answers are given to the question whether a call can break an invariant. The
query goes through what the invariant reads; the obligations are listed along the
paths of the closed set, each with the invariants of the class that it leads to.
For the objects that the callee is handed, `required_iff_listed` says when the
two answers agree: nothing is listed that the query does not ask for, and what it
asks for is listed if the closed set has a path from that object that starts with
a class which has the invariant.
-/

namespace Covenant

namespace Obligation

theorem same_refl (o : Obligation) : o.same o = true := by
  rw [Obligation.same, Effect.Path.same_refl, beq_self_eq_true]
  rfl

theorem same_iff {a b : Obligation} :
    a.same b = true ↔ a.object.same b.object = true ∧ a.clause = b.clause := by
  rw [Obligation.same, Bool.and_eq_true, beq_iff_eq]

end Obligation

namespace Effect

/-- An invariant is checked on an object. -/
def Listed (os : List Obligation) (object : Path) (clause : BoundClause) : Prop :=
  ∃ o ∈ os, o.object.same object = true ∧ o.clause = clause

instance (os : List Obligation) (object : Path) (clause : BoundClause) :
    Decidable (Listed os object clause) :=
  inferInstanceAs (Decidable (∃ o ∈ os, o.object.same object = true ∧ o.clause = clause))

/-- A class has an invariant, its own or an inherited one. -/
def HasInvariant (env : Env) (invariants : Invariants) (className : String)
    (clause : BoundClause) : Prop :=
  ∃ owner, (owner, clause) ∈ classInvariants env invariants className

/-- The closed set has a path from where the object stands that starts with a class which has the
invariant. -/
def Reaches (env : Env) (invariants : Invariants) (closed : List Path) (object : Path)
    (clause : BoundClause) : Prop :=
  ∃ q ∈ closed, q.root = object.root ∧ ∃ c, q.rootType = .ofClass c ∧
    HasInvariant env invariants c clause

theorem touches_congr {closed : List Path} {p q : Path} (h : p.same q = true)
    (invariant : BoundClause) : touches closed p invariant = touches closed q invariant := by
  rw [touches, touches]
  congr 1
  funext r
  congr 1
  funext c
  exact Path.overlaps_congr (Path.reroot_same r h)

theorem touches_iff {closed : List Path} {object : Path} {invariant : BoundClause} :
    touches closed object invariant = true ↔
      ∃ r ∈ readSet invariant, ∃ q ∈ closed, q.overlaps (r.reroot object) = true := by
  simp [touches]

section

variable {env : Env} {invariants : Invariants} {closed : List Path} {object : Path}
  {clause : BoundClause}

theorem mem_invariantsAt_self {c owner : String} (ht : object.type = .ofClass c)
    (h : (owner, clause) ∈ classInvariants env invariants c) :
    ⟨object, owner, clause⟩ ∈ invariantsAt env invariants object := by
  rw [invariantsAt, ht]
  exact List.mem_map.mpr ⟨_, h, rfl⟩

/-- What is listed for a declared member: the invariants that are touched, along the closed set. -/
theorem listed_declared : Listed (declaredObligations env invariants closed) object clause ↔
    touches closed object clause = true ∧ ∃ q ∈ closed, ∃ p ∈ q.prefixes, p.same object = true ∧
      ∃ c, p.type = .ofClass c ∧ HasInvariant env invariants c clause := by
  constructor
  · rintro ⟨o, ho, hsame, rfl⟩
    obtain ⟨ho, htouches⟩ := List.mem_filter.mp (mem_firsts ho)
    obtain ⟨p, hp, hat⟩ := List.mem_flatMap.mp ho
    obtain ⟨q, hq, hprefix⟩ := List.mem_flatMap.mp hp
    obtain ⟨rfl, c, hc, hinv⟩ := mem_invariantsAt hat
    exact ⟨touches_congr hsame _ ▸ htouches, q, hq, o.object, hprefix, hsame, c, hc, _, hinv⟩
  · rintro ⟨htouches, q, hq, p, hp, hsame, c, hc, owner, hinv⟩
    have hmem : (⟨p, owner, clause⟩ : Obligation) ∈
        ((closed.flatMap Path.prefixes).flatMap (invariantsAt env invariants)).filter fun o =>
          touches closed o.object o.clause :=
      List.mem_filter.mpr ⟨List.mem_flatMap.mpr ⟨p, List.mem_flatMap.mpr ⟨q, hq, hp⟩,
        mem_invariantsAt_self hc hinv⟩, (touches_congr hsame clause).trans htouches⟩
    obtain ⟨o, ho, heq⟩ := exists_mem_firsts Obligation.same_refl hmem
    obtain ⟨hobject, hclause⟩ := Obligation.same_iff.mp heq
    exact ⟨o, ho, Path.same_trans hobject hsame, hclause⟩

/-- An invariant of an object that stands at a root of the frame. -/
theorem listed_root (hroot : object.trail = []) :
    Listed (declaredObligations env invariants closed) object clause ↔
      touches closed object clause = true ∧ Reaches env invariants closed object clause := by
  rw [listed_declared]
  refine and_congr_right fun _ => exists_congr fun q => and_congr_right fun _ => ?_
  constructor
  · rintro ⟨p, hp, hsame, c, hc, hinv⟩
    obtain ⟨hr, ht⟩ := Path.same_iff.mp hsame
    obtain rfl := Path.eq_root_of_prefix hp (ht.trans hroot)
    exact ⟨hr, c, hc, hinv⟩
  · rintro ⟨hr, c, hc, hinv⟩
    exact ⟨_, q.root_mem_prefixes, Path.same_iff.mpr ⟨hr, hroot.symm⟩, c, hc, hinv⟩

end

/-! ## The tables of an analysis -/

section

variable {env : Env} {specs : Table DeclId Specification} {invariants : Invariants} {id : DeclId}

theorem find?_map_key {α : Type} (f : DeclId → α) {ids : List DeclId} (h : id ∈ ids) :
    Table.find? id (ids.map fun i => (i, f i)) = some (f id) := by
  induction ids with
  | nil => exact absurd h List.not_mem_nil
  | cons i ids ih =>
      rw [List.map_cons, Table.find?]
      split
      · next heq => rw [heq]
      · next hne => exact ih ((List.mem_cons.mp h).resolve_left (Ne.symm hne))

theorem keys_classifyAll : (classifyAll env specs).keys = env.methods.keys := by
  rw [classifyAll, Table.keys, List.map_map]
  exact List.map_id _

theorem get?_classifyAll {m : MethodInfo} (hm : env.method? id = some m) :
    (classifyAll env specs).get? id = some (classify env specs id) :=
  find?_map_key _ (List.mem_map.mpr ⟨_, Table.mem_of_get? hm, rfl⟩)

theorem mem_membersOf {classes : Table DeclId EffectClass} (hn : classes.keys.Nodup)
    {c : EffectClass} : id ∈ membersOf classes c ↔ classes.get? id = some c := by
  rw [membersOf, List.mem_map]
  constructor
  · rintro ⟨⟨i, c'⟩, hmem, rfl⟩
    obtain ⟨hmem, hc⟩ := List.mem_filter.mp hmem
    exact beq_iff_eq.mp hc ▸ Table.get?_of_mem hn hmem
  · intro h
    exact ⟨(id, c), List.mem_filter.mpr ⟨Table.mem_of_get? h, beq_self_eq_true c⟩, rfl⟩

theorem get?_of_classOf {classes : Table DeclId EffectClass} (h : classOf classes id = .declared) :
    classes.get? id = some .declared := by
  rw [classOf] at h
  cases hg : classes.get? id with
  | none =>
      rw [hg] at h
      cases h
  | some c =>
      rw [hg] at h
      exact congrArg some h

theorem get?_closures (hn : env.methods.keys.Nodup)
    (h : (EffectAnalysis.ofSpecs env specs invariants).classOf id = .declared) :
    (EffectAnalysis.ofSpecs env specs invariants).closures.get? id =
      some (closure env specs (classifyAll env specs) id) :=
  find?_map_key _ ((mem_membersOf (keys_classifyAll ▸ hn)).mpr (get?_of_classOf h))

/-- What is checked behind a call of a member of some class. -/
def obligationsBy (env : Env) (specs : Table DeclId Specification) (invariants : Invariants)
    (id : DeclId) : EffectClass → List Obligation
  | .declared => declaredObligations env invariants (closure env specs (classifyAll env specs) id)
  | .pureAccessor => []
  | .unconstrained => ((env.method? id).map (handedObligations env invariants)).getD []

/-- The obligations of declared members and of those that declare nothing. -/
def listings (env : Env) (specs : Table DeclId Specification) (invariants : Invariants) :
    List (DeclId × List Obligation) :=
  (membersOf (classifyAll env specs) .declared).map (fun id =>
      (id, obligationsBy env specs invariants id .declared))
    ++ (membersOf (classifyAll env specs) .unconstrained).map fun id =>
      (id, obligationsBy env specs invariants id .unconstrained)

theorem keys_listings : (listings env specs invariants).map (·.1) =
    membersOf (classifyAll env specs) .declared ++
      membersOf (classifyAll env specs) .unconstrained := by
  rw [listings, List.map_append, List.map_map, List.map_map]
  exact congrArg₂ _ (List.map_id _) (List.map_id _)

theorem nodup_listings (hn : env.methods.keys.Nodup) :
    ((listings env specs invariants).map (·.1)).Nodup := by
  have hkeys : (classifyAll env specs).keys.Nodup := keys_classifyAll ▸ hn
  have hsub (c : EffectClass) : (membersOf (classifyAll env specs) c).Nodup :=
    hkeys.sublist (List.filter_sublist.map _)
  rw [keys_listings]
  refine List.nodup_append.mpr ⟨hsub _, hsub _, ?_⟩
  rintro a ha b hb rfl
  have hdeclared := (mem_membersOf hkeys).mp ha
  exact absurd (hdeclared.symm.trans ((mem_membersOf hkeys).mp hb)) (by simp)

theorem find?_listings (hn : env.methods.keys.Nodup) (id : DeclId) :
    (Table.find? id (listings env specs invariants)).getD [] =
      obligationsBy env specs invariants id (classOf (classifyAll env specs) id) := by
  have hkeys : (classifyAll env specs).keys.Nodup := keys_classifyAll ▸ hn
  have hlisted {os : List Obligation} (h : (id, os) ∈ listings env specs invariants) :
      Table.find? id (listings env specs invariants) = some os :=
    Table.find?_of_mem (nodup_listings hn) h
  have hfresh (h : (classifyAll env specs).get? id ≠ some .declared)
      (h' : (classifyAll env specs).get? id ≠ some .unconstrained) :
      Table.find? id (listings env specs invariants) = none := by
    refine Table.get?_eq_none (t := ⟨listings env specs invariants⟩) fun hmem => ?_
    rw [Table.keys, keys_listings] at hmem
    exact (List.mem_append.mp hmem).elim (fun hd => h ((mem_membersOf hkeys).mp hd))
      fun hu => h' ((mem_membersOf hkeys).mp hu)
  rw [classOf]
  cases hid : (classifyAll env specs).get? id with
  | none =>
      have hno : env.method? id = none := by
        cases hm : env.method? id with
        | none => rfl
        | some m => exact absurd (hid.symm.trans (get?_classifyAll hm)) (by simp)
      rw [hfresh (by simp [hid]) (by simp [hid])]
      show _ = ((env.method? id).map (handedObligations env invariants)).getD []
      rw [hno]
      rfl
  | some c =>
      have hmem := (mem_membersOf hkeys).mpr hid
      cases c with
      | declared =>
          rw [hlisted (List.mem_append_left _ (List.mem_map.mpr ⟨id, hmem, rfl⟩))]
          rfl
      | pureAccessor =>
          rw [hfresh (by simp [hid]) (by simp [hid])]
          rfl
      | unconstrained =>
          rw [hlisted (List.mem_append_right _ (List.mem_map.mpr ⟨id, hmem, rfl⟩))]
          rfl

/-- What is checked behind a call depends on the class of the member. -/
theorem obligations_eq (hn : env.methods.keys.Nodup) (id : DeclId) :
    ((EffectAnalysis.ofSpecs env specs invariants).obligations.get? id).getD [] =
      obligationsBy env specs invariants id
        ((EffectAnalysis.ofSpecs env specs invariants).classOf id) := by
  refine Eq.trans ?_ (find?_listings hn id)
  have htable : (EffectAnalysis.ofSpecs env specs invariants).obligations.get? id =
      Table.find? id ((listings env specs invariants).filter fun x => !x.2.isEmpty) := by
    simp only [EffectAnalysis.ofSpecs, obligations, closures, List.map_map]
    rfl
  rw [htable, Table.find?_filter (nodup_listings hn)]
  cases hos : Table.find? id (listings env specs invariants) with
  | none => rfl
  | some os => cases os <;> rfl

theorem get?_obligations (hn : env.methods.keys.Nodup)
    (h : (EffectAnalysis.ofSpecs env specs invariants).classOf id = .declared) :
    ((EffectAnalysis.ofSpecs env specs invariants).obligations.get? id).getD [] =
      declaredObligations env invariants (closure env specs (classifyAll env specs) id) := by
  rw [obligations_eq hn, h]
  rfl

/-- The query for a declared member. -/
theorem required_iff_touches (hn : env.methods.keys.Nodup)
    (h : (EffectAnalysis.ofSpecs env specs invariants).classOf id = .declared) (object : Path)
    (clause : BoundClause) :
    (EffectAnalysis.ofSpecs env specs invariants).reverification id object clause = .required ↔
      touches (closure env specs (classifyAll env specs) id) object clause = true := by
  have hnot : (classOf (EffectAnalysis.ofSpecs env specs invariants).classes id ==
      EffectClass.unconstrained) = false := by
    have : classOf (EffectAnalysis.ofSpecs env specs invariants).classes id = .declared := h
    rw [this]
    rfl
  rw [EffectAnalysis.reverification, hnot, get?_closures hn h]
  show (if touches (closure env specs (classifyAll env specs) id) object clause then
    Reverification.required else .notRequired) = .required ↔ _
  split
  · next ht => simp [ht]
  · next ht => simp [ht]

end

/-! ## Objects that a member is handed -/

/-- The objects that a member is handed, each with the class that the member knows it by. -/
inductive Handed (m : MethodInfo) : Path → String → Prop
  | receiver (h : m.isStatic = false) : Handed m (.this m.owner) m.owner
  | param {i : Nat} {c : String} (h : m.paramTypes[i]? = some (.ofClass c)) :
    Handed m (.param i (.ofClass c)) c

theorem Handed.trail {m : MethodInfo} {object : Path} {c : String} (h : Handed m object c) :
    object.trail = [] := by
  cases h <;> rfl

/-- What touches an invariant that reads along `this` starts where the object stands. -/
theorem exists_root_of_touches {closed : List Path} {object : Path} {clause : BoundClause}
    (h : touches closed object clause = true) (hread : ∀ p ∈ readSet clause, p.root = .this) :
    ∃ q ∈ closed, q.root = object.root := by
  obtain ⟨r, hr, q, hq, hover⟩ := touches_iff.mp h
  have hroot := Path.root_of_overlaps hover
  rw [Path.reroot, hread r hr] at hroot
  exact ⟨q, hq, hroot⟩

/-- A path in the frame of a member starts with a class that has the invariant, if the targets were
written in such classes. -/
theorem Framed.hasInvariant {env : Env} {invariants : Invariants} {m : MethodInfo}
    {targets : List BoundClause} {q object : Path} {c : String} {clause : BoundClause}
    (hq : Framed env m targets q) (ho : Handed m object c) (hroot : q.root = object.root)
    (hc : HasInvariant env invariants c clause)
    (htargets : object.root = .this → ∀ t ∈ targets, ∀ d, env.method? t.origin = some d →
      HasInvariant env invariants d.owner clause) :
    ∃ c', q.rootType = .ofClass c' ∧ HasInvariant env invariants c' clause := by
  obtain ⟨o, htyped, ho'⟩ := hq
  cases ho with
  | receiver =>
      rw [Path.RootTyped, hroot] at htyped
      rcases ho' with rfl | ⟨t, ht, d, hd, rfl⟩
      · exact ⟨_, htyped, hc⟩
      · exact ⟨_, htyped, htargets rfl t ht d hd⟩
  | param hparam =>
      rw [Path.RootTyped, hroot] at htyped
      exact ⟨c, (Option.some.inj (hparam.symm.trans htyped)).symm, hc⟩

end Effect

theorem effects_of_build {source : String} {checks : Checks} {b : Build}
    (h : build source checks = .ok b) :
    b.plan.effects = .ofSpecs b.program.env b.plan.specs b.plan.invariants := by
  obtain ⟨p, env, _, _, hplan, _, hprog⟩ := build_eq_ok h
  rw [hprog, hplan]
  rfl

open Effect in
/-- For an object that a declared member is handed, and an invariant of the class by which the
member knows it, the query and the obligations give one answer exactly if the closed set has a path
from the object that starts with a class which has the invariant, or the query does not ask for a
check. They do so if the invariant reads nothing from static fields and, for the receiver, the
targets of the member are written in classes that have the invariant. -/
theorem required_iff_listed {source : String} {checks : Checks} {b : Build}
    (h : build source checks = .ok b) {m : MethodInfo}
    (hm : b.program.env.method? m.id = some m) (hd : b.plan.effects.classOf m.id = .declared)
    {object : Path} {c : String} (ho : Handed m object c) {clause : BoundClause}
    (hc : HasInvariant b.program.env b.plan.invariants c clause) :
    ((b.plan.effects.reverification m.id object clause = .required ↔
        Listed ((b.plan.effects.obligations.get? m.id).getD []) object clause) ↔
      (b.plan.effects.reverification m.id object clause = .required →
        Reaches b.program.env b.plan.invariants ((b.plan.effects.closures.get? m.id).getD [])
          object clause)) ∧
    ((∀ p ∈ readSet clause, p.root = .this) →
      (object.root = .this → ∀ s, b.plan.specs.get? m.id = some s → ∀ t ∈ s.effects.mutates,
        ∀ d, b.program.env.method? t.origin = some d →
          HasInvariant b.program.env b.plan.invariants d.owner clause) →
      (b.plan.effects.reverification m.id object clause = .required ↔
        Listed ((b.plan.effects.obligations.get? m.id).getD []) object clause)) := by
  have hn := (methodsKeyed_of_build h).nodup
  rw [effects_of_build h] at hd ⊢
  rw [required_iff_touches hn hd, get?_obligations hn hd, get?_closures hn hd, Option.getD_some,
    listed_root ho.trail]
  refine ⟨iff_self_and, fun hread htargets => iff_self_and.mpr fun htouches => ?_⟩
  obtain ⟨q, hq, hroot⟩ := exists_root_of_touches htouches hread
  obtain ⟨s, hs, hframed⟩ := framed_closure h hm hq
  exact ⟨q, hq, hroot, hframed.hasInvariant ho hroot hc fun hthis => htargets hthis s hs⟩

/-- A setter that declares what it sets, in a class with an invariant. -/
def setterSource : String :=
  "/** @invar | x >= 0 */ class Cell {
     int x;
     /** @mutates | this.x */ void set(int n) { x = n; }
   }"

open Effect in
/-- Evaluates what is said of `setterSource`. -/
def setterCheck : Option Bool := do
  let b ← (build setterSource {}).toOption
  let m ← b.program.env.methodNamed? "Cell.set"
  let (_, clause) ← (classInvariants b.program.env b.plan.invariants m.owner).head?
  let s ← b.plan.specs.get? m.id
  return decide (b.program.env.method? m.id = some m ∧ m.isStatic = false ∧
    b.plan.effects.classOf m.id = .declared ∧
    (∀ p ∈ readSet clause, p.root = .this) ∧ (∀ t ∈ s.effects.mutates, t.origin = m.id) ∧
    b.plan.effects.reverification m.id (.this m.owner) clause = .required)

open Effect in
theorem required_iff_listed_setter :
    ∃ (b : Build) (m : MethodInfo) (clause : BoundClause), build setterSource {} = .ok b ∧
      HasInvariant b.program.env b.plan.invariants m.owner clause ∧
      b.plan.effects.reverification m.id (.this m.owner) clause = .required ∧
      Listed ((b.plan.effects.obligations.get? m.id).getD []) (.this m.owner) clause := by
  have h : setterCheck = some true := by
    set_option maxRecDepth 20000 in
    rw [setterCheck, show setterSource = String.ofList _ from rfl, build_ofList]
    decide +kernel
  simp only [setterCheck, Option.bind_eq_bind, Option.bind_eq_some_iff] at h
  obtain ⟨b, hb, m, _, ⟨owner, clause⟩, hc, s, hs, h⟩ := h
  simp only [Option.pure_def, Option.some.injEq, decide_eq_true_eq] at h
  obtain ⟨hm, hstatic, hd, hread, horigin, hreq⟩ := h
  have hc : HasInvariant b.program.env b.plan.invariants m.owner clause :=
    ⟨owner, List.mem_of_head? hc⟩
  refine ⟨b, m, clause, ok_of_toOption hb, hc, hreq,
    ((required_iff_listed (ok_of_toOption hb) hm hd (.receiver hstatic) hc).2 hread ?_).mp hreq⟩
  intro _ s' hs' t ht d hget
  obtain rfl := Option.some.inj (hs.symm.trans hs')
  rw [horigin t ht, hm] at hget
  exact Option.some.inj hget ▸ hc

/-- A setter takes over the effects of the method that it overrides, in a superclass that does not
know the invariant. -/
def inheritedSource : String :=
  "class Base {
     int x;
     /** @mutates | this.x */ void set(int n) { x = n; }
   }
   /** @invar | x >= 0 */ class Sub extends Base {
     void set(int n) { x = n; }
   }"

open Effect in
/-- Evaluates what is said of `inheritedSource`. -/
def inheritedCheck : Option Bool := do
  let b ← (build inheritedSource {}).toOption
  let m ← b.program.env.methodNamed? "Sub.set"
  let (_, clause) ← (classInvariants b.program.env b.plan.invariants m.owner).head?
  return decide (b.program.env.method? m.id = some m ∧ m.isStatic = false ∧
    b.plan.effects.classOf m.id = .declared ∧
    b.plan.effects.reverification m.id (.this m.owner) clause = .required ∧
    ¬Listed ((b.plan.effects.obligations.get? m.id).getD []) (.this m.owner) clause)

open Effect in
/-- A check of the invariant is required but not listed. -/
theorem required_unlisted :
    ∃ (b : Build) (m : MethodInfo) (clause : BoundClause), build inheritedSource {} = .ok b ∧
      b.program.env.method? m.id = some m ∧ b.plan.effects.classOf m.id = .declared ∧
      Handed m (.this m.owner) m.owner ∧
      HasInvariant b.program.env b.plan.invariants m.owner clause ∧
      b.plan.effects.reverification m.id (.this m.owner) clause = .required ∧
      ¬Listed ((b.plan.effects.obligations.get? m.id).getD []) (.this m.owner) clause := by
  have h : inheritedCheck = some true := by
    set_option maxRecDepth 20000 in
    rw [inheritedCheck, show inheritedSource = String.ofList _ from rfl, build_ofList]
    decide +kernel
  simp only [inheritedCheck, Option.bind_eq_bind, Option.bind_eq_some_iff] at h
  obtain ⟨b, hb, m, _, ⟨owner, clause⟩, hc, h⟩ := h
  simp only [Option.pure_def, Option.some.injEq, decide_eq_true_eq] at h
  obtain ⟨hm, hstatic, hd, hreq, hlisted⟩ := h
  exact ⟨b, m, clause, ok_of_toOption hb, hm, hd, .receiver hstatic,
    ⟨owner, List.mem_of_head? hc⟩, hreq, hlisted⟩

end Covenant
