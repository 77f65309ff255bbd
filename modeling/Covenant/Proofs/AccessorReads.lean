import Covenant.Proofs.Obligations
import Covenant.Proofs.Purity

/-!
# What an invariant reads through an accessor

Nothing is inferred from bodies: a call of an accessor in an invariant is a step of
a path, and what the accessor itself reads takes no part in it. So an invariant is
checked behind a declared member exactly as far as the closed set of the member
overlaps what the invariant reads as it is written. `accessor_listed` says so for
invariants that call a pure accessor on `this`.
-/

namespace Covenant

open Effect (Path)

/-! ## Calls fit their methods -/

namespace Typing

/-- If the expression is a call, it has an argument for each parameter of its method. -/
def CallFits (env : Env) (e : Typed.Expr) : Prop :=
  ∀ span type site receiver id name args,
    e = .call span type site receiver id name args →
      ∃ m, env.method? id = some m ∧ m.params.length = args.length

theorem callFits_selected {s : Scope} (hk : s.env.MethodsKeyed) {className name : String}
    {args : List Typed.Expr} {m : MethodInfo}
    (h : selectOverload? s.env (s.env.lookupMethods className name) (args.map (·.type)) = some m)
    (span : Span) (site : SiteId) (receiver : Option Typed.Expr) :
    CallFits s.env (.call span m.returnType site receiver m.id name args) := by
  rintro _ _ _ _ _ _ _ ⟨⟩
  obtain ⟨hm, happ⟩ := selectOverload?_ok h
  obtain ⟨id, _, hget⟩ := List.mem_filterMap.mp (List.mem_filter.mp hm).1
  rw [isApplicable, Bool.and_eq_true, beq_iff_eq, List.length_map] at happ
  exact ⟨m, hk.id_eq hget ▸ hget, happ.1⟩

mutual

theorem Elab.callFits {s : Scope} (hk : s.env.MethodsKeyed) {e : Surface.Expr} {t : Typed.Expr}
    {cs : List CallSite} (h : Elab s e t cs) : ∀ x ∈ t.parts, CallFits s.env x := by
  cases h with
  | int | bool | null | this | var | param | ownStatic | classField | staticField | result =>
      refine List.forall_mem_singleton.mpr ?_
      rintro _ _ _ _ _ _ _ ⟨⟩
  | ownField =>
      refine List.forall_mem_cons.mpr ⟨?_, List.forall_mem_singleton.mpr ?_⟩
      all_goals rintro _ _ _ _ _ _ _ ⟨⟩
  | binary hl hr =>
      refine List.forall_mem_cons.mpr ⟨?_, List.forall_mem_append.mpr
        ⟨Elab.callFits hk hl, Elab.callFits hk hr⟩⟩
      rintro _ _ _ _ _ _ _ ⟨⟩
  | index ha _ hi =>
      refine List.forall_mem_cons.mpr ⟨?_, List.forall_mem_append.mpr
        ⟨Elab.callFits hk ha, Elab.callFits hk hi⟩⟩
      rintro _ _ _ _ _ _ _ ⟨⟩
  | unary he | field he | length he | newArray _ he | old he | spread he =>
      refine List.forall_mem_cons.mpr ⟨?_, Elab.callFits hk he⟩
      rintro _ _ _ _ _ _ _ ⟨⟩
  | new _ _ ha =>
      refine List.forall_mem_cons.mpr ⟨?_, ElabAll.callFits hk ha⟩
      rintro _ _ _ _ _ _ _ ⟨⟩
  | staticCall ha hm | classCall _ ha hm | droppedCall _ _ ha hm =>
      exact List.forall_mem_cons.mpr ⟨callFits_selected hk hm _ _ _, ElabAll.callFits hk ha⟩
  | ownCall ha hm =>
      refine List.forall_mem_cons.mpr ⟨callFits_selected hk hm _ _ _, List.forall_mem_append.mpr
        ⟨List.forall_mem_singleton.mpr ?_, ElabAll.callFits hk ha⟩⟩
      rintro _ _ _ _ _ _ _ ⟨⟩
  | methodCall ho _ ha hm =>
      exact List.forall_mem_cons.mpr ⟨callFits_selected hk hm _ _ _, List.forall_mem_append.mpr
        ⟨Elab.callFits hk ho, ElabAll.callFits hk ha⟩⟩

theorem ElabAll.callFits {s : Scope} (hk : s.env.MethodsKeyed) {es : List Surface.Expr}
    {ts : List Typed.Expr} {cs : List CallSite} (h : ElabAll s es ts cs) :
    ∀ x ∈ Typed.Expr.partsAll ts, CallFits s.env x := by
  cases h with
  | nil => exact fun x hx => absurd hx List.not_mem_nil
  | cons he hes => exact List.forall_mem_append.mpr ⟨Elab.callFits hk he, ElabAll.callFits hk hes⟩

end

end Typing

namespace Effect

/-! ## Reading through an accessor -/

/-- As seen from `this`, paths are what they are. -/
theorem reroot_this (p : Path) (c : String) : (p.reroot (.this c)).same p = true := by
  rw [Path.reroot]
  split
  · next h => exact Path.same_iff.mpr ⟨h.symm, by rw [Path.trail_from]; rfl⟩
  · exact Path.same_refl p
  · exact Path.same_refl p

theorem touches_this {closed : List Path} {c : String} {clause : BoundClause} :
    touches closed (.this c) clause = true ↔
      ∃ r ∈ readSet clause, ∃ q ∈ closed, q.overlaps r = true := by
  rw [touches_iff]
  refine exists_congr fun r => and_congr_right fun _ => exists_congr fun q =>
    and_congr_right fun _ => ?_
  rw [Path.overlaps_congr (reroot_this r c)]

/-- The method of a call on `this`. -/
def ownCall? : Typed.Expr → Option DeclId
  | .call _ _ _ (some (.this ..)) id _ _ => some id
  | _ => none

end Effect

open Effect in
/-- A call of a pure accessor on `this`, in an invariant, has no arguments. So it is read as the
step of that call. -/
theorem read_of_pure {source : String} {checks : Checks} {b : Build}
    (h : build source checks = .ok b) {clause : BoundClause} {c : String}
    (hc : HasInvariant b.program.env b.plan.invariants c clause) {g : DeclId}
    (hg : b.plan.effects.classOf g = .pureAccessor) {e : Typed.Expr}
    (he : e ∈ clause.expr.parts) (hcall : ownCall? e = some g) :
    ∃ p, Path.of? [] e = some p ∧ p.root = .this ∧ (∃ name, p.trail = [.accessor name]) ∧
      ∃ r ∈ readSet clause, r.same p = true := by
  rw [ownCall?.eq_def] at hcall
  split at hcall
  · next span t site span' c' id name args =>
    cases hcall
    obtain ⟨p, env, hp, henv, hplan, _, hprog⟩ := build_eq_ok h
    obtain rfl : env = b.program.env := by rw [hprog]
    obtain ⟨owner, hc⟩ := hc
    rw [hplan] at hc
    obtain ⟨_, cs, hget, hin⟩ := mem_classInvariants hc
    obtain ⟨r, _, _, hof⟩ := (Contract.bind_fromRecords b.program.env (Clause.ofProgram p)
      p.siteCount).invariants owner cs hget clause hin
    obtain ⟨_, _, hrules⟩ := hof
    obtain ⟨m, hm, hlen⟩ := hrules.callFits (methodsKeyed_of_build h) _ he _ _ _ _ _ _ _ rfl
    rw [effects_of_build h] at hg
    obtain ⟨m', hm', hform⟩ := accessorForm_of_pure hg
    obtain rfl := Option.some.inj (hm'.symm.trans hm)
    rw [isAccessorForm, Bool.and_eq_true, Bool.and_eq_true, List.isEmpty_iff] at hform
    rw [hform.1.2] at hlen
    obtain rfl := List.length_eq_zero_iff.mp hlen.symm
    exact ⟨_, rfl, rfl, ⟨name, rfl⟩,
      exists_mem_firsts Path.same_refl (List.mem_filterMap.mpr ⟨_, he, rfl⟩)⟩
  · cases hcall

open Effect in
/-- An invariant that calls a pure accessor on `this` is checked behind a declared method whose
targets are written in types with the invariant if the closed set has a path from `this` that
overlaps one which the invariant reads as it is written, the step of the accessor among them; and
it is checked only if the closed set overlaps something that it reads as it is written. -/
theorem accessor_listed {source : String} {checks : Checks} {b : Build}
    (h : build source checks = .ok b) {m : MethodInfo}
    (hm : b.program.env.method? m.id = some m) (hd : b.plan.effects.classOf m.id = .declared)
    (hs : m.isStatic = false) {clause : BoundClause}
    (hc : HasInvariant b.program.env b.plan.invariants m.owner clause)
    (htargets : ∀ s, b.plan.specs.get? m.id = some s → ∀ t ∈ s.effects.mutates,
      ∀ d, b.program.env.method? t.origin = some d →
        HasInvariant b.program.env b.plan.invariants d.owner clause)
    {g : DeclId} (hg : b.plan.effects.classOf g = .pureAccessor) {e : Typed.Expr}
    (he : e ∈ clause.expr.parts) (hcall : ownCall? e = some g) :
    (∃ p, Path.of? [] e = some p ∧ p.root = .this ∧ (∃ name, p.trail = [.accessor name]) ∧
      ∀ q ∈ (b.plan.effects.closures.get? m.id).getD [], q.overlaps p = true →
        Listed ((b.plan.effects.obligations.get? m.id).getD []) (.this m.owner) clause) ∧
    (∀ r ∈ readSet clause, ∀ q ∈ (b.plan.effects.closures.get? m.id).getD [], q.root = .this →
      q.overlaps r = true →
        Listed ((b.plan.effects.obligations.get? m.id).getD []) (.this m.owner) clause) ∧
    (Listed ((b.plan.effects.obligations.get? m.id).getD []) (.this m.owner) clause →
      ∃ r ∈ readSet clause, ∃ q ∈ (b.plan.effects.closures.get? m.id).getD [],
        q.overlaps r = true) := by
  have hn := (methodsKeyed_of_build h).nodup
  obtain ⟨p, hp, hroot, hname, r, hr, hsame⟩ := read_of_pure h hc hg he hcall
  rw [effects_of_build h] at hd ⊢
  rw [get?_obligations hn hd, get?_closures hn hd, Option.getD_some, listed_root rfl, touches_this]
  -- The types at the root of the closed set have the invariant.
  have reaches {q : Path} (hq : q ∈ closure b.program.env b.plan.specs
      (classifyAll b.program.env b.plan.specs) m.id) (hroot : q.root = .this) :
      Reaches b.program.env b.plan.invariants (closure b.program.env b.plan.specs
        (classifyAll b.program.env b.plan.specs) m.id) (.this m.owner) clause := by
    obtain ⟨s, hspec, hframed⟩ := framed_closure h hm hq
    exact ⟨q, hq, hroot, hframed.hasInvariant (.receiver hs) hroot hc fun _ => htargets s hspec⟩
  refine ⟨⟨p, hp, hroot, hname, fun q hq hover => ⟨⟨r, hr, q, hq, ?_⟩, reaches hq ?_⟩⟩,
    fun r hr q hq hroot hover => ⟨⟨r, hr, q, hq, hover⟩, reaches hq hroot⟩, And.left⟩
  · rw [Path.overlaps_congr hsame]
    exact hover
  · exact (Path.root_of_overlaps hover).trans hroot

/-- A setter that declares that it mutates its object, and an invariant that reads it through an
accessor. -/
def wholeSource : String :=
  "/** @invar | get() >= 0 */ class Cell {
     int value;
     int get() { return value; }
     /** @mutates | this */ void set(int n) { value = n; }
   }"

open Effect in
/-- Evaluates what is said of `wholeSource`. -/
def wholeCheck : Option Bool := do
  let b ← (build wholeSource {}).toOption
  let m ← b.program.env.methodNamed? "Cell.set"
  let g ← b.program.env.methodNamed? "Cell.get"
  let (_, clause) ← (classInvariants b.program.env b.plan.invariants m.owner).head?
  let e ← clause.expr.parts.find? (ownCall? · == some g.id)
  let s ← b.plan.specs.get? m.id
  let q ← ((b.plan.effects.closures.get? m.id).getD []).head?
  let p ← Path.of? [] e
  return decide (b.program.env.method? m.id = some m ∧ m.isStatic = false ∧
    b.plan.effects.classOf m.id = .declared ∧ b.plan.effects.classOf g.id = .pureAccessor ∧
    (∀ t ∈ s.effects.mutates, t.origin = m.id) ∧ q.overlaps p = true)

open Effect in
theorem accessor_listed_whole :
    ∃ (b : Build) (m g : MethodInfo) (clause : BoundClause), build wholeSource {} = .ok b ∧
      HasInvariant b.program.env b.plan.invariants m.owner clause ∧
      b.plan.effects.classOf g.id = .pureAccessor ∧
      (∃ e ∈ clause.expr.parts, ownCall? e = some g.id) ∧
      Listed ((b.plan.effects.obligations.get? m.id).getD []) (.this m.owner) clause := by
  have h : wholeCheck = some true := by
    set_option maxRecDepth 20000 in
    rw [wholeCheck, show wholeSource = String.ofList _ from rfl, build_ofList]
    decide +kernel
  simp only [wholeCheck, Option.bind_eq_bind, Option.bind_eq_some_iff] at h
  obtain ⟨b, hb, m, _, g, _, ⟨owner, clause⟩, hc, e, he, s, hs, q, hq, p, hp, h⟩ := h
  simp only [Option.pure_def, Option.some.injEq, decide_eq_true_eq] at h
  obtain ⟨hm, hstatic, hd, hg, horigin, hover⟩ := h
  have hc : HasInvariant b.program.env b.plan.invariants m.owner clause :=
    ⟨owner, List.mem_of_head? hc⟩
  have hparts := List.mem_of_find?_eq_some he
  have hcall : ownCall? e = some g.id := by simpa using List.find?_some he
  have htargets : ∀ s, b.plan.specs.get? m.id = some s → ∀ t ∈ s.effects.mutates,
      ∀ d, b.program.env.method? t.origin = some d →
        HasInvariant b.program.env b.plan.invariants d.owner clause := by
    intro s' hs' t ht d hget
    obtain rfl := Option.some.inj (hs.symm.trans hs')
    rw [horigin t ht, hm] at hget
    exact Option.some.inj hget ▸ hc
  obtain ⟨p', hp', _, _, hlisted⟩ :=
    (accessor_listed (ok_of_toOption hb) hm hd hstatic hc htargets hg hparts hcall).1
  obtain rfl := Option.some.inj (hp.symm.trans hp')
  exact ⟨b, m, g, clause, ok_of_toOption hb, hc, hg, ⟨e, hparts, hcall⟩,
    hlisted q (List.mem_of_head? hq) hover⟩

/-- The setter declares the field that it mutates, which the invariant reads through an accessor. -/
def behindSource : String :=
  "/** @invar | get() >= 0 */ class Cell {
     int value;
     int get() { return value; }
     /** @mutates | this.value */ void set(int n) { value = n; }
   }"

open Effect in
/-- Evaluates what is said of `behindSource`. -/
def behindCheck : Option Bool := do
  let b ← (build behindSource {}).toOption
  let m ← b.program.env.methodNamed? "Cell.set"
  let g ← b.program.env.methodNamed? "Cell.get"
  let (_, clause) ← (classInvariants b.program.env b.plan.invariants m.owner).head?
  let field ← ((b.program.env.body? g.id).bind returnedExpr?).bind (Path.of? [])
  return decide (b.program.env.method? m.id = some m ∧
    b.plan.effects.classOf m.id = .declared ∧ m.isStatic = false ∧
    b.program.env.method? g.id = some g ∧ b.plan.effects.classOf g.id = .pureAccessor ∧
    (∃ e ∈ clause.expr.parts, ownCall? e = some g.id) ∧
    field.same ((Path.this m.owner).step (.field "value") .int) = true ∧
    field ∈ (b.plan.effects.closures.get? m.id).getD [] ∧
    ¬Listed ((b.plan.effects.obligations.get? m.id).getD []) (.this m.owner) clause)

open Effect in
/-- The accessor reads the field that the setter mutates, and the invariant is not checked. -/
theorem accessor_unlisted :
    ∃ (b : Build) (m g : MethodInfo) (clause : BoundClause) (field : Path),
      build behindSource {} = .ok b ∧ b.program.env.method? m.id = some m ∧
      b.plan.effects.classOf m.id = .declared ∧ m.isStatic = false ∧
      b.program.env.method? g.id = some g ∧ b.plan.effects.classOf g.id = .pureAccessor ∧
      HasInvariant b.program.env b.plan.invariants m.owner clause ∧
      (∃ e ∈ clause.expr.parts, ownCall? e = some g.id) ∧
      ((b.program.env.body? g.id).bind returnedExpr?).bind (Path.of? []) = some field ∧
      field.same ((Path.this m.owner).step (.field "value") .int) = true ∧
      field ∈ (b.plan.effects.closures.get? m.id).getD [] ∧
      ¬Listed ((b.plan.effects.obligations.get? m.id).getD []) (.this m.owner) clause := by
  have h : behindCheck = some true := by
    set_option maxRecDepth 20000 in
    rw [behindCheck, show behindSource = String.ofList _ from rfl, build_ofList]
    decide +kernel
  simp only [behindCheck, Option.bind_eq_bind, Option.bind_eq_some_iff] at h
  obtain ⟨b, hb, m, _, g, _, ⟨owner, clause⟩, hc, field, ⟨e, ⟨body, hbody, he⟩, hfield⟩, h⟩ := h
  simp only [Option.pure_def, Option.some.injEq, decide_eq_true_eq] at h
  obtain ⟨hm, hd, hstatic, hgm, hg, hcall, hsame, hin, hlisted⟩ := h
  exact ⟨b, m, g, clause, field, ok_of_toOption hb, hm, hd, hstatic, hgm, hg,
    ⟨owner, List.mem_of_head? hc⟩, hcall,
    by rw [hbody, Option.bind_some, he, Option.bind_some, hfield], hsame, hin, hlisted⟩

end Covenant
