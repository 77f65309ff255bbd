import Covenant.Proofs.CallScopes
import Covenant.Proofs.Fields
import Covenant.Proofs.Inheritance
import Covenant.Proofs.Paths
import Covenant.Proofs.Placed

/-!
# Where closed sets start

Every path of a closed set is in the frame of the member: it starts at a class, at
a parameter, whose type it then has, or at `this`. What the member mutates itself
was written down as a target, on the member or on a method that it overrides; what
its calls mutate is reached from their receivers and arguments, which stand in the
body of the member. So `this` is of the class of the member or of a type above it
that a target is written in.
-/

namespace Covenant

open Surface (Program)

/-! ## Members of a build -/

theorem checkProgram_of_build {source : String} {checks : Checks} {b : Build}
    (h : build source checks = .ok b) :
    ∃ p : Program, p.WellFormed ∧ Typing.checkProgram p = .ok b.program.env := by
  obtain ⟨p, env, hp, henv, _, _, hprog⟩ := build_eq_ok h
  rw [hprog]
  exact ⟨p, Parse.program_wellFormed hp, henv⟩

theorem declaredBy_of_build {source : String} {checks : Checks} {b : Build}
    (h : build source checks = .ok b) : ∃ p : Program, b.program.env.DeclaredBy p := by
  obtain ⟨p, hp, hcheck⟩ := checkProgram_of_build h
  exact ⟨p, Env.declaredBy_of_check hp hcheck⟩

namespace Typing

/-! ## Parameters in scopes -/

theorem Scope.inFrame_ofClause (env : Env) (className : String) (decl : DeclId) (isStatic : Bool)
    (frame : ClauseFrame) : (Scope.ofClause env className decl isStatic frame).InFrame
      frame.params := by
  constructor
  · rintro _ ⟨⟩
    rfl
  · intro name type i hl
    exact absurd hl (by simp [local?, ofClause, ofBody])

section

variable {env : Env} {m : MethodInfo}

/-- The place of a name in a list of parameters. -/
theorem getElem_of_findIdx? {params : List (String × Ty)} {name : String} {i : Nat}
    (h : params.findIdx? (·.1 == name) = some i) : ∃ type, params[i]? = some (name, type) := by
  obtain ⟨hi, heq, _⟩ := List.findIdx?_eq_some_iff_getElem.mp h
  exact ⟨params[i].2, by rw [List.getElem?_eq_getElem hi, ← beq_iff_eq.mp heq]⟩

theorem Scope.local?_ofMethod (hn : (m.params.map (·.1)).Nodup) {name : String} {type : Ty}
    (h : (name, type) ∈ m.params) : (Scope.ofMethod env m).local? name = some type := by
  obtain ⟨before, after, heq⟩ := List.append_of_mem (List.mem_reverse.mpr h)
  refine List.lookup_eq_some_iff.mpr ⟨before, after, heq, fun x hx => ?_⟩
  have hrev : (m.params.reverse.map (·.1)).Nodup := by
    rw [List.map_reverse]
    exact List.nodup_reverse.mpr hn
  rw [heq, List.map_append, List.map_cons] at hrev
  have hne := (List.nodup_append.mp hrev).2.2 x.1 (List.mem_map.mpr ⟨x, hx, rfl⟩) name
    List.mem_cons_self
  simpa using Ne.symm hne

theorem Scope.Within.inFrame {s : Scope} (hn : (m.params.map (·.1)).Nodup)
    (h : (Scope.ofMethod env m).Within s) : s.InFrame m.params := by
  constructor
  · intro frame hframe
    exact absurd (h.clause.symm.trans hframe) (by simp [Scope.ofMethod, Scope.ofBody])
  · intro name type i hl hi
    obtain ⟨t, ht⟩ := getElem_of_findIdx? hi
    have hlocal := h.locals name t (Scope.local?_ofMethod hn (List.mem_of_getElem? ht))
    obtain rfl := Option.some.inj (hl.symm.trans hlocal)
    rw [List.getElem?_map, ht]
    rfl

end

end Typing

namespace Effect

section

variable {env : Env} {p : Program} {m : MethodInfo}

/-- A target starts in the frame of the method that it is written on. -/
theorem rootTyped_of_target {r : ClauseRecord} {c : BoundClause} {k : SiteId}
    (ht : Contract.TargetOf env k r c) (htag : r.tag = .mutates) {q : Path}
    (hq : Path.of? [] c.expr = some q) :
    ∃ d, env.method? r.owner = some d ∧ q.RootTyped d.owner d.paramTypes := by
  obtain ⟨hs, he, _⟩ := ht
  obtain ⟨d, hd, rfl⟩ := Contract.method_of_scope (by simp [htag]) hs
  exact ⟨d, hd, he.rootTyped (Typing.Scope.inFrame_ofClause ..) (.inl rfl) hq⟩

theorem licensedReceiver?_eq_some {s : Specification} {site : CallSite} {receiver : Path} :
    licensedReceiver? m s site = some receiver ↔ site.kind = .method ∧
      (∃ e, site.receiver = some e ∧ Path.of? m.params e = some receiver) ∧
      ∃ c ∈ s.effects.mutatesProperties, ∃ p, Path.of? [] c.expr = some p ∧
        p.dominates receiver = true := by
  rw [licensedReceiver?]
  split
  · next hkind =>
      simp only [Option.filter_eq_some_iff, Option.bind_eq_some_iff, List.any_eq_true, paths,
        List.mem_filterMap, hkind, true_and]
      refine and_congr_right fun _ => ⟨?_, ?_⟩
      · rintro ⟨p, ⟨c, hc, hp⟩, hcovers⟩
        exact ⟨c, hc, p, hp, hcovers⟩
      · rintro ⟨c, hc, p, hp, hcovers⟩
        exact ⟨p, ⟨c, hc, hp⟩, hcovers⟩
  · next hkind => simp [hkind]

/-- What calls mutate is reached from the frame. -/
theorem rootTyped_of_call (hp : p.WellFormed) (h : Typing.checkProgram p = .ok env)
    (hm : env.method? m.id = some m) {site : CallSite} (hsite : site ∈ env.callSitesOf m.id)
    {s : Specification} {receiver : Path} (hr : licensedReceiver? m s site = some receiver)
    {callee : List Path} {q : Path} (hq : q ∈ callTargets m site receiver callee) :
    q.RootTyped m.owner m.paramTypes := by
  have hn := ((Env.declaredBy_of_check hp h).params_cases hm).1
  obtain ⟨env₀, _, scope, hw, hreceiver, hargs⟩ := Typing.callOf_method hp h hm hsite
  have hframe := Typing.Scope.Within.inFrame hn hw
  have hclass : scope.className = m.owner := hw.className
  obtain ⟨q₀, _, hq⟩ := List.mem_filterMap.mp hq
  rw [Path.substitute] at hq
  split at hq
  · -- Along the receiver, which stands in the body.
    cases hq
    obtain ⟨hkind, ⟨e, he, hpath⟩, _⟩ := licensedReceiver?_eq_some.mp hr
    obtain ⟨_, _, hrules⟩ := hreceiver hkind e he
    exact (hclass ▸ hrules.rootTyped hframe (.inr rfl) hpath).from_ _
  · -- Along an argument.
    obtain ⟨base, hbase, rfl⟩ := Option.map_eq_some_iff.mp hq
    have harg := Option.join_eq_some_iff.mp hbase
    rw [List.getElem?_map, Option.map_eq_some_iff] at harg
    obtain ⟨e, he, hpath⟩ := harg
    obtain ⟨_, _, hrules⟩ := hargs e (List.mem_of_getElem? he)
    exact (hclass ▸ hrules.rootTyped hframe (.inr rfl) hpath).from_ _
  · next hroot =>
      cases hq
      rw [Path.RootTyped, hroot]
      trivial

/-- What is in a closed set, and of whom: the member is declared and not on the way already, and it
mutates the path itself or calls what does. -/
theorem closureFrom_cases {specs : Table DeclId Specification}
    {classes : Table DeclId EffectClass} {n : Nat} {visiting : List DeclId} {id : DeclId} {q : Path}
    (h : q ∈ closureFrom env specs classes n visiting id) :
    ∃ k m s, n = k + 1 ∧ classOf classes id = .declared ∧ id ∉ visiting ∧
      env.method? id = some m ∧ specs.get? id = some s ∧ (q ∈ ownTargets m s ∨
        ∃ site ∈ env.callSitesOf id, ∃ receiver, licensedReceiver? m s site = some receiver ∧
          q ∈ callTargets m site receiver
            (closureFrom env specs classes k (id :: visiting) site.callee)) := by
  cases n with
  | zero => exact absurd h List.not_mem_nil
  | succ k =>
      rw [closureFrom] at h
      split at h
      · exact absurd h List.not_mem_nil
      · next hopen =>
          rw [Bool.or_eq_true, bne_iff_ne, not_or, not_not] at hopen
          split at h
          · next s m hs hm =>
              refine ⟨k, m, s, rfl, hopen.1, by simpa using hopen.2, hm, hs, ?_⟩
              rcases List.mem_append.mp (mem_firsts h) with h | h
              · exact .inl h
              · obtain ⟨site, hsite, hq⟩ := List.mem_flatMap.mp h
                split at hq
                · next receiver hr => exact .inr ⟨site, hsite, receiver, hr, hq⟩
                · exact absurd hq List.not_mem_nil
          · exact absurd h List.not_mem_nil

/-- A target that counts for a member: it was written on it or on a method that it overrides. -/
def TargetFor (env : Env) (k : SiteId) (m : MethodInfo) (c : BoundClause) : Prop :=
  ∃ r, (r.owner = m.id ∨ r.owner ∈ Contract.ancestors env m) ∧ r.tag = .mutates ∧
    Contract.TargetOf env k r c

/-- All targets that count for members were written down. -/
def TargetsWritten (env : Env) (k : SiteId) (specs : Table DeclId Specification) : Prop :=
  ∀ m s, env.method? m.id = some m → specs.get? m.id = some s → ∀ c ∈ s.effects.mutates,
    TargetFor env k m c

end

end Effect

namespace Contract

theorem mutates_of_specification {env : Env} {decls : Table DeclId OwnClauses} {m : MethodInfo}
    {c : BoundClause} (h : c ∈ (specificationOf env decls m).effects.mutates) :
    ∃ own ∈ lineage env decls m, c ∈ own.effects.mutates := by
  rw [specificationOf] at h
  cases hf : ((lineage env decls m).map (·.effects)).find? (!·.isEmpty) with
  | none =>
      simp only [hf] at h
      exact absurd h List.not_mem_nil
  | some effects =>
      simp only [hf] at h
      obtain ⟨own, hown, rfl⟩ := List.mem_map.mp (List.mem_of_find?_eq_some hf)
      exact ⟨own, hown, h⟩

end Contract

namespace Effect

/-- The path is in the frame of the member, where `this` may be of a type that one of the targets
is written in. -/
def Framed (env : Env) (m : MethodInfo) (targets : List BoundClause) (q : Path) : Prop :=
  ∃ o, q.RootTyped o m.paramTypes ∧
    (o = m.owner ∨ ∃ c ∈ targets, ∃ d, env.method? c.origin = some d ∧ d.owner = o)

section

variable {env : Env} {p : Program} (hp : p.WellFormed) (h : Typing.checkProgram p = .ok env)
  {m : MethodInfo} (hm : env.method? m.id = some m)

include hp h hm

/-- A target that counts for a member stands in its frame. -/
theorem framed_target {k : SiteId} {targets : List BoundClause} {c : BoundClause}
    (hc : c ∈ targets) (htarget : TargetFor env k m c) {q : Path}
    (hq : Path.of? [] c.expr = some q) : Framed env m targets q := by
  obtain ⟨r, hid, htag, ht⟩ := htarget
  obtain ⟨d, hd, htyped⟩ := rootTyped_of_target ht htag hq
  have horigin : c.origin = r.owner := by
    cases ht
    rfl
  rcases hid with hid | hid
  · obtain rfl := Option.some.inj (hm.symm.trans (hid ▸ hd))
    exact ⟨m.owner, htyped, .inl rfl⟩
  · rw [((Env.declaredBy_of_check hp h).inheritsFrom hm hd (.inr hid)).paramTypes] at htyped
    exact ⟨d.owner, htyped, .inr ⟨c, hc, d, horigin ▸ hd, rfl⟩⟩

/-- Every path of the closed set of a member is in its frame. -/
theorem framed_closureFrom {specs : Table DeclId Specification}
    {classes : Table DeclId EffectClass} {k : SiteId} (htargets : TargetsWritten env k specs)
    {n : Nat} {visiting : List DeclId} {q : Path}
    (hq : q ∈ closureFrom env specs classes n visiting m.id) :
    ∃ s, specs.get? m.id = some s ∧ Framed env m s.effects.mutates q := by
  obtain ⟨_, m', s, _, _, _, hm', hs, hq⟩ := closureFrom_cases hq
  obtain rfl := Option.some.inj (hm.symm.trans hm')
  refine ⟨s, hs, ?_⟩
  rcases hq with hq | ⟨site, hsite, receiver, hr, hq⟩
  · rcases List.mem_append.mp hq with hq | hq
    · -- The new object of a constructor.
      split at hq
      · obtain rfl := List.mem_singleton.mp hq
        exact ⟨m.owner, rfl, .inl rfl⟩
      · exact absurd hq List.not_mem_nil
    · obtain ⟨c, hc, hpath⟩ := List.mem_filterMap.mp hq
      exact framed_target hp h hm hc (htargets m s hm hs c hc) hpath
  · exact ⟨m.owner, rootTyped_of_call hp h hm hsite hr hq, .inl rfl⟩

end

/-! ## Closed sets of a build -/

section

variable {source : String} {checks : Checks} {b : Build} (h : build source checks = .ok b)

include h

theorem targetsWritten_of_build {p : Program} (hp : Parse.program source = .ok p) :
    TargetsWritten b.program.env p.siteCount b.plan.specs := by
  intro m s hm hs c hc
  obtain ⟨p', m', s₀, hp', hm', rfl, rfl, _⟩ := specs_of_build h hs
  obtain rfl := Except.ok.inj (hp.symm.trans hp')
  obtain rfl := Option.some.inj (hm.symm.trans hm')
  obtain ⟨own, hown, hc'⟩ := Contract.mutates_of_specification hc
  obtain ⟨id, hid, hof⟩ := Contract.mem_lineage
    (Contract.bind_fromRecords b.program.env (Clause.ofProgram p) p.siteCount).own hown
  obtain ⟨r, rfl, htag, ht⟩ := hof.mutates c hc'
  exact ⟨r, hid, htag, ht⟩

theorem framed_closure {m : MethodInfo} (hm : b.program.env.method? m.id = some m) {q : Path}
    (hq : q ∈ closure b.program.env b.plan.specs (classifyAll b.program.env b.plan.specs) m.id) :
    ∃ s, b.plan.specs.get? m.id = some s ∧ Framed b.program.env m s.effects.mutates q := by
  obtain ⟨p, env, hp, hcheck, _, _, hprog⟩ := build_eq_ok h
  have hcheck : Typing.checkProgram p = .ok b.program.env := hprog ▸ hcheck
  exact framed_closureFrom (Parse.program_wellFormed hp) hcheck hm (targetsWritten_of_build h hp) hq

end

end Effect

end Covenant
