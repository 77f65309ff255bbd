import Covenant.Contract.Placement
import Covenant.Proofs.Declared

/-!
# What a built program is made of

A source that was built has gone through the grammar, the declarations and the
typing of bodies, and its clauses through binding, inheritance and scheduling.
Each of these stages is a function, so the parts of a build are known by
equations. From them follows what stands at a point of a member: the checks that
its own specification asks for, and no others.
-/

namespace Covenant

open Contract (Snapshot)

/-! ## Sources given by their characters -/

/-- A text that is given by its characters is read from them. Closed sources are evaluated through
this: to decode a long text takes far more steps than all that is done with its characters. -/
theorem Parse.program_ofList (cs : List Char) :
    Parse.program (.ofList cs) = (do Parse.programOfTokens (← Scan.program cs)) := by
  rw [Parse.program, String.toList_ofList]

theorem build_ofList (cs : List Char) (checks : Checks) :
    build (.ofList cs) checks =
      match (do
          let p ← SourceFault.ofGrammar (do Parse.programOfTokens (← Scan.program cs))
          let env ← SourceFault.ofTyping (Typing.checkProgram p)
          return ⟨env, .ofProgram p env⟩ : Except SourceFault Analyzed) with
      | .error fault => .error (.source fault)
      | .ok ⟨env, plan⟩ =>
        if plan.errors.isEmpty then .ok ⟨plan, ⟨env, Contract.weave env plan checks⟩⟩
        else .error (.clauses plan.errors plan.notes) := by
  rw [← Parse.program_ofList]
  rfl

/-- The declarations of a program that was checked, and what the checking of bodies put in. -/
theorem Typing.checkProgram_eq_ok {p : Surface.Program} {env : Env}
    (h : Typing.checkProgram p = .ok env) :
    ∃ env₀ out sites, Env.declare p = .ok env₀ ∧
      (p.types.foldlM (Typing.checkTypeDecl env₀) {}).run [] = .ok (out, sites) ∧
      (∀ info ∈ env₀.classes.values, Typing.checkImplicitSuper env₀ out.bodies info = .ok ()) ∧
      env = { env₀ with
        bodies := env₀.bodies.insertAll out.bodies
        fieldInits := env₀.fieldInits.insertAll out.fieldInits
        callSites := Typing.siteTable sites } := by
  obtain ⟨env₀, h₀, h⟩ := bind_eq_ok.mp h
  obtain ⟨⟨out, sites⟩, hb, h⟩ := bind_eq_ok.mp h
  obtain ⟨_, hs, h⟩ := bind_eq_ok.mp h
  cases h
  exact ⟨env₀, out, sites, h₀, hb, forM_ok hs, rfl⟩

/-- The stages that a source went through which was built. -/
theorem build_eq_ok {source : String} {checks : Checks} {b : Build}
    (h : build source checks = .ok b) :
    ∃ p env, Parse.program source = .ok p ∧ Typing.checkProgram p = .ok env ∧
      b.plan = .ofProgram p env ∧ b.plan.errors = [] ∧
      b.program = ⟨env, Contract.weave env b.plan checks⟩ := by
  rw [build] at h
  split at h
  · exact absurd h (by simp)
  · next env plan ha =>
      split at h
      · next he =>
          cases h
          obtain ⟨p, hp, ha⟩ := bind_eq_ok.mp ha
          obtain ⟨env', henv, ha⟩ := bind_eq_ok.mp ha
          cases ha
          exact ⟨p, env, mapError_eq_ok.mp hp, mapError_eq_ok.mp henv, rfl, List.isEmpty_iff.mp he,
            rfl⟩
      · exact absurd h (by simp)

/-- What a build consists of, by the program that its source is parsed to. -/
theorem analysis_of_build {source : String} {checks : Checks} {b : Build}
    (h : build source checks = .ok b) {p : Surface.Program} (hp : Parse.program source = .ok p) :
    Typing.checkProgram p = .ok b.program.env ∧ b.plan = .ofProgram p b.program.env ∧
      b.program = ⟨b.program.env, Contract.weave b.program.env b.plan checks⟩ := by
  obtain ⟨p', env, hp', henv, hplan, _, hprog⟩ := build_eq_ok h
  obtain rfl := Except.ok.inj (hp.symm.trans hp')
  rw [hprog]
  exact ⟨henv, hplan, rfl⟩

theorem methodsKeyed_of_check {p : Surface.Program} {env : Env}
    (h : Typing.checkProgram p = .ok env) : env.MethodsKeyed := by
  obtain ⟨env₀, out, sites, h₀, _, _, rfl⟩ := Typing.checkProgram_eq_ok h
  exact ⟨(Env.methodsKeyed h₀).nodup, (Env.methodsKeyed h₀).id_eq⟩

theorem methodsKeyed_of_build {source : String} {checks : Checks} {b : Build}
    (h : build source checks = .ok b) : b.program.env.MethodsKeyed := by
  obtain ⟨p, env, _, henv, _, _, hb⟩ := build_eq_ok h
  rw [hb]
  exact methodsKeyed_of_check henv

/-! ## Specifications after scheduling -/

namespace Contract

theorem keys_specifications (env : Env) (decls : Table DeclId OwnClauses)
    (hn : env.methods.keys.Nodup) : (specifications env decls).keys.Nodup := by
  have hkeys : (env.methods.entries.map fun x => (x.1, specificationOf env decls x.2)).map
      (·.1) = env.methods.keys := by
    rw [List.map_map]
    rfl
  exact (hkeys ▸ hn).sublist (List.filter_sublist.map _)

theorem get?_specifications {env : Env} {decls : Table DeclId OwnClauses} {id : DeclId}
    {s : Specification} (h : (specifications env decls).get? id = some s) :
    ∃ m, (id, m) ∈ env.methods.entries ∧ s = specificationOf env decls m ∧ s.isEmpty = false := by
  have hmem := Table.mem_of_get? h
  obtain ⟨hmem, hne⟩ := List.mem_filter.mp hmem
  obtain ⟨⟨id', m⟩, hm, heq⟩ := List.mem_map.mp hmem
  cases heq
  exact ⟨m, hm, rfl, by simpa using hne⟩

theorem get?_schedule_specs (env : Env) (specs : Table DeclId Specification) (id : DeclId) :
    (schedule env specs).1.get? id = (specs.get? id).map fun s => (scheduleOne s).1 := by
  show Table.find? id ((specs.entries.map _).map _) = (Table.find? id specs.entries).map _
  rw [List.map_map]
  exact Table.find?_map (fun _ s => (scheduleOne s).1) id specs.entries

theorem get?_schedule_snapshots {env : Env} {specs : Table DeclId Specification}
    (hn : specs.keys.Nodup) (id : DeclId) :
    (schedule env specs).2.get? id = ((specs.get? id).map fun s => (scheduleOne s).2).bind
      fun slots => if slots.isEmpty then none else some ⟨snapshotPoint env id, slots⟩ := by
  have hkeys : ((specs.entries.map fun x => (x.1, scheduleOne x.2)).map (·.1)).Nodup := by
    rw [List.map_map]
    exact hn
  refine (Table.find?_map (fun id (x : Specification × List Typed.Expr) =>
    (⟨snapshotPoint env id, x.2⟩ : Snapshot)) id _).trans ?_
  rw [Table.find?_filter hkeys, Table.find?_map (fun _ s => scheduleOne s)]
  show _ = ((Table.find? id specs.entries).map _).bind _
  cases Table.find? id specs.entries with
  | none => rfl
  | some s =>
      cases hs : (scheduleOne s).2 with
      | nil => simp [Option.filter, hs]
      | cons e es => simp [Option.filter, hs]

theorem keys_schedule (env : Env) (specs : Table DeclId Specification) :
    (schedule env specs).1.keys = specs.keys := by
  show ((specs.entries.map _).map _).map _ = _
  rw [List.map_map, List.map_map]
  rfl

end Contract

/-! ## What stands at a point -/

theorem nodup_keys_specs {source : String} {checks : Checks} {b : Build}
    (h : build source checks = .ok b) : b.plan.specs.keys.Nodup := by
  obtain ⟨p, env, _, henv, hplan, _, hprog⟩ := build_eq_ok h
  have hn := (methodsKeyed_of_build h).nodup
  rw [hprog] at hn
  rw [hplan]
  show (Contract.schedule env (Contract.specifications env _)).1.keys.Nodup
  rw [Contract.keys_schedule]
  exact Contract.keys_specifications env _ hn

/-- A specification of a build is what inheritance makes of the clauses of a member, scheduled. -/
theorem specs_of_build {source : String} {checks : Checks} {b : Build}
    (h : build source checks = .ok b) {id : DeclId} {s : Specification}
    (hs : b.plan.specs.get? id = some s) :
    ∃ p m s₀, Parse.program source = .ok p ∧ b.program.env.method? id = some m ∧
      s₀ = Contract.specificationOf b.program.env
        (Contract.bind b.program.env (Clause.ofProgram p) p.siteCount).decls m ∧
      s = (Contract.scheduleOne s₀).1 ∧
      b.plan.snapshots.get? id = if (Contract.scheduleOne s₀).2.isEmpty then none
        else some ⟨Contract.snapshotPoint b.program.env id, (Contract.scheduleOne s₀).2⟩ := by
  have hn := (methodsKeyed_of_build h).nodup
  obtain ⟨p, env, hp, _, hplan, _, hprog⟩ := build_eq_ok h
  have henv : b.program.env = env := by rw [hprog]
  rw [henv] at hn ⊢
  rw [hplan] at hs ⊢
  change (Contract.schedule env (Contract.specifications env _)).1.get? id = some s at hs
  rw [Contract.get?_schedule_specs, Option.map_eq_some_iff] at hs
  obtain ⟨s₀, hs₀, rfl⟩ := hs
  obtain ⟨m, hm, rfl, _⟩ := Contract.get?_specifications hs₀
  refine ⟨p, m, _, hp, Table.get?_of_mem hn hm, rfl, rfl, ?_⟩
  show (Contract.schedule env (Contract.specifications env _)).2.get? id = _
  rw [Contract.get?_schedule_snapshots (Contract.keys_specifications env _ hn), hs₀]
  rfl

/-- At its entry and its exits a member meets the checks of its own specification. -/
theorem codesAt_weave {env : Env} {plan : ContractPlan} (hn : plan.specs.keys.Nodup)
    (checks : Checks) (id : DeclId) {point : ProgramPoint} (hp : ∀ site, point ≠ .afterCall site) :
    (WovenProgram.mk env (Contract.weave env plan checks)).codesAt id point =
      (plan.specs.get? id).elim [] fun s =>
        ((Contract.memberCodes checks ((env.method? id).any (·.isConstructor)) s
          (plan.snapshots.get? id)).filter (·.1 == point)).map (·.2) := by
  rw [WovenProgram.codesAt, Contract.weave, List.filter_append]
  have sites : (if checks.invariants then
      env.callSites.values.flatMap (Contract.siteCodes env plan) else []).filter
        (fun c => c.decl == id && c.point == point) = [] := by
    refine List.filter_eq_nil_iff.mpr fun c hc => ?_
    split at hc
    · obtain ⟨site, _, hc⟩ := List.mem_flatMap.mp hc
      rw [Contract.siteCodes] at hc
      split at hc
      · exact absurd hc List.not_mem_nil
      · obtain rfl := List.mem_singleton.mp hc
        simp [(hp site.id).symm]
    · exact absurd hc List.not_mem_nil
  rw [sites, List.append_nil, Table.filter_flatMap_entries hn id]
  · cases plan.specs.get? id with
    | none => rfl
    | some s =>
        simp only [Option.elim, Contract.specCodes, List.filter_map, List.map_map]
        congr 1
        refine List.filter_congr fun c _ => ?_
        simp
  · rintro ⟨id', s⟩ _ hne c hc
    obtain ⟨x, _, rfl⟩ := List.mem_map.mp hc
    simp [hne]

theorem codesAt_of_build {source : String} {checks : Checks} {b : Build}
    (h : build source checks = .ok b) (id : DeclId) {point : ProgramPoint}
    (hp : ∀ site, point ≠ .afterCall site) :
    b.program.codesAt id point = (b.plan.specs.get? id).elim [] fun s =>
      ((Contract.memberCodes checks ((b.program.env.method? id).any (·.isConstructor)) s
        (b.plan.snapshots.get? id)).filter (·.1 == point)).map (·.2) := by
  have hn := nodup_keys_specs h
  obtain ⟨_, _, _, _, _, _, hprog⟩ := build_eq_ok h
  rw [hprog]
  exact codesAt_weave hn checks id hp

theorem Contract.listIf_true {α : Type} (x : α) : Contract.listIf true x = [x] := rfl

theorem Contract.listIf_false {α : Type} (x : α) : Contract.listIf false x = [] := rfl

section

variable (checks : Checks) (isConstructor : Bool) (s : Specification)
  (snapshot : Option Snapshot)

/-- The entry checks of a member carry the point of entry, all others another one. -/
theorem filter_entryCodes (point : ProgramPoint) :
    (((Contract.entryCodes checks isConstructor s snapshot).map fun c =>
      (ProgramPoint.entry, c)).filter (·.1 == point)).map (·.2) =
        if point = .entry then Contract.entryCodes checks isConstructor s snapshot else [] := by
  rw [List.filter_map, List.map_map]
  split
  · next h => simp [h, Function.comp_def]
  · next h => simp [Ne.symm h, Function.comp_def]

theorem memberCodes_entry :
    ((Contract.memberCodes checks isConstructor s snapshot).filter (·.1 == .entry)).map (·.2) =
      Contract.entryCodes checks isConstructor s snapshot := by
  simp only [Contract.memberCodes, List.filter_append, List.map_append]
  rw [filter_entryCodes]
  cases checks.postconditions && !s.postconditions.isEmpty <;>
    cases checks.exceptional && !s.throws.isEmpty <;>
    simp [Contract.listIf_true, Contract.listIf_false]

theorem memberCodes_normalExit :
    ((Contract.memberCodes checks isConstructor s snapshot).filter (·.1 == .normalExit)).map
        (·.2) =
      Contract.listIf (checks.postconditions && !s.postconditions.isEmpty)
          (.postcondition s.postconditions)
        ++ Contract.listIf (checks.exceptional && !s.throws.isEmpty) (Contract.throwsCode s) := by
  simp only [Contract.memberCodes, List.filter_append, List.map_append]
  rw [filter_entryCodes]
  cases checks.postconditions && !s.postconditions.isEmpty <;>
    cases checks.exceptional && !s.throws.isEmpty <;>
    simp [Contract.listIf_true, Contract.listIf_false]

theorem memberCodes_exceptionalExit :
    ((Contract.memberCodes checks isConstructor s snapshot).filter
        (·.1 == .exceptionalExit)).map (·.2) =
      Contract.listIf (checks.exceptional && !s.throws.isEmpty) (Contract.throwsCode s) := by
  simp only [Contract.memberCodes, List.filter_append, List.map_append]
  rw [filter_entryCodes]
  cases checks.postconditions && !s.postconditions.isEmpty <;>
    cases checks.exceptional && !s.throws.isEmpty <;>
    simp [Contract.listIf_true, Contract.listIf_false]

end

end Covenant
