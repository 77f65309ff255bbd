import Covenant.Proofs.CallChains
import Covenant.Proofs.CallSites
import Covenant.Proofs.CheckedMembers

/-!
# Notes on what closed sets miss

Where a licensed call leads to a member that declares nothing, the closed set gets
nothing from it and a note is reported. The notes come from a pass of their own over
all calls, which shares nothing with the collection of closed sets. `trace` collects
a closed set together with the calls that are followed on the way and what each of
them adds. So what the notes have to be about can be said of the collection itself:
the calls in the traces of declared members whose callees declare nothing.
-/

namespace Covenant

namespace Effect

/-- A licensed call that is followed for a closed set, and what it adds. -/
structure Followed where
  site : CallSite
  added : List Path

section

variable (env : Env) (specs : Table DeclId Specification) (classes : Table DeclId EffectClass)

/-- What a call of a member adds to its closed set and the calls that are followed for that, given
the closed set of the callee and the calls that are followed for it. -/
def follow (m : MethodInfo) (s : Specification) (site : CallSite)
    (callee : List Path × List Followed) : List Path × List Followed :=
  match licensedReceiver? m s site with
  | some receiver =>
    let added := callTargets m site receiver callee.1
    (added, ⟨site, added⟩ :: callee.2)
  | none => ([], [])

/-- The closed set of a member, where those of `visiting` add nothing, and the calls that are
followed for it. -/
def traceFrom : Nat → List DeclId → DeclId → List Path × List Followed
  | 0, _, _ => ([], [])
  | n + 1, visiting, id =>
    if classOf classes id != .declared || visiting.contains id then ([], [])
    else
      match specs.get? id, env.method? id with
      | some s, some m =>
        let calls := (env.callSitesOf id).map fun site =>
          follow m s site (traceFrom n (id :: visiting) site.callee)
        (firsts Path.same (ownTargets m s ++ calls.flatMap (·.1)), calls.flatMap (·.2))
      | _, _ => ([], [])

/-- The closed set of a member and the calls that are followed for it. -/
def trace (id : DeclId) : List Path × List Followed :=
  traceFrom env specs classes (env.methods.size + 1) [] id

/-- A call that is followed for a closed set: a licensed one of a declared member. It adds nothing
if its callee declares nothing. -/
structure Followed.Correct (f : Followed) : Prop where
  caller : classOf classes f.site.caller = .declared
  licensed : ∃ m receiver, LicensedCall env specs m f.site.caller f.site receiver
  added : classOf classes f.site.callee = .unconstrained → f.added = []

end

section

variable {env : Env} {specs : Table DeclId Specification} {classes : Table DeclId EffectClass}
  {n : Nat} {visiting : List DeclId} {id : DeclId} {m : MethodInfo} {s : Specification}

/-- The trace has the closed set. -/
theorem traceFrom_fst :
    (traceFrom env specs classes n visiting id).1 = closureFrom env specs classes n visiting id := by
  induction n generalizing visiting id with
  | zero => rfl
  | succ n ih =>
      rw [traceFrom, closureFrom]
      split
      · rfl
      · cases specs.get? id with
        | none => rfl
        | some s =>
            cases env.method? id with
            | none => rfl
            | some m =>
                refine congrArg (fun called => firsts Path.same (ownTargets m s ++ called)) ?_
                rw [List.flatMap_map]
                refine List.flatMap_congr fun site _ => ?_
                rw [follow]
                cases licensedReceiver? m s site with
                | none => rfl
                | some receiver => exact congrArg (callTargets m site receiver) ih

theorem trace_fst (id : DeclId) :
    (trace env specs classes id).1 = closure env specs classes id := traceFrom_fst

theorem traceFrom_succ (hid : classOf classes id = .declared) (hnew : id ∉ visiting)
    (hm : env.method? id = some m) (hs : specs.get? id = some s) :
    (traceFrom env specs classes (n + 1) visiting id).2 =
      (env.callSitesOf id).flatMap fun site =>
        (follow m s site (traceFrom env specs classes n (id :: visiting) site.callee)).2 := by
  have hopen : ¬(classOf classes id != .declared || visiting.contains id) = true := by
    simp [hid, hnew]
  rw [traceFrom, if_neg hopen, hs, hm]
  simp only [List.flatMap_map]

theorem mem_callSitesOf {site : CallSite} :
    site ∈ env.callSitesOf id ↔ site ∈ env.callSites.values ∧ site.caller = id := by
  rw [Env.callSitesOf, List.mem_filter, beq_iff_eq]

/-- Nothing is collected for a member that is not declared. -/
theorem traceFrom_of_ne (hid : classOf classes id ≠ .declared) :
    traceFrom env specs classes n visiting id = ([], []) := by
  cases n with
  | zero => rfl
  | succ n => rw [traceFrom, if_pos (by simp [hid])]

theorem correct_of_mem {f : Followed} (hf : f ∈ (traceFrom env specs classes n visiting id).2) :
    f.Correct env specs classes := by
  induction n generalizing visiting id with
  | zero => exact absurd hf List.not_mem_nil
  | succ n ih =>
      rw [traceFrom] at hf
      split at hf
      · exact absurd hf List.not_mem_nil
      · next hopen =>
          have hid : classOf classes id = .declared := by
            rw [Bool.or_eq_true, bne_iff_ne, not_or, not_not] at hopen
            exact hopen.1
          split at hf
          · next s m hs hm =>
              obtain ⟨x, hx, hf⟩ := List.mem_flatMap.mp hf
              obtain ⟨site, hsite, rfl⟩ := List.mem_map.mp hx
              obtain ⟨_, rfl⟩ := mem_callSitesOf.mp hsite
              rw [follow] at hf
              split at hf
              · next receiver hr =>
                  rcases List.mem_cons.mp hf with rfl | hf
                  · obtain ⟨hkind, hobject, hlicence⟩ := licensedReceiver?_eq_some.mp hr
                    refine ⟨hid, ⟨m, receiver, hm, hsite, hkind, hobject, s, hs, hlicence⟩,
                      fun hcallee => ?_⟩
                    rw [traceFrom_of_ne (by simp [hcallee])]
                    rfl
                  · exact ih hf
              · exact absurd hf List.not_mem_nil
          · exact absurd hf List.not_mem_nil

/-- A licensed call of a declared member is followed for its closed set. -/
theorem followed_of_licensedCall {site : CallSite} {receiver : Path}
    (hid : classOf classes id = .declared) (h : LicensedCall env specs m id site receiver) :
    ∃ f ∈ (trace env specs classes id).2, f.site = site := by
  obtain ⟨s, hs, hlicence⟩ := h.licence
  have hr : licensedReceiver? m s site = some receiver :=
    licensedReceiver?_eq_some.mpr ⟨h.method, h.object, hlicence⟩
  rw [trace, traceFrom_succ hid List.not_mem_nil h.member hs]
  have hfollowed := List.mem_cons_self (a := (⟨site, callTargets m site receiver
    (traceFrom env specs classes env.methods.size [id] site.callee).1⟩ : Followed))
    (l := (traceFrom env specs classes env.methods.size [id] site.callee).2)
  exact ⟨_, List.mem_flatMap.mpr ⟨site, h.inBody, by rw [follow, hr]; exact hfollowed⟩, rfl⟩

/-- What the pass over all calls looks for. -/
theorem isGap_iff {site : CallSite} (hsite : site ∈ env.callSites.values) :
    isGap env specs classes site = true ↔
      classOf classes site.callee = .unconstrained ∧ classOf classes site.caller = .declared ∧
      ∃ m receiver, LicensedCall env specs m site.caller site receiver := by
  rw [isGap]
  constructor
  · intro h
    obtain ⟨hfront, h⟩ := Bool.and_eq_true_iff.mp h
    obtain ⟨hkind, hcallee⟩ := Bool.and_eq_true_iff.mp hfront
    split at h
    · cases h
    · next e he =>
        obtain ⟨hcaller, h⟩ := Bool.and_eq_true_iff.mp h
        obtain ⟨m, hm, h⟩ := (Option.any_eq_true _ _).mp h
        obtain ⟨s, hs, h⟩ := (Option.any_eq_true _ _).mp h
        obtain ⟨p, hp, h⟩ := List.any_eq_true.mp h
        obtain ⟨c, hc, hp⟩ := List.mem_filterMap.mp hp
        obtain ⟨receiver, hreceiver, hcovers⟩ := (Option.any_eq_true _ _).mp h
        exact ⟨beq_iff_eq.mp hcallee, beq_iff_eq.mp hcaller, m, receiver, hm,
          mem_callSitesOf.mpr ⟨hsite, rfl⟩, of_decide_eq_true hkind, ⟨e, he, hreceiver⟩,
          s, hs, c, hc, p, hp, hcovers⟩
  · rintro ⟨hcallee, hcaller, m, receiver, h⟩
    obtain ⟨e, he, hreceiver⟩ := h.object
    obtain ⟨s, hs, c, hc, p, hp, hcovers⟩ := h.licence
    have hlicence : (paths s.effects.mutatesProperties).any
        (fun licence => (Path.of? m.params e).any licence.dominates) = true :=
      List.any_eq_true.mpr ⟨p, List.mem_filterMap.mpr ⟨c, hc, hp⟩,
        (Option.any_eq_true _ _).mpr ⟨receiver, hreceiver, hcovers⟩⟩
    simp [h.method, hcallee, hcaller, he, h.member, hs, hlicence]

end

end Effect

open Effect

/-- The calls of a program are kept in their order. -/
theorem ordered_callSites {source : String} {p : Surface.Program} {env : Env}
    (hp : Parse.program source = .ok p) (h : Typing.checkProgram p = .ok env) :
    env.callSites.values.Pairwise (·.id < ·.id) := by
  obtain ⟨_, hkeys⟩ := Typing.nodup_callSites (Parse.program_wellFormed hp) h
  have hids : env.callSites.values.map (·.id) = List.range p.siteCount := by
    rw [← Typing.keys_callSites hp h, Table.values, Table.keys, List.map_map]
    exact List.map_congr_left fun x hx => (hkeys x hx).symm
  exact List.pairwise_map.mp (hids ▸ List.pairwise_lt_range)

/-- For a program that is read and checked the notes are about the calls that are followed for the
closed set of some declared member and whose callees declare nothing: there is one note for each of
these calls, in the order of the calls, at the call and with the name of the callee. Such a call is
a licensed call of a declared member, and it adds nothing to any closed set. -/
theorem gap_notes {source : String} {a : Analyzed} (h : analyze source = .ok a) :
    (∃ sites : List CallSite,
      a.plan.notes = sites.map (fun site => ⟨"`" ++ a.env.describe site.callee ++
        "` declares no effects; invariants of objects enclosing its receiver are not re-verified",
        site.span⟩) ∧
      sites.Pairwise (·.id < ·.id) ∧
      ∀ site, site ∈ sites ↔
        a.plan.effects.classOf site.callee = .unconstrained ∧ ∃ id,
          a.plan.effects.classOf id = .declared ∧
          ∃ f ∈ (trace a.env a.plan.specs a.plan.effects.classes id).2, f.site = site) ∧
    ∀ id, a.plan.effects.classOf id = .declared →
      a.plan.effects.closures.get? id =
        some (trace a.env a.plan.specs a.plan.effects.classes id).1 ∧
      ∀ f ∈ (trace a.env a.plan.specs a.plan.effects.classes id).2,
        f.Correct a.env a.plan.specs a.plan.effects.classes := by
  obtain ⟨p, hp, h⟩ := bind_eq_ok.mp h
  obtain ⟨env, henv, h⟩ := bind_eq_ok.mp h
  cases h
  replace hp := mapError_eq_ok.mp hp
  replace henv := mapError_eq_ok.mp henv
  refine ⟨⟨env.callSites.values.filter (isGap env _ _), rfl,
    (ordered_callSites hp henv).sublist List.filter_sublist, fun site => ?_⟩, fun id hid =>
    ⟨?_, fun f => correct_of_mem⟩⟩
  · rw [List.mem_filter]
    constructor
    · rintro ⟨hsite, hgap⟩
      obtain ⟨hcallee, hcaller, m, receiver, hcall⟩ := (isGap_iff hsite).mp hgap
      exact ⟨hcallee, site.caller, hcaller, followed_of_licensedCall hcaller hcall⟩
    · rintro ⟨hcallee, id, _, f, hf, rfl⟩
      have hcorrect := correct_of_mem hf
      obtain ⟨_, _, hcall⟩ := hcorrect.licensed
      have hsite := (mem_callSitesOf.mp hcall.inBody).1
      exact ⟨hsite, (isGap_iff hsite).mpr ⟨hcallee, hcorrect.caller, hcorrect.licensed⟩⟩
  · rw [trace_fst]
    exact get?_closures (methodsKeyed_of_check henv).nodup hid

/-- A method that licenses two calls of one that declares nothing, and is called by another one that
licenses the call. -/
def storeSource : String :=
  "class Cell \x7b int value; void set(int n) \x7b value = n; \x7d \x7d
   class Store \x7b
     Cell cell = new Cell();
     /** @mutates_properties | this */
     void put(int n) \x7b cell.set(n); cell.set(n); \x7d
     /** @mutates_properties | this */
     void twice(int n) \x7b put(n); put(n); \x7d
   \x7d"

def storeCheck : Option Bool := do
  let a ← (analyze storeSource).toOption
  let traced := (trace a.env a.plan.specs a.plan.effects.classes 6).2
  return a.plan.notes.length == 2 && traced.map (·.site.id) == [3, 1, 2, 4, 1, 2]

/-- The two calls are noted once each, though they are followed four times for the caller of the
method. -/
theorem gap_notes_store : ∃ a, analyze storeSource = .ok a ∧
    (trace a.env a.plan.specs a.plan.effects.classes 6).2.map (·.site.id) = [3, 1, 2, 4, 1, 2] ∧
    ∃ sites : List CallSite, sites.length = 2 ∧ sites.Pairwise (·.id < ·.id) ∧
      ∀ site, site ∈ sites ↔
        a.plan.effects.classOf site.callee = .unconstrained ∧ ∃ id,
          a.plan.effects.classOf id = .declared ∧
          ∃ f ∈ (trace a.env a.plan.specs a.plan.effects.classes id).2, f.site = site := by
  have h : storeCheck = some true := by
    set_option maxRecDepth 20000 in
    rw [storeCheck, show storeSource = String.ofList _ from rfl, analyze, Parse.program_ofList]
    decide +kernel
  simp only [storeCheck, Option.bind_eq_bind, Option.bind_eq_some_iff] at h
  obtain ⟨a, ha, h⟩ := h
  simp only [Option.pure_def, Option.some.injEq, Bool.and_eq_true, beq_iff_eq] at h
  obtain ⟨⟨sites, hnotes, hordered, hsites⟩, _⟩ := gap_notes (ok_of_toOption ha)
  exact ⟨a, ok_of_toOption ha, h.2, sites, by rw [← h.1, hnotes, List.length_map], hordered,
    hsites⟩

end Covenant
