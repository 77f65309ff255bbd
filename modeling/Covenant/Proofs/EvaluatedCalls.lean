import Covenant.Proofs.CallChecks
import Covenant.Proofs.CheckedMembers
import Covenant.Proofs.ClauseTerms
import Covenant.Proofs.OldValues

/-!
# Where calls are evaluated

The checks behind a call are placed under its number and the declaration that it
was written in, and they are looked up under its number and the declaration of the
frame that it is evaluated in. These are the same declaration, since all that
begins in a run begins in its place: parts of bodies and of first values in frames
of the declaration that they stand in. Clauses are evaluated in frames of various
declarations, but no checks are placed under the numbers of their calls.
-/

namespace Covenant

/-! ## Calls that begin -/

theorem Typed.Expr.exists_callSite {e : Typed.Expr} {i : SiteId} (h : e.site? = some i)
    (decl : DeclId) : ∃ c, e.callSite? decl = some c ∧ c.id = i := by
  cases e with
  | call | new =>
      cases h
      exact ⟨_, rfl, rfl⟩
  | _ => cases h

/-- The number of the call that begins. -/
def Task.site? : Task → Option SiteId
  | .expr e => e.site?
  | .stmt (.superCall _ site _ _) => some site
  | .stmt _ | .check _ | .enter | .leave => none

/-- Whether what begins is a part of the body or the first value of a declaration. -/
def Env.Contains (env : Env) (decl : DeclId) : Task → Prop
  | .expr e => e ∈ env.partsOf decl
  | .stmt s => s ∈ env.stmtsOf decl
  | .check _ | .enter | .leave => False

/-- A call that stands in a declaration is in the table, with this declaration. -/
theorem Typing.callSite_of_contains {p : Surface.Program} (hp : p.WellFormed) {env : Env}
    (h : checkProgram p = .ok env) {decl : DeclId} {w : Task} (hw : env.Contains decl w)
    {i : SiteId} (hi : w.site? = some i) :
    ∃ c, env.callSites.get? i = some c ∧ c.id = i ∧ c.caller = decl ∧
      ∀ s, w = .stmt s → c.kind = .super := by
  cases w with
  | expr e =>
      obtain ⟨c, hc, rfl⟩ := Typed.Expr.exists_callSite hi decl
      exact ⟨c, callSite_of_part hp h hw hc, rfl, Typed.Expr.caller_of_callSite hc,
        fun _ hs => by cases hs⟩
  | stmt s =>
      cases s with
      | superCall span site ctor args =>
          cases hi
          obtain ⟨_, hc⟩ := callSite_of_superCall hp h hw
          exact ⟨_, hc, rfl, rfl, fun _ _ => rfl⟩
      | _ => cases hi
  | _ => exact hw.elim

/-! ## Checks behind calls -/

namespace Contract

variable {env : Env} {plan : ContractPlan} {checks : Checks} {x : PlacedCheck} {i : SiteId}

theorem mem_siteCodes {c : CallSite} (h : x ∈ siteCodes env plan c) :
    x.decl = c.caller ∧ x.point = .afterCall c.id ∧ siteObligations env plan c ≠ [] := by
  rw [siteCodes] at h
  split at h
  · exact absurd h List.not_mem_nil
  · next hne =>
      obtain rfl := List.mem_singleton.mp h
      exact ⟨rfl, rfl, hne⟩

/-- What stands behind a call was placed for a call of the table. -/
theorem mem_weave_afterCall (h : x ∈ weave env plan checks) (hi : x.point = .afterCall i) :
    ∃ c ∈ env.callSites.values, x ∈ siteCodes env plan c := by
  rcases List.mem_append.mp h with h | h
  · obtain ⟨_, _, h⟩ := List.mem_flatMap.mp h
    obtain ⟨code, hcode, rfl⟩ := List.mem_map.mp h
    exact absurd hi (memberCodes_point code hcode)
  · split at h
    · exact List.mem_flatMap.mp h
    · exact absurd h List.not_mem_nil

end Contract

/-- The checks behind a call, in whatever declaration they were placed. -/
def WovenProgram.codesBehind (p : WovenProgram) (site : SiteId) : List CheckCode :=
  (p.checks.filter (·.point == .afterCall site)).map (·.code)

theorem WovenProgram.codesBehind_eq_nil {p : WovenProgram} {i : SiteId}
    (h : ∀ x ∈ p.checks, x.point ≠ .afterCall i) : p.codesBehind i = [] :=
  List.map_eq_nil_iff.mpr (List.filter_eq_nil_iff.mpr fun x hx => by simpa using h x hx)

theorem WovenProgram.codesAt_eq_nil {p : WovenProgram} {i : SiteId} (h : p.codesBehind i = [])
    (decl : DeclId) : p.codesAt decl (.afterCall i) = [] := by
  have hnone := List.filter_eq_nil_iff.mp (List.map_eq_nil_iff.mp h)
  exact List.map_eq_nil_iff.mpr (List.filter_eq_nil_iff.mpr fun x hx => by simp_all)

section

variable {source : String} {checks : Checks} {b : Build} (h : build source checks = .ok b)

include h

/-- The table has a call under its number. -/
theorem get?_callSite {c : CallSite} (hc : c ∈ b.program.env.callSites.values) :
    b.program.env.callSites.get? c.id = some c := by
  obtain ⟨p, hp, hcheck⟩ := checkProgram_of_build h
  obtain ⟨hnodup, hkeys⟩ := Typing.nodup_callSites hp hcheck
  obtain ⟨⟨k, c⟩, hentry, rfl⟩ := List.mem_map.mp hc
  obtain rfl : k = c.id := hkeys _ hentry
  exact Table.get?_of_mem hnodup hentry

/-- What stands behind a call was placed for the entry that the table has for the call, also if the
checks are placed for other contracts. -/
theorem mem_weave_callSite {plan : ContractPlan} {checks : Checks} {x : PlacedCheck}
    (hx : x ∈ Contract.weave b.program.env plan checks) {i : SiteId} (hi : x.point = .afterCall i) :
    ∃ c, b.program.env.callSites.get? i = some c ∧ x ∈ Contract.siteCodes b.program.env plan c := by
  obtain ⟨c, hc, hx⟩ := Contract.mem_weave_afterCall hx hi
  obtain ⟨_, hpoint, _⟩ := Contract.mem_siteCodes hx
  obtain rfl := ProgramPoint.afterCall.inj (hi.symm.trans hpoint)
  exact ⟨c, get?_callSite h hc, hx⟩

theorem mem_checks_afterCall {x : PlacedCheck} (hx : x ∈ b.program.checks) {i : SiteId}
    (hi : x.point = .afterCall i) :
    ∃ c, b.program.env.callSites.get? i = some c ∧
      x ∈ Contract.siteCodes b.program.env b.plan c := by
  obtain ⟨_, _, _, _, _, _, hprogram⟩ := build_eq_ok h
  have henv : b.program.checks = Contract.weave b.program.env b.plan checks := by rw [hprogram]
  exact mem_weave_callSite h (henv ▸ hx) hi

/-- The declaration of a call has all the checks behind it. -/
theorem codesAt_caller {i : SiteId} {c : CallSite}
    (hc : b.program.env.callSites.get? i = some c) :
    b.program.codesAt c.caller (.afterCall i) = b.program.codesBehind i := by
  rw [WovenProgram.codesAt, WovenProgram.codesBehind]
  congr 1
  refine List.filter_congr fun x hx => ?_
  cases hpoint : x.point == .afterCall i with
  | false => rw [Bool.and_false]
  | true =>
      obtain ⟨c', hc', hx⟩ := mem_checks_afterCall h hx (eq_of_beq hpoint)
      obtain rfl := Option.some.inj (hc'.symm.trans hc)
      simp [(Contract.mem_siteCodes hx).1]

/-- There are no checks behind the call of a superclass constructor. -/
theorem codesBehind_super {i : SiteId} {c : CallSite}
    (hc : b.program.env.callSites.get? i = some c) (hk : c.kind = .super) :
    b.program.codesBehind i = [] := by
  refine WovenProgram.codesBehind_eq_nil fun x hx hpoint => ?_
  obtain ⟨c', hc', hx⟩ := mem_checks_afterCall h hx hpoint
  obtain rfl := Option.some.inj (hc'.symm.trans hc)
  refine (Contract.mem_siteCodes hx).2.2 ?_
  rw [Contract.siteObligations, hk]

/-- No checks stand behind the calls of clauses. -/
theorem codesBehind_fresh {p : Surface.Program} (hp : Parse.program source = .ok p) {i : SiteId}
    (hi : p.siteCount ≤ i) : b.program.codesBehind i = [] := by
  obtain ⟨hcheck, _, _⟩ := analysis_of_build h hp
  refine WovenProgram.codesBehind_eq_nil fun x hx hpoint => ?_
  obtain ⟨c, hc, _⟩ := mem_checks_afterCall h hx hpoint
  exact absurd (Typing.callSite_lt hp hcheck hc) (Nat.not_lt.mpr hi)

/-! ## Calls in runs -/

variable {p : Surface.Program} (hp : Parse.program source = .ok p)

include hp

/-- What begins where it has a place is a part of its declaration or of a clause. The calls of
clauses are not in the table. -/
theorem contains_or_fresh {decl : DeclId} {w : Task} (hw : b.program.Places decl w) {i : SiteId}
    (hi : w.site? = some i) : b.program.env.Contains decl w ∨ p.siteCount ≤ i := by
  cases w with
  | expr e =>
      refine hw.imp id fun ⟨x, hx, he⟩ => ?_
      exact evaluates_from h hp hx he hi
  | stmt s => exact .inl hw
  | _ => cases hi

/-- A call begins in frames of one declaration only, which has all the checks behind it. -/
theorem codesAt_of_place {decl : DeclId} {w : Task} (hw : b.program.Places decl w) {i : SiteId}
    (hi : w.site? = some i) :
    (∀ d, b.program.env.Contains d w → decl = d) ∧
      b.program.codesAt decl (.afterCall i) = b.program.codesBehind i := by
  obtain ⟨hcheck, _, _⟩ := analysis_of_build h hp
  have hwf := Parse.program_wellFormed hp
  rcases contains_or_fresh h hp hw hi with hw | hle
  · obtain ⟨c, hc, _, rfl, _⟩ := Typing.callSite_of_contains hwf hcheck hw hi
    refine ⟨fun d hd => ?_, codesAt_caller h hc⟩
    obtain ⟨c', hc', _, rfl, _⟩ := Typing.callSite_of_contains hwf hcheck hd hi
    rw [Option.some.inj (hc.symm.trans hc')]
  · have hnone := codesBehind_fresh h hp hle
    refine ⟨fun d hd => ?_, by rw [hnone, WovenProgram.codesAt_eq_nil hnone]⟩
    obtain ⟨c, hc, _⟩ := Typing.callSite_of_contains hwf hcheck hd hi
    exact absurd (Typing.callSite_lt hp hcheck hc) (Nat.not_lt.mpr hle)

end

/-- The table of a program has one entry for each number that the parser gave a call. The entry of a
call or a creation in a body or a first value shows it as it stands there, with the declaration, and
so does the entry of the call of a superclass constructor. In every run of what is built from the
program such a call begins only in frames of its declaration, and there all checks are found that
stand behind it; those of superclass constructors have none. In no frame are any found behind a call
that stands in a clause. -/
theorem calls_agree {source : String} {p : Surface.Program} (hp : Parse.program source = .ok p)
    {env : Env} (henv : Typing.checkProgram p = .ok env) :
    env.callSites.keys = List.range p.siteCount ∧
    (∀ decl, ∀ e ∈ env.partsOf decl, ∀ c, e.callSite? decl = some c →
      env.callSites.get? c.id = some c) ∧
    (∀ decl span site ctor args, .superCall span site ctor args ∈ env.stmtsOf decl →
      ∃ className, env.callSites.get? site =
        some ⟨site, decl, ctor, .super, some (.this span className), args, span⟩) ∧
    ∀ checks b, build source checks = .ok b → b.program.env = env ∧
      (∀ limit bound entry μ, ∀ m ∈ b.program.moments limit bound entry μ,
        ∀ w i, m.begun = some w → w.site? = some i → ∃ f rest, m.frames = f :: rest ∧
          (∀ decl, env.Contains decl w → f.decl = decl) ∧
          b.program.codesAt f.decl (.afterCall i) = b.program.codesBehind i ∧
          ∀ s, w = .stmt s → b.program.codesBehind i = []) ∧
      ∀ decl x, b.program.Evaluates decl x → ∀ e ∈ x.parts, ∀ i, e.site? = some i →
        ∀ d, b.program.codesAt d (.afterCall i) = [] := by
  have hwf := Parse.program_wellFormed hp
  refine ⟨Typing.keys_callSites hp henv, fun _ _ he _ => Typing.callSite_of_part hwf henv he,
    fun _ _ _ _ _ => Typing.callSite_of_superCall hwf henv, fun checks b h => ?_⟩
  obtain ⟨hcheck, _, _⟩ := analysis_of_build h hp
  obtain rfl := Except.ok.inj (henv.symm.trans hcheck)
  refine ⟨rfl, fun limit bound entry μ m hm w i hw hi => ?_, fun decl x hx e he i hi d => ?_⟩
  · obtain ⟨f, rest, hframes, hplace⟩ := (b.program.journey limit bound entry).placed m hm w hw
    obtain ⟨honly, hcodes⟩ := codesAt_of_place h hp hplace hi
    refine ⟨f, rest, hframes, honly, hcodes, fun s hs => ?_⟩
    subst hs
    have hstands : b.program.env.Contains f.decl (.stmt s) := hplace
    obtain ⟨c, hc, _, _, hkind⟩ := Typing.callSite_of_contains hwf hcheck hstands hi
    exact codesBehind_super h hc (hkind s rfl)
  · have hle := evaluates_from h hp hx he hi
    exact WovenProgram.codesAt_eq_nil (codesBehind_fresh h hp hle) d

/-- Calls in a first value, in the arguments of a superclass constructor and in an invariant. -/
def boxesSource : String :=
  "/** @invar | fits(n) */
  class Base {
    int n;
    Base(int k) { n = k; }
    static boolean fits(int k) { return k >= 0; }
  }
  class Box extends Base {
    int width = twice(2);
    Box() { super(twice(1)); }
    static int twice(int k) { return k + k; }
  }
  class Main { static int main() { Base box = new Box(); return box.n; } }"

/-- The number of the call that begins at a moment. -/
def Moment.site? (m : Moment) : Option SiteId := m.begun.bind Task.site?

/-- Evaluates what is said of `boxesSource`. -/
def boxesCheck : Option Bool := do
  let p ← (Parse.program boxesSource).toOption
  let b ← (build boxesSource {}).toOption
  let m ← (b.program.moments 4 8 "Main.main" .initial).find? fun m => m.site? == some 3
  let e ← (b.program.env.partsOf 5).find? fun e => e.site? == some 0
  let check ← b.program.checks.find? fun c => !c.code.obligations.isEmpty
  let o ← check.code.obligations.head?
  let call ← o.clause.expr.parts.find? fun e => e.site? == some 4
  return decide (p.siteCount = 4 ∧ b.program.codesBehind 3 ≠ [] ∧
    (b.program.moments 4 8 "Main.main" .initial).filterMap Moment.site? = [3, 1, 2, 0, 4] ∧
    m.site? = some 3 ∧ e.site? = some 0 ∧ call.site? = some 4 ∧ o.clause.origin = 0)

/-- The creation of a box begins where its checks are found. The call in the first value of a field
is in the table under the field, and the one in the invariant is not in the table. -/
theorem calls_agree_boxes :
    ∃ (b : Build) (m : Moment) (f : Frame) (rest : List Frame) (c : CallSite) (x call : Typed.Expr),
      build boxesSource {} = .ok b ∧ b.program.env.callSites.keys = [0, 1, 2, 3] ∧
      (b.program.moments 4 8 "Main.main" .initial).filterMap Moment.site? = [3, 1, 2, 0, 4] ∧
      m ∈ b.program.moments 4 8 "Main.main" .initial ∧ m.site? = some 3 ∧ m.frames = f :: rest ∧
      b.program.codesAt f.decl (.afterCall 3) = b.program.codesBehind 3 ∧
      b.program.codesBehind 3 ≠ [] ∧
      b.program.env.callSites.get? 0 = some c ∧ c.caller = 5 ∧
      b.program.Evaluates 0 x ∧ call ∈ x.parts ∧ call.site? = some 4 ∧
      ∀ d, b.program.codesAt d (.afterCall 4) = [] := by
  have h : boxesCheck = some true := by
    set_option maxRecDepth 20000 in
    rw [boxesCheck, show boxesSource = String.ofList _ from rfl, build_ofList, Parse.program_ofList]
    decide +kernel
  simp only [boxesCheck, Option.bind_eq_bind, Option.bind_eq_some_iff] at h
  obtain ⟨p, hp, b, hb, m, hm, e, he, check, hcheck, o, ho, call, hcall, h⟩ := h
  obtain ⟨hcount, hsome, horder, hthree, hzero, hfour, horigin⟩ :=
    of_decide_eq_true (Option.some.inj h)
  have hp := ok_of_toOption hp
  have hb := ok_of_toOption hb
  obtain ⟨henv, _, _⟩ := analysis_of_build hb hp
  obtain ⟨hkeys, hparts, _, hruns⟩ := calls_agree hp henv
  obtain ⟨_, hmoments, hclauses⟩ := hruns {} b hb
  have hm := List.mem_of_find?_eq_some hm
  obtain ⟨w, hw, hi⟩ := Option.bind_eq_some_iff.mp hthree
  obtain ⟨f, rest, hframes, _, hcodes, _⟩ := hmoments 4 8 "Main.main" .initial m hm w 3 hw hi
  obtain ⟨c, hc, hid⟩ := Typed.Expr.exists_callSite hzero 5
  have hentry := hparts 5 e (List.mem_of_find?_eq_some he) c hc
  have hx : b.program.Evaluates o.clause.origin o.clause.expr :=
    .invariant (List.mem_of_find?_eq_some hcheck) (List.mem_of_head? ho)
  have hcall := List.mem_of_find?_eq_some hcall
  refine ⟨b, m, f, rest, c, o.clause.expr, call, hb, by rw [hkeys, hcount]; rfl, horder, hm,
    hthree, hframes, hcodes, hsome, hid ▸ hentry, Typed.Expr.caller_of_callSite hc, horigin ▸ hx,
    hcall, hfour, hclauses _ _ hx call hcall 4 hfour⟩

end Covenant
