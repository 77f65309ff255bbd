import Covenant.Clause.Extract
import Covenant.Contract.Bound
import Covenant.Proofs.Built
import Covenant.Proofs.SourceOrder

/-!
# Numbers without gaps

Declarations and calls are known by number. The declarations of a source are
numbered in its order, a type before its members, and so are the calls of its
bodies; each takes the number behind the last one, so none is left out and none
is used twice. The calls of clauses go on where those of the bodies end. A clause
whose text does not parse uses up no numbers, so there are no gaps between
clauses either.
-/

namespace Covenant

namespace Contract

/-- The records with the number that the first call of each one is to have, when all of them are
bound in turn. -/
def numberedFrom (env : Env) : SiteId → List ClauseRecord → List (ClauseRecord × SiteId)
  | _, [] => []
  | site, r :: rs => (r, site) :: numberedFrom env (bindRecord env r site).2 rs

/-- What the text of a record says whose calls are numbered from `site` on, if the record is in its
place and its text parses. -/
def parsedBody? (env : Env) (r : ClauseRecord) (site : SiteId) : Option Parse.ClauseBody :=
  match placeRecord env r, Parse.clause r site with
  | .ok _, .ok (body, _) => some body
  | _, _ => none

/-- The texts that parse when records are bound in turn. -/
def parsedBodies (env : Env) (site : SiteId) (records : List ClauseRecord) :
    List Parse.ClauseBody :=
  (numberedFrom env site records).filterMap fun x => parsedBody? env x.1 x.2

/-- The numbers of the calls in the texts of clauses. -/
def clauseSites (bodies : List Parse.ClauseBody) : List SiteId :=
  bodies.flatMap fun body => Surface.sitesAll body.exprs

variable {env : Env} {r : ClauseRecord} {site : SiteId}

/-- A record whose text parses uses up the numbers of its calls, any other record none. -/
theorem bindRecord_sites :
    Consecutive site (bindRecord env r site).2
      (clauseSites (parsedBody? env r site).toList) := by
  cases hp : placeRecord env r with
  | error fault =>
      simp only [bindRecord, parsedBody?, hp]
      exact .nil
  | ok s =>
      cases hc : Parse.clause r site with
      | error fault =>
          simp only [bindRecord, parsedBody?, hp, hc]
          exact .nil
      | ok x =>
          obtain ⟨body, next⟩ := x
          have hnext : (bindRecord env r site).2 = next := by simp only [bindRecord, hp, hc]; rfl
          have hbody : parsedBody? env r site = some body := by simp only [parsedBody?, hp, hc]
          rw [hnext, hbody]
          simpa [clauseSites] using (Parse.clause_parsed hc).2

/-- A clause that was bound comes from a text that parses. -/
theorem parsedBody?_of_bound {b : Binding} (h : (bindRecord env r site).1 = .ok b) :
    ∃ s body, placeRecord env r = .ok s ∧ parsedBody? env r site = some body ∧
      bindBody env r s body = .ok b := by
  cases hp : placeRecord env r with
  | error fault =>
      simp only [bindRecord, hp] at h
      cases h
  | ok s =>
      cases hc : Parse.clause r site with
      | error fault =>
          simp only [bindRecord, hp, hc] at h
          cases h
      | ok x =>
          obtain ⟨body, next⟩ := x
          simp only [bindRecord, hp, hc] at h
          exact ⟨s, body, rfl, by simp only [parsedBody?, hp, hc], h⟩

theorem bindAll_eq_map (env : Env) (site : SiteId) (records : List ClauseRecord) :
    bindAll env site records =
      (numberedFrom env site records).map fun x => (x.1, (bindRecord env x.1 x.2).1) := by
  induction records generalizing site with
  | nil => rfl
  | cons r rs ih =>
      show (r, (bindRecord env r site).1) :: bindAll env (bindRecord env r site).2 rs = _
      rw [ih, numberedFrom, List.map_cons]

theorem parsedBodies_cons {rs : List ClauseRecord} :
    parsedBodies env site (r :: rs) =
      (parsedBody? env r site).toList ++ parsedBodies env (bindRecord env r site).2 rs := by
  rw [parsedBodies, numberedFrom, List.filterMap_cons]
  cases parsedBody? env r site <;> rfl

/-- The calls of the clauses that parse are numbered on from the first number that is free. -/
theorem parsedBodies_sites (env : Env) (site : SiteId) (records : List ClauseRecord) :
    ∃ next, Consecutive site next (clauseSites (parsedBodies env site records)) := by
  induction records generalizing site with
  | nil => exact ⟨site, .nil⟩
  | cons r rs ih =>
      obtain ⟨next, hrest⟩ := ih (bindRecord env r site).2
      refine ⟨next, ?_⟩
      rw [parsedBodies_cons, clauseSites, List.flatMap_append]
      exact bindRecord_sites.append hrest

end Contract

open Contract
open Surface (TypeDecl)

/-- Numbers are used in order, all of them and each once. The declarations of a source have, in the
order in which they begin in it, the numbers below the count of declarations. The calls of its
bodies have those below the count of calls. And when clauses are bound from there on, in whatever
program and sequence, each one that was bound comes from a text that parses, and the calls of the
texts that parse have the numbers that follow, which no other clause and no body has. -/
theorem numbers_dense {source : String} {p : Surface.Program}
    (hp : Parse.program source = .ok p) :
    (p.types.flatMap TypeDecl.ids = List.range p.declCount ∧
      (p.types.flatMap TypeDecl.starts).Pairwise (· < ·)) ∧
    p.types.flatMap TypeDecl.sites = List.range p.siteCount ∧
    ∀ env records,
      (∀ x ∈ bindAll env p.siteCount records, ∀ b, x.2 = .ok b →
        ∃ s, ∃ body ∈ parsedBodies env p.siteCount records, bindBody env x.1 s body = .ok b) ∧
      (∃ count, clauseSites (parsedBodies env p.siteCount records) =
        List.range' p.siteCount count) ∧
      (p.types.flatMap TypeDecl.sites ++
        clauseSites (parsedBodies env p.siteCount records)).Nodup := by
  obtain ⟨hids, hsites⟩ := Parse.program_consecutive hp
  refine ⟨⟨hids.eq_range, Parse.program_starts hp⟩, hsites.eq_range, fun env records => ?_⟩
  obtain ⟨next, hclauses⟩ := parsedBodies_sites env p.siteCount records
  refine ⟨fun x hx b hb => ?_, ⟨_, hclauses.eq⟩, (hsites.append hclauses).numbered.nodup⟩
  rw [bindAll_eq_map] at hx
  obtain ⟨y, hy, rfl⟩ := List.mem_map.mp hx
  obtain ⟨s, body, _, hbody, hbound⟩ := parsedBody?_of_bound hb
  exact ⟨s, body, List.mem_filterMap.mpr ⟨y, hy, hbody⟩, hbound⟩

/-- Calls in a constructor, one in the arguments of another, and two clauses of which the first does
not parse. -/
def numberedSource : String :=
  "class Base \x7b int n; Base(int n) \x7b this.n = n; \x7d \x7d
  class Box extends Base \x7b
    Box() \x7b super(pick(1)); \x7d
    /** @pre | pick(
      * @pre | pick(n) > 0 */
    static int pick(int n) \x7b return n; \x7d
  \x7d"

/-- Evaluates what is said of `numberedSource`. -/
def numberedCheck : Option Bool := do
  let p ← (Parse.program numberedSource).toOption
  let env ← (Typing.checkProgram p).toOption
  let records := Clause.ofProgram p
  return p.declCount == 6 && p.siteCount == 2 && records.length == 2 &&
    clauseSites (parsedBodies env 2 records) == [2]

/-- The call in the clause that parses is numbered behind those of the bodies. -/
theorem numbers_dense_box :
    ∃ p env records, Parse.program numberedSource = .ok p ∧ records = Clause.ofProgram p ∧
      records.length = 2 ∧
      p.types.flatMap TypeDecl.ids = [0, 1, 2, 3, 4, 5] ∧
      p.types.flatMap TypeDecl.sites = [0, 1] ∧
      clauseSites (parsedBodies env 2 records) = [2] ∧
      (p.types.flatMap TypeDecl.sites ++ clauseSites (parsedBodies env 2 records)).Nodup := by
  have h : numberedCheck = some true := by
    set_option maxRecDepth 20000 in
    rw [numberedCheck, show numberedSource = String.ofList _ from rfl, Parse.program_ofList]
    decide +kernel
  rw [numberedCheck] at h
  obtain ⟨p, hp, h⟩ := Option.bind_eq_some_iff.mp h
  obtain ⟨env, _, h⟩ := Option.bind_eq_some_iff.mp h
  simp only [pure, Option.some.injEq, Bool.and_eq_true, beq_iff_eq] at h
  obtain ⟨⟨⟨hdecls, hsites⟩, hrecords⟩, hclauses⟩ := h
  have hp := ok_of_toOption hp
  obtain ⟨⟨hids, _⟩, hbodies, hbound⟩ := numbers_dense hp
  rw [hdecls] at hids
  have hnodup := (hbound env (Clause.ofProgram p)).2.2
  rw [hsites] at hbodies hnodup
  exact ⟨p, env, _, hp, rfl, hrecords, hids, hbodies, hclauses, hnodup⟩

end Covenant
