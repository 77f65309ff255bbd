import Covenant.Proofs.ElaboratedBodies
import Covenant.Proofs.Built
import Covenant.Proofs.ParsedProgram
import Mathlib.Data.List.Forall2

/-!
# What typing makes of a program

The checker goes through the members of a program in their order. What it hands
on is, member by member, the typed bodies and first values, and the calls in
them. A call is written down under the number that the parser gave it, so no two
calls of a checked program have one number.
-/

namespace Covenant.Typing

open Surface (Member TypeDecl Program)

/-! ## The numbers of calls -/

theorem sites_of_namedClass {s : Scope} {o : Surface.Expr} {c : String}
    (h : s.namedClass? o = some c) : o.sites = [] := by
  cases o with
  | name => rfl
  | _ => simp [Scope.namedClass?] at h

/-- The number of a call that stands behind its arguments, moved in front of them. -/
theorem perm_site_args {ns ms : List SiteId} {site : SiteId} (h : ns.Perm ms) :
    (ns ++ [site]).Perm (site :: ms) :=
  (List.perm_append_singleton site ns).trans (h.cons site)

mutual

/-- The calls of an expression are written down under their own numbers. -/
theorem Elab.sites_perm {s : Scope} {e : Surface.Expr} {t : Typed.Expr} {cs : List CallSite}
    (h : Elab s e t cs) : (cs.map (·.id)).Perm e.sites := by
  cases h with
  | int | bool | null | this | var | param | ownStatic | ownField | result => exact .nil
  | binary hl hr =>
      rw [List.map_append]
      exact (Elab.sites_perm hl).append (Elab.sites_perm hr)
  | unary he =>
      have ih := Elab.sites_perm he
      exact ih
  | classField hc => exact (sites_of_namedClass hc).symm ▸ .nil
  | staticField ho =>
      have ih := Elab.sites_perm ho
      exact ih
  | field ho =>
      have ih := Elab.sites_perm ho
      exact ih
  | length ho =>
      have ih := Elab.sites_perm ho
      exact ih
  | staticCall ha =>
      rw [List.map_append]
      exact perm_site_args (ElabAll.sites_perm ha)
  | ownCall ha =>
      rw [List.map_append]
      exact perm_site_args (ElabAll.sites_perm ha)
  | classCall hc ha =>
      rw [List.map_append, Surface.Expr.sites, sites_of_namedClass hc, List.nil_append]
      exact perm_site_args (ElabAll.sites_perm ha)
  | droppedCall ho _ ha =>
      rw [List.map_append, List.map_append, List.append_assoc]
      exact (Elab.sites_perm ho).append (perm_site_args (ElabAll.sites_perm ha))
  | methodCall ho _ ha =>
      rw [List.map_append, List.map_append, List.append_assoc]
      exact (Elab.sites_perm ho).append (perm_site_args (ElabAll.sites_perm ha))
  | new _ _ ha =>
      rw [List.map_append]
      exact perm_site_args (ElabAll.sites_perm ha)
  | newArray _ hl =>
      have ih := Elab.sites_perm hl
      exact ih
  | index ha _ hi =>
      rw [List.map_append]
      exact (Elab.sites_perm ha).append (Elab.sites_perm hi)
  | old he =>
      have ih := Elab.sites_perm he
      exact ih
  | spread he =>
      have ih := Elab.sites_perm he
      exact ih

theorem ElabAll.sites_perm {s : Scope} {es : List Surface.Expr} {ts : List Typed.Expr}
    {cs : List CallSite} (h : ElabAll s es ts cs) :
    (cs.map (·.id)).Perm (Surface.sitesAll es) := by
  cases h with
  | nil => exact .nil
  | cons he hes =>
      rw [List.map_append]
      exact (Elab.sites_perm he).append (ElabAll.sites_perm hes)

end

/-- An assignment writes down the calls of its value first. -/
theorem perm_assign {s : Scope} {target v : Surface.Expr} {target' v' : Typed.Expr}
    {cs ds : List CallSite} (hv : Elab s v v' cs) (ht : Elab s target target' ds) :
    ((cs ++ ds).map (·.id)).Perm (target.sites ++ v.sites) := by
  rw [List.map_append]
  exact List.perm_append_comm.trans (ht.sites_perm.append hv.sites_perm)

theorem stmtsSites_stmts (b : Surface.Block) : Surface.stmtsSites b.stmts = b.sites := by
  cases b
  rfl

mutual

theorem ElabStmt.sites_perm {k : BodyKind} {s s' : Scope} {c : Surface.Stmt} {t : Typed.Stmt}
    {cs : List CallSite} (h : ElabStmt k s c t s' cs) : (cs.map (·.id)).Perm c.sites := by
  cases h with
  | declare | retVoid => exact .nil
  | declareInit _ hv => exact hv.sites_perm
  | setVar hv ht => exact perm_assign hv ht
  | setField hv ht => exact perm_assign hv ht
  | setStatic hv ht => exact perm_assign hv ht
  | setIndex hv ht => exact perm_assign hv ht
  | expr he => exact he.sites_perm
  | branch hc _ ha hb =>
      simp only [List.map_append]
      exact (hc.sites_perm.append (ElabStmt.sites_perm ha)).append (ElabElse.sites_perm hb)
  | loop hc _ hb =>
      rw [List.map_append]
      exact hc.sites_perm.append (ElabStmt.sites_perm hb)
  | ret _ hv => exact hv.sites_perm
  | throw hv => exact hv.sites_perm
  | attempt hb hh hc =>
      simp only [List.map_append]
      refine ((?_ : List.Perm _ _).append (ElabHandlers.sites_perm hh)).append
        (ElabCleanup.sites_perm hc)
      exact stmtsSites_stmts _ ▸ ElabStmts.sites_perm hb
  | block hb =>
      show List.Perm _ (Surface.Block.sites _)
      exact stmtsSites_stmts _ ▸ ElabStmts.sites_perm hb

theorem ElabElse.sites_perm {k : BodyKind} {s : Scope} {c : Option Surface.Stmt}
    {t : Option Typed.Stmt} {cs : List CallSite} (h : ElabElse k s c t cs) :
    (cs.map (·.id)).Perm (Surface.elseSites c) := by
  cases h with
  | none => exact .nil
  | some hb => exact ElabStmt.sites_perm hb

theorem ElabStmts.sites_perm {k : BodyKind} {s : Scope} {cs : List Surface.Stmt}
    {ts : List Typed.Stmt} {ds : List CallSite} (h : ElabStmts k s cs ts ds) :
    (ds.map (·.id)).Perm (Surface.stmtsSites cs) := by
  cases h with
  | nil => exact .nil
  | cons hc hr =>
      rw [List.map_append]
      exact (ElabStmt.sites_perm hc).append (ElabStmts.sites_perm hr)

theorem ElabCleanup.sites_perm {k : BodyKind} {s : Scope} {b : Option Surface.Block}
    {t : Option (List Typed.Stmt)} {cs : List CallSite} (h : ElabCleanup k s b t cs) :
    (cs.map (·.id)).Perm (Surface.blockSites b) := by
  cases h with
  | none => exact .nil
  | some hb =>
      show List.Perm _ (Surface.Block.sites _)
      exact stmtsSites_stmts _ ▸ ElabStmts.sites_perm hb

theorem ElabHandlers.sites_perm {k : BodyKind} {s : Scope} {hs : List Surface.Handler}
    {ts : List Typed.Handler} {cs : List CallSite} (h : ElabHandlers k s hs ts cs) :
    (cs.map (·.id)).Perm (Surface.handlersSites hs) := by
  cases h with
  | nil => exact .nil
  | cons _ _ hb hr =>
      rw [List.map_append]
      refine List.Perm.append ?_ (ElabHandlers.sites_perm hr)
      show List.Perm _ (Surface.Block.sites _)
      exact stmtsSites_stmts _ ▸ ElabStmts.sites_perm hb

end

theorem ElabBody.sites_perm {k : BodyKind} {s : Scope} {b : Surface.Block} {ts : List Typed.Stmt}
    {cs : List CallSite} (h : ElabBody k s b.stmts ts cs) : (cs.map (·.id)).Perm b.sites := by
  rw [← stmtsSites_stmts]
  generalize b.stmts = stmts at h
  cases h with
  | plain hs => exact hs.sites_perm
  | super _ _ _ ha _ hr =>
      simp only [List.map_append]
      exact (perm_site_args ha.sites_perm).append hr.sites_perm

/-! ## Members -/

/-- The rules for a member: what the checker adds for it, and the calls that it writes down. -/
inductive ElabMember (env : Env) (owner : String) : Member → CheckedBodies → List CallSite → Prop
  | init {d init info value cs} (hd : d.init = some init) (hf : env.field? d.id = some info)
      (he : Elab (.ofBody env owner d.id d.isStatic) init value cs)
      (ha : env.isAssignable value.type info.type = true) :
      ElabMember env owner (.field d) ⟨[], [(d.id, value)]⟩ cs
  | noInit {d} (h : d.init = none ∨ env.field? d.id = none) : ElabMember env owner (.field d) {} []
  | body {m d b info ts cs} (hm : m = .constructor d ∨ m = .method d) (hb : d.body = some b)
      (hi : env.method? d.id = some info)
      (he : ElabBody ⟨info.isConstructor, info.returnType⟩ (.ofMethod env info) b.stmts ts cs)
      (hr : info.returnType = .void ∨ Typed.exitsAll ts = true) :
      ElabMember env owner m ⟨[(d.id, ts)], []⟩ cs
  | noBody {m d} (hm : m = .constructor d ∨ m = .method d)
      (h : d.body = none ∨ env.method? d.id = none) : ElabMember env owner m {} []
  | block {d ts cs} (he : ElabBody ⟨false, .void⟩ (.ofBody env owner d.id false) d.body.stmts ts cs) :
      ElabMember env owner (.initializer d) ⟨[(d.id, ts)], []⟩ cs

def CheckedBodies.append (out part : CheckedBodies) : CheckedBodies :=
  ⟨out.bodies ++ part.bodies, out.fieldInits ++ part.fieldInits⟩

theorem CheckedBodies.append_nil (out : CheckedBodies) : out.append {} = out := by
  simp [CheckedBodies.append]

theorem checkMember_elab {env : Env} {owner : String} {out out' : CheckedBodies} {m : Member}
    {acc acc' : List CallSite} (h : checkMember env owner out m acc = .ok (out', acc')) :
    ∃ part cs, ElabMember env owner m part cs ∧ out' = out.append part ∧ acc' = acc ++ cs := by
  -- A constructor and a method are checked by one rule.
  have body {d : Surface.MethodDecl} (hm : m = .constructor d ∨ m = .method d)
      (h : checkMember env owner out (.method d) acc = .ok (out', acc')) :
      ∃ part cs, ElabMember env owner m part cs ∧ out' = out.append part ∧ acc' = acc ++ cs := by
    cases hb : d.body with
    | none =>
        simp only [checkMember, hb] at h
        cases h
        exact ⟨{}, [], .noBody hm (.inl hb), out.append_nil.symm, (List.append_nil _).symm⟩
    | some b =>
        cases hi : env.method? d.id with
        | none =>
            simp only [checkMember, hb, hi] at h
            cases h
            exact ⟨{}, [], .noBody hm (.inr hi), out.append_nil.symm, (List.append_nil _).symm⟩
        | some info =>
            simp only [checkMember, hb, hi] at h
            obtain ⟨ts, _, hts, hend⟩ := stateT_bind.mp h
            obtain ⟨cs, eb, er, rfl⟩ := checkBody_elab rfl hts
            cases hend
            exact ⟨_, cs, .body hm hb hi eb er, by simp [CheckedBodies.append], rfl⟩
  cases m with
  | field d =>
      simp only [checkMember] at h
      cases hd : d.init with
      | none =>
          simp only [hd] at h
          cases h
          exact ⟨{}, [], .noInit (.inl hd), out.append_nil.symm, (List.append_nil _).symm⟩
      | some init =>
          cases hf : env.field? d.id with
          | none =>
              simp only [hd, hf] at h
              cases h
              exact ⟨{}, [], .noInit (.inr hf), out.append_nil.symm, (List.append_nil _).symm⟩
          | some info =>
              simp only [hd, hf] at h
              obtain ⟨value, _, hval, hend⟩ := stateT_bind.mp h
              obtain ⟨value', _, he, h₁⟩ := stateT_bind.mp hval
              obtain ⟨_, _, ht, hpure⟩ := stateT_bind.mp h₁
              obtain ⟨cs, ee, rfl⟩ := bodyExpr_elab rfl he
              obtain ⟨et, rfl⟩ := requireType_ok ht
              cases hpure
              cases hend
              exact ⟨_, cs, .init hd hf ee et, by simp [CheckedBodies.append], rfl⟩
  | constructor d => exact body (.inl rfl) h
  | method d => exact body (.inr rfl) h
  | initializer d =>
      obtain ⟨ts, _, hts, hend⟩ := stateT_bind.mp h
      obtain ⟨cs, eb, _, rfl⟩ := checkBody_elab rfl hts
      cases hend
      exact ⟨_, cs, .block eb, by simp [CheckedBodies.append], rfl⟩

theorem ElabMember.sites_perm {env : Env} {owner : String} {m : Member} {part : CheckedBodies}
    {cs : List CallSite} (h : ElabMember env owner m part cs) :
    ∃ ns, (cs.map (·.id) ++ ns).Perm m.sites := by
  cases h with
  | init hd _ he =>
      refine ⟨[], ?_⟩
      rw [List.append_nil, Member.sites, hd]
      exact he.sites_perm
  | noInit => exact ⟨_, List.Perm.refl _⟩
  | body hm hb _ he =>
      refine ⟨[], ?_⟩
      rw [List.append_nil]
      rcases hm with rfl | rfl
      · rw [Member.sites, hb]
        exact he.sites_perm
      · rw [Member.sites, hb]
        exact he.sites_perm
  | noBody => exact ⟨_, List.Perm.refl _⟩
  | block he =>
      refine ⟨[], ?_⟩
      rw [List.append_nil]
      exact he.sites_perm

/-! ## Programs -/

/-- What the checker makes of one member. -/
abbrev Part := CheckedBodies × List CallSite

/-- The members of types, each with the name of its type. -/
def membersOf (ts : List TypeDecl) : List (String × Member) :=
  ts.flatMap fun t => t.members.map fun m => (t.name.val, m)

/-- What the checker makes of members, one after the other. -/
def ElabMembers (env : Env) (ms : List (String × Member)) (parts : List Part) : Prop :=
  List.Forall₂ (fun m (part : Part) => ElabMember env m.1 m.2 part.1 part.2) ms parts

theorem ElabMembers.exists_member {env : Env} {ms : List (String × Member)} {parts : List Part}
    (h : ElabMembers env ms parts) {part : Part} (hp : part ∈ parts) :
    ∃ m ∈ ms, ElabMember env m.1 m.2 part.1 part.2 := by
  induction h with
  | nil => exact absurd hp List.not_mem_nil
  | cons hm _ ih =>
      rcases List.mem_cons.mp hp with rfl | hp
      · exact ⟨_, List.mem_cons_self, hm⟩
      · obtain ⟨m, hmem, hm⟩ := ih hp
        exact ⟨m, List.mem_cons_of_mem _ hmem, hm⟩

/-- What was there before with some parts behind it. -/
def CheckedBodies.appendAll (out : CheckedBodies) (parts : List Part) : CheckedBodies :=
  ⟨out.bodies ++ parts.flatMap (·.1.bodies), out.fieldInits ++ parts.flatMap (·.1.fieldInits)⟩

theorem foldMembers_elab {env : Env} {owner : String} {ms : List Member}
    {out out' : CheckedBodies} {acc acc' : List CallSite}
    (h : ms.foldlM (checkMember env owner) out acc = .ok (out', acc')) :
    ∃ parts, ElabMembers env (ms.map fun m => (owner, m)) parts ∧ out' = out.appendAll parts ∧
      acc' = acc ++ parts.flatMap (·.2) := by
  induction ms generalizing out acc with
  | nil =>
      cases h
      exact ⟨[], .nil, by simp [CheckedBodies.appendAll], by simp⟩
  | cons m ms ih =>
      rw [List.foldlM_cons] at h
      obtain ⟨out₁, acc₁, hm, h₁⟩ := stateT_bind.mp h
      obtain ⟨part, cs, em, rfl, rfl⟩ := checkMember_elab hm
      obtain ⟨parts, ems, rfl, rfl⟩ := ih h₁
      exact ⟨(part, cs) :: parts, .cons em ems,
        by simp [CheckedBodies.appendAll, CheckedBodies.append], by simp⟩

theorem foldTypes_elab {env : Env} {ts : List TypeDecl} {out out' : CheckedBodies}
    {acc acc' : List CallSite}
    (h : ts.foldlM (checkTypeDecl env) out acc = .ok (out', acc')) :
    ∃ parts, ElabMembers env (membersOf ts) parts ∧ out' = out.appendAll parts ∧
      acc' = acc ++ parts.flatMap (·.2) := by
  induction ts generalizing out acc with
  | nil =>
      cases h
      exact ⟨[], .nil, by simp [CheckedBodies.appendAll], by simp⟩
  | cons t ts ih =>
      rw [List.foldlM_cons] at h
      obtain ⟨out₁, acc₁, ht, h₁⟩ := stateT_bind.mp h
      obtain ⟨parts, em, rfl, rfl⟩ := foldMembers_elab ht
      obtain ⟨parts', ems, rfl, rfl⟩ := ih h₁
      exact ⟨parts ++ parts', List.rel_append em ems, by simp [CheckedBodies.appendAll], by simp⟩

theorem perm_insertSite (c : CallSite) (cs : List CallSite) :
    (insertSite c cs).Perm (c :: cs) := by
  induction cs with
  | nil => exact List.Perm.refl _
  | cons d cs ih =>
      rw [insertSite]
      split
      · exact List.Perm.refl _
      · exact (ih.cons d).trans (List.Perm.swap c d cs)

theorem perm_sorted (cs : List CallSite) : (cs.foldr insertSite []).Perm cs := by
  induction cs with
  | nil => exact .nil
  | cons c cs ih => exact (perm_insertSite c _).trans (ih.cons c)

theorem nodup_sorted {cs : List CallSite} (hn : (cs.map (·.id)).Nodup) :
    (((cs.foldr insertSite []).map fun c => (c.id, c)).map (·.1)).Nodup := by
  rw [List.map_map]
  exact ((perm_sorted cs).map CallSite.id).nodup_iff.mpr hn

theorem mem_siteTable {cs : List CallSite} (hn : (cs.map (·.id)).Nodup) {c : CallSite} :
    c ∈ (siteTable cs).values ↔ c ∈ cs := by
  rw [Table.values, siteTable, Table.entries_ofList (nodup_sorted hn), List.map_map]
  exact (List.map_id _).symm ▸ (perm_sorted cs).mem_iff

theorem get?_siteTable {cs : List CallSite} (hn : (cs.map (·.id)).Nodup) {c : CallSite}
    (hc : c ∈ cs) : (siteTable cs).get? c.id = some c := by
  refine Table.get?_of_mem ?_ ?_
  · rw [Table.keys, siteTable, Table.entries_ofList (nodup_sorted hn)]
    exact nodup_sorted hn
  · rw [siteTable, Table.entries_ofList (nodup_sorted hn)]
    exact List.mem_map.mpr ⟨c, (perm_sorted cs).mem_iff.mpr hc, rfl⟩

/-- The calls of a program have the numbers that the parser gave them. -/
theorem ElabMembers.sites_perm {env : Env} {ms : List (String × Member)} {parts : List Part}
    (h : ElabMembers env ms parts) :
    ∃ ns, ((parts.flatMap (·.2)).map (·.id) ++ ns).Perm (ms.flatMap (·.2.sites)) := by
  induction h with
  | nil => exact ⟨[], .nil⟩
  | @cons m part ms parts hm _ ih =>
      obtain ⟨ns, hns⟩ := hm.sites_perm
      obtain ⟨ns', hns'⟩ := ih
      refine ⟨ns ++ ns', ?_⟩
      rw [List.flatMap_cons, List.flatMap_cons, List.map_append]
      refine List.Perm.trans ?_ (hns.append hns')
      rw [List.append_assoc, List.append_assoc]
      refine List.Perm.append_left _ ?_
      rw [← List.append_assoc, ← List.append_assoc]
      exact List.perm_append_comm.append_right _

theorem membersOf_sites (ts : List TypeDecl) :
    (membersOf ts).flatMap (·.2.sites) = ts.flatMap TypeDecl.sites := by
  induction ts with
  | nil => rfl
  | cons t ts ih =>
      rw [membersOf, List.flatMap_cons, List.flatMap_append, List.flatMap_cons]
      refine congrArg₂ _ ?_ ih
      rw [List.flatMap_map, TypeDecl.sites]

/-- The stages of the checker: declarations, then members by the rules, then constructors that call
none of the superclass. -/
theorem checkProgram_elab {p : Program} (hp : p.WellFormed) {env : Env}
    (h : checkProgram p = .ok env) :
    ∃ env₀ parts, Env.declare p = .ok env₀ ∧ ElabMembers env₀ (membersOf p.types) parts ∧
      (∀ info ∈ env₀.classes.values,
        checkImplicitSuper env₀ (parts.flatMap (·.1.bodies)) info = .ok ()) ∧
      Numbered 0 p.siteCount ((parts.flatMap (·.2)).map (·.id)) ∧
      env = { env₀ with
        bodies := env₀.bodies.insertAll (parts.flatMap (·.1.bodies))
        fieldInits := env₀.fieldInits.insertAll (parts.flatMap (·.1.fieldInits))
        callSites := siteTable (parts.flatMap (·.2)) } := by
  obtain ⟨env₀, out, sites, h₀, hout, hsuper, rfl⟩ := checkProgram_eq_ok h
  obtain ⟨parts, hparts, rfl, rfl⟩ := foldTypes_elab hout
  refine ⟨env₀, parts, h₀, hparts, ?_, ?_, ?_⟩
  · simpa [CheckedBodies.appendAll] using hsuper
  · obtain ⟨ns, hperm⟩ := hparts.sites_perm
    rw [membersOf_sites] at hperm
    have hall := hp.sites.perm hperm.symm
    exact ⟨(List.nodup_append.mp hall.nodup).1, fun n hn =>
      hall.bounds n (List.mem_append_left _ hn)⟩
  · simp [CheckedBodies.appendAll]

/-- The calls that are written down have numbers that the parser gave. -/
theorem callSites_lt {p : Program} (hp : p.WellFormed) {env : Env} (h : checkProgram p = .ok env)
    {c : CallSite} (hc : c ∈ env.callSites.values) : c.id < p.siteCount := by
  obtain ⟨env₀, parts, _, _, _, hn, rfl⟩ := checkProgram_elab hp h
  have hmem := (mem_siteTable hn.nodup).mp hc
  exact (hn.bounds c.id (List.mem_map.mpr ⟨c, hmem, rfl⟩)).2

end Covenant.Typing
