import Covenant.Proofs.FittedBodies

/-!
# Every member is checked

The checker passes over a body or a first value whose declaration it does not know.
In a program that was declared there is none: each field, method and constructor
has been read. So what the source says is checked throughout, and the table of
calls has one entry for each number that the parser gave, in the order of numbers.
-/

namespace Covenant

open Surface (Member TypeDecl Program)

namespace Surface.Member

/-- The block that a member runs, if it has one. -/
def body? : Member → Option Surface.Block
  | .field _ => none
  | .constructor d | .method d => d.body
  | .initializer d => some d.body

/-- The first value of a member, if it has one. -/
def init? : Member → Option Surface.Expr
  | .field d => d.init
  | .constructor _ | .method _ | .initializer _ => none

end Surface.Member

namespace Env

/-- Whether the environment has what the checker looks up for a member. -/
def Knows (env : Env) : Member → Prop
  | .field d => ∃ f, env.field? d.id = some f
  | .constructor d | .method d => ∃ m, env.method? d.id = some m
  | .initializer _ => True

/-- Every field of a type has been read. -/
theorem field_of_members {env : Env} {owner : String} {members : List Member} {ms : MemberList}
    (h : members.foldlM (env.addMember owner) {} = .ok ms) :
    ∀ d, .field d ∈ members → ∃ f ∈ ms.fields, f.id = d.id := by
  refine foldlM_stages
    (P := fun done _ list => ∀ d, .field d ∈ done → ∃ f ∈ list.fields, f.id = d.id) ?_ ?_ h
  · intro done m _ list list' _ hl hm d hd
    -- What has been read stays.
    have hsub : list.fields ⊆ list'.fields := by
      cases addMember_adds hm with
      | field => exact List.subset_append_left _ _
      | constructor | method | initializer => exact List.Subset.refl _
    rcases List.mem_append.mp hd with hd | hd
    · obtain ⟨f, hf, hid⟩ := hl d hd
      exact ⟨f, hsub hf, hid⟩
    · obtain rfl := List.mem_singleton.mp hd
      cases addMember_adds hm with
      | field => exact ⟨_, List.mem_append_right _ List.mem_cons_self, rfl⟩
  · exact fun d hd => absurd hd List.not_mem_nil

theorem DeclaredBy.knows {env : Env} {p : Program} (h : env.DeclaredBy p) {t : TypeDecl}
    (ht : t ∈ p.types) {m : Member} (hm : m ∈ t.members) : env.Knows m := by
  obtain ⟨ms, ctors, he⟩ := h.types t ht
  cases m with
  | field d =>
      obtain ⟨f, hf, hid⟩ := field_of_members he.members d hm
      exact ⟨f, hid ▸ he.field f hf⟩
  | method d =>
      obtain ⟨m, hmem, hsig⟩ := (mem_of_members he.members).1 hm
      exact ⟨m, hsig.id ▸ he.method m (List.mem_append_left _ hmem)⟩
  | constructor d =>
      obtain ⟨m, hmem, hsig⟩ := (mem_of_members he.members).2 hm
      have hctors := he.constructors
      cases hctors with
      | declared => exact ⟨m, hsig.id ▸ he.method m (List.mem_append_right _ hmem)⟩
      | default _ hnone =>
          rw [hnone] at hmem
          exact absurd hmem List.not_mem_nil
  | initializer d => trivial

end Env

namespace Typing

/-- The calls of a member that the environment knows are written down under all its numbers. -/
theorem ElabMember.all_sites {env : Env} {owner : String} {m : Member} {part : CheckedBodies}
    {cs : List CallSite} (h : ElabMember env owner m part cs) (hk : env.Knows m) :
    (cs.map (·.id)).Perm m.sites := by
  cases h with
  | init hd _ he =>
      rw [Member.sites, hd]
      exact he.sites_perm
  | noInit hnone =>
      obtain ⟨f, hf⟩ := hk
      rcases hnone with hnone | hnone
      · rw [Member.sites, hnone]
        exact .nil
      · exact absurd (hnone.symm.trans hf) (by simp)
  | body hm hb _ he =>
      rcases hm with rfl | rfl <;>
      · rw [Member.sites, hb]
        exact he.sites_perm
  | noBody hm hnone =>
      rcases hm with rfl | rfl <;>
      · obtain ⟨info, hinfo⟩ := hk
        rcases hnone with hnone | hnone
        · rw [Member.sites, hnone]
          exact .nil
        · exact absurd (hnone.symm.trans hinfo) (by simp)
  | block he => exact he.sites_perm

theorem ElabMembers.all_sites {env : Env} {ms : List (String × Member)} {parts : List Part}
    (h : ElabMembers env ms parts) (hk : ∀ m ∈ ms, env.Knows m.2) :
    ((parts.flatMap (·.2)).map (·.id)).Perm (ms.flatMap (·.2.sites)) := by
  induction h with
  | nil => exact .nil
  | cons hm _ ih =>
      rw [List.flatMap_cons, List.flatMap_cons, List.map_append]
      exact (hm.all_sites (hk _ List.mem_cons_self)).append
        (ih fun m hmem => hk m (List.mem_cons_of_mem _ hmem))

theorem ElabMembers.exists_part {env : Env} {ms : List (String × Member)} {parts : List Part}
    (h : ElabMembers env ms parts) {m : String × Member} (hm : m ∈ ms) :
    ∃ part ∈ parts, ElabMember env m.1 m.2 part.1 part.2 := by
  induction h with
  | nil => exact absurd hm List.not_mem_nil
  | cons hhead _ ih =>
      rcases List.mem_cons.mp hm with rfl | hm
      · exact ⟨_, List.mem_cons_self, hhead⟩
      · obtain ⟨part, hpart, he⟩ := ih hm
        exact ⟨part, List.mem_cons_of_mem _ hpart, he⟩

theorem ElabMember.inits_sublist {env : Env} {owner : String} {m : Member}
    {part : CheckedBodies} {cs : List CallSite} (h : ElabMember env owner m part cs) :
    (part.fieldInits.map (·.1)).Sublist [m.id] := by
  cases h with
  | body | noBody | noInit | block => exact List.nil_sublist _
  | init => exact List.Sublist.refl _

theorem ElabMembers.inits_sublist {env : Env} {ms : List (String × Member)} {parts : List Part}
    (h : ElabMembers env ms parts) :
    ((parts.flatMap (·.1.fieldInits)).map (·.1)).Sublist (ms.map (·.2.id)) := by
  induction h with
  | nil => exact .slnil
  | cons hm _ ih =>
      rw [List.flatMap_cons, List.map_append, List.map_cons]
      exact hm.inits_sublist.append ih

section

variable {p : Program} (hp : p.WellFormed) {env : Env} (h : checkProgram p = .ok env)

include hp h

/-- Every member was checked, and what came out of it is found under its number. -/
theorem checked_of_member {t : TypeDecl} (ht : t ∈ p.types) {m : Member} (hm : m ∈ t.members) :
    ∃ env₀ part cs, ElabMember env₀ t.name.val m part cs ∧ env₀.Knows m ∧
      (∀ ts, (m.id, ts) ∈ part.bodies → env.body? m.id = some ts) ∧
      ∀ v, (m.id, v) ∈ part.fieldInits → env.fieldInits.get? m.id = some v := by
  obtain ⟨env₀, parts, h₀, hparts, _, _, rfl⟩ := checkProgram_elab hp h
  obtain ⟨⟨part, cs⟩, hpart, he⟩ := hparts.exists_part (mem_membersOf.mpr ⟨t, ht, m, hm, rfl⟩)
  refine ⟨env₀, part, cs, he, (Env.declaredBy hp h₀).knows ht hm, fun ts hts => ?_, fun v hv => ?_⟩
  · exact Table.get?_insertAll_of_mem ((nodup_memberIds hp).sublist hparts.bodies_sublist)
      (List.mem_flatMap.mpr ⟨_, hpart, hts⟩)
  · exact Table.get?_insertAll_of_mem ((nodup_memberIds hp).sublist hparts.inits_sublist)
      (List.mem_flatMap.mpr ⟨_, hpart, hv⟩)

/-- The block of a member has a typed body. -/
theorem body_of_member {t : TypeDecl} (ht : t ∈ p.types) {m : Member} (hm : m ∈ t.members)
    {b : Surface.Block} (hb : m.body? = some b) :
    ∃ k s ts cs, ElabBody k s b.stmts ts cs ∧ env.body? m.id = some ts := by
  obtain ⟨env₀, part, cs, he, hk, hbody, _⟩ := checked_of_member hp h ht hm
  cases he with
  | init | noInit => cases hb
  | noBody hmem hnone =>
      rcases hmem with rfl | rfl <;>
      · obtain ⟨info, hinfo⟩ := hk
        rcases hnone with hnone | hnone
        · exact absurd (hnone.symm.trans hb) (by simp)
        · exact absurd (hnone.symm.trans hinfo) (by simp)
  | body hmem hb' _ he =>
      rcases hmem with rfl | rfl <;>
      · obtain rfl := Option.some.inj (hb.symm.trans hb')
        exact ⟨_, _, _, cs, he, hbody _ List.mem_cons_self⟩
  | block he =>
      cases hb
      exact ⟨_, _, _, cs, he, hbody _ List.mem_cons_self⟩

/-- The first value of a member has a typed one. -/
theorem init_of_member {t : TypeDecl} (ht : t ∈ p.types) {m : Member} (hm : m ∈ t.members)
    {e : Surface.Expr} (hinit : m.init? = some e) :
    ∃ s v cs, Elab s e v cs ∧ env.fieldInits.get? m.id = some v := by
  obtain ⟨env₀, part, cs, he, hk, _, hinits⟩ := checked_of_member hp h ht hm
  cases he with
  | body hmem | noBody hmem => rcases hmem with rfl | rfl <;> cases hinit
  | block => cases hinit
  | noInit hnone =>
      obtain ⟨f, hf⟩ := hk
      rcases hnone with hnone | hnone
      · exact absurd (hnone.symm.trans hinit) (by simp)
      · exact absurd (hnone.symm.trans hf) (by simp)
  | init hd _ he =>
      obtain rfl := Option.some.inj (hinit.symm.trans hd)
      exact ⟨_, _, cs, he, hinits _ List.mem_cons_self⟩

/-- A member without a block has no typed body. -/
theorem body?_eq_none {t : TypeDecl} (ht : t ∈ p.types) {m : Member} (hm : m ∈ t.members)
    (hnone : m.body? = none) : env.body? m.id = none := by
  have hlt : m.id < p.declCount := (hp.ids.bounds _ (List.mem_flatMap.mpr
    ⟨t, ht, List.mem_cons_of_mem _ (List.mem_map.mpr ⟨m, hm, rfl⟩)⟩)).2
  refine Option.eq_none_iff_forall_ne_some.mpr fun ts hts => ?_
  rcases body_cases hp h hts with ⟨hle, _⟩ | ⟨t', m', hid, hmade⟩
  · exact absurd hlt (Nat.not_lt.mpr hle)
  · obtain ⟨_, rfl⟩ := member_unique hp hmade.type ht hmade.member hm hid
    obtain ⟨env₀, cs, _, _, hrules, _⟩ := hmade.rules
    generalize m'.id = x at hrules
    cases hrules with
    | body hmem hb =>
        rcases hmem with rfl | rfl <;> exact absurd (hnone.symm.trans hb) (by simp)
    | block => cases hnone

/-- A member without a first value has no typed one. -/
theorem init?_eq_none {t : TypeDecl} (ht : t ∈ p.types) {m : Member} (hm : m ∈ t.members)
    (hnone : m.init? = none) : env.fieldInits.get? m.id = none := by
  refine Option.eq_none_iff_forall_ne_some.mpr fun v hv => ?_
  obtain ⟨t', d, hid, hmade⟩ := init_cases hp h hv
  obtain ⟨_, rfl⟩ := member_unique hp hmade.type ht hmade.member hm hid
  obtain ⟨env₀, cs, _, _, hrules, _⟩ := hmade.rules
  cases hrules with
  | init hd => exact absurd (hnone.symm.trans hd) (by simp)

end

/-! ## The table of calls -/

section

variable {c : CallSite} {cs : List CallSite}

theorem sorted_insertSite (h : cs.Pairwise (·.id ≤ ·.id)) :
    (insertSite c cs).Pairwise (·.id ≤ ·.id) := by
  induction cs with
  | nil => exact List.pairwise_singleton ..
  | cons d cs ih =>
      obtain ⟨hd, hcs⟩ := List.pairwise_cons.mp h
      rw [insertSite]
      split
      · next hlt =>
          refine List.pairwise_cons.mpr ⟨fun e he => ?_, h⟩
          rcases List.mem_cons.mp he with rfl | he
          · exact Nat.le_of_lt hlt
          · exact Nat.le_trans (Nat.le_of_lt hlt) (hd e he)
      · next hge =>
          refine List.pairwise_cons.mpr ⟨fun e he => ?_, ih hcs⟩
          rcases List.mem_cons.mp ((perm_insertSite c cs).mem_iff.mp he) with rfl | he
          · exact Nat.le_of_not_lt hge
          · exact hd e he

theorem sorted_sites (cs : List CallSite) :
    (cs.foldr insertSite []).Pairwise (·.id ≤ ·.id) := by
  induction cs with
  | nil => exact .nil
  | cons c cs ih => exact sorted_insertSite ih

end

/-- The numbers in the table of calls are those that the parser gave, in their order. -/
theorem keys_callSites {source : String} {p : Surface.Program} (hp : Parse.program source = .ok p)
    {env : Env} (h : checkProgram p = .ok env) : env.callSites.keys = List.range p.siteCount := by
  have hwf := Parse.program_wellFormed hp
  obtain ⟨env₀, parts, h₀, hparts, _, hn, rfl⟩ := checkProgram_elab hwf h
  show (siteTable _).keys = _
  rw [Table.keys, siteTable, Table.entries_ofList (nodup_sorted hn.nodup), List.map_map]
  have hknown : ∀ m ∈ membersOf p.types, env₀.Knows m.2 := fun m hm => by
    obtain ⟨t, ht, m', hm', rfl⟩ := mem_membersOf.mp hm
    exact (Env.declaredBy hwf h₀).knows ht hm'
  have hperm := hparts.all_sites hknown
  rw [membersOf_sites, (Parse.program_consecutive hp).2.eq_range] at hperm
  exact List.Perm.eq_of_pairwise (fun _ _ _ _ => Nat.le_antisymm)
    (List.pairwise_map.mpr (sorted_sites _)) List.pairwise_le_range
    (((perm_sorted _).map CallSite.id).trans hperm)

theorem callSite_lt {source : String} {p : Surface.Program} (hp : Parse.program source = .ok p)
    {env : Env} (h : checkProgram p = .ok env) {i : SiteId} {c : CallSite}
    (hc : env.callSites.get? i = some c) : i < p.siteCount := by
  have hmem : i ∈ env.callSites.keys := List.mem_map.mpr ⟨(i, c), Table.mem_of_get? hc, rfl⟩
  rw [keys_callSites hp h] at hmem
  exact List.mem_range.mp hmem

end Typing

end Covenant
