import Covenant.Proofs.ElaboratedProgram
import Covenant.Proofs.Ends
import Covenant.Proofs.EntryValues
import Covenant.Run.Member

/-!
# What `old` reads

A slot is shared by terms that read the same, and what reads the same need not
be the same: the text does not say of which class a static method is, nor
whether a name is a parameter of this declaration, a parameter of an overridden
one, or a field. That is the only way in which the value that is stored for a
term can be that of another: `old` is right in all postconditions of a member
just if those of its terms that read alike and mean different things have the
same value at entry.
-/

namespace Covenant

open Typed (Expr)

namespace Typed.Expr

mutual

theorem Printable.oldTerms : ∀ e : Expr, e.Printable → e.oldTerms = []
  | int .., _ | bool .., _ | null .., _ | this .., _ | param .., _ | staticField .., _
  | result .., _ => rfl
  | field _ _ o _, h => Printable.oldTerms o h.1
  | length _ a, h => Printable.oldTerms a h.1
  | index _ _ a i, h => by
    rw [Expr.oldTerms, Printable.oldTerms a h.1, Printable.oldTerms i h.2.2]
    rfl
  | binary _ _ l r, h => by
    rw [Expr.oldTerms, Printable.oldTerms l h.1, Printable.oldTerms r h.2]
    rfl
  | unary _ _ e, h => Printable.oldTerms e h
  | call _ _ _ receiver _ _ args, h => by
    rw [Expr.oldTerms, PrintableReceiver.oldTerms receiver h.1, PrintableAll.oldTerms args h.2.2]
    rfl
  | new _ _ _ _ args, h => PrintableAll.oldTerms args h.2
  | newArray _ _ len, h => Printable.oldTerms len h.2

theorem PrintableReceiver.oldTerms : ∀ e : Option Expr, PrintableReceiver e → oldTermsOpt e = []
  | none, _ => rfl
  | some e, h => Printable.oldTerms e h.1

theorem PrintableAll.oldTerms : ∀ es : List Expr, PrintableAll es → oldTermsAll es = []
  | [], _ => rfl
  | e :: es, h => by
    rw [oldTermsAll, Printable.oldTerms e h.1, PrintableAll.oldTerms es h.2]
    rfl

end

end Typed.Expr

/-! ## No checks stand behind the calls of a clause -/

namespace Contract

theorem memberCodes_point {checks : Checks} {isConstructor : Bool} {s : Specification}
    {snapshot : Option Snapshot} {i : SiteId} :
    ∀ c ∈ memberCodes checks isConstructor s snapshot, c.1 ≠ .afterCall i := by
  intro c hc
  simp only [memberCodes, List.mem_append, List.mem_map, listIf] at hc
  rcases hc with ((⟨_, _, rfl⟩ | hc) | hc) | hc
  · simp
  all_goals
    split at hc
    · obtain rfl := List.mem_singleton.mp hc
      simp
    · exact absurd hc List.not_mem_nil

/-- A call whose number is behind those of the program's calls has no checks behind it. -/
theorem codesAt_fresh {env : Env} {plan : ContractPlan} {checks : Checks} {k i : SiteId}
    (hn : ∀ c ∈ env.callSites.values, c.id < k) (hi : k ≤ i) (d : DeclId) :
    (WovenProgram.mk env (weave env plan checks)).codesAt d (.afterCall i) = [] := by
  rw [WovenProgram.codesAt, List.map_eq_nil_iff]
  refine List.filter_eq_nil_iff.mpr fun c hc => ?_
  rcases List.mem_append.mp hc with hc | hc
  · obtain ⟨⟨id, s⟩, _, hc⟩ := List.mem_flatMap.mp hc
    obtain ⟨x, hx, rfl⟩ := List.mem_map.mp hc
    simp [memberCodes_point x hx]
  · split at hc
    · obtain ⟨site, hsite, hc⟩ := List.mem_flatMap.mp hc
      have hlt := hn site hsite
      rw [siteCodes] at hc
      split at hc
      · exact absurd hc List.not_mem_nil
      · obtain rfl := List.mem_singleton.mp hc
        simp [Nat.ne_of_lt (Nat.lt_of_lt_of_le hlt hi)]
    · exact absurd hc List.not_mem_nil

end Contract

theorem Run.recheck_fresh {env : Env} {plan : ContractPlan} {checks : Checks} {k i : SiteId}
    (hn : ∀ c ∈ env.callSites.values, c.id < k) (hi : k ≤ i) (limit bound : Nat) (d d' : DeclId) :
    (calls ⟨env, Contract.weave env plan checks⟩ limit bound).recheck d i =
      (calls ⟨env, Contract.weave env plan checks⟩ limit bound).recheck d' k := by
  cases bound with
  | zero => rfl
  | succ bound =>
      simp only [calls, recheckWith, Contract.codesAt_fresh hn hi,
        Contract.codesAt_fresh hn (Nat.le_refl k)]
      rfl

/-! ## The terms of a specification -/

namespace Contract

/-- What is known of a term in `old`, where calls of clauses are numbered from `k` on. -/
structure OldTerm (k : SiteId) (x : Expr) : Prop where
  printable : x.Printable
  sites : ∀ i ∈ x.sites, k ≤ i

section

variable {p : Surface.Program} {env : Env}

/-- The classes of fields are words: they are types of the program. -/
theorem owners_words (hp : p.WellFormed) (h : Typing.checkProgram p = .ok env) :
    ∀ id f, env.field? id = some f → IsWord f.owner := by
  obtain ⟨env₀, _, h₀, _, _, _, rfl⟩ := Typing.checkProgram_elab hp h
  intro id f hf
  obtain ⟨t, ht, howner⟩ := Env.owner_of_field h₀ id f hf
  exact howner ▸ (hp.types t ht).name

theorem ConditionOf.oldTerms {k : SiteId} {r : ClauseRecord} {c : BoundClause}
    (howners : ∀ id f, env.field? id = some f → IsWord f.owner) (h : ConditionOf env k r c) :
    c.expr.slotNumbers = [] ∧ ∀ x ∈ c.expr.oldTerms, OldTerm k x := by
  cases h with
  | @mk s e t cs hs hsub he hl hn hf ht =>
      have hscope : (s.typing env).OfClause := ⟨rfl, howners⟩
      refine ⟨he.slotNumbers, fun x hx => ⟨?_, fun i hi => hn i ?_⟩⟩
      · exact he.oldTerms_printable hscope hl hf x hx
      · exact he.sites_subset i (Expr.sites_oldTerms t x hx i hi)

theorem unscheduled_of_oldTerms {k : SiteId} {clauses : List BoundClause}
    (h : ∀ c ∈ clauses, c.expr.slotNumbers = [] ∧ ∀ x ∈ c.expr.oldTerms, OldTerm k x) :
    ∀ c ∈ clauses, Unscheduled c.expr.oldTerms c.expr.slotNumbers := fun c hc =>
  ⟨fun x hx => ((h c hc).2 x hx).printable.oldTerms, (h c hc).1⟩

/-- The postconditions of a specification are as binding makes them. -/
theorem oldTerms_of_specification {records : List ClauseRecord} {k : SiteId} {id : DeclId}
    {s : Specification} (howners : ∀ id f, env.field? id = some f → IsWord f.owner)
    (hs : (specifications env (bind env records k).decls).get? id = some s) :
    ∀ c ∈ s.postconditions, c.expr.slotNumbers = [] ∧ ∀ x ∈ c.expr.oldTerms, OldTerm k x := by
  obtain ⟨m, _, rfl, _⟩ := get?_specifications hs
  intro c hc
  obtain ⟨own, hown, hc⟩ := List.mem_flatMap.mp hc
  obtain ⟨id', _, hfrom⟩ := mem_lineage (bind_fromRecords env records k).own hown
  obtain ⟨r, _, _, hr⟩ := hfrom.post c hc
  exact hr.oldTerms howners

end

end Contract

/-! ## Values at entry -/

/-- The frame in which a member evaluates what it stores at entry. -/
def Run.entryFrame (m : MethodInfo) (this : Option Ref) (args : List Value) (slots : Slots) :
    Frame :=
  { Frame.start m.id this args with scopes := paramScopes m args, slots }

/-- Whether two terms end alike at every entry of a member: for every receiver, all arguments and
every machine. -/
def SameAtEntry (p : WovenProgram) (m : MethodInfo) (a b : Expr) : Prop :=
  ∀ limit bound this args slots,
    Run.eval p.env (Run.calls p limit bound) (Run.entryFrame m this args slots) a =
      Run.eval p.env (Run.calls p limit bound) (Run.entryFrame m this args slots) b

theorem sameAtEntry_equivalence (p : WovenProgram) (m : MethodInfo) :
    Equivalence (SameAtEntry p m) where
  refl _ := fun _ _ _ _ _ => rfl
  symm h := fun limit bound this args slots => (h limit bound this args slots).symm
  trans h h' := fun limit bound this args slots =>
    (h limit bound this args slots).trans (h' limit bound this args slots)

/-- The terms that a member stores at entry. -/
def Contract.storedTerms (snapshots : Table DeclId Snapshot) (id : DeclId) : List Expr :=
  ((snapshots.get? id).map (·.slots)).getD []

theorem Contract.storedTerms_schedule {env : Env} {specs : Table DeclId Specification}
    {id : DeclId} {s : Specification} (hn : specs.keys.Nodup) (hs : specs.get? id = some s) :
    storedTerms (schedule env specs).2 id = (scheduleOne s).2 := by
  rw [storedTerms, get?_schedule_snapshots hn, hs]
  cases h : (scheduleOne s).2 <;> simp [h]

section

variable {source : String} {p : Surface.Program} {env : Env} {specs : Table DeclId Specification}

/-- Terms of a specification that read alike and whose words mean the same are the same at every
entry. -/
theorem sameAtEntry_of_meanings (hp : Parse.program source = .ok p)
    (henv : Typing.checkProgram p = .ok env) {checks : Checks} {m : MethodInfo} {a b : Expr}
    (ha : Contract.OldTerm p.siteCount a) (hb : Contract.OldTerm p.siteCount b)
    (htext : a.text = b.text) (hmeanings : a.meanings = b.meanings) :
    SameAtEntry ⟨env, Contract.weave env (.ofProgram p env) checks⟩ m a b := by
  have hsites : ∀ c ∈ env.callSites.values, c.id < p.siteCount := fun c hc =>
    Typing.callSites_lt (Parse.program_wellFormed hp) henv hc
  intro limit bound this args slots
  have fresh {x : Expr} (hx : Contract.OldTerm p.siteCount x) :
      Run.ChecksAs (Run.calls ⟨env, Contract.weave env (.ofProgram p env) checks⟩ limit bound)
        (Run.entryFrame m this args slots) p.siteCount x.sites := fun i hi =>
    Run.recheck_fresh hsites (hx.sites i hi) limit bound _ _
  exact Run.eval_eq_of_text ha.printable hb.printable (fresh ha) (fresh hb) htext hmeanings

/-- `old` is right in the postconditions of a member, its own and those that it inherits, just if
any two of their terms that read alike and mean different things have the same value at every
entry. -/
theorem old_right_iff (hp : Parse.program source = .ok p)
    (henv : Typing.checkProgram p = .ok env)
    (hspecs : specs = Contract.specifications env
      (Contract.bind env (Clause.ofProgram p) p.siteCount).decls)
    {m : MethodInfo} {s s' : Specification} (hs : specs.get? m.id = some s)
    (hs' : (Contract.schedule env specs).1.get? m.id = some s') (checks : Checks) :
    Contract.OldTermsStored
        (SameAtEntry ⟨env, Contract.weave env (.ofProgram p env) checks⟩ m)
        (Contract.storedTerms (Contract.schedule env specs).2 m.id)
        s.postconditions s'.postconditions ↔
      ∀ a ∈ Contract.oldTermsOf s.postconditions, ∀ b ∈ Contract.oldTermsOf s.postconditions,
        Contract.sharesSlot a b = true → a.meanings ≠ b.meanings →
          SameAtEntry ⟨env, Contract.weave env (.ofProgram p env) checks⟩ m a b := by
  have howners := Contract.owners_words (Parse.program_wellFormed hp) henv
  subst hspecs
  have hterms := Contract.oldTerms_of_specification howners hs
  have hn := Contract.keys_specifications env
    (Contract.bind env (Clause.ofProgram p) p.siteCount).decls (methodsKeyed_of_check henv).nodup
  rw [Contract.get?_schedule_specs, hs, Option.map_some, Option.some.injEq] at hs'
  subst hs'
  rw [Contract.storedTerms_schedule hn hs]
  have hunscheduled := Contract.unscheduled_of_oldTerms hterms
  rw [Contract.oldTermsStored_iff (sameAtEntry_equivalence _ m) hunscheduled]
  have hold : ∀ x ∈ Contract.oldTermsOf s.postconditions, Contract.OldTerm p.siteCount x := by
    intro x hx
    obtain ⟨c, hc, hx⟩ := List.mem_flatMap.mp hx
    exact (hterms c hc).2 x hx
  constructor
  · exact fun h a ha b hb hshare _ => h a ha b hb hshare
  · intro h a ha b hb hshare
    by_cases hmeanings : a.meanings = b.meanings
    · have htext : a.text = b.text := by
        simp only [Contract.sharesSlot, Bool.and_eq_true, beq_iff_eq] at hshare
        exact hshare.2
      exact sameAtEntry_of_meanings hp henv (hold a ha) (hold b hb) htext hmeanings
    · exact h a ha b hb hshare hmeanings

end

/-! ## Two terms in one slot -/

/-- A postcondition with two calls that read alike and go to different classes. -/
def ambiguousSource : String :=
  "class A { static int f() { return 1; } }
   class B { static int f() { return 2; } }
   class Main {
    /** @post | old(A.f()) + old(B.f()) == 3 */
    static int g() { return 0; }
  }"

/-- The value of a term at the entry of a member that is invoked on the first machine. -/
def entryValue (p : WovenProgram) (m : MethodInfo) (x : Expr) : Option (Except Unwind Value) :=
  (Run.ends (Run.eval p.env (Run.calls p 8 2) (Run.entryFrame m none [] .empty) x) .initial).map
    (·.1)

theorem SameAtEntry.entryValue {p : WovenProgram} {m : MethodInfo} {a b : Expr}
    (h : SameAtEntry p m a b) : entryValue p m a = entryValue p m b := by
  rw [Covenant.entryValue, h 8 2 none [] .empty, Covenant.entryValue]

/-- The two terms share a slot and have different values. -/
theorem ambiguousSource_terms :
    ∃ p env m s a b, Parse.program ambiguousSource = .ok p ∧ Typing.checkProgram p = .ok env ∧
      (Contract.specifications env
        (Contract.bind env (Clause.ofProgram p) p.siteCount).decls).get? m.id = some s ∧
      a ∈ Contract.oldTermsOf s.postconditions ∧ b ∈ Contract.oldTermsOf s.postconditions ∧
      Contract.sharesSlot a b = true ∧
      entryValue ⟨env, Contract.weave env (.ofProgram p env) {}⟩ m a ≠
        entryValue ⟨env, Contract.weave env (.ofProgram p env) {}⟩ m b := by
  have h : (do
      let p ← (Parse.program ambiguousSource).toOption
      let env ← (Typing.checkProgram p).toOption
      let m ← env.method? 5
      let s ← (Contract.specifications env
        (Contract.bind env (Clause.ofProgram p) p.siteCount).decls).get? m.id
      let a ← (Contract.oldTermsOf s.postconditions)[0]?
      let b ← (Contract.oldTermsOf s.postconditions)[1]?
      return Contract.sharesSlot a b &&
        entryValue ⟨env, Contract.weave env (.ofProgram p env) {}⟩ m a !=
          entryValue ⟨env, Contract.weave env (.ofProgram p env) {}⟩ m b) = some true := by
    set_option maxRecDepth 20000 in
    rw [show ambiguousSource = String.ofList _ from rfl, Parse.program_ofList]
    decide +kernel
  simp only [Option.bind_eq_bind, Option.bind_eq_some_iff] at h
  obtain ⟨p, hp, env, henv, m, _, s, hs, a, ha, b, hb, h⟩ := h
  simp only [Option.pure_def, Option.some.injEq, Bool.and_eq_true, bne_iff_ne] at h
  have ok {ε α : Type} {x : Except ε α} {v : α} (hx : x.toOption = some v) : x = .ok v := by
    cases x <;> simp_all [Except.toOption]
  exact ⟨p, env, m, s, a, b, ok hp, ok henv, hs, List.mem_of_getElem? ha, List.mem_of_getElem? hb,
    h.1, h.2⟩

theorem old_right_iff_ambiguous :
    ∃ p env specs m s s', Parse.program ambiguousSource = .ok p ∧
      Typing.checkProgram p = .ok env ∧
      specs = Contract.specifications env
        (Contract.bind env (Clause.ofProgram p) p.siteCount).decls ∧
      specs.get? m.id = some s ∧ (Contract.schedule env specs).1.get? m.id = some s' ∧
      (Contract.OldTermsStored
          (SameAtEntry ⟨env, Contract.weave env (.ofProgram p env) {}⟩ m)
          (Contract.storedTerms (Contract.schedule env specs).2 m.id)
          s.postconditions s'.postconditions ↔
        ∀ a ∈ Contract.oldTermsOf s.postconditions, ∀ b ∈ Contract.oldTermsOf s.postconditions,
          Contract.sharesSlot a b = true → a.meanings ≠ b.meanings →
            SameAtEntry ⟨env, Contract.weave env (.ofProgram p env) {}⟩ m a b) := by
  obtain ⟨p, env, m, s, _, _, hp, henv, hs, _⟩ := ambiguousSource_terms
  have hs' := Contract.get?_schedule_specs env (Contract.specifications env
    (Contract.bind env (Clause.ofProgram p) p.siteCount).decls) m.id
  rw [hs, Option.map_some] at hs'
  exact ⟨p, env, _, m, s, _, hp, henv, rfl, hs, hs', old_right_iff hp henv rfl hs hs' {}⟩

/-- So one of the two reads the value of the other. -/
theorem old_mixed_up :
    ∃ p env specs m s s', Parse.program ambiguousSource = .ok p ∧
      Typing.checkProgram p = .ok env ∧
      specs = Contract.specifications env
        (Contract.bind env (Clause.ofProgram p) p.siteCount).decls ∧
      specs.get? m.id = some s ∧ (Contract.schedule env specs).1.get? m.id = some s' ∧
      ¬ Contract.OldTermsStored
          (SameAtEntry ⟨env, Contract.weave env (.ofProgram p env) {}⟩ m)
          (Contract.storedTerms (Contract.schedule env specs).2 m.id)
          s.postconditions s'.postconditions := by
  obtain ⟨p, env, m, s, a, b, hp, henv, hs, ha, hb, hshare, hne⟩ := ambiguousSource_terms
  have hs' := Contract.get?_schedule_specs env (Contract.specifications env
    (Contract.bind env (Clause.ofProgram p) p.siteCount).decls) m.id
  rw [hs, Option.map_some] at hs'
  refine ⟨p, env, _, m, s, _, hp, henv, rfl, hs, hs', fun hright => ?_⟩
  have hn := Contract.keys_specifications env
    (Contract.bind env (Clause.ofProgram p) p.siteCount).decls (methodsKeyed_of_check henv).nodup
  rw [Contract.storedTerms_schedule hn hs] at hright
  have hterms := Contract.oldTerms_of_specification
    (Contract.owners_words (Parse.program_wellFormed hp) henv) hs
  have hunscheduled := Contract.unscheduled_of_oldTerms hterms
  have hsame := (Contract.oldTermsStored_iff (sameAtEntry_equivalence _ m) hunscheduled).mp hright
    a ha b hb hshare
  exact hne hsame.entryValue

end Covenant
