import Covenant.Proofs.Obligations
import Covenant.Proofs.Searches

/-!
# Closed sets are what chains of calls mutate

A closed set is collected along licensed calls, and a call back to a member that is
on the way is cut. The cut loses nothing: whatever is collected comes along a chain
of different members, and what comes along such a chain is collected, because none
of its calls leads back. So `closed_iff_chain` says what is in a closed set without
speaking of any search. Of paths that differ in types only one is kept.
-/

namespace Covenant

namespace Effect

/-! ## Targets are paths -/

mutual

/-- What is accepted as a target has a path. -/
theorem Path.exists_of? {params : List (String × Ty)} : ∀ e : Typed.Expr,
    Contract.isPath e = true → ∃ p, Path.of? params e = some p
  | .this .., _ => ⟨_, rfl⟩
  | .param .., _ => ⟨_, rfl⟩
  | .staticField .., _ => ⟨_, rfl⟩
  | .field _ _ o _, h => by
    obtain ⟨p, hp⟩ := Path.exists_of? o h
    exact ⟨_, by rw [Path.of?, hp, Option.map_some]⟩
  | .spread _ x, h => by
    obtain ⟨p, hp⟩ := Path.exists_of? x h
    exact ⟨_, by rw [Path.of?, hp, Option.map_some]⟩
  | .call _ _ _ receiver _ _ args, h => by
    obtain ⟨hargs, hreceiver⟩ := Bool.and_eq_true_iff.mp h
    obtain ⟨p, hp⟩ := Path.exists_ofOpt? receiver hreceiver
    exact ⟨_, by rw [Path.of?, if_pos hargs, hp, Option.map_some]⟩

theorem Path.exists_ofOpt? {params : List (String × Ty)} : ∀ e : Option Typed.Expr,
    Contract.isReceiverPath e = true → ∃ p, Path.ofOpt? params e = some p
  | some e, h => Path.exists_of? e h

end

/-! ## Chains -/

variable {env : Env} {specs : Table DeclId Specification} {id : DeclId}

/-- What a member mutates itself: its targets, and the new object if it is a constructor. -/
inductive OwnPath (env : Env) (specs : Table DeclId Specification) (id : DeclId) : Path → Prop
  | target {m s c p} (member : env.method? id = some m) (spec : specs.get? id = some s)
      (target : c ∈ s.effects.mutates) (path : Path.of? [] c.expr = some p) : OwnPath env specs id p
  | created {m s} (member : env.method? id = some m) (spec : specs.get? id = some s)
      (constructor : m.isConstructor = true) : OwnPath env specs id (.this m.owner)

/-- A method call in the body of a member on an object whose path is covered by something of which
the member mutates the properties. -/
structure LicensedCall (env : Env) (specs : Table DeclId Specification) (m : MethodInfo)
    (id : DeclId) (site : CallSite) (receiver : Path) : Prop where
  member : env.method? id = some m
  inBody : site ∈ env.callSitesOf id
  method : site.kind = .method
  object : ∃ e, site.receiver = some e ∧ Path.of? m.params e = some receiver
  licence : ∃ s, specs.get? id = some s ∧ ∃ c ∈ s.effects.mutatesProperties, ∃ p,
    Path.of? [] c.expr = some p ∧ p.dominates receiver = true

/-- A chain of licensed calls from a member through others to one that mutates a path itself; and
that path in the frame of the member where the chain begins, which every call on the way has put
into the frame of its caller. -/
inductive Chain (env : Env) (specs : Table DeclId Specification) :
    DeclId → List DeclId → Path → Prop
  | own {id p} (own : OwnPath env specs id p) : Chain env specs id [id] p
  | call {id m site receiver ids p q} (call : LicensedCall env specs m id site receiver)
      (rest : Chain env specs site.callee ids p)
      (image : p.substitute (some receiver) (site.args.map (Path.of? m.params)) = some q) :
      Chain env specs id (id :: ids) q

theorem mem_ownTargets {m : MethodInfo} {s : Specification} (hm : env.method? id = some m)
    (hs : specs.get? id = some s) {q : Path} : q ∈ ownTargets m s ↔ OwnPath env specs id q := by
  rw [ownTargets, List.mem_append, paths, List.mem_filterMap]
  constructor
  · rintro (hq | ⟨c, hc, hpath⟩)
    · split at hq
      · next hctor =>
          obtain rfl := List.mem_singleton.mp hq
          exact .created hm hs hctor
      · exact absurd hq List.not_mem_nil
    · exact .target hm hs hc hpath
  · rintro (⟨hm', hs', hc, hpath⟩ | ⟨hm', hs', hctor⟩)
    · obtain rfl := Option.some.inj (hs.symm.trans hs')
      exact .inr ⟨_, hc, hpath⟩
    · obtain rfl := Option.some.inj (hm.symm.trans hm')
      exact .inl (by rw [if_pos hctor]; exact List.mem_singleton_self _)

/-- The members of a chain are members of the program. -/
theorem Chain.known {ids : List DeclId} {q : Path} (h : Chain env specs id ids q) :
    ids ⊆ env.methods.keys := by
  have known {id : DeclId} {m : MethodInfo} (hm : env.method? id = some m) :
      id ∈ env.methods.keys := List.mem_map.mpr ⟨_, Table.mem_of_get? hm, rfl⟩
  induction h with
  | own hown =>
      refine List.cons_subset.mpr ⟨?_, List.nil_subset _⟩
      cases hown with
      | target hm | created hm => exact known hm
  | call hcall _ _ ih => exact List.cons_subset.mpr ⟨known hcall.member, ih⟩

section

variable {classes : Table DeclId EffectClass} {n : Nat} {visiting : List DeclId}

/-- Members that differ, none of which is on the way already, and all of which are declared. -/
structure Fresh (classes : Table DeclId EffectClass) (visiting ids : List DeclId) : Prop where
  nodup : ids.Nodup
  new : ∀ i ∈ ids, i ∉ visiting
  declared : ∀ i ∈ ids, classOf classes i = .declared

theorem Fresh.cons {ids : List DeclId} (hid : classOf classes id = .declared) (hnew : id ∉ visiting)
    (h : Fresh classes (id :: visiting) ids) : Fresh classes visiting (id :: ids) where
  nodup := List.nodup_cons.mpr ⟨fun hmem => h.new id hmem List.mem_cons_self, h.nodup⟩
  new := List.forall_mem_cons.mpr
    ⟨hnew, fun i hi hvisited => h.new i hi (List.mem_cons_of_mem _ hvisited)⟩
  declared := List.forall_mem_cons.mpr ⟨hid, h.declared⟩

theorem Fresh.tail {ids : List DeclId} (h : Fresh classes visiting (id :: ids)) :
    Fresh classes (id :: visiting) ids where
  nodup := (List.nodup_cons.mp h.nodup).2
  new i hi hvisited := by
    rcases List.mem_cons.mp hvisited with rfl | hvisited
    · exact (List.nodup_cons.mp h.nodup).1 hi
    · exact h.new i (List.mem_cons_of_mem _ hi) hvisited
  declared i hi := h.declared i (List.mem_cons_of_mem _ hi)

/-- Whatever is collected comes along a chain. -/
theorem chain_of_mem {q : Path} (hq : q ∈ closureFrom env specs classes n visiting id) :
    ∃ ids, Chain env specs id ids q ∧ Fresh classes visiting ids := by
  induction n generalizing visiting id q with
  | zero => exact absurd hq List.not_mem_nil
  | succ n ih =>
      obtain ⟨_, m, s, ⟨⟩, hid, hnew, hm, hs, hq⟩ := closureFrom_cases hq
      rcases hq with hown | ⟨site, hsite, receiver, hr, hq⟩
      · have hchain := Chain.own ((mem_ownTargets hm hs).mp hown)
        exact ⟨[id], hchain, .cons hid hnew ⟨List.nodup_nil, nofun, nofun⟩⟩
      · obtain ⟨p, hp, himage⟩ := List.mem_filterMap.mp hq
        obtain ⟨ids, hchain, hids⟩ := ih hp
        obtain ⟨hkind, hreceiver, hlicence⟩ := licensedReceiver?_eq_some.mp hr
        have hcall : LicensedCall env specs m id site receiver :=
          ⟨hm, hsite, hkind, hreceiver, s, hs, hlicence⟩
        exact ⟨id :: ids, .call hcall hchain himage, .cons hid hnew hids⟩

/-- Of paths that are the same one is kept. -/
theorem pairwise_closureFrom :
    (closureFrom env specs classes n visiting id).Pairwise fun p q => p.same q = false := by
  cases n with
  | zero => exact .nil
  | succ n =>
      rw [closureFrom]
      split
      · exact .nil
      · split
        · exact pairwise_firsts _
        · exact .nil

theorem closureFrom_succ {m : MethodInfo} {s : Specification}
    (hid : classOf classes id = .declared) (hnew : id ∉ visiting) (hm : env.method? id = some m)
    (hs : specs.get? id = some s) :
    closureFrom env specs classes (n + 1) visiting id =
      firsts Path.same (ownTargets m s ++ (env.callSitesOf id).flatMap fun site =>
        match licensedReceiver? m s site with
        | some receiver => callTargets m site receiver
            (closureFrom env specs classes n (id :: visiting) site.callee)
        | none => []) := by
  have hopen : ¬(classOf classes id != .declared || visiting.contains id) = true := by
    simp [hid, hnew]
  rw [closureFrom, if_neg hopen]
  split
  · next s' m' hs' hm' =>
      obtain rfl := Option.some.inj (hs.symm.trans hs')
      obtain rfl := Option.some.inj (hm.symm.trans hm')
      rfl
  · next hno => exact absurd hm (hno s m hs)

/-- What comes along a chain of members that are not on the way is collected, if the bound exceeds
the length of the chain: as one of the paths that are the same. -/
theorem exists_mem_of_chain {ids : List DeclId} {q : Path} (h : Chain env specs id ids q)
    (hids : Fresh classes visiting ids) (hn : ids.length ≤ n) :
    ∃ p ∈ closureFrom env specs classes n visiting id, p.same q = true := by
  induction h generalizing n visiting with
  | @own id q hown =>
      obtain ⟨k, rfl⟩ := Nat.exists_eq_add_of_lt hn
      have hid := hids.declared id List.mem_cons_self
      have hnew := hids.new id List.mem_cons_self
      obtain ⟨m, s, hm, hs⟩ : ∃ m s, env.method? id = some m ∧ specs.get? id = some s := by
        cases hown with
        | target hm hs | created hm hs => exact ⟨_, _, hm, hs⟩
      rw [closureFrom_succ hid hnew hm hs]
      exact exists_mem_firsts Path.same_refl
        (List.mem_append_left _ ((mem_ownTargets hm hs).mpr hown))
  | @call id m site receiver ids p q hcall _ himage ih =>
      obtain ⟨k, rfl⟩ : ∃ k, n = k + 1 := ⟨n - 1, by rw [List.length_cons] at hn; omega⟩
      have hid := hids.declared id List.mem_cons_self
      have hnew := hids.new id List.mem_cons_self
      obtain ⟨s, hs, hlicence⟩ := hcall.licence
      obtain ⟨p', hp', hsame⟩ := ih hids.tail (Nat.le_of_succ_le_succ hn)
      obtain ⟨q', himage', hsame'⟩ := Path.substitute_same (Path.same_symm hsame) himage
      have hr : licensedReceiver? m s site = some receiver :=
        licensedReceiver?_eq_some.mpr ⟨hcall.method, hcall.object, hlicence⟩
      have hq' : q' ∈ callTargets m site receiver
          (closureFrom env specs classes k (id :: visiting) site.callee) :=
        List.mem_filterMap.mpr ⟨p', hp', himage'⟩
      have hcollected : q' ∈ (env.callSitesOf id).flatMap fun site =>
          match licensedReceiver? m s site with
          | some receiver => callTargets m site receiver
              (closureFrom env specs classes k (id :: visiting) site.callee)
          | none => [] :=
        List.mem_flatMap.mpr ⟨site, hcall.inBody, by simpa only [hr] using hq'⟩
      obtain ⟨r, hkept, hsame''⟩ :=
        exists_mem_firsts Path.same_refl (List.mem_append_right (ownTargets m s) hcollected)
      rw [closureFrom_succ hid hnew hcall.member hs]
      exact ⟨r, hkept, Path.same_trans hsame'' (Path.same_symm hsame')⟩

end

/-- A chain of different members is no longer than there are members. -/
theorem Chain.length_le {ids : List DeclId} {q : Path} (h : Chain env specs id ids q)
    (hn : ids.Nodup) : ids.length ≤ env.methods.size := OnTheWay.length_le ⟨hn, h.known⟩

end Effect

open Effect

/-- The closed set of a declared member has, up to types, just the paths that come along chains of
licensed calls through different declared members, and none of them twice. Every target of a member
has its path, so none is lost. However the calls go round, the search with one set of members on the
way comes to an end with this set, and leaves none on the way. -/
theorem closed_iff_chain {source : String} {checks : Checks} {b : Build}
    (h : build source checks = .ok b) {id : DeclId}
    (hd : b.plan.effects.classOf id = .declared) :
    ∃ closed, b.plan.effects.closures.get? id = some closed ∧
      (∀ q : Path, (∃ p ∈ closed, p.same q = true) ↔
        ∃ ids p, Chain b.program.env b.plan.specs id ids p ∧ ids.Nodup ∧
          (∀ i ∈ ids, b.plan.effects.classOf i = .declared) ∧ p.same q = true) ∧
      closed.Pairwise (fun p q => p.same q = false) ∧
      (∀ i s, b.plan.specs.get? i = some s → ∀ c ∈ s.effects.mutates,
        ∃ p, Path.of? [] c.expr = some p ∧ OwnPath b.program.env b.plan.specs i p) ∧
      ∀ n, b.program.env.methods.size < n →
        (collect b.program.env b.plan.specs b.plan.effects.classes n id).run [] =
          some (closed, []) := by
  have hkeyed := methodsKeyed_of_build h
  have hclasses : b.plan.effects.classes = classifyAll b.program.env b.plan.specs := by
    rw [effects_of_build h]
    rfl
  rw [EffectAnalysis.classOf, hclasses] at hd
  simp only [EffectAnalysis.classOf, hclasses]
  refine ⟨closure b.program.env b.plan.specs (classifyAll b.program.env b.plan.specs) id,
    ?_, fun q => ⟨?_, ?_⟩, pairwise_closureFrom, ?_, ?_⟩
  · rw [effects_of_build h]
    exact get?_closures hkeyed.nodup hd
  · rintro ⟨p, hp, hsame⟩
    obtain ⟨ids, hchain, hids⟩ := chain_of_mem hp
    exact ⟨ids, p, hchain, hids.nodup, hids.declared, hsame⟩
  · rintro ⟨ids, p, hchain, hn, hdeclared, hsame⟩
    have hfresh : Fresh (classifyAll b.program.env b.plan.specs) [] ids :=
      ⟨hn, fun _ _ => List.not_mem_nil, hdeclared⟩
    obtain ⟨p', hp', hsame'⟩ :=
      exists_mem_of_chain hchain hfresh (Nat.le_succ_of_le (hchain.length_le hn))
    exact ⟨p', hp', Path.same_trans hsame' hsame⟩
  · intro i s hs c hc
    obtain ⟨p, m, _, hp, hm, _⟩ := specs_of_build h hs
    obtain rfl := hkeyed.id_eq hm
    obtain ⟨r, _, _, htarget⟩ := targetsWritten_of_build h hp m s hm hs c hc
    obtain ⟨q, hq⟩ : ∃ q, Path.of? [] c.expr = some q := by
      cases htarget with
      | mk _ _ _ _ _ _ hpath => exact Path.exists_of? _ hpath
    exact ⟨q, hq, .target hm hs hc hq⟩
  · intro n hn
    rw [collect_run (.nil _) hn, Effect.closure,
      closureFrom_of_bound (.nil _) hn (Nat.lt_succ_self _)]

/-- Two methods call each other along a list. -/
def listSource : String :=
  "class Node {
     int v;
     Node next;
     /** @mutates | this.v
       * @mutates_properties | this.next */
     void ping(int n) { v = n; next.pong(n); }
     /** @mutates | this.next
       * @mutates_properties | this.next */
     void pong(int n) { next.ping(n); }
   }"

/-- Evaluates what is said of `listSource`. -/
def listCheck : Option Bool := do
  let b ← (build listSource {}).toOption
  let ping ← b.program.env.methodNamed? "Node.ping"
  let closed ← b.plan.effects.closures.get? ping.id
  return decide (b.plan.effects.classOf ping.id = .declared ∧
    closed.map Path.text = ["this.v", "this.next.next"])

/-- Each path of a closed set comes along a chain, though the calls go round. -/
theorem closed_iff_chain_list :
    ∃ (b : Build) (ping : MethodInfo) (closed : List Path), build listSource {} = .ok b ∧
      b.plan.effects.classOf ping.id = .declared ∧
      b.plan.effects.closures.get? ping.id = some closed ∧
      closed.map Path.text = ["this.v", "this.next.next"] ∧
      ∀ q ∈ closed, ∃ ids p, Chain b.program.env b.plan.specs ping.id ids p ∧ ids.Nodup ∧
        p.same q = true := by
  have h : listCheck = some true := by
    set_option maxRecDepth 20000 in
    rw [listCheck, show listSource = String.ofList _ from rfl, build_ofList]
    decide +kernel
  simp only [listCheck, Option.bind_eq_bind, Option.bind_eq_some_iff] at h
  obtain ⟨b, hb, ping, _, closed, hclosed, h⟩ := h
  simp only [Option.pure_def, Option.some.injEq, decide_eq_true_eq] at h
  obtain ⟨hd, htexts⟩ := h
  obtain ⟨closed', hclosed', hchains, _⟩ := closed_iff_chain (ok_of_toOption hb) hd
  obtain rfl := Option.some.inj (hclosed'.symm.trans hclosed)
  refine ⟨b, ping, closed', ok_of_toOption hb, hd, hclosed, htexts, fun q hq => ?_⟩
  obtain ⟨ids, p, hchain, hn, _, hsame⟩ := (hchains q).mp ⟨q, hq, Path.same_refl q⟩
  exact ⟨ids, p, hchain, hn, hsame⟩

end Covenant
