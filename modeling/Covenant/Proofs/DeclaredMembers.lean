import Covenant.Proofs.Declared
import Covenant.Proofs.ParsedProgram

/-!
# The members of a type

Reading the members of a type makes a list of fields, methods and constructors
out of them. `Env.MembersOf` says what each of these was read from, and
`Env.mem_of_members` and `Env.ids_of_members` that none was left out. No more of
the environment matters than which types there are.
-/

namespace Covenant

/-- A fold keeps a property that speaks of the elements behind it and in front of it. -/
theorem foldlM_stages {ε α β : Type} {P : List α → List α → β → Prop} {f : β → α → Except ε β}
    {l : List α} (step : ∀ done a todo b b', done ++ a :: todo = l → P done (a :: todo) b →
      f b a = .ok b' → P (done ++ [a]) todo b') {b b' : β}
    (start : P [] l b) (h : l.foldlM f b = .ok b') : P l [] b' := by
  suffices hall : ∀ todo done b, done ++ todo = l → P done todo b → todo.foldlM f b = .ok b' →
      P l [] b' from hall l [] b rfl start h
  intro todo
  induction todo with
  | nil =>
      intro done b hl hb h
      cases h
      rw [List.append_nil] at hl
      exact hl ▸ hb
  | cons a todo ih =>
      intro done b hl hb h
      rw [List.foldlM_cons, bind_eq_ok] at h
      obtain ⟨b₁, h₁, h⟩ := h
      exact ih (done ++ [a]) b₁ (by rw [List.append_assoc]; exact hl) (step done a todo b b₁ hl hb h₁) h

namespace Env

open Surface (Program TypeDecl Member MethodDecl)

/-! ## The members of one type -/

theorem resolveType_congr {env env' : Env}
    (h : ∀ n, env'.classes.contains n = env.classes.contains n) (t : Surface.TypeExpr) :
    env'.resolveType t = env.resolveType t := by
  induction t with
  | int | boolean => rfl
  | named span name => rw [resolveType, resolveType, h]
  | array span elem ih => rw [resolveType, resolveType, ih]

theorem resolveParams_congr {env env' : Env}
    (h : ∀ n, env'.classes.contains n = env.classes.contains n) (ps : List Surface.Param)
    (seen : List String) : env'.resolveParams seen ps = env.resolveParams seen ps := by
  induction ps generalizing seen with
  | nil => rfl
  | cons p ps ih => simp only [resolveParams, resolveType_congr h, ih]

theorem methodInfo_congr {env env' : Env}
    (h : ∀ n, env'.classes.contains n = env.classes.contains n) (owner : String) (d : MethodDecl) :
    env'.methodInfo owner d = env.methodInfo owner d := by
  simp only [methodInfo, resolveType_congr h, resolveParams_congr h]

/-- How a member is read depends on no more than which types there are. -/
theorem addMember_congr {env env' : Env}
    (h : ∀ n, env'.classes.contains n = env.classes.contains n) (owner : String) :
    env'.addMember owner = env.addMember owner := by
  funext ms m
  cases m with
  | field => simp only [addMember, resolveType_congr h]
  | constructor | method => simp only [addMember, methodInfo_congr h]
  | initializer => rfl

theorem resolveParams_ok {env : Env} {seen : List String} {ps : List Surface.Param}
    {params : List (String × Ty)} (h : env.resolveParams seen ps = .ok params) :
    (params.map (·.1)).Nodup ∧ (∀ n ∈ params.map (·.1), n ∉ seen) ∧
      ∀ x ∈ params, ∃ t, env.resolveType t = .ok x.2 := by
  induction ps generalizing seen params with
  | nil =>
      cases h
      exact ⟨List.nodup_nil, fun n hn => absurd hn List.not_mem_nil,
        fun x hx => absurd hx List.not_mem_nil⟩
  | cons p ps ih =>
      rw [resolveParams] at h
      split at h
      · exact absurd h not_typingFault
      · next hfresh =>
          obtain ⟨type, ht, h₁⟩ := bind_eq_ok.mp h
          obtain ⟨rest, hrest, h₂⟩ := bind_eq_ok.mp h₁
          cases h₂
          obtain ⟨hn, hnew, htypes⟩ := ih hrest
          refine ⟨?_, ?_, ?_⟩
          · exact List.nodup_cons.mpr ⟨fun hmem => hnew _ hmem List.mem_cons_self, hn⟩
          · intro n hn' hseen
            rcases List.mem_cons.mp hn' with rfl | hn'
            · exact hfresh (by simpa using hseen)
            · exact hnew n hn' (List.mem_cons_of_mem _ hseen)
          · intro x hx
            rcases List.mem_cons.mp hx with rfl | hx
            · exact ⟨_, ht⟩
            · exact htypes x hx

/-- A type that a declaration names, or none. -/
def Resolves (env : Env) : Option Surface.TypeExpr → Ty → Prop
  | some t, type => env.resolveType t = .ok type
  | none, type => type = .void

/-- What the signature of a method or constructor was read from. -/
structure SignatureOf (env : Env) (owner : String) (d : MethodDecl) (m : MethodInfo) : Prop where
  id : m.id = d.id
  name : m.name = d.name.val
  owner : m.owner = owner
  params : env.resolveParams [] d.params = .ok m.params
  returnType : env.Resolves d.returnType m.returnType
  isStatic : m.isStatic = d.isStatic
  isConstructor : m.isConstructor = d.isConstructor
  hasBody : m.hasBody = d.body.isSome

theorem methodInfo_ok {env : Env} {owner : String} {d : MethodDecl} {m : MethodInfo}
    (h : env.methodInfo owner d = .ok m) : env.SignatureOf owner d m := by
  obtain ⟨params, hp, h₁⟩ := bind_eq_ok.mp h
  cases hd : d.returnType with
  | none =>
      simp only [hd] at h₁
      cases h₁
      exact ⟨rfl, rfl, rfl, hp, hd ▸ rfl, rfl, rfl, rfl⟩
  | some t =>
      simp only [hd] at h₁
      obtain ⟨returnType, hr, h₂⟩ := bind_eq_ok.mp h₁
      cases h₂
      exact ⟨rfl, rfl, rfl, hp, hd ▸ hr, rfl, rfl, rfl⟩

/-- What the members of a type were read from. -/
structure MembersOf (env : Env) (owner : String) (members : List Member) (ms : MemberList) :
    Prop where
  fields : ∀ f ∈ ms.fields, ∃ d type, .field d ∈ members ∧ env.resolveType d.type = .ok type ∧
    f = fieldOf owner d type
  methods : ∀ m ∈ ms.methods, ∃ d, .method d ∈ members ∧ env.SignatureOf owner d m
  ctors : ∀ m ∈ ms.ctors, ∃ d, .constructor d ∈ members ∧ env.SignatureOf owner d m
  items : ∀ i ∈ ms.initOrder, (∃ d, .field d ∈ members ∧ d.isStatic = false ∧ d.init.isSome = true ∧
    i = .field d.id) ∨ ∃ d, .initializer d ∈ members ∧ i = .block d.id
  fieldNames : (ms.fields.map (·.name)).Nodup
  signatures : ms.methods.Pairwise fun a b => a.sameSignature b = false
  statics : ∀ m ∈ ms.methods, m.isStatic = true → m.hasBody = true

theorem membersOf {env : Env} {owner : String} {members : List Member} {ms : MemberList}
    (h : members.foldlM (env.addMember owner) {} = .ok ms) : env.MembersOf owner members ms := by
  refine members_induct (P := env.MembersOf owner members) h ?_ ?_
  · exact ⟨fun _ h => absurd h List.not_mem_nil, fun _ h => absurd h List.not_mem_nil,
      fun _ h => absurd h List.not_mem_nil, fun _ h => absurd h List.not_mem_nil,
      List.nodup_nil, .nil, fun _ h => absurd h List.not_mem_nil⟩
  · intro list m hm list' hl ha
    cases ha with
    | @field d type hn ht =>
        refine { hl with fields := ?_, items := ?_, fieldNames := ?_ }
        · intro f hf
          rcases List.mem_append.mp hf with hf | hf
          · exact hl.fields f hf
          · obtain rfl := List.mem_singleton.mp hf
            exact ⟨d, type, hm, ht, rfl⟩
        · intro i hi
          rcases List.mem_append.mp hi with hi | hi
          · exact hl.items i hi
          · split at hi
            · next hd =>
                obtain rfl := List.mem_singleton.mp hi
                rw [Bool.and_eq_true, Bool.not_eq_true'] at hd
                exact .inl ⟨d, hm, hd.1, hd.2, rfl⟩
            · exact absurd hi List.not_mem_nil
        · rw [List.map_append]
          refine List.nodup_append.mpr ⟨hl.fieldNames, by simp, ?_⟩
          rintro a ha b hb rfl
          obtain ⟨f, hf, rfl⟩ := List.mem_map.mp ha
          rw [List.any_eq_false] at hn
          exact hn f hf (by simpa [fieldOf] using List.mem_singleton.mp hb)
    | @constructor d info hi hn =>
        refine { hl with ctors := ?_ }
        intro c hc
        rcases List.mem_append.mp hc with hc | hc
        · exact hl.ctors c hc
        · obtain rfl := List.mem_singleton.mp hc
          exact ⟨d, hm, methodInfo_ok hi⟩
    | @method d info hi hn hb =>
        refine { hl with methods := ?_, signatures := ?_, statics := ?_ }
        · intro c hc
          rcases List.mem_append.mp hc with hc | hc
          · exact hl.methods c hc
          · obtain rfl := List.mem_singleton.mp hc
            exact ⟨d, hm, methodInfo_ok hi⟩
        · refine List.pairwise_append.mpr ⟨hl.signatures, List.pairwise_singleton _ _, ?_⟩
          intro a ha b hb
          obtain rfl := List.mem_singleton.mp hb
          rw [List.any_eq_false] at hn
          exact Bool.not_eq_true _ ▸ hn a ha
        · intro c hc hs
          rcases List.mem_append.mp hc with hc | hc
          · exact hl.statics c hc hs
          · obtain rfl := List.mem_singleton.mp hc
            exact hb hs
    | @initializer d =>
        refine { hl with items := ?_ }
        intro i hi
        rcases List.mem_append.mp hi with hi | hi
        · exact hl.items i hi
        · obtain rfl := List.mem_singleton.mp hi
          exact .inr ⟨d, hm, rfl⟩

/-- Every method and constructor of a type has been read. -/
theorem mem_of_members {env : Env} {owner : String} {members : List Member} {ms : MemberList}
    (h : members.foldlM (env.addMember owner) {} = .ok ms) {d : MethodDecl} :
    (.method d ∈ members → ∃ m ∈ ms.methods, env.SignatureOf owner d m) ∧
      (.constructor d ∈ members → ∃ m ∈ ms.ctors, env.SignatureOf owner d m) := by
  suffices hall : ∀ (members : List Member) (list : MemberList),
      members.foldlM (env.addMember owner) list = .ok ms →
      (∀ m ∈ list.methods, m ∈ ms.methods) ∧ (∀ m ∈ list.ctors, m ∈ ms.ctors) ∧
      (.method d ∈ members → ∃ m ∈ ms.methods, env.SignatureOf owner d m) ∧
      (.constructor d ∈ members → ∃ m ∈ ms.ctors, env.SignatureOf owner d m) from
    (hall members {} h).2.2
  intro members
  induction members with
  | nil =>
      intro list h
      cases h
      exact ⟨fun m hm => hm, fun m hm => hm, fun hd => absurd hd List.not_mem_nil,
        fun hd => absurd hd List.not_mem_nil⟩
  | cons m members ih =>
      intro list h
      rw [List.foldlM_cons, bind_eq_ok] at h
      obtain ⟨list', hm, h⟩ := h
      obtain ⟨hmethods, hctors, hmethod, hctor⟩ := ih list' h
      cases addMember_adds hm with
      | field | initializer =>
          exact ⟨hmethods, hctors, fun hd => hmethod (by simpa using hd),
            fun hd => hctor (by simpa using hd)⟩
      | @constructor d' info hi =>
          refine ⟨hmethods, fun m hm => hctors m (List.mem_append_left _ hm),
            fun hd => hmethod (by simpa using hd), fun hd => ?_⟩
          rcases List.mem_cons.mp hd with heq | hd
          · cases heq
            exact ⟨info, hctors info (by simp), methodInfo_ok hi⟩
          · exact hctor hd
      | @method d' info hi =>
          refine ⟨fun m hm => hmethods m (List.mem_append_left _ hm), hctors, fun hd => ?_,
            fun hd => hctor (by simpa using hd)⟩
          rcases List.mem_cons.mp hd with heq | hd
          · cases heq
            exact ⟨info, hmethods info (by simp), methodInfo_ok hi⟩
          · exact hmethod hd

/-- The numbers of what has been read are those of the declarations. -/
theorem ids_of_members {env : Env} {owner : String} {members : List Member} {ms : MemberList}
    (h : members.foldlM (env.addMember owner) {} = .ok ms) :
    ((ms.methods ++ ms.ctors).map (·.id) ++ (ms.fields.map (·.id) ++ ms.blocks)).Perm
      (members.map Member.id) := by
  refine foldlM_stages (P := fun done _ list => ((list.methods ++ list.ctors).map (·.id) ++
    (list.fields.map (·.id) ++ list.blocks)).Perm (done.map Member.id)) ?_ .nil h
  intro done m _ list list' _ hl hm
  show List.Perm _ ((done ++ [m]).map Member.id)
  rw [@List.map_append _ _ _ done]
  refine List.Perm.trans ?_ (hl.append_right [m.id])
  cases addMember_adds hm with
  | field =>
      simp only [List.map_append, List.append_assoc]
      refine List.Perm.append_left _ (List.Perm.append_left _ (List.Perm.append_left _ ?_))
      exact List.perm_append_comm
  | constructor hi =>
      simp only [List.map_append, List.append_assoc, List.map_cons, List.map_nil,
        (methodInfo_ok hi).id]
      refine List.Perm.append_left _ (List.Perm.append_left _
        (List.perm_append_comm.trans (.of_eq ?_)))
      simp only [List.append_assoc, Member.id]
  | method hi =>
      simp only [List.map_append, List.append_assoc, List.map_cons, List.map_nil,
        (methodInfo_ok hi).id]
      refine List.Perm.append_left _ (List.perm_append_comm.trans (.of_eq ?_))
      simp only [List.append_assoc, Member.id]
  | initializer =>
      simp only [List.append_assoc]
      exact List.Perm.refl _

end Env

end Covenant
