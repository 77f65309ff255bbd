import Covenant.Proofs.Purity
import Mathlib.Data.List.Perm.Subperm

/-!
# Searches along calls come to an end

The test for purity and the collection of closed sets go along calls, and neither
follows a call to a member that is on the way already. The members on the way are
different members of the program. So a search whose bound exceeds the number of
members, those on the way counted in, never gets to the bound, and what it answers
there decides nothing: any two such bounds give the same answer.

Both can be searched with one set of members on the way that each step adds itself
to and takes itself from. `searchPure` and `collect` do so and have no answer at all
at the bound. They do not get there, leave the set as it was, and answer the same;
the test for purity does so in whatever order it goes to callees.
-/

namespace Covenant.Effect

variable {env : Env} {specs : Table DeclId Specification} {visiting : List DeclId} {id : DeclId}

/-- The members on the way of a search. -/
structure OnTheWay (env : Env) (visiting : List DeclId) : Prop where
  nodup : visiting.Nodup
  known : visiting ⊆ env.methods.keys

namespace OnTheWay

theorem nil (env : Env) : OnTheWay env [] := ⟨List.nodup_nil, List.nil_subset _⟩

theorem cons {m : MethodInfo} (h : OnTheWay env visiting) (hm : env.method? id = some m)
    (hnew : id ∉ visiting) : OnTheWay env (id :: visiting) where
  nodup := List.nodup_cons.mpr ⟨hnew, h.nodup⟩
  known := List.cons_subset.mpr ⟨List.mem_map.mpr ⟨_, Table.mem_of_get? hm, rfl⟩, h.known⟩

/-- There is room for no more members on the way than there are. -/
theorem length_le (h : OnTheWay env visiting) : visiting.length ≤ env.methods.size :=
  calc visiting.length
    _ ≤ env.methods.keys.length := (h.nodup.subperm h.known).length_le
    _ = env.methods.size := List.length_map ..

/-- A bound that exceeds the number of members leaves a step to take. -/
theorem exists_succ (h : OnTheWay env visiting) {n : Nat}
    (hn : env.methods.size < n + visiting.length) : ∃ k, n = k + 1 :=
  Nat.exists_eq_succ_of_ne_zero fun hzero => by
    have := h.length_le
    omega

end OnTheWay

/-- The test for purity gives one answer for all bounds that exceed the number of members. -/
theorem isPureFrom_of_bound {n k : Nat} (h : OnTheWay env visiting)
    (hn : env.methods.size < n + visiting.length) (hk : env.methods.size < k + visiting.length) :
    isPureFrom env specs n visiting id = isPureFrom env specs k visiting id := by
  induction n generalizing k visiting id with
  | zero => exact absurd (h.exists_succ hn) (by simp)
  | succ n ih =>
      obtain ⟨k, rfl⟩ := h.exists_succ hk
      rw [Bool.eq_iff_iff, isPureFrom_succ, isPureFrom_succ]
      refine or_congr_right (and_congr_right fun _ => exists_congr fun returned =>
        and_congr_right fun hform => forall₂_congr fun e he => and_congr_right fun hnew => ?_)
      cases hform with
      | declared => cases he
      | returns hm =>
          have hway := h.cons hm hnew
          have hcallee (d : DeclId) : isPureFrom env specs n (id :: visiting) d =
              isPureFrom env specs k (id :: visiting) d :=
            ih hway (by rw [List.length_cons]; omega) (by rw [List.length_cons]; omega)
          simp only [hcallee]

/-- So does the collection of a closed set. -/
theorem closureFrom_of_bound {classes : Table DeclId EffectClass} {n k : Nat}
    (h : OnTheWay env visiting) (hn : env.methods.size < n + visiting.length)
    (hk : env.methods.size < k + visiting.length) :
    closureFrom env specs classes n visiting id = closureFrom env specs classes k visiting id := by
  induction n generalizing k visiting id with
  | zero => exact absurd (h.exists_succ hn) (by simp)
  | succ n ih =>
      obtain ⟨k, rfl⟩ := h.exists_succ hk
      rw [closureFrom, closureFrom]
      split
      · rfl
      · next hopen =>
          have hnew : id ∉ visiting := by
            rw [Bool.or_eq_true, not_or] at hopen
            simpa using hopen.2
          cases specs.get? id with
          | none => rfl
          | some s =>
              cases hm : env.method? id with
              | none => rfl
              | some m =>
                  have hway := h.cons hm hnew
                  have hcallee (d : DeclId) : closureFrom env specs classes n (id :: visiting) d =
                      closureFrom env specs classes k (id :: visiting) d :=
                    ih hway (by rw [List.length_cons]; omega) (by rw [List.length_cons]; omega)
                  simp only [hcallee]

/-! ## One set of members on the way -/

/-- A search with a set of members on the way. If its bound does not suffice it has no answer. -/
abbrev Search := StateT (List DeclId) Option

/-- Goes on with a member added to those on the way, or answers at once if it is on the way. -/
def visit {α : Type} (id : DeclId) (cut : α) (x : Search α) : Search α := do
  if (← get).contains id then return cut
  modify (id :: ·)
  let a ← x
  modify (·.erase id)
  return a

theorem visit_cut {α : Type} {cut : α} {x : Search α} (h : id ∈ visiting) :
    (visit id cut x).run visiting = some (cut, visiting) := by
  simp [visit, h]

theorem visit_run {α : Type} {cut a : α} {x : Search α} (h : id ∉ visiting)
    (hx : x.run (id :: visiting) = some (a, id :: visiting)) :
    (visit id cut x).run visiting = some (a, visiting) := by
  simp [visit, h, hx]

/-- A test of members of a list stops at the first that fails. -/
theorem allM_run {f : DeclId → Search Bool} {g : DeclId → Bool} {ids : List DeclId}
    (h : ∀ d ∈ ids, (f d).run visiting = some (g d, visiting)) :
    (ids.allM f).run visiting = some (ids.all g, visiting) := by
  induction ids with
  | nil => rfl
  | cons d ids ih =>
      obtain ⟨hd, hids⟩ := List.forall_mem_cons.mp h
      rw [List.allM, StateT.run_bind, hd, List.all_cons]
      cases g d with
      | false => rfl
      | true => exact ih hids

/-- What is found at the elements of a list, one after the other. -/
def gather {α β : Type} (f : α → Search (List β)) : List α → Search (List β)
  | [] => return []
  | x :: xs => do
    let here ← f x
    return here ++ (← gather f xs)

theorem gather_run {α β : Type} {f : α → Search (List β)} {g : α → List β} {xs : List α}
    (h : ∀ x ∈ xs, (f x).run visiting = some (g x, visiting)) :
    (gather f xs).run visiting = some (xs.flatMap g, visiting) := by
  induction xs with
  | nil => rfl
  | cons x xs ih =>
      obtain ⟨hx, hxs⟩ := List.forall_mem_cons.mp h
      simp [gather, hx, ih hxs]

/-- What the test for purity finds out about a member by itself: the answer, or the members on which
the answer depends. -/
inductive Shape
  | decided (pure : Bool)
  | calls (callees : List DeclId)

def shapeOf (env : Env) (specs : Table DeclId Specification) (id : DeclId) : Shape :=
  match declaredEffects? specs id with
  | some e => .decided (e.mutates.isEmpty && e.mutatesProperties.isEmpty)
  | none =>
    match env.method? id with
    | none => .decided false
    | some m =>
      if !isAccessorForm m then .decided false
      else if !m.hasBody then .decided ((referencedAccessors specs).contains id)
      else
        match (env.body? id).bind returnedExpr? with
        | none => .decided false
        | some e =>
          if e.parts.any createsOrPasses then .decided false
          else .calls (e.parts.filterMap callee?)

theorem isPureFrom_shape {n : Nat} : isPureFrom env specs (n + 1) visiting id =
    match shapeOf env specs id with
    | .decided pure => pure
    | .calls callees =>
      !visiting.contains id && callees.all (isPureFrom env specs n (id :: visiting)) := by
  rw [isPureFrom, shapeOf]
  cases declaredEffects? specs id with
  | some e => rfl
  | none =>
      cases env.method? id with
      | none => rfl
      | some m =>
          dsimp only
          cases isAccessorForm m with
          | false => rfl
          | true =>
              cases m.hasBody with
              | false => rfl
              | true =>
                  cases (env.body? id).bind returnedExpr? with
                  | none => rfl
                  | some e =>
                      dsimp only
                      cases e.parts.any createsOrPasses with
                      | false => rfl
                      | true => rfl

theorem known_of_calls {callees : List DeclId} (h : shapeOf env specs id = .calls callees) :
    ∃ m, env.method? id = some m := by
  cases hm : env.method? id with
  | some m => exact ⟨m, rfl⟩
  | none =>
      rw [shapeOf, hm] at h
      cases hdecl : declaredEffects? specs id with
      | some e =>
          rw [hdecl] at h
          cases h
      | none =>
          rw [hdecl] at h
          cases h

/-- The test for purity with one set of members on the way. It goes to callees in the order that
`order` puts them into, which may depend on the way, and stops at the first that is not pure. -/
def searchPure (env : Env) (specs : Table DeclId Specification)
    (order : List DeclId → List DeclId → List DeclId) : Nat → DeclId → Search Bool
  | 0, _ => failure
  | n + 1, id =>
    match shapeOf env specs id with
    | .decided pure => return pure
    | .calls callees => visit id false do
      (order (← get) callees).allM (searchPure env specs order n)

/-- The test answers the same in any order, and leaves the set as it was. -/
theorem searchPure_run {order : List DeclId → List DeclId → List DeclId}
    (horder : ∀ way ids, (order way ids).Perm ids) {n : Nat} (h : OnTheWay env visiting)
    (hn : env.methods.size < n + visiting.length) :
    (searchPure env specs order n id).run visiting =
      some (isPureFrom env specs n visiting id, visiting) := by
  induction n generalizing visiting id with
  | zero => exact absurd (h.exists_succ hn) (by simp)
  | succ n ih =>
      rw [searchPure, isPureFrom_shape]
      cases hshape : shapeOf env specs id with
      | decided pure => rfl
      | calls callees =>
          dsimp only
          by_cases hnew : id ∈ visiting
          · rw [visit_cut hnew]
            simp [hnew]
          · obtain ⟨m, hm⟩ := known_of_calls hshape
            have hcallees : ((order (id :: visiting) callees).allM
                (searchPure env specs order n)).run (id :: visiting) =
                  some ((order (id :: visiting) callees).all
                    (isPureFrom env specs n (id :: visiting)), id :: visiting) :=
              allM_run fun d _ => ih (h.cons hm hnew) (by rw [List.length_cons]; omega)
            have hall := (horder (id :: visiting) callees).all_eq
              (f := isPureFrom env specs n (id :: visiting))
            rw [hall] at hcallees
            have hrun : (visit id false do
                (order (← get) callees).allM (searchPure env specs order n)).run visiting =
                  some (callees.all (isPureFrom env specs n (id :: visiting)), visiting) :=
              visit_run hnew hcallees
            rw [hrun]
            simp [hnew]

/-- What a call adds, if it is licensed, given what its callee does. -/
def collectAt (m : MethodInfo) (s : Specification) (callee : DeclId → Search (List Path))
    (site : CallSite) : Search (List Path) :=
  match licensedReceiver? m s site with
  | some receiver => do return callTargets m site receiver (← callee site.callee)
  | none => return []

/-- The collection of a closed set with one set of members on the way. -/
def collect (env : Env) (specs : Table DeclId Specification)
    (classes : Table DeclId EffectClass) : Nat → DeclId → Search (List Path)
  | 0, _ => failure
  | n + 1, id =>
    if classOf classes id != .declared then return []
    else visit id [] do
      match specs.get? id, env.method? id with
      | some s, some m =>
        let called ← gather (collectAt m s (collect env specs classes n)) (env.callSitesOf id)
        return firsts Path.same (ownTargets m s ++ called)
      | _, _ => return []

/-- The collection finds the closed set, and leaves the set of members on the way as it was. -/
theorem collect_run {classes : Table DeclId EffectClass} {n : Nat} (h : OnTheWay env visiting)
    (hn : env.methods.size < n + visiting.length) :
    (collect env specs classes n id).run visiting =
      some (closureFrom env specs classes n visiting id, visiting) := by
  induction n generalizing visiting id with
  | zero => exact absurd (h.exists_succ hn) (by simp)
  | succ n ih =>
      rw [collect, closureFrom]
      by_cases hid : (classOf classes id != .declared) = true
      · simp [hid]
      · by_cases hnew : id ∈ visiting
        · rw [if_neg hid, visit_cut hnew]
          simp [hnew]
        · rw [if_neg hid, if_neg (by simp [hnew, hid])]
          refine visit_run hnew ?_
          cases specs.get? id with
          | none => rfl
          | some s =>
              cases hm : env.method? id with
              | none => rfl
              | some m =>
                  have hcallee (d : DeclId) : (collect env specs classes n d).run (id :: visiting) =
                      some (closureFrom env specs classes n (id :: visiting) d, id :: visiting) :=
                    ih (h.cons hm hnew) (by rw [List.length_cons]; omega)
                  have hsite : ∀ site ∈ env.callSitesOf id,
                      (collectAt m s (collect env specs classes n) site).run (id :: visiting) =
                        some (match licensedReceiver? m s site with
                          | some receiver => callTargets m site receiver
                              (closureFrom env specs classes n (id :: visiting) site.callee)
                          | none => [], id :: visiting) := by
                    intro site _
                    rw [collectAt]
                    cases licensedReceiver? m s site with
                    | none => rfl
                    | some receiver => simp [hcallee]
                  rw [StateT.run_bind, gather_run hsite]
                  rfl

end Covenant.Effect
