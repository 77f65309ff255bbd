import Covenant.Proofs.Hierarchy
import Mathlib.Order.Lattice.Nat

/-!
# How far away supertypes are

The search of supertypes goes through a queue, and what it finds at a type it puts
behind everything that is there. So it comes to the types level by level. To say
this, the search is told how many steps each name of the queue is away: at any time
the queue has names of one level and behind them names of the next, which makes the
levels of what is visited ascend, and the level of a type is its distance. Told or
not, the search visits the same types, so `pairwise_supertypes` speaks of the search
as it is.
-/

namespace Covenant

/-- One element is so many steps of a relation away from another one. -/
inductive InSteps {α : Type} (r : α → α → Prop) (a : α) : Nat → α → Prop
  | refl : InSteps r a 0 a
  | step {n b c} (h : InSteps r a n b) (hr : r b c) : InSteps r a (n + 1) c

/-- The least number of steps to an element that can be reached. -/
noncomputable def distance {α : Type} (r : α → α → Prop) (a b : α) : Nat :=
  sInf {n | InSteps r a n b}

theorem distance_le {α : Type} {r : α → α → Prop} {a b : α} {n : Nat} (h : InSteps r a n b) :
    distance r a b ≤ n :=
  Nat.sInf_le h

/-- What can be reached is as many steps away as its distance says. -/
theorem inSteps_distance {α : Type} {r : α → α → Prop} {a b : α} {n : Nat}
    (h : InSteps r a n b) : InSteps r a (distance r a b) b :=
  Nat.sInf_mem (s := {n | InSteps r a n b}) ⟨n, h⟩

namespace Env

/-- The search of supertypes, where the queue says how many steps away each name is. -/
def visitAt (env : Env) : Nat → List String → List (String × Nat) → List (String × Nat)
  | 0, _, _ => []
  | _ + 1, _, [] => []
  | n + 1, seen, (name, k) :: queue =>
    if seen.contains name then visitAt env n seen queue
    else
      match env.class? name with
      | none => visitAt env n (name :: seen) queue
      | some info =>
        (name, k) :: visitAt env n (name :: seen) (queue ++ (directSupertypes info).map (·, k + 1))

/-- The names of a queue are one level or the next away, those of the next level behind. -/
structure Levels (k : Nat) (queue : List (String × Nat)) : Prop where
  bounds : ∀ e ∈ queue, k ≤ e.2 ∧ e.2 ≤ k + 1
  sorted : queue.Pairwise fun e e' => e.2 ≤ e'.2

section

variable {env : Env} {n k : Nat} {seen : List String} {queue : List (String × Nat)}

theorem Levels.tail {name : String} {j : Nat} (h : Levels k ((name, j) :: queue)) :
    Levels j queue := by
  obtain ⟨hhead, hsorted⟩ := List.pairwise_cons.mp h.sorted
  refine ⟨fun e he => ⟨hhead e he, ?_⟩, hsorted⟩
  have hj := (h.bounds _ List.mem_cons_self).1
  have he := (h.bounds e (List.mem_cons_of_mem _ he)).2
  dsimp only at hj
  omega

/-- What is found at a type of the level in front goes behind the queue. -/
theorem Levels.enqueue (h : Levels k queue) (names : List String) :
    Levels k (queue ++ names.map (·, k + 1)) := by
  have hnew : ∀ e ∈ names.map (·, k + 1), e.2 = k + 1 := by
    intro e he
    obtain ⟨name, _, rfl⟩ := List.mem_map.mp he
    rfl
  refine ⟨fun e he => ?_, List.pairwise_append.mpr ⟨h.sorted, ?_, fun e he e' he' => ?_⟩⟩
  · rcases List.mem_append.mp he with he | he
    · exact h.bounds e he
    · rw [hnew e he]
      omega
  · refine List.pairwise_of_forall_mem_list fun e he e' he' => ?_
    rw [hnew e he, hnew e' he']
  · rw [hnew e' he']
    exact (h.bounds e he).2

/-- Told how far away names are or not, the search visits the same types. -/
theorem map_fst_visitAt : (visitAt env n seen queue).map (·.1) = visit env n seen (queue.map (·.1)) := by
  induction n generalizing seen queue with
  | zero => rfl
  | succ n ih =>
      cases queue with
      | nil => rfl
      | cons e queue =>
          obtain ⟨name, k⟩ := e
          rw [visitAt, List.map_cons, visit]
          split
          · exact ih
          · cases env.class? name with
            | none => exact ih
            | some info =>
                have hnames : ((directSupertypes info).map (·, k + 1)).map (·.1) =
                    directSupertypes info := by
                  rw [List.map_map]
                  exact List.map_id _
                simp only [List.map_cons, ih, List.map_append, hnames]

/-- If the queue is right about how far away its names are, so is what is visited. -/
theorem inSteps_of_visitAt {a : String} (hq : ∀ e ∈ queue, InSteps env.Names a e.2 e.1) :
    ∀ e ∈ visitAt env n seen queue, InSteps env.Names a e.2 e.1 := by
  induction n generalizing seen queue with
  | zero => exact fun e he => absurd he List.not_mem_nil
  | succ n ih =>
      cases queue with
      | nil => exact fun e he => absurd he List.not_mem_nil
      | cons e queue =>
          obtain ⟨name, k⟩ := e
          have hname := hq _ List.mem_cons_self
          have hrest : ∀ e ∈ queue, InSteps env.Names a e.2 e.1 :=
            fun e he => hq e (List.mem_cons_of_mem _ he)
          rw [visitAt]
          split
          · exact ih hrest
          · split
            · exact ih hrest
            · next info hi =>
                intro e he
                rcases List.mem_cons.mp he with rfl | he
                · exact hname
                · refine ih (fun e he => ?_) e he
                  rcases List.mem_append.mp he with he | he
                  · exact hrest e he
                  · obtain ⟨b, hb, rfl⟩ := List.mem_map.mp he
                    exact .step hname ⟨info, hi, hb⟩

/-- The search never goes back to a level that it has left. -/
theorem visitAt_ascends (hq : Levels k queue) :
    (∀ e ∈ visitAt env n seen queue, k ≤ e.2) ∧
      (visitAt env n seen queue).Pairwise fun e e' => e.2 ≤ e'.2 := by
  induction n generalizing k seen queue with
  | zero => exact ⟨fun e he => absurd he List.not_mem_nil, List.Pairwise.nil⟩
  | succ n ih =>
      cases queue with
      | nil => exact ⟨fun e he => absurd he List.not_mem_nil, List.Pairwise.nil⟩
      | cons e queue =>
          obtain ⟨name, j⟩ := e
          have hj := (hq.bounds _ List.mem_cons_self).1
          dsimp only at hj
          -- What comes behind is no nearer than the name in front, which is no nearer than `k`.
          have later {l : List (String × Nat)}
              (h : (∀ e ∈ l, j ≤ e.2) ∧ l.Pairwise fun e e' => e.2 ≤ e'.2) :
              (∀ e ∈ l, k ≤ e.2) ∧ l.Pairwise fun e e' => e.2 ≤ e'.2 :=
            ⟨fun e he => Nat.le_trans hj (h.1 e he), h.2⟩
          rw [visitAt]
          split
          · exact later (ih hq.tail)
          · split
            · exact later (ih hq.tail)
            · obtain ⟨hge, hsorted⟩ := @ih j (name :: seen) _ (hq.tail.enqueue _)
              refine later ⟨fun e he => ?_, List.pairwise_cons.mpr ⟨hge, hsorted⟩⟩
              rcases List.mem_cons.mp he with rfl | he
              · exact Nat.le_refl _
              · exact hge e he

/-- Nothing is visited later than the queue promises, and what a visited type names is no more than
one step behind it. -/
theorem visitAt_closed (hn : queue.length + env.pending seen ≤ n) (hq : Levels k queue) :
    (∀ e ∈ queue, (∃ info, env.class? e.1 = some info) →
      e.1 ∈ seen ∨ ∃ j ≤ e.2, (e.1, j) ∈ visitAt env n seen queue) ∧
    ∀ e ∈ visitAt env n seen queue, ∀ b, env.Names e.1 b → (∃ info, env.class? b = some info) →
      b ∈ seen ∨ ∃ j ≤ e.2 + 1, (b, j) ∈ visitAt env n seen queue := by
  induction n generalizing k seen queue with
  | zero =>
      obtain rfl : queue = [] := List.eq_nil_of_length_eq_zero (by omega)
      exact ⟨fun e he => absurd he List.not_mem_nil, fun e he => absurd he List.not_mem_nil⟩
  | succ n ih =>
      cases queue with
      | nil => exact ⟨fun e he => absurd he List.not_mem_nil, fun e he => absurd he List.not_mem_nil⟩
      | cons front queue =>
          obtain ⟨name, j⟩ := front
          rw [List.length_cons] at hn
          have hhead := (List.pairwise_cons.mp hq.sorted).1
          rw [visitAt]
          split
          · next hname =>
              obtain ⟨hqueue, hnames⟩ := @ih j seen queue (by omega) hq.tail
              refine ⟨fun e he hknown => ?_, hnames⟩
              rcases List.mem_cons.mp he with rfl | he
              · exact .inl (by simpa using hname)
              · exact hqueue e he hknown
          · next hname =>
              have hname : name ∉ seen := by simpa using hname
              split
              · next hnone =>
                  have hpending := pending_cons_le env seen name
                  obtain ⟨hqueue, hnames⟩ := @ih j (name :: seen) queue (by omega) hq.tail
                  have hback {b : String} {P : Prop} (hknown : ∃ info, env.class? b = some info)
                      (h : b ∈ name :: seen ∨ P) : b ∈ seen ∨ P := by
                    refine h.imp_left fun hseen => (List.mem_cons.mp hseen).resolve_left ?_
                    rintro rfl
                    obtain ⟨info, hi⟩ := hknown
                    exact absurd (hnone.symm.trans hi) (by simp)
                  refine ⟨fun e he hknown => ?_, fun e he b hb hknown =>
                    hback hknown (hnames e he b hb hknown)⟩
                  rcases List.mem_cons.mp he with rfl | he
                  · obtain ⟨info, hi⟩ := hknown
                    exact absurd (hnone.symm.trans hi) (by simp)
                  · exact hback hknown (hqueue e he hknown)
              · next info hi =>
                  have hpending := pending_cons hi hname
                  obtain ⟨hqueue, hnames⟩ := @ih j (name :: seen)
                    (queue ++ (directSupertypes info).map (·, j + 1))
                    (by rw [List.length_append, List.length_map]; omega) (hq.tail.enqueue _)
                  obtain ⟨hge, _⟩ := @visitAt_ascends env n j (name :: seen)
                    (queue ++ (directSupertypes info).map (·, j + 1)) (hq.tail.enqueue _)
                  -- The name in front is visited now, which is early enough for all that follows.
                  have hback {b : String} {m : Nat} (hm : j ≤ m)
                      (h : b ∈ name :: seen ∨ ∃ i ≤ m, (b, i) ∈ visitAt env n (name :: seen)
                        (queue ++ (directSupertypes info).map (·, j + 1))) :
                      b ∈ seen ∨ ∃ i ≤ m, (b, i) ∈ (name, j) :: visitAt env n (name :: seen)
                        (queue ++ (directSupertypes info).map (·, j + 1)) := by
                    rcases h with hseen | ⟨i, hi, hmem⟩
                    · rcases List.mem_cons.mp hseen with rfl | hseen
                      · exact .inr ⟨j, hm, List.mem_cons_self⟩
                      · exact .inl hseen
                    · exact .inr ⟨i, hi, List.mem_cons_of_mem _ hmem⟩
                  refine ⟨fun e he hknown => ?_, fun e he b hb hknown => ?_⟩
                  · rcases List.mem_cons.mp he with rfl | he
                    · exact .inr ⟨j, Nat.le_refl _, List.mem_cons_self⟩
                    · exact hback (hhead e he) (hqueue e (List.mem_append_left _ he) hknown)
                  · rcases List.mem_cons.mp he with rfl | he
                    · obtain ⟨info', hi', hb⟩ := hb
                      obtain rfl : info = info' := Option.some.inj (hi.symm.trans hi')
                      exact hback (Nat.le_succ _) (hqueue (b, j + 1)
                        (List.mem_append_right _ (List.mem_map.mpr ⟨b, hb, rfl⟩)) hknown)
                    · exact hback (Nat.le_succ_of_le (hge e he)) (hnames e he b hb hknown)

end

variable {env : Env} {a b : String}

/-- The types above a type, each with the number of steps that the search gives it. -/
def levelled (env : Env) (a : String) : List (String × Nat) :=
  visitAt env (env.edgeCount + 1) [] [(a, 0)]

theorem map_fst_levelled : (env.levelled a).map (·.1) = env.supertypes a := map_fst_visitAt

theorem levels_singleton : Levels 0 [(a, 0)] :=
  ⟨fun e he => by obtain rfl := List.mem_singleton.mp he; exact ⟨Nat.le_refl _, Nat.zero_le _⟩,
    List.pairwise_singleton ..⟩

/-- A type that can be reached in some steps gets no greater number. -/
theorem levelled_complete {n : Nat} (h : InSteps env.Names a n b)
    (hb : ∃ info, env.class? b = some info) : ∃ j ≤ n, (b, j) ∈ env.levelled a := by
  have hn : [(a, 0)].length + env.pending [] ≤ env.edgeCount + 1 := by
    rw [pending_nil, List.length_singleton]
    omega
  obtain ⟨hqueue, hnames⟩ := visitAt_closed hn levels_singleton
  induction h with
  | refl => exact (hqueue _ List.mem_cons_self hb).resolve_left List.not_mem_nil
  | @step n c b _ hr ih =>
      obtain ⟨info, hc, _⟩ := id hr
      obtain ⟨i, hi, hmem⟩ := ih ⟨info, hc⟩
      obtain ⟨j, hj, hmem⟩ := (hnames _ hmem b hr hb).resolve_left List.not_mem_nil
      exact ⟨j, Nat.le_trans hj (Nat.succ_le_succ hi), hmem⟩

/-- The number that the search gives a type is its distance. -/
theorem distance_of_levelled {e : String × Nat} (he : e ∈ env.levelled a) :
    e.2 = distance env.Names a e.1 := by
  have hsteps : InSteps env.Names a e.2 e.1 := by
    refine inSteps_of_visitAt (fun e he => ?_) e he
    obtain rfl := List.mem_singleton.mp he
    exact .refl
  have hknown : ∃ info, env.class? e.1 = some info :=
    (mem_supertypes.mp (map_fst_levelled ▸ List.mem_map.mpr ⟨e, he, rfl⟩)).1
  obtain ⟨j, hj, hmem⟩ := levelled_complete (inSteps_distance hsteps) hknown
  have hnodup : ((env.levelled a).map (·.1)).Nodup := map_fst_levelled ▸ nodup_visit
  have heq : e = (e.1, j) := List.inj_on_of_nodup_map hnodup he hmem rfl
  refine Nat.le_antisymm ?_ (distance_le hsteps)
  calc e.2
    _ = j := congrArg Prod.snd heq
    _ ≤ distance env.Names a e.1 := hj

/-- Supertypes are listed by their distance. -/
theorem pairwise_supertypes :
    (env.supertypes a).Pairwise fun b c => distance env.Names a b ≤ distance env.Names a c := by
  rw [← map_fst_levelled, List.pairwise_map]
  refine (visitAt_ascends levels_singleton).2.imp_of_mem fun {e e'} he he' hle => ?_
  rw [← distance_of_levelled he, ← distance_of_levelled he']
  exact hle

end Env

end Covenant
