import Covenant.Env.Basic
import Covenant.Proofs.Tables
import Mathlib.Algebra.Order.BigOperators.Group.List
import Mathlib.Algebra.Order.Ring.Nat
import Mathlib.Logic.Relation

/-!
# The hierarchy of types

Both searches of a hierarchy run on a number of steps and remember where they
have been. The number always suffices, so each search finds what can be reached
and nothing else: `mem_supertypes` for supertypes, `mem_classChain` for chains of
superclasses. Nothing here asks that the hierarchy has no cycles.
-/

namespace Covenant.Env

open Relation (ReflTransGen)

/-- A type names another one as its superclass or as an interface. -/
def Names (env : Env) (a b : String) : Prop :=
  ∃ info, env.class? a = some info ∧ b ∈ directSupertypes info

/-- A type names another one as its superclass. -/
def Extends (env : Env) (a b : String) : Prop :=
  ∃ info, env.class? a = some info ∧ info.superclass = some b

theorem Extends.names {env : Env} {a b : String} (h : env.Extends a b) : env.Names a b := by
  obtain ⟨info, hi, hs⟩ := h
  exact ⟨info, hi, List.mem_append_left _ (by simp [hs])⟩

/-! ## The search of supertypes -/

section

variable {env : Env} {n : Nat} {seen queue : List String} {x : String}

/-- What the search visits is known, is new, and can be reached from the queue. -/
theorem visit_sound (h : x ∈ visit env n seen queue) :
    (∃ info, env.class? x = some info) ∧ x ∉ seen ∧ ∃ q ∈ queue, ReflTransGen env.Names q x := by
  induction n generalizing seen queue with
  | zero => exact absurd h List.not_mem_nil
  | succ n ih =>
      cases queue with
      | nil => exact absurd h List.not_mem_nil
      | cons name queue =>
          rw [visit] at h
          split at h
          · obtain ⟨hx, hseen, q, hq, hreach⟩ := ih h
            exact ⟨hx, hseen, q, List.mem_cons_of_mem _ hq, hreach⟩
          · next hname =>
              have hname : name ∉ seen := by simpa using hname
              split at h
              · obtain ⟨hx, hseen, q, hq, hreach⟩ := ih h
                exact ⟨hx, fun hs => hseen (List.mem_cons_of_mem _ hs), q,
                  List.mem_cons_of_mem _ hq, hreach⟩
              · next info hi =>
                  rcases List.mem_cons.mp h with rfl | h
                  · exact ⟨⟨info, hi⟩, hname, x, List.mem_cons_self, .refl⟩
                  · obtain ⟨hx, hseen, q, hq, hreach⟩ := ih h
                    refine ⟨hx, fun hs => hseen (List.mem_cons_of_mem _ hs), ?_⟩
                    rcases List.mem_append.mp hq with hq | hq
                    · exact ⟨q, List.mem_cons_of_mem _ hq, hreach⟩
                    · exact ⟨name, List.mem_cons_self, .head ⟨info, hi, hq⟩ hreach⟩

theorem nodup_visit : (visit env n seen queue).Nodup := by
  induction n generalizing seen queue with
  | zero => exact List.nodup_nil
  | succ n ih =>
      cases queue with
      | nil => exact List.nodup_nil
      | cons name queue =>
          rw [visit]
          split
          · exact ih
          · split
            · exact ih
            · exact List.nodup_cons.mpr ⟨fun h => (visit_sound h).2.1 List.mem_cons_self, ih⟩

/-- How many names the types can still put into the queue that have not been seen. -/
def pending (env : Env) (seen : List String) : Nat :=
  (env.classes.entries.map fun e => if e.1 ∈ seen then 0 else (directSupertypes e.2).length).sum

/-- What one entry can still put into the queue, once another name has been seen. -/
theorem pending_entry_le (seen : List String) (name : String) (e : String × ClassInfo) :
    (if e.1 ∈ name :: seen then 0 else (directSupertypes e.2).length) ≤
      if e.1 ∈ seen then 0 else (directSupertypes e.2).length := by
  by_cases hs : e.1 ∈ seen
  · simp [hs]
  · by_cases hk : e.1 = name <;> simp [hs, hk]

theorem pending_cons_le (env : Env) (seen : List String) (name : String) :
    env.pending (name :: seen) ≤ env.pending seen :=
  List.sum_le_sum fun e _ => pending_entry_le seen name e

/-- A type that is visited has put its supertypes into the queue for good. -/
theorem pending_cons {name : String} {info : ClassInfo} (hi : env.class? name = some info)
    (hn : name ∉ seen) :
    (directSupertypes info).length + env.pending (name :: seen) ≤ env.pending seen := by
  have step : ∀ es : List (String × ClassInfo), Table.find? name es = some info →
      (directSupertypes info).length + (es.map fun e =>
        if e.1 ∈ name :: seen then 0 else (directSupertypes e.2).length).sum ≤
      (es.map fun e => if e.1 ∈ seen then 0 else (directSupertypes e.2).length).sum := by
    intro es
    induction es with
    | nil => exact fun h => absurd h (by simp [Table.find?])
    | cons e es ih =>
        obtain ⟨k, i⟩ := e
        intro h
        rw [Table.find?] at h
        rw [List.map_cons, List.map_cons, List.sum_cons, List.sum_cons]
        split at h
        · next hk =>
            subst hk
            cases h
            have rest := List.sum_le_sum (l := es) fun e _ => pending_entry_le seen k e
            simp only [List.mem_cons_self, if_true, hn, if_false]
            omega
        · have ih := ih h
          have first := pending_entry_le seen name (k, i)
          omega
  exact step _ hi

/-- The search ends with nothing left out: what it starts from has been seen or is visited, and so
have the supertypes of all that it visits. -/
theorem visit_closed (hn : queue.length + env.pending seen ≤ n) :
    (∀ q ∈ queue, (∃ info, env.class? q = some info) → q ∈ seen ∨ q ∈ visit env n seen queue) ∧
    ∀ a ∈ visit env n seen queue, ∀ b, env.Names a b → (∃ info, env.class? b = some info) →
      b ∈ seen ∨ b ∈ visit env n seen queue := by
  induction n generalizing seen queue with
  | zero =>
      obtain rfl : queue = [] := List.eq_nil_of_length_eq_zero (by omega)
      exact ⟨fun q hq => absurd hq List.not_mem_nil, fun a ha => absurd ha List.not_mem_nil⟩
  | succ n ih =>
      cases queue with
      | nil => exact ⟨fun q hq => absurd hq List.not_mem_nil, fun a ha => absurd ha List.not_mem_nil⟩
      | cons name queue =>
          rw [List.length_cons] at hn
          rw [visit]
          split
          · next hname =>
              obtain ⟨hqueue, hnames⟩ := @ih seen queue (by omega)
              refine ⟨fun q hq hknown => ?_, hnames⟩
              rcases List.mem_cons.mp hq with rfl | hq
              · exact .inl (by simpa using hname)
              · exact hqueue q hq hknown
          · next hname =>
              have hname : name ∉ seen := by simpa using hname
              split
              · next hnone =>
                  have hpending := pending_cons_le env seen name
                  obtain ⟨hqueue, hnames⟩ := @ih (name :: seen) queue (by omega)
                  have hback : ∀ b, (∃ info, env.class? b = some info) →
                      b ∈ name :: seen ∨ b ∈ visit env n (name :: seen) queue →
                      b ∈ seen ∨ b ∈ visit env n (name :: seen) queue := by
                    rintro b ⟨info, hb⟩ (hseen | hvisit)
                    · rcases List.mem_cons.mp hseen with rfl | hseen
                      · exact absurd (hnone.symm.trans hb) (by simp)
                      · exact .inl hseen
                    · exact .inr hvisit
                  refine ⟨fun q hq hknown => ?_, fun a ha b hab hknown =>
                    hback b hknown (hnames a ha b hab hknown)⟩
                  rcases List.mem_cons.mp hq with rfl | hq
                  · obtain ⟨info, hi⟩ := hknown
                    exact absurd (hnone.symm.trans hi) (by simp)
                  · exact hback q hknown (hqueue q hq hknown)
              · next info hi =>
                  have hpending := pending_cons hi hname
                  obtain ⟨hqueue, hnames⟩ := @ih (name :: seen) (queue ++ directSupertypes info) (by
                    rw [List.length_append]
                    omega)
                  have hback : ∀ b, b ∈ name :: seen ∨
                      b ∈ visit env n (name :: seen) (queue ++ directSupertypes info) →
                      b ∈ seen ∨
                        b ∈ name :: visit env n (name :: seen) (queue ++ directSupertypes info) := by
                    rintro b (hseen | hvisit)
                    · rcases List.mem_cons.mp hseen with rfl | hseen
                      · exact .inr List.mem_cons_self
                      · exact .inl hseen
                    · exact .inr (List.mem_cons_of_mem _ hvisit)
                  refine ⟨fun q hq hknown => ?_, fun a ha b hab hknown => ?_⟩
                  · rcases List.mem_cons.mp hq with rfl | hq
                    · exact .inr List.mem_cons_self
                    · exact hback q (hqueue q (List.mem_append_left _ hq) hknown)
                  · rcases List.mem_cons.mp ha with rfl | ha
                    · obtain ⟨info', hi', hb⟩ := hab
                      obtain rfl : info = info' := Option.some.inj (hi.symm.trans hi')
                      exact hback b (hqueue b (List.mem_append_right _ hb) hknown)
                    · exact hback b (hnames a ha b hab hknown)

end

section

variable {env : Env} {a b c : String}

theorem pending_nil : env.pending [] = env.edgeCount := by
  simp [pending, edgeCount, Table.values, List.flatMap_map]

/-- The supertypes of a type are the known types that it reaches. -/
theorem mem_supertypes : b ∈ env.supertypes a ↔
    (∃ info, env.class? b = some info) ∧ ReflTransGen env.Names a b := by
  constructor
  · intro h
    obtain ⟨hb, _, q, hq, hreach⟩ := visit_sound h
    obtain rfl := List.mem_singleton.mp hq
    exact ⟨hb, hreach⟩
  · rintro ⟨hb, hreach⟩
    have hn : [a].length + env.pending [] ≤ env.edgeCount + 1 := by
      rw [pending_nil, List.length_singleton]
      omega
    obtain ⟨hqueue, hnames⟩ := visit_closed hn
    have closed {x : String} (h : x ∈ [] ∨ x ∈ visit env (env.edgeCount + 1) [] [a]) :
        x ∈ env.supertypes a := h.resolve_left List.not_mem_nil
    induction hreach with
    | refl => exact closed (hqueue a List.mem_cons_self hb)
    | tail _ hstep ih =>
        have hmid := hstep
        obtain ⟨info, hi, _⟩ := hmid
        exact closed (hnames _ (ih ⟨info, hi⟩) _ hstep hb)

/-- A known type stands in front of its supertypes. -/
theorem supertypes_eq_cons {info : ClassInfo} (h : env.class? a = some info) :
    env.supertypes a = a :: (env.supertypes a).drop 1 := by
  rw [supertypes, visit]
  simp [h]

/-- The supertypes of a type but itself. -/
theorem mem_drop_supertypes {info : ClassInfo} (h : env.class? a = some info) :
    b ∈ (env.supertypes a).drop 1 ↔ b ∈ env.supertypes a ∧ b ≠ a := by
  have hn : (env.supertypes a).Nodup := nodup_visit
  rw [supertypes_eq_cons h] at hn ⊢
  obtain ⟨ha, _⟩ := List.nodup_cons.mp hn
  rw [List.drop_one, List.tail_cons, List.mem_cons]
  constructor
  · intro hb
    exact ⟨.inr hb, fun hab => ha (hab ▸ hb)⟩
  · rintro ⟨hb | hb, hne⟩
    · exact absurd hb hne
    · exact hb

theorem isSubtype_iff : env.isSubtype a b = true ↔ a = b ∨ b ∈ env.supertypes a := by
  simp [isSubtype]

theorem isSubtype_refl : env.isSubtype a a = true := isSubtype_iff.mpr (.inl rfl)

theorem isSubtype_of_reach {info : ClassInfo} (hb : env.class? b = some info)
    (h : ReflTransGen env.Names a b) : env.isSubtype a b = true :=
  isSubtype_iff.mpr (.inr (mem_supertypes.mpr ⟨⟨info, hb⟩, h⟩))

theorem reach_of_isSubtype (h : env.isSubtype a b = true) : ReflTransGen env.Names a b := by
  rcases isSubtype_iff.mp h with rfl | h
  · exact .refl
  · exact (mem_supertypes.mp h).2

theorem isSubtype_trans (hab : env.isSubtype a b = true) (hbc : env.isSubtype b c = true) :
    env.isSubtype a c = true := by
  rcases isSubtype_iff.mp hbc with rfl | hc
  · exact hab
  · obtain ⟨⟨info, hi⟩, hreach⟩ := mem_supertypes.mp hc
    exact isSubtype_of_reach hi ((reach_of_isSubtype hab).trans hreach)

end

/-! ## The chain of superclasses -/

section

variable {env : Env} {n : Nat} {seen : List String} {a name : String} {info : ClassInfo}

theorem chainFrom_sound (h : info ∈ chainFrom env n seen name) :
    ∃ b, env.class? b = some info ∧ ReflTransGen env.Extends name b := by
  induction n generalizing seen name with
  | zero => exact absurd h List.not_mem_nil
  | succ n ih =>
      rw [chainFrom] at h
      split at h
      · exact absurd h List.not_mem_nil
      · next i hi =>
          split at h
          · exact absurd h List.not_mem_nil
          · rcases List.mem_cons.mp h with rfl | h
            · exact ⟨name, hi, .refl⟩
            · split at h
              · next s hs =>
                  obtain ⟨b, hb, hreach⟩ := ih h
                  exact ⟨b, hb, .head ⟨i, hi, hs⟩ hreach⟩
              · exact absurd h List.not_mem_nil

/-- How many entries belong to types that have not been seen. -/
def unseen (env : Env) (seen : List String) : Nat :=
  (env.classes.entries.filter fun e => !seen.contains e.1).length

theorem unseen_cons (hi : env.class? name = some info) (hn : name ∉ seen) :
    env.unseen (name :: seen) < env.unseen seen := by
  have hmem : (name, info) ∈ env.classes.entries.filter fun e => !seen.contains e.1 :=
    List.mem_filter.mpr ⟨Table.mem_of_get? hi, by simpa using hn⟩
  have hsplit : env.classes.entries.filter (fun e => !(name :: seen).contains e.1) =
      (env.classes.entries.filter fun e => !seen.contains e.1).filter fun e => e.1 != name := by
    rw [List.filter_filter]
    exact List.filter_congr fun e _ => by rw [List.contains_cons, Bool.not_or, bne]
  rw [unseen, unseen, hsplit]
  exact List.length_filter_lt_length_iff_exists.mpr ⟨_, hmem, by simp⟩

/-- The chain goes on as long as there is a superclass that has not been seen. -/
theorem chainFrom_closed (hn : env.unseen seen ≤ n) :
    (∀ i, env.class? name = some i → name ∈ seen ∨ i ∈ chainFrom env n seen name) ∧
    ∀ i ∈ chainFrom env n seen name, ∀ s j, i.superclass = some s → env.class? s = some j →
      s ∈ seen ∨ j ∈ chainFrom env n seen name := by
  induction n generalizing seen name with
  | zero =>
      refine ⟨fun i hi => ?_, fun i hi => absurd hi List.not_mem_nil⟩
      refine Classical.or_iff_not_imp_left.mpr fun hs => ?_
      have := unseen_cons hi hs
      omega
  | succ n ih =>
      rw [chainFrom]
      split
      · next hnone => exact ⟨fun i hi => by simp [hnone] at hi, fun i hi => absurd hi List.not_mem_nil⟩
      · next info hinfo =>
          split
          · next hs => exact ⟨fun i _ => .inl (by simpa using hs), fun i hi => absurd hi List.not_mem_nil⟩
          · next hs =>
              have hs : name ∉ seen := by simpa using hs
              have hlt := unseen_cons hinfo hs
              refine ⟨fun i hi => .inr ?_, fun i hi s j hsup hj => ?_⟩
              · obtain rfl : info = i := Option.some.inj (hinfo.symm.trans hi)
                exact List.mem_cons_self
              · have back (h : s ∈ name :: seen) : s ∈ seen ∨ s = name :=
                  (List.mem_cons.mp h).symm
                have hself : s = name → j = info := by
                  rintro rfl
                  exact Option.some.inj (hj.symm.trans hinfo)
                rcases List.mem_cons.mp hi with rfl | hi
                · simp only [hsup]
                  obtain ⟨hfirst, _⟩ := @ih (name :: seen) s (by omega)
                  rcases hfirst j hj with h | h
                  · exact (back h).imp id fun h => hself h ▸ List.mem_cons_self
                  · exact .inr (List.mem_cons_of_mem _ h)
                · split at hi
                  · next s' hs' =>
                      obtain ⟨_, hnext⟩ := @ih (name :: seen) s' (by omega)
                      rcases hnext i hi s j hsup hj with h | h
                      · exact (back h).imp id fun h => hself h ▸ List.mem_cons_self
                      · exact .inr (List.mem_cons_of_mem _ h)
                  · exact absurd hi List.not_mem_nil

/-- The chain of a class has the classes that it reaches along superclasses. -/
theorem mem_classChain : info ∈ env.classChain a ↔
    ∃ b, env.class? b = some info ∧ ReflTransGen env.Extends a b := by
  constructor
  · exact chainFrom_sound
  · rintro ⟨b, hb, hreach⟩
    have hall : env.unseen [] ≤ env.classes.size := by
      rw [unseen, Table.size]
      exact List.length_filter_le _ _
    obtain ⟨hfirst, hnext⟩ := @chainFrom_closed env _ _ a hall
    have closed {i : ClassInfo} {s : String}
        (h : s ∈ [] ∨ i ∈ chainFrom env env.classes.size [] a) : i ∈ env.classChain a :=
      h.resolve_left List.not_mem_nil
    induction hreach generalizing info with
    | refl => exact closed (hfirst info hb)
    | tail _ hstep ih =>
        obtain ⟨mid, hmid, hsup⟩ := hstep
        exact closed (hnext mid (ih hmid) _ info hsup hb)

end

end Covenant.Env
