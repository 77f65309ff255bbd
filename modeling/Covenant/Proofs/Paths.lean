import Covenant.Effect.Analysis
import Covenant.Proofs.CheckedProgram

/-!
# Paths of typed expressions

How paths compare, and what is known of the paths of expressions that were
typed: where they start, and of which type it is. A clause has `this` of the
type that it is written on and a body has `this` of its own class, so the path of
an inherited clause may start at a supertype of the class that inherits it.
-/

namespace Covenant

namespace Effect.Path

variable {p q r : Path}

theorem same_iff : p.same q = true ↔ p.root = q.root ∧ p.trail = q.trail := by
  simp [same]

theorem same_refl (p : Path) : p.same p = true := same_iff.mpr ⟨rfl, rfl⟩

theorem same_symm (h : p.same q = true) : q.same p = true := by
  rw [same_iff] at h ⊢
  exact ⟨h.1.symm, h.2.symm⟩

theorem same_trans (h : p.same q = true) (h' : q.same r = true) : p.same r = true := by
  rw [same_iff] at h h' ⊢
  exact ⟨h.1.trans h'.1, h.2.trans h'.2⟩

theorem dominates_iff : p.dominates q = true ↔ p.root = q.root ∧ p.trail <+: q.trail := by
  simp [dominates]

theorem overlaps_iff : p.overlaps q = true ↔ p.dominates q = true ∨ q.dominates p = true := by
  simp [overlaps]

theorem root_of_overlaps (h : p.overlaps q = true) : p.root = q.root := by
  rcases overlaps_iff.mp h with h | h
  · exact (dominates_iff.mp h).1
  · exact (dominates_iff.mp h).1.symm

theorem overlaps_comm (p q : Path) : p.overlaps q = q.overlaps p := Bool.or_comm ..

/-- Whether two paths overlap does not depend on types. -/
theorem overlaps_congr (h : q.same r = true) : p.overlaps q = p.overlaps r := by
  obtain ⟨hroot, htrail⟩ := same_iff.mp h
  rw [overlaps, overlaps, dominates, dominates, dominates, dominates, hroot, htrail]

theorem mem_prefixes : q ∈ p.prefixes ↔
    ∃ n ≤ p.steps.length, q = { p with steps := p.steps.take n } := by
  simp only [prefixes, List.mem_map, List.mem_range, Nat.lt_succ_iff]
  exact exists_congr fun n => and_congr_right fun _ => eq_comm

/-- The bare root is the first prefix of a path. -/
theorem root_mem_prefixes (p : Path) : { p with steps := [] } ∈ p.prefixes :=
  mem_prefixes.mpr ⟨0, Nat.zero_le _, rfl⟩

/-- The only prefix without steps is the bare root. -/
theorem eq_root_of_prefix (h : q ∈ p.prefixes) (hq : q.trail = []) :
    q = { p with steps := [] } := by
  obtain ⟨n, _, rfl⟩ := mem_prefixes.mp h
  have hsteps : p.steps.take n = [] := List.map_eq_nil_iff.mp hq
  rw [hsteps]

/-- Paths that are the same have the same prefixes. -/
theorem exists_prefix_same (h : p.same q = true) (hr : r ∈ q.prefixes) :
    ∃ s ∈ p.prefixes, s.same r = true := by
  obtain ⟨n, hn, rfl⟩ := mem_prefixes.mp hr
  obtain ⟨hroot, htrail⟩ := same_iff.mp h
  have hlen : p.steps.length = q.steps.length := by
    simpa [trail] using congrArg List.length htrail
  refine ⟨{ p with steps := p.steps.take n }, mem_prefixes.mpr ⟨n, hlen ▸ hn, rfl⟩,
    same_iff.mpr ⟨hroot, ?_⟩⟩
  simpa [trail, List.map_take] using congrArg (List.take n) htrail

theorem trail_from (p base : Path) : (p.from_ base).trail = base.trail ++ p.trail := by
  simp [from_, trail]

/-- Paths as seen from one place do not depend on the types on the way to it. -/
theorem reroot_same (p : Path) (h : q.same r = true) : (p.reroot q).same (p.reroot r) = true := by
  obtain ⟨hroot, htrail⟩ := same_iff.mp h
  rw [reroot, reroot]
  split
  · exact same_iff.mpr ⟨hroot, by rw [trail_from, trail_from, htrail]⟩
  · exact same_refl p
  · exact same_refl p

/-- Where a path of a called member leads in the frame of the caller does not depend on types. -/
theorem substitute_same {p' : Path} {receiver : Option Path} {args : List (Option Path)}
    (h : p.same q = true) (hp : p.substitute receiver args = some p') :
    ∃ q', q.substitute receiver args = some q' ∧ p'.same q' = true := by
  obtain ⟨hroot, htrail⟩ := same_iff.mp h
  have behind (base : Path) : (p.from_ base).same (q.from_ base) = true :=
    same_iff.mpr ⟨rfl, by rw [trail_from, trail_from, htrail]⟩
  rw [substitute] at hp ⊢
  rw [← hroot]
  split at hp
  · obtain ⟨base, hbase, rfl⟩ := Option.map_eq_some_iff.mp hp
    exact ⟨q.from_ base, by rw [hbase, Option.map_some], behind base⟩
  · obtain ⟨base, hbase, rfl⟩ := Option.map_eq_some_iff.mp hp
    exact ⟨q.from_ base, by rw [hbase, Option.map_some], behind base⟩
  · cases hp
    exact ⟨q, rfl, h⟩

/-- What stands at a root of a frame has the type that the frame gives it. -/
def RootTyped (className : String) (params : List Ty) (p : Path) : Prop :=
  match p.root with
  | .this => p.rootType = .ofClass className
  | .param i => params[i]? = some p.rootType
  | .static _ => True

theorem RootTyped.step {className : String} {params : List Ty} (h : p.RootTyped className params)
    (s : Step) (t : Ty) : (p.step s t).RootTyped className params := h

theorem RootTyped.from_ {className : String} {params : List Ty} (h : q.RootTyped className params)
    (p : Path) : (p.from_ q).RootTyped className params := h

end Effect.Path

namespace Typing

open Effect (Path)

/-- The names of a scope that stand for the parameters of a frame have their types. -/
structure Scope.InFrame (s : Scope) (params : List (String × Ty)) : Prop where
  clause : ∀ frame, s.clause = some frame → frame.params = params
  locals : ∀ name type i, s.local? name = some type → params.findIdx? (·.1 == name) = some i →
    (params.map (·.2))[i]? = some type

theorem Scope.param?_eq_some {s : Scope} {name : String} {i : Nat} {type : Ty}
    (h : s.param? name = some (i, type)) : ∃ frame, s.clause = some frame ∧
      frame.params.findIdx? (·.1 == name) = some i ∧ (frame.params.map (·.2))[i]? = some type := by
  simp only [Scope.param?, Option.bind_eq_bind, Option.bind_eq_some_iff] at h
  obtain ⟨frame, hframe, j, hj, ⟨n, t⟩, ht, heq⟩ := h
  cases heq
  exact ⟨frame, hframe, hj, by rw [List.getElem?_map, ht]; rfl⟩

mutual

/-- A path starts at `this`, which is of the class of the scope, at a parameter, or at a class. -/
theorem Elab.rootTyped {s : Scope} {e : Surface.Expr} {t : Typed.Expr} {cs : List CallSite}
    {params names : List (String × Ty)} (h : Elab s e t cs) (hs : s.InFrame params)
    (hn : names = [] ∨ names = params) {p : Path} (hp : Path.of? names t = some p) :
    p.RootTyped s.className (params.map (·.2)) := by
  cases h with
  | int | bool | null | new | newArray | old | result | binary | unary => cases hp
  | this =>
      cases hp
      rfl
  | @var span name type hl =>
      simp only [Path.of?, Option.map_eq_some_iff] at hp
      obtain ⟨i, hi, rfl⟩ := hp
      rcases hn with rfl | rfl
      · exact absurd hi (by simp)
      · exact hs.locals name type i hl hi
  | param hparam =>
      cases hp
      obtain ⟨frame, hframe, _, ht⟩ := Scope.param?_eq_some hparam
      rw [hs.clause frame hframe] at ht
      exact ht
  | ownStatic | classField | staticField =>
      cases hp
      trivial
  | ownField =>
      cases hp
      rfl
  | field ho =>
      simp only [Path.of?, Option.map_eq_some_iff] at hp
      obtain ⟨q, hq, rfl⟩ := hp
      exact (Elab.rootTyped ho hs hn hq).step _ _
  | length ho => exact Elab.rootTyped ho hs hn hp
  | staticCall | classCall | droppedCall =>
      simp only [Path.of?, Path.ofOpt?] at hp
      split at hp <;> cases hp
  | ownCall =>
      simp only [Path.of?, Path.ofOpt?] at hp
      split at hp
      · cases hp
        rfl
      · cases hp
  | methodCall ho =>
      simp only [Path.of?, Path.ofOpt?] at hp
      split at hp
      · obtain ⟨q, hq, rfl⟩ := Option.map_eq_some_iff.mp hp
        exact (Elab.rootTyped ho hs hn hq).step _ _
      · cases hp
  | index ha =>
      simp only [Path.of?, Option.map_eq_some_iff] at hp
      obtain ⟨q, hq, rfl⟩ := hp
      exact (Elab.rootTyped ha hs hn hq).step _ _
  | spread he =>
      simp only [Path.of?, Option.map_eq_some_iff] at hp
      obtain ⟨q, hq, rfl⟩ := hp
      exact (Elab.rootTyped he hs hn hq).step _ _

end

end Typing

end Covenant
