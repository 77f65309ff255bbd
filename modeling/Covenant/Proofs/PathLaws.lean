import Covenant.Proofs.Paths

/-!
# Laws of paths

Coverage orders paths: types apart, a path covers another exactly if it is one of the
ways to stop on the way of the other. Paths are also put behind one another, at the place
where an object stands or where the arguments of a call come from. All the ways to do this
come down to `from_`, which puts the steps of one path behind another and which is
associative, so nothing depends on the order in which a chain of calls is taken together.
-/

namespace Covenant.Effect.Path

variable {p q s : Path}

/-! ## Coverage -/

theorem dominates_refl (p : Path) : p.dominates p = true :=
  dominates_iff.mpr ⟨rfl, List.prefix_refl _⟩

theorem dominates_trans (h : p.dominates q = true) (h' : q.dominates s = true) :
    p.dominates s = true := by
  rw [dominates_iff] at h h' ⊢
  exact ⟨h.1.trans h'.1, h.2.trans h'.2⟩

/-- Two paths that cover each other are the same, but for their types. -/
theorem dominates_antisymm : p.dominates q = true ∧ q.dominates p = true ↔ p.same q = true := by
  rw [dominates_iff, dominates_iff, same_iff]
  constructor
  · rintro ⟨⟨hroot, hpq⟩, -, hqp⟩
    exact ⟨hroot, hpq.eq_of_length_le hqp.length_le⟩
  · rintro ⟨hroot, htrail⟩
    exact ⟨⟨hroot, htrail ▸ List.prefix_refl _⟩, hroot.symm, htrail ▸ List.prefix_refl _⟩

/-- What a path has in front of some of its steps covers it, and nothing else does. -/
theorem dominates_iff_prefix : q.dominates p = true ↔ ∃ s ∈ p.prefixes, q.same s = true := by
  rw [dominates_iff]
  constructor
  · rintro ⟨hroot, htrail⟩
    have hlen : q.trail.length ≤ p.steps.length := by
      simpa only [trail, List.length_map] using htrail.length_le
    refine ⟨{ p with steps := p.steps.take q.trail.length }, mem_prefixes.mpr ⟨_, hlen, rfl⟩,
      same_iff.mpr ⟨hroot, ?_⟩⟩
    rw [List.prefix_iff_eq_take.mp htrail]
    simp only [trail, List.map_take, List.length_take, List.length_map]
    rw [Nat.min_eq_left (by simpa only [trail, List.length_map] using hlen)]
  · rintro ⟨s, hs, hsame⟩
    obtain ⟨n, _, rfl⟩ := mem_prefixes.mp hs
    obtain ⟨hroot, htrail⟩ := same_iff.mp hsame
    refine ⟨hroot, ?_⟩
    rw [htrail, trail, List.map_take]
    exact List.take_prefix n _

/-! ## Paths behind paths -/

theorem from_from (p q s : Path) : (p.from_ q).from_ s = p.from_ (q.from_ s) := by
  simp only [from_, List.append_assoc]

/-- Paths from one place cover each other as they did before. -/
theorem dominates_from (base : Path) (h : q.dominates p = true) :
    (q.from_ base).dominates (p.from_ base) = true := by
  rw [dominates_iff, trail_from, trail_from]
  exact ⟨rfl, (List.prefix_append_right_inj base.trail).mpr (dominates_iff.mp h).2⟩

/-- What a path with steps leads to has the type of its last step, from wherever it starts. -/
theorem type_from (base : Path) (h : p.steps ≠ []) : (p.from_ base).type = p.type := by
  obtain ⟨last, hlast⟩ : ∃ last, p.steps.getLast? = some last :=
    ⟨_, List.getLast?_eq_some_getLast h⟩
  simp only [type, from_, List.getLast?_append, hlast, Option.some_or, Option.map_some,
    Option.getD_some]

theorem reroot_reroot (p q s : Path) : (p.reroot q).reroot s = p.reroot (q.reroot s) := by
  cases hp : p.root with
  | this =>
      simp only [reroot, hp]
      cases hq : q.root with
      | this => simp only [from_, hq, List.append_assoc]
      | param | static => simp only [from_, hq]
  | param | static => simp only [reroot, hp]

/-! ## Paths of called members -/

variable {receiver receiver' : Option Path} {args args' : List (Option Path)}

theorem substitute_this (h : p.root = .this) :
    p.substitute receiver args = receiver.map p.from_ := by rw [substitute, h]

theorem substitute_param {i : Nat} (h : p.root = .param i) :
    p.substitute receiver args = args[i]?.join.map p.from_ := by rw [substitute, h]

theorem substitute_static {c : String} (h : p.root = .static c) :
    p.substitute receiver args = some p := by rw [substitute, h]

/-- What becomes of a path depends on its root: it stays as it is, or its steps go behind a path of
the caller, if there is one. -/
theorem substitute_cases (r : Root) (receiver : Option Path) (args : List (Option Path)) :
    (∀ p : Path, p.root = r → p.substitute receiver args = some p) ∨
      ∃ o : Option Path, ∀ p : Path, p.root = r → p.substitute receiver args = o.map p.from_ := by
  cases r with
  | this => exact .inr ⟨receiver, fun _ => substitute_this⟩
  | param i => exact .inr ⟨args[i]?.join, fun _ => substitute_param⟩
  | static c => exact .inl fun _ => substitute_static

/-- Of a path that starts where another ends, only the front is rewritten. -/
theorem substitute_from (p base : Path) : (p.from_ base).substitute receiver args =
    (base.substitute receiver args).map p.from_ := by
  rcases substitute_cases base.root receiver args with hstays | ⟨o, hbehind⟩
  · rw [hstays (p.from_ base) rfl, hstays base rfl, Option.map_some]
  · rw [hbehind (p.from_ base) rfl, hbehind base rfl, Option.map_map]
    exact Option.map_congr fun s _ => from_from p base s

/-- A path that is rewritten for one call and then for the next is rewritten for both together. -/
theorem substitute_substitute (p : Path) :
    (p.substitute receiver args).bind (·.substitute receiver' args') =
      p.substitute (receiver.bind (·.substitute receiver' args'))
        (args.map (·.bind (·.substitute receiver' args'))) := by
  have behind (o : Option Path) : (o.map p.from_).bind (·.substitute receiver' args') =
      (o.bind (·.substitute receiver' args')).map p.from_ := by
    cases o with
    | none => rfl
    | some base => exact substitute_from p base
  cases hp : p.root with
  | this => rw [substitute_this hp, substitute_this hp, behind]
  | param i =>
      have hjoin : (args.map (·.bind (·.substitute receiver' args')))[i]?.join =
          args[i]?.join.bind (·.substitute receiver' args') := by
        rw [List.getElem?_map]
        cases args[i]? <;> rfl
      rw [substitute_param hp, substitute_param hp, behind, hjoin]
  | static c => rw [substitute_static hp, substitute_static hp, Option.bind_some,
      substitute_static hp]

theorem substitute_dominates (h : q.dominates p = true) :
    Option.Rel (fun q' p' => q'.dominates p' = true) (q.substitute receiver args)
      (p.substitute receiver args) := by
  have hroot := (dominates_iff.mp h).1
  rcases substitute_cases p.root receiver args with hstays | ⟨o, hbehind⟩
  · rw [hstays p rfl, hstays q hroot]
    exact .some h
  · rw [hbehind p rfl, hbehind q hroot]
    cases o with
    | none => exact .none
    | some base => exact .some (dominates_from base h)

theorem type_substitute {p' : Path} (hne : p.steps ≠ [])
    (h : p.substitute receiver args = some p') : p'.type = p.type := by
  rcases substitute_cases p.root receiver args with hstays | ⟨o, hbehind⟩
  · rw [Option.some.inj ((hstays p rfl).symm.trans h)]
  · obtain ⟨base, _, rfl⟩ := Option.map_eq_some_iff.mp ((hbehind p rfl).symm.trans h)
    exact type_from base hne

/-! ## The laws -/

variable (p q s receiver receiver' args args') in
/-- Coverage is an order whose equality leaves types aside; what covers a path are its prefixes;
overlapping is symmetric; places and calls may be taken together in any order; and rewriting a path
for a call keeps what it covers and, behind a step, its type. -/
theorem path_laws :
    p.dominates p = true ∧
    (p.dominates q = true → q.dominates s = true → p.dominates s = true) ∧
    (p.dominates q = true ∧ q.dominates p = true ↔ p.same q = true) ∧
    (q.dominates p = true ↔ ∃ r ∈ p.prefixes, q.same r = true) ∧
    p.overlaps q = q.overlaps p ∧
    (p.reroot q).reroot s = p.reroot (q.reroot s) ∧
    (q.dominates p = true → Option.Rel (fun q' p' => q'.dominates p' = true)
      (q.substitute receiver args) (p.substitute receiver args)) ∧
    (p.substitute receiver args).bind (·.substitute receiver' args') =
      p.substitute (receiver.bind (·.substitute receiver' args'))
        (args.map (·.bind (·.substitute receiver' args'))) ∧
    (p.steps ≠ [] → ∀ p', p.substitute receiver args = some p' → p'.type = p.type) :=
  ⟨dominates_refl p, dominates_trans, dominates_antisymm, dominates_iff_prefix, overlaps_comm p q,
    reroot_reroot p q s, substitute_dominates, substitute_substitute p,
    fun hne _ => type_substitute hne⟩

/-- The boxes in the stock of a shop, as an array. -/
def boxes : Path :=
  ((this "Shop").step (.field "stock") (.ofClass "Store")).step (.accessor "boxes")
    (.array (.ofClass "Box"))

/-- Behind `this`, the boxes come before each of them. Called on the first argument of a call that
has no path itself, neither has a path in the end. -/
theorem path_laws_boxes :
    (this "Shop").dominates boxes = true ∧
    boxes.dominates (boxes.step .elements (.ofClass "Box")) = true ∧
    (this "Shop").dominates (boxes.step .elements (.ofClass "Box")) = true ∧
    boxes.steps ≠ [] ∧
    ((boxes.from_ (param 0 (.ofClass "Shop"))).type = boxes.type) ∧
    Option.Rel (fun q' p' => q'.dominates p' = true)
      (some (param 0 (.ofClass "Shop"))) (some (boxes.from_ (param 0 (.ofClass "Shop")))) ∧
    ((boxes.substitute (some (param 0 (.ofClass "Shop"))) []).bind (·.substitute none [none])) =
      none := by
  obtain ⟨-, -, -, -, -, -, hcovers, hcalls, htype⟩ := path_laws boxes (this "Shop")
    (boxes.step .elements (.ofClass "Box")) (some (param 0 (.ofClass "Shop"))) none [] [none]
  have hfront := (path_laws (this "Shop") boxes (boxes.step .elements (.ofClass "Box"))
    none none [] []).2.1
  exact ⟨by decide, by decide, hfront (by decide) (by decide), by decide, htype (by decide) _ rfl,
    hcovers (by decide), hcalls.trans rfl⟩

end Covenant.Effect.Path
