import Covenant.Contract.EntryValues
import Covenant.Proofs.OldTerms
import Mathlib.Data.List.Forall2

/-!
# The slots of terms in `old`

Scheduling goes through the terms of a specification once and only ever adds
slots behind those that are there, so a term keeps the slot that it was given.
What is stored there is the first term that it can share with, and that is a
term of the same postconditions.
-/

namespace Covenant

open Typed (Expr)

namespace Contract

/-- Whether slot `n` holds what `x` shares, among the slots from `first` on. -/
def StoredAs (first : Nat) (slots : List Expr) (x : Expr) (n : Nat) : Prop :=
  ∃ y, slots[n]? = some y ∧ (slots.drop first).find? (sharesSlot · x) = some y

/-- What giving slots to terms does: slots are added for some of the terms, and each term has a
slot with the number in its place. -/
structure Stores (first : Nat) (slots slots' : List Expr) (terms : List Expr)
    (numbers : List Nat) : Prop where
  grown : ∃ more, slots' = slots ++ more ∧ ∀ y ∈ more, y ∈ terms
  stored : List.Forall₂ (StoredAs first slots') terms numbers

section

variable {first n : Nat} {slots slots₁ slots₂ more terms terms' : List Expr}
  {numbers numbers' : List Nat} {x : Expr}

theorem sharesSlot_refl (x : Expr) : sharesSlot x x = true := by
  simp [sharesSlot]

theorem StoredAs.append (h : StoredAs first slots x n) (hf : first ≤ slots.length) :
    StoredAs first (slots ++ more) x n := by
  obtain ⟨y, hn, hy⟩ := h
  refine ⟨y, List.getElem?_append_left (List.getElem?_eq_some_iff.mp hn).1 ▸ hn, ?_⟩
  rw [List.drop_append_of_le_length hf, List.find?_append, hy, Option.some_or]

theorem Stores.refl (first : Nat) (slots : List Expr) : Stores first slots slots [] [] :=
  ⟨⟨[], (List.append_nil _).symm, fun _ h => absurd h List.not_mem_nil⟩, .nil⟩

theorem Stores.le_length (h : Stores first slots slots₁ terms numbers)
    (hf : first ≤ slots.length) : first ≤ slots₁.length := by
  obtain ⟨more, rfl, _⟩ := h.grown
  rw [List.length_append]
  omega

theorem Stores.append (h : Stores first slots slots₁ terms numbers)
    (h' : Stores first slots₁ slots₂ terms' numbers') (hf : first ≤ slots.length) :
    Stores first slots slots₂ (terms ++ terms') (numbers ++ numbers') := by
  have hf₁ := h.le_length hf
  obtain ⟨more, rfl, hmore⟩ := h.grown
  obtain ⟨more', rfl, hmore'⟩ := h'.grown
  refine ⟨⟨more ++ more', List.append_assoc .., fun y hy => ?_⟩, ?_⟩
  · exact List.mem_append.mpr ((List.mem_append.mp hy).imp (hmore y) (hmore' y))
  · exact List.rel_append (h.stored.imp fun _ _ hs => hs.append hf₁) h'.stored

theorem slotFor_stores (hf : first ≤ slots.length) :
    Stores first slots (slotFor first slots x).2 [x] [(slotFor first slots x).1] := by
  rw [slotFor]
  split
  · next i hi =>
      refine ⟨⟨[], (List.append_nil _).symm, fun _ h => absurd h List.not_mem_nil⟩, ?_⟩
      obtain ⟨hlt, hshares, hbefore⟩ := List.findIdx?_eq_some_iff_getElem.mp hi
      refine .cons ⟨(slots.drop first)[i], ?_, ?_⟩ .nil
      · rw [← List.getElem?_drop, List.getElem?_eq_getElem hlt]
      · exact List.find?_eq_some_iff_getElem.mpr ⟨hshares, i, hlt, rfl, fun j hj => by
          simpa using hbefore j hj⟩
  · next hnone =>
      refine ⟨⟨[x], rfl, fun _ h => h⟩, .cons ⟨x, by simp, ?_⟩ .nil⟩
      have habsent : (slots.drop first).find? (sharesSlot · x) = none :=
        List.find?_eq_none.mpr fun y hy => by simpa using List.findIdx?_eq_none_iff.mp hnone y hy
      rw [List.drop_append_of_le_length hf, List.find?_append, habsent, Option.none_or]
      simp [sharesSlot_refl]

end

/-! ## Expressions without `old` -/

mutual

theorem storeOld_of_no_old (first : Nat) (slots : List Expr) :
    ∀ e : Expr, e.oldTerms = [] → storeOld first slots e = (e, slots)
  | .int .., _ | .bool .., _ | .null .., _ | .this .., _ | .var .., _ | .param .., _
  | .staticField .., _ | .result .., _ | .slot .., _ => rfl
  | .old .., h => absurd h (by simp [Expr.oldTerms])
  | .field _ _ e _, h | .length _ e, h | .unary _ _ e, h | .newArray _ _ e, h
  | .spread _ e, h => by
    rw [storeOld, storeOld_of_no_old first slots e h]
  | .index _ _ l r, h | .binary _ _ l r, h => by
    obtain ⟨hl, hr⟩ := List.append_eq_nil_iff.mp h
    rw [storeOld, storeOld_of_no_old first slots l hl]
    simp only [storeOld_of_no_old first slots r hr]
  | .call _ _ _ receiver _ _ args, h => by
    obtain ⟨hr, ha⟩ := List.append_eq_nil_iff.mp h
    rw [storeOld, storeOldOpt_of_no_old first slots receiver hr]
    simp only [storeOldAll_of_no_old first slots args ha]
  | .new _ _ _ _ args, h => by
    rw [storeOld, storeOldAll_of_no_old first slots args h]

theorem storeOldOpt_of_no_old (first : Nat) (slots : List Expr) :
    ∀ e : Option Expr, Expr.oldTermsOpt e = [] → storeOldOpt first slots e = (e, slots)
  | none, _ => rfl
  | some e, h => by
    rw [storeOldOpt, storeOld_of_no_old first slots e h]

theorem storeOldAll_of_no_old (first : Nat) (slots : List Expr) :
    ∀ es : List Expr, Expr.oldTermsAll es = [] → storeOldAll first slots es = (es, slots)
  | [], _ => rfl
  | e :: es, h => by
    obtain ⟨he, hes⟩ := List.append_eq_nil_iff.mp h
    rw [storeOldAll, storeOld_of_no_old first slots e he]
    simp only [storeOldAll_of_no_old first slots es hes]

end

/-! ## Expressions with `old` -/

/-- A clause as binding makes it: it reads no slots, and no `old` stands in `old`. -/
structure Unscheduled (terms : List Expr) (numbers : List Nat) : Prop where
  flat : ∀ x ∈ terms, x.oldTerms = []
  numbers : numbers = []

theorem Unscheduled.left {ts ts' : List Expr} {ns ns' : List Nat}
    (h : Unscheduled (ts ++ ts') (ns ++ ns')) : Unscheduled ts ns :=
  ⟨fun x hx => h.flat x (List.mem_append_left _ hx), (List.append_eq_nil_iff.mp h.numbers).1⟩

theorem Unscheduled.right {ts ts' : List Expr} {ns ns' : List Nat}
    (h : Unscheduled (ts ++ ts') (ns ++ ns')) : Unscheduled ts' ns' :=
  ⟨fun x hx => h.flat x (List.mem_append_right _ hx), (List.append_eq_nil_iff.mp h.numbers).2⟩

mutual

theorem storeOld_stores {first : Nat} {slots : List Expr} (hf : first ≤ slots.length) :
    ∀ e : Expr, Unscheduled e.oldTerms e.slotNumbers →
      Stores first slots (storeOld first slots e).2 e.oldTerms
        (storeOld first slots e).1.slotNumbers
  | .int .., _ | .bool .., _ | .null .., _ | .this .., _ | .var .., _ | .param .., _
  | .staticField .., _ | .result .., _ => Stores.refl first slots
  | .slot .., h => absurd h.numbers (by simp [Expr.slotNumbers])
  | .old _ x, h => by
    rw [storeOld, storeOld_of_no_old first slots x (h.flat x List.mem_cons_self)]
    exact slotFor_stores hf
  | .field _ _ e _, h | .length _ e, h | .unary _ _ e, h | .newArray _ _ e, h
  | .spread _ e, h => by
    have ih := storeOld_stores hf e h
    rw [storeOld]
    exact ih
  | .index _ _ l r, h | .binary _ _ l r, h => by
    have il := storeOld_stores hf l h.left
    have ir := storeOld_stores (il.le_length hf) r h.right
    rw [storeOld]
    exact il.append ir hf
  | .call _ _ _ receiver _ _ args, h => by
    have il := storeOldOpt_stores hf receiver h.left
    have ir := storeOldAll_stores (il.le_length hf) args h.right
    rw [storeOld]
    exact il.append ir hf
  | .new _ _ _ _ args, h => by
    have ih := storeOldAll_stores hf args h
    rw [storeOld]
    exact ih

theorem storeOldOpt_stores {first : Nat} {slots : List Expr} (hf : first ≤ slots.length) :
    ∀ e : Option Expr, Unscheduled (Expr.oldTermsOpt e) (Expr.slotNumbersOpt e) →
      Stores first slots (storeOldOpt first slots e).2 (Expr.oldTermsOpt e)
        (Expr.slotNumbersOpt (storeOldOpt first slots e).1)
  | none, _ => Stores.refl first slots
  | some e, h => by
    have ih := storeOld_stores hf e h
    rw [storeOldOpt]
    exact ih

theorem storeOldAll_stores {first : Nat} {slots : List Expr} (hf : first ≤ slots.length) :
    ∀ es : List Expr, Unscheduled (Expr.oldTermsAll es) (Expr.slotNumbersAll es) →
      Stores first slots (storeOldAll first slots es).2 (Expr.oldTermsAll es)
        (Expr.slotNumbersAll (storeOldAll first slots es).1)
  | [], _ => Stores.refl first slots
  | e :: es, h => by
    have il := storeOld_stores hf e h.left
    have ir := storeOldAll_stores (il.le_length hf) es h.right
    rw [storeOldAll]
    exact il.append ir hf

end

/-! ## Postconditions -/

/-- The terms that stand in `old` in some clauses. -/
def oldTermsOf (clauses : List BoundClause) : List Expr := clauses.flatMap (·.expr.oldTerms)

/-- Whether each term in `old` reads a slot in which `R` holds of what is stored there. -/
def OldTermsStored (R : Expr → Expr → Prop) (stored : List Expr) (posts posts' : List BoundClause) :
    Prop :=
  List.Forall₂ (fun c c' => List.Forall₂ (fun x n => ∃ y, stored[n]? = some y ∧ R y x)
    c.expr.oldTerms c'.expr.slotNumbers) posts posts'

theorem storePosts_stores {first : Nat} {slots : List Expr} (hf : first ≤ slots.length)
    {posts : List BoundClause}
    (h : ∀ c ∈ posts, Unscheduled c.expr.oldTerms c.expr.slotNumbers) :
    (∃ more, (storePosts first slots posts).2 = slots ++ more ∧ ∀ y ∈ more, y ∈ oldTermsOf posts) ∧
      List.Forall₂ (fun c c' => List.Forall₂ (StoredAs first (storePosts first slots posts).2)
        c.expr.oldTerms c'.expr.slotNumbers) posts (storePosts first slots posts).1 := by
  induction posts generalizing slots with
  | nil => exact ⟨⟨[], (List.append_nil _).symm, fun _ h => absurd h List.not_mem_nil⟩, .nil⟩
  | cons c cs ih =>
      have hc := storeOld_stores hf c.expr (h c List.mem_cons_self)
      have hf₁ := hc.le_length hf
      obtain ⟨⟨more', hmore', hin'⟩, hrest⟩ := ih hf₁ fun c hc => h c (List.mem_cons_of_mem _ hc)
      obtain ⟨more, hmore, hin⟩ := hc.grown
      rw [storePosts]
      refine ⟨⟨more ++ more', ?_, fun y hy => ?_⟩, .cons ?_ hrest⟩
      · rw [← List.append_assoc, ← hmore]
        exact hmore'
      · exact List.mem_append.mpr ((List.mem_append.mp hy).imp (hin y) (hin' y))
      · show List.Forall₂ _ _ _
        rw [hmore']
        exact hc.stored.imp fun _ _ hs => hs.append hf₁

section

variable {α β : Type} {R : α → β → Prop} {l : List α} {l' : List β}

theorem exists_of_forall₂ (h : List.Forall₂ R l l') : ∀ a ∈ l, ∃ b, R a b := by
  induction h with
  | nil => exact fun a ha => absurd ha List.not_mem_nil
  | @cons a b _ _ hr _ ih =>
      intro a' ha'
      rcases List.mem_cons.mp ha' with rfl | ha'
      · exact ⟨b, hr⟩
      · exact ih a' ha'

end

section

variable {s : Specification}

/-- The terms that stand in slots behind the conditions of `throws` clauses. -/
def sharedTerms (s : Specification) : List Expr :=
  (scheduleOne s).2.drop (s.throws.map (·.condition.expr)).length

/-- Each term of a specification reads the slot of the first one that it shares with. -/
theorem scheduleOne_stored
    (h : ∀ c ∈ s.postconditions, Unscheduled c.expr.oldTerms c.expr.slotNumbers) :
    OldTermsStored (fun y x => y ∈ oldTermsOf s.postconditions ∧
        (sharedTerms s).find? (sharesSlot · x) = some y)
      (scheduleOne s).2 s.postconditions (scheduleOne s).1.postconditions := by
  obtain ⟨⟨more, hmore, hin⟩, hstored⟩ := storePosts_stores (Nat.le_refl _) h
  have hshared : sharedTerms s = more := by
    show (storePosts _ _ _).2.drop _ = _
    rw [hmore, List.drop_left]
  refine hstored.imp fun c c' hc => hc.imp fun x n hx => ?_
  obtain ⟨y, hn, hy⟩ := hx
  have hfind : (sharedTerms s).find? (sharesSlot · x) = some y := hy
  exact ⟨y, hn, hin y (hshared ▸ List.mem_of_find?_eq_some hfind), hfind⟩

/-- Terms that share a slot with one another find the same term stored. -/
theorem find?_sharesSlot {stored : List Expr} {a b : Expr} (h : sharesSlot a b = true) :
    stored.find? (sharesSlot · a) = stored.find? (sharesSlot · b) := by
  simp only [sharesSlot, Bool.and_eq_true, beq_iff_eq] at h
  simp only [sharesSlot, h.1, h.2]

/-- The values that terms in `old` read are right just if terms that share a slot have one value:
what is stored for a term is one that it shares with, and any two terms that share find the same
one. -/
theorem oldTermsStored_iff {R : Expr → Expr → Prop} (hR : Equivalence R)
    (h : ∀ c ∈ s.postconditions, Unscheduled c.expr.oldTerms c.expr.slotNumbers) :
    OldTermsStored R (scheduleOne s).2 s.postconditions (scheduleOne s).1.postconditions ↔
      ∀ a ∈ oldTermsOf s.postconditions, ∀ b ∈ oldTermsOf s.postconditions,
        sharesSlot a b = true → R a b := by
  have hstored := scheduleOne_stored h
  constructor
  · intro hright a ha b hb hshare
    -- Both facts about a slot are about one and the same stored term.
    have found : ∀ x ∈ oldTermsOf s.postconditions,
        ∃ y, (sharedTerms s).find? (sharesSlot · x) = some y ∧ R y x := by
      intro x hx
      obtain ⟨c, hc, hx⟩ := List.mem_flatMap.mp hx
      obtain ⟨_, hr, hs⟩ := exists_of_forall₂ (hright.mp (fun _ _ => And.intro) hstored) c hc
      obtain ⟨_, ⟨y, hy, hRy⟩, y', hy', _, hfind⟩ := exists_of_forall₂ (hr.mp (fun _ _ => And.intro) hs) x hx
      obtain rfl := Option.some.inj (hy.symm.trans hy')
      exact ⟨y, hfind, hRy⟩
    obtain ⟨y, hy, hRa⟩ := found a ha
    obtain ⟨y', hy', hRb⟩ := found b hb
    rw [find?_sharesSlot hshare, hy'] at hy
    obtain rfl := Option.some.inj hy
    exact hR.trans (hR.symm hRa) hRb
  · intro hshare
    have hmem : ∀ c ∈ s.postconditions, ∀ x ∈ c.expr.oldTerms,
        x ∈ oldTermsOf s.postconditions := fun c hc x hx => List.mem_flatMap.mpr ⟨c, hc, hx⟩
    refine ((List.forall₂_and_left _ _).mpr ⟨hmem, hstored⟩).imp fun c c' hc => ?_
    refine ((List.forall₂_and_left _ _).mpr hc).imp fun x n hx => ?_
    obtain ⟨hx, y, hn, hy, hfind⟩ := hx
    exact ⟨y, hn, hshare y hy x hx (by simpa using List.find?_some hfind)⟩

end

end Contract

end Covenant
