import Covenant.Proofs.OldValues

/-!
# What scheduling makes of a specification

Scheduling carries the slots that there are so far through all postconditions of a
member. What comes out needs no such state to be told: the slots are the conditions
of the `throws` clauses and then the first of each class of terms that read alike,
in the order of the terms, and a postcondition changes only in that each term in
`old` is a slot now, of a number that depends on the term alone. The number stays
right because slots are only ever added behind those that are there.

Terms that read alike need not be the same term. A slot for each different term is
what comes out just if no two terms of the member read alike and mean different
things.
-/

namespace Covenant

open Typed (Expr)

namespace Typed.Expr

mutual

/-- The expression with a slot in place of each term in `old`, and nothing else changed. -/
def readSlots (number : Expr → Nat) : Expr → Expr
  | old span x => slot span x.type (number x)
  | field span t o name => field span t (o.readSlots number) name
  | length span a => length span (a.readSlots number)
  | index span t a i => index span t (a.readSlots number) (i.readSlots number)
  | binary span op l r => binary span op (l.readSlots number) (r.readSlots number)
  | unary span op x => unary span op (x.readSlots number)
  | call span t site receiver m name args =>
    call span t site (readSlotsOpt number receiver) m name (readSlotsAll number args)
  | new span site c ctor args => new span site c ctor (readSlotsAll number args)
  | newArray span elem len => newArray span elem (len.readSlots number)
  | spread span x => spread span (x.readSlots number)
  | e => e

def readSlotsOpt (number : Expr → Nat) : Option Expr → Option Expr
  | none => none
  | some e => some (e.readSlots number)

def readSlotsAll (number : Expr → Nat) : List Expr → List Expr
  | [] => []
  | e :: es => e.readSlots number :: readSlotsAll number es

end

def isOld : Expr → Bool
  | old .. => true
  | _ => false

mutual

theorem oldTerms_readSlots (number : Expr → Nat) : ∀ e : Expr, (e.readSlots number).oldTerms = []
  | int .. | bool .. | null .. | this .. | var .. | param .. | staticField .. | result ..
  | slot .. | old .. => rfl
  | field _ _ e _ | length _ e | unary _ _ e | newArray _ _ e | spread _ e =>
    oldTerms_readSlots number e
  | index _ _ l r | binary _ _ l r =>
    List.append_eq_nil_iff.mpr ⟨oldTerms_readSlots number l, oldTerms_readSlots number r⟩
  | call _ _ _ receiver _ _ args =>
    List.append_eq_nil_iff.mpr
      ⟨oldTermsOpt_readSlots number receiver, oldTermsAll_readSlots number args⟩
  | new _ _ _ _ args => oldTermsAll_readSlots number args

theorem oldTermsOpt_readSlots (number : Expr → Nat) :
    ∀ e : Option Expr, oldTermsOpt (readSlotsOpt number e) = []
  | none => rfl
  | some e => oldTerms_readSlots number e

theorem oldTermsAll_readSlots (number : Expr → Nat) :
    ∀ es : List Expr, oldTermsAll (readSlotsAll number es) = []
  | [] => rfl
  | e :: es =>
    List.append_eq_nil_iff.mpr ⟨oldTerms_readSlots number e, oldTermsAll_readSlots number es⟩

end

mutual

/-- An expression without terms in `old` has no part that is one. -/
theorem isOld_of_mem_parts : ∀ e : Expr, e.oldTerms = [] → ∀ x ∈ e.parts, x.isOld = false
  | int .., _ | bool .., _ | null .., _ | this .., _ | var .., _ | param .., _
  | staticField .., _ | result .., _ | slot .., _ => fun x hx => List.mem_singleton.mp hx ▸ rfl
  | old .., h => absurd h (List.cons_ne_nil _ _)
  | field _ _ e _, h | length _ e, h | unary _ _ e, h | newArray _ _ e, h | spread _ e, h =>
    List.forall_mem_cons.mpr ⟨rfl, isOld_of_mem_parts e h⟩
  | index _ _ l r, h | binary _ _ l r, h => by
    obtain ⟨hl, hr⟩ := List.append_eq_nil_iff.mp h
    exact List.forall_mem_cons.mpr ⟨rfl, List.forall_mem_append.mpr
      ⟨isOld_of_mem_parts l hl, isOld_of_mem_parts r hr⟩⟩
  | call _ _ _ receiver _ _ args, h => by
    obtain ⟨hr, ha⟩ := List.append_eq_nil_iff.mp h
    exact List.forall_mem_cons.mpr ⟨rfl, List.forall_mem_append.mpr
      ⟨isOld_of_mem_partsOpt receiver hr, isOld_of_mem_partsAll args ha⟩⟩
  | new _ _ _ _ args, h => List.forall_mem_cons.mpr ⟨rfl, isOld_of_mem_partsAll args h⟩

theorem isOld_of_mem_partsOpt :
    ∀ e : Option Expr, oldTermsOpt e = [] → ∀ x ∈ partsOpt e, x.isOld = false
  | none, _ => fun _ hx => absurd hx List.not_mem_nil
  | some e, h => isOld_of_mem_parts e h

theorem isOld_of_mem_partsAll :
    ∀ es : List Expr, oldTermsAll es = [] → ∀ x ∈ partsAll es, x.isOld = false
  | [], _ => fun _ hx => absurd hx List.not_mem_nil
  | e :: es, h => by
    obtain ⟨he, hes⟩ := List.append_eq_nil_iff.mp h
    exact List.forall_mem_append.mpr ⟨isOld_of_mem_parts e he, isOld_of_mem_partsAll es hes⟩

end

mutual

/-- The slots that are read are those of the terms in `old`. -/
theorem slotNumbers_readSlots (number : Expr → Nat) :
    ∀ e : Expr, e.slotNumbers = [] → (e.readSlots number).slotNumbers = e.oldTerms.map number
  | int .., _ | bool .., _ | null .., _ | this .., _ | var .., _ | param .., _
  | staticField .., _ | result .., _ | old .., _ => rfl
  | slot .., h => absurd h (List.cons_ne_nil _ _)
  | field _ _ e _, h | length _ e, h | unary _ _ e, h | newArray _ _ e, h | spread _ e, h =>
    slotNumbers_readSlots number e h
  | index _ _ l r, h | binary _ _ l r, h => by
    obtain ⟨hl, hr⟩ := List.append_eq_nil_iff.mp h
    rw [readSlots, slotNumbers, slotNumbers_readSlots number l hl,
      slotNumbers_readSlots number r hr, oldTerms, List.map_append]
  | call _ _ _ receiver _ _ args, h => by
    obtain ⟨hr, ha⟩ := List.append_eq_nil_iff.mp h
    rw [readSlots, slotNumbers, slotNumbersOpt_readSlots number receiver hr,
      slotNumbersAll_readSlots number args ha, oldTerms, List.map_append]
  | new _ _ _ _ args, h => slotNumbersAll_readSlots number args h

theorem slotNumbersOpt_readSlots (number : Expr → Nat) :
    ∀ e : Option Expr, slotNumbersOpt e = [] →
      slotNumbersOpt (readSlotsOpt number e) = (oldTermsOpt e).map number
  | none, _ => rfl
  | some e, h => slotNumbers_readSlots number e h

theorem slotNumbersAll_readSlots (number : Expr → Nat) :
    ∀ es : List Expr, slotNumbersAll es = [] →
      slotNumbersAll (readSlotsAll number es) = (oldTermsAll es).map number
  | [], _ => rfl
  | e :: es, h => by
    obtain ⟨he, hes⟩ := List.append_eq_nil_iff.mp h
    rw [readSlotsAll, slotNumbersAll, slotNumbers_readSlots number e he,
      slotNumbersAll_readSlots number es hes, oldTermsAll, List.map_append]

end

end Typed.Expr

namespace Contract

/-! ## Terms that read alike -/

/-- The first of each class of terms that share a slot, in their order. -/
def firstOfEach : List Expr → List Expr
  | [] => []
  | x :: xs => x :: (firstOfEach xs).filter (!sharesSlot x ·)

theorem sharesSlot_iff {a b : Expr} :
    sharesSlot a b = true ↔ a.type = b.type ∧ a.text = b.text := by
  simp [sharesSlot]

theorem sharesSlot_congr {a b : Expr} (h : sharesSlot a b = true) (c : Expr) :
    sharesSlot c a = sharesSlot c b := by
  obtain ⟨htype, htext⟩ := sharesSlot_iff.mp h
  rw [sharesSlot, sharesSlot, htype, htext]

theorem firstOfEach_sublist : ∀ xs : List Expr, (firstOfEach xs).Sublist xs
  | [] => .slnil
  | _ :: xs => (List.filter_sublist.trans (firstOfEach_sublist xs)).cons_cons _

/-- No two of them share a slot. -/
theorem firstOfEach_apart : ∀ xs : List Expr,
    (firstOfEach xs).Pairwise fun a b => sharesSlot a b = false
  | [] => .nil
  | x :: xs => by
    refine .cons (fun y hy => ?_) ((firstOfEach_apart xs).sublist List.filter_sublist)
    simpa using (List.mem_filter.mp hy).2

/-- Each term shares a slot with one of them. -/
theorem firstOfEach_covers : ∀ xs : List Expr, ∀ x ∈ xs, ∃ y ∈ firstOfEach xs, sharesSlot y x = true
  | z :: xs, x, hx => by
    rw [firstOfEach]
    rcases List.mem_cons.mp hx with rfl | hx
    · exact ⟨x, List.mem_cons_self, sharesSlot_refl x⟩
    · obtain ⟨y, hy, hshares⟩ := firstOfEach_covers xs x hx
      by_cases hz : sharesSlot z y = true
      · exact ⟨z, List.mem_cons_self, sharesSlot_congr hshares z ▸ hz⟩
      · exact ⟨y, List.mem_cons_of_mem _ (List.mem_filter.mpr ⟨hy, by simpa using hz⟩), hshares⟩

/-! ## Slots that are added -/

/-- The slots once a term has one of those from `first` on. -/
def addSlot (first : Nat) (slots : List Expr) (x : Expr) : List Expr := (slotFor first slots x).2

/-- The number of the slot of a term, among those from `first` on. -/
def numberIn (first : Nat) (slots : List Expr) (x : Expr) : Nat :=
  first + (slots.drop first).findIdx (sharesSlot · x)

section

variable {first : Nat} {slots later : List Expr}

theorem addSlot_eq (first : Nat) (slots : List Expr) (x : Expr) :
    addSlot first slots x =
      if (slots.drop first).any (sharesSlot · x) then slots else slots ++ [x] := by
  rw [addSlot, slotFor]
  split
  · next i hi =>
      obtain ⟨hlt, hshares, _⟩ := List.findIdx?_eq_some_iff_getElem.mp hi
      rw [if_pos (List.any_eq_true.mpr ⟨_, List.getElem_mem hlt, hshares⟩)]
  · next hnone =>
      rw [if_neg fun hany => ?_]
      obtain ⟨y, hy, hshares⟩ := List.any_eq_true.mp hany
      exact absurd hshares (by simp [List.findIdx?_eq_none_iff.mp hnone y hy])

theorem prefix_addSlot (first : Nat) (slots : List Expr) (x : Expr) :
    slots <+: addSlot first slots x := by
  rw [addSlot_eq]
  split
  · exact List.prefix_refl slots
  · exact List.prefix_append slots [x]

theorem prefix_foldl_addSlot (first : Nat) (xs : List Expr) :
    ∀ slots : List Expr, slots <+: xs.foldl (addSlot first) slots := by
  induction xs with
  | nil => exact List.prefix_refl
  | cons x xs ih => exact fun slots => (prefix_addSlot first slots x).trans (ih _)

/-- The number that a term is given stays its number. -/
theorem slotFor_number (hf : first ≤ slots.length) {x : Expr}
    (h : addSlot first slots x <+: later) : (slotFor first slots x).1 = numberIn first later x := by
  obtain ⟨more, rfl⟩ := h
  rw [addSlot, slotFor]
  split
  · next i hi =>
      obtain ⟨hlt, hidx⟩ := List.findIdx?_eq_some_iff_findIdx_eq.mp hi
      rw [numberIn, List.drop_append_of_le_length hf, List.findIdx_append, hidx, if_pos hlt]
  · next hnone =>
      have hidx := List.findIdx?_eq_none_iff_findIdx_eq.mp hnone
      rw [numberIn, List.append_assoc, List.drop_append_of_le_length hf, List.findIdx_append, hidx,
        if_neg (Nat.lt_irrefl _), List.singleton_append, List.findIdx_cons, sharesSlot_refl,
        List.length_drop]
      simp only [cond_true, Nat.zero_add]
      omega

end

/-! ## Scheduling without its state -/

/-- What it means to schedule something in which there are `terms` in `old`: slots are added for
these from left to right, and whatever else is added later, each of them reads its number. -/
structure Reads {α : Type} (first : Nat) (slots : List Expr) (stored : α × List Expr)
    (terms : List Expr) (read : (Expr → Nat) → α) : Prop where
  slots : stored.2 = terms.foldl (addSlot first) slots
  read : ∀ later, stored.2 <+: later → stored.1 = read (numberIn first later)

section

variable {α β γ : Type} {first : Nat} {slots terms terms' : List Expr} {x : α × List Expr}
  {y : β × List Expr} {read : (Expr → Nat) → α} {read' : (Expr → Nat) → β}

theorem Reads.refl (first : Nat) (slots : List Expr) (a : α) :
    Reads first slots (a, slots) [] fun _ => a := ⟨rfl, fun _ _ => rfl⟩

theorem Reads.le_length (h : Reads first slots x terms read) (hf : first ≤ slots.length) :
    first ≤ x.2.length := by
  rw [h.slots]
  exact Nat.le_trans hf (prefix_foldl_addSlot first terms slots).length_le

theorem Reads.map (h : Reads first slots x terms read) (f : α → β) :
    Reads first slots (f x.1, x.2) terms fun n => f (read n) :=
  ⟨h.slots, fun later hlater => congrArg f (h.read later hlater)⟩

/-- One thing after another. -/
theorem Reads.append (h : Reads first slots x terms read) (h' : Reads first x.2 y terms' read')
    (f : α → β → γ) :
    Reads first slots (f x.1 y.1, y.2) (terms ++ terms') fun n => f (read n) (read' n) := by
  refine ⟨?_, fun later hlater => ?_⟩
  · rw [List.foldl_append, ← h.slots]
    exact h'.slots
  · have hfront : x.2 <+: later := by
      refine List.IsPrefix.trans ?_ hlater
      rw [h'.slots]
      exact prefix_foldl_addSlot first terms' x.2
    exact congrArg₂ f (h.read later hfront) (h'.read later hlater)

end

mutual

theorem storeOld_reads {first : Nat} {slots : List Expr} (hf : first ≤ slots.length) :
    ∀ e : Expr, (∀ x ∈ e.oldTerms, x.oldTerms = []) →
      Reads first slots (storeOld first slots e) e.oldTerms e.readSlots
  | .int .., _ | .bool .., _ | .null .., _ | .this .., _ | .var .., _ | .param .., _
  | .staticField .., _ | .result .., _ | .slot .., _ => Reads.refl first slots _
  | .old span x, h => by
    rw [storeOld, storeOld_of_no_old first slots x (h x List.mem_cons_self)]
    exact ⟨rfl, fun later hlater => congrArg (Expr.slot span x.type) (slotFor_number hf hlater)⟩
  | .field span t e name, h => (storeOld_reads hf e h).map fun e => Expr.field span t e name
  | .length span e, h => (storeOld_reads hf e h).map (Expr.length span)
  | .unary span op e, h => (storeOld_reads hf e h).map (Expr.unary span op)
  | .newArray span elem e, h => (storeOld_reads hf e h).map (Expr.newArray span elem)
  | .spread span e, h => (storeOld_reads hf e h).map (Expr.spread span)
  | .index span t l r, h => by
    obtain ⟨hl, hr⟩ := List.forall_mem_append.mp h
    have il := storeOld_reads hf l hl
    exact il.append (storeOld_reads (il.le_length hf) r hr) (Expr.index span t)
  | .binary span op l r, h => by
    obtain ⟨hl, hr⟩ := List.forall_mem_append.mp h
    have il := storeOld_reads hf l hl
    exact il.append (storeOld_reads (il.le_length hf) r hr) (Expr.binary span op)
  | .call span t site receiver m name args, h => by
    obtain ⟨hr, ha⟩ := List.forall_mem_append.mp h
    have il := storeOldOpt_reads hf receiver hr
    exact il.append (storeOldAll_reads (il.le_length hf) args ha) fun receiver args =>
      Expr.call span t site receiver m name args
  | .new span site c ctor args, h => (storeOldAll_reads hf args h).map (Expr.new span site c ctor)

theorem storeOldOpt_reads {first : Nat} {slots : List Expr} (hf : first ≤ slots.length) :
    ∀ e : Option Expr, (∀ x ∈ Expr.oldTermsOpt e, x.oldTerms = []) →
      Reads first slots (storeOldOpt first slots e) (Expr.oldTermsOpt e)
        fun n => Expr.readSlotsOpt n e
  | none, _ => Reads.refl first slots none
  | some e, h => (storeOld_reads hf e h).map some

theorem storeOldAll_reads {first : Nat} {slots : List Expr} (hf : first ≤ slots.length) :
    ∀ es : List Expr, (∀ x ∈ Expr.oldTermsAll es, x.oldTerms = []) →
      Reads first slots (storeOldAll first slots es) (Expr.oldTermsAll es)
        fun n => Expr.readSlotsAll n es
  | [], _ => Reads.refl first slots []
  | e :: es, h => by
    obtain ⟨he, hes⟩ := List.forall_mem_append.mp h
    have ih := storeOld_reads hf e he
    exact ih.append (storeOldAll_reads (ih.le_length hf) es hes) List.cons

end

/-- A clause with slots in place of its terms in `old`. -/
def BoundClause.readSlots (number : Expr → Nat) (c : BoundClause) : BoundClause :=
  { c with expr := c.expr.readSlots number }

theorem storePosts_reads {first : Nat} {slots : List Expr} (hf : first ≤ slots.length)
    {posts : List BoundClause} (h : ∀ x ∈ oldTermsOf posts, x.oldTerms = []) :
    Reads first slots (storePosts first slots posts) (oldTermsOf posts)
      fun n => posts.map (BoundClause.readSlots n) := by
  induction posts generalizing slots with
  | nil => exact Reads.refl first slots []
  | cons c cs ih =>
      rw [oldTermsOf, List.flatMap_cons] at h
      obtain ⟨hc, hcs⟩ := List.forall_mem_append.mp h
      have hread := storeOld_reads hf c.expr hc
      exact hread.append (ih (hread.le_length hf) hcs) fun e cs => { c with expr := e } :: cs

/-- What is added for some terms is the first of each class that has no slot yet. -/
theorem foldl_addSlot (conditions xs : List Expr) : ∀ ys : List Expr,
    xs.foldl (addSlot conditions.length) (conditions ++ ys) =
      conditions ++ (ys ++ (firstOfEach xs).filter fun x => !ys.any (sharesSlot · x)) := by
  induction xs with
  | nil => simp [firstOfEach]
  | cons x xs ih =>
      intro ys
      rw [List.foldl_cons, addSlot_eq, List.drop_left, firstOfEach]
      by_cases hany : ys.any (sharesSlot · x) = true
      · -- Whatever shares a slot with `x` shares one of the slots that are there.
        have hshared : ∀ y, (!ys.any (sharesSlot · y) && !sharesSlot x y) =
            !ys.any (sharesSlot · y) := by
          intro y
          by_cases hxy : sharesSlot x y = true
          · simp [← sharesSlot_congr hxy, hany]
          · simp [hxy]
        rw [if_pos hany, ih, List.filter_cons_of_neg (by simp [hany]), List.filter_filter]
        simp only [hshared]
      · rw [if_neg hany, List.append_assoc, ih, List.filter_cons_of_pos (by simp [hany]),
          List.filter_filter]
        simp

section

variable {s : Specification}

/-- The number of the slot that a term of a specification reads. -/
def slotOf (s : Specification) (x : Expr) : Nat :=
  s.throws.length + (firstOfEach (oldTermsOf s.postconditions)).findIdx (sharesSlot · x)

/-- Scheduling a specification, told without the slots that there are on the way. -/
theorem scheduleOne_eq (h : ∀ x ∈ oldTermsOf s.postconditions, x.oldTerms = []) :
    scheduleOne s =
      ({ s with
          postconditions := s.postconditions.map (BoundClause.readSlots (slotOf s))
          throwsSlots := List.range s.throws.length },
        s.throws.map (·.condition.expr) ++ firstOfEach (oldTermsOf s.postconditions)) := by
  have hlength : (s.throws.map (·.condition.expr)).length = s.throws.length := List.length_map _
  have hread := storePosts_reads (Nat.le_refl (s.throws.map (·.condition.expr)).length) h
  have hslots : (storePosts (s.throws.map (·.condition.expr)).length
      (s.throws.map (·.condition.expr)) s.postconditions).2 =
      s.throws.map (·.condition.expr) ++ firstOfEach (oldTermsOf s.postconditions) := by
    have hadded := foldl_addSlot (s.throws.map (·.condition.expr))
      (oldTermsOf s.postconditions) []
    rw [List.append_nil] at hadded
    rw [hread.slots, hadded]
    simp
  have hnumber : numberIn (s.throws.map (·.condition.expr)).length
      (s.throws.map (·.condition.expr) ++ firstOfEach (oldTermsOf s.postconditions)) = slotOf s := by
    funext x
    rw [numberIn, List.drop_left, hlength, slotOf]
  have hposts := hread.read _ (List.prefix_refl _)
  rw [hslots, hnumber] at hposts
  show ({ s with postconditions := (storePosts _ _ _).1, throwsSlots := List.range _ },
    (storePosts _ _ _).2) = _
  rw [hposts, hslots, hlength]

end

/-! ## What comes out -/

/-- What a specification becomes, and the snapshot that goes with it. -/
structure ScheduledAs (s s' : Specification) (snapshot : Option Snapshot) : Prop where
  /-- Nothing else changes, and the slots of the conditions are the first ones. -/
  rest : s' = { s with
    postconditions := s'.postconditions
    throwsSlots := List.range s.throws.length }
  /-- Each term in `old` is a slot now, and nothing else of a postcondition changes. -/
  posts : s'.postconditions = s.postconditions.map (BoundClause.readSlots (slotOf s))
  no_old : ∀ c ∈ s'.postconditions, ∀ e ∈ c.expr.parts, e.isOld = false
  present : snapshot.isSome = true ↔ s.throws ≠ [] ∨ oldTermsOf s.postconditions ≠ []
  /-- One slot for each condition, and one for each class of terms that read alike. -/
  slots : ∀ v, snapshot = some v →
    v.slots = s.throws.map (·.condition.expr) ++ firstOfEach (oldTermsOf s.postconditions)
  read : ∀ c ∈ s'.postconditions, ∀ n ∈ c.expr.slotNumbers,
    s.throws.length ≤ n ∧ ∃ v, snapshot = some v ∧ n < v.slots.length
  apart : ∀ a ∈ oldTermsOf s.postconditions, ∀ b ∈ oldTermsOf s.postconditions,
    slotOf s a = slotOf s b ↔ sharesSlot a b = true

section

variable {s : Specification}

theorem findIdx_lt {x : Expr} (hx : x ∈ oldTermsOf s.postconditions) :
    (firstOfEach (oldTermsOf s.postconditions)).findIdx (sharesSlot · x) <
      (firstOfEach (oldTermsOf s.postconditions)).length := by
  obtain ⟨y, hy, hshares⟩ := firstOfEach_covers _ x hx
  exact List.findIdx_lt_length_of_exists ⟨y, hy, hshares⟩

theorem slotOf_eq_iff {a b : Expr} (ha : a ∈ oldTermsOf s.postconditions)
    (hb : b ∈ oldTermsOf s.postconditions) : slotOf s a = slotOf s b ↔ sharesSlot a b = true := by
  constructor
  · intro h
    have hidx := Nat.add_left_cancel h
    have hshare_a := List.findIdx_getElem (w := findIdx_lt ha)
    have hshare_b := List.findIdx_getElem (w := findIdx_lt hb)
    simp only [hidx] at hshare_a
    obtain ⟨htype, htext⟩ := sharesSlot_iff.mp hshare_a
    obtain ⟨htype', htext'⟩ := sharesSlot_iff.mp hshare_b
    exact sharesSlot_iff.mpr ⟨htype.symm.trans htype', htext.symm.trans htext'⟩
  · intro h
    rw [slotOf, slotOf, show (sharesSlot · a) = (sharesSlot · b) from funext (sharesSlot_congr h)]

/-- The snapshot of a scheduled specification; without slots there is none. -/
theorem scheduleOne_scheduledAs (h : ∀ c ∈ s.postconditions,
      Unscheduled c.expr.oldTerms c.expr.slotNumbers) {snapshot : Option Snapshot}
    (point : SnapshotPoint)
    (hsnapshot : snapshot = if (scheduleOne s).2.isEmpty then none
      else some ⟨point, (scheduleOne s).2⟩) :
    ScheduledAs s (scheduleOne s).1 snapshot := by
  have hflat : ∀ x ∈ oldTermsOf s.postconditions, x.oldTerms = [] := fun x hx => by
    obtain ⟨c, hc, hx⟩ := List.mem_flatMap.mp hx
    exact (h c hc).flat x hx
  rw [scheduleOne_eq hflat] at hsnapshot ⊢
  dsimp only at hsnapshot
  generalize hslots : s.throws.map (·.condition.expr) ++
    firstOfEach (oldTermsOf s.postconditions) = slots at hsnapshot
  have hempty : slots.isEmpty = true ↔ s.throws = [] ∧ oldTermsOf s.postconditions = [] := by
    rw [← hslots, List.isEmpty_iff, List.append_eq_nil_iff, List.map_eq_nil_iff]
    cases oldTermsOf s.postconditions <;> simp [firstOfEach]
  refine ⟨rfl, rfl, fun c hc => ?_, ?_, fun v hv => ?_, fun c hc n hn => ?_,
    fun a ha b hb => slotOf_eq_iff ha hb⟩
  · obtain ⟨d, _, rfl⟩ := List.mem_map.mp hc
    exact Expr.isOld_of_mem_parts _ (Expr.oldTerms_readSlots _ d.expr)
  · rw [hsnapshot]
    by_cases hnone : slots.isEmpty = true
    · obtain ⟨hthrows, hold⟩ := hempty.mp hnone
      simp [hnone, hthrows, hold]
    · rw [if_neg hnone]
      exact ⟨fun _ => not_and_or.mp fun h => hnone (hempty.mpr h), fun _ => rfl⟩
  · rw [hsnapshot] at hv
    split at hv
    · cases hv
    · obtain rfl := Option.some.inj hv
      exact hslots.symm
  · obtain ⟨d, hd, rfl⟩ := List.mem_map.mp hc
    rw [BoundClause.readSlots, Expr.slotNumbers_readSlots _ _ (h d hd).numbers] at hn
    obtain ⟨x, hx, rfl⟩ := List.mem_map.mp hn
    have hlt := findIdx_lt (List.mem_flatMap.mpr ⟨d, hd, hx⟩)
    have hlength : slotOf s x < slots.length := by
      rw [← hslots, slotOf, List.length_append, List.length_map]
      exact Nat.add_lt_add_left hlt _
    refine ⟨Nat.le_add_right .., ⟨point, slots⟩, ?_, hlength⟩
    rw [hsnapshot, if_neg]
    rw [List.isEmpty_iff]
    rintro rfl
    exact absurd hlength (Nat.not_lt_zero _)

end

end Contract

/-! ## The same term -/

namespace Typed.Expr

mutual

theorem meanings_bare (site : SiteId) : ∀ e : Expr, (e.bare site).meanings = e.meanings
  | int .. | bool .. | null .. | this .. | var .. | param .. | staticField .. | result ..
  | slot .. => rfl
  | field _ _ e _ | length _ e => congrArg (· ++ _) (meanings_bare site e)
  | unary _ _ e | old _ e | spread _ e => meanings_bare site e
  | newArray _ _ e => congrArg (_ :: ·) (meanings_bare site e)
  | index _ _ l r | binary _ _ l r =>
    congrArg₂ (· ++ ·) (meanings_bare site l) (meanings_bare site r)
  | call _ _ _ receiver _ _ args =>
    congrArg₂ (· ++ _ :: ·) (meanings_bareReceiver site receiver) (meanings_bareAll site args)
  | new _ _ _ _ args => congrArg (_ :: ·) (meanings_bareAll site args)

theorem meanings_bareReceiver (site : SiteId) :
    ∀ e : Option Expr, receiverMeanings (bareReceiver site e) = receiverMeanings e
  | none => rfl
  | some e => meanings_bare site e

theorem meanings_bareAll (site : SiteId) :
    ∀ es : List Expr, meaningsAll (bareAll site es) = meaningsAll es
  | [] => rfl
  | e :: es => congrArg₂ (· ++ ·) (meanings_bare site e) (meanings_bareAll site es)

end

mutual

theorem text_bare (site : SiteId) : ∀ e : Expr, (e.bare site).text = e.text
  | int .. | bool .. | null .. | this .. | var .. | param .. | staticField .. | result ..
  | slot .. => rfl
  | field _ _ e _ | length _ e | unary _ _ e | old _ e | spread _ e | newArray _ _ e => by
    simp only [bare, text, text_bare site e]
  | index _ _ l r | binary _ _ l r => by
    simp only [bare, text, text_bare site l, text_bare site r]
  | call _ _ _ receiver _ _ args => by
    simp only [bare, text, text_bareReceiver site receiver, text_bareAll site args]
  | new _ _ _ _ args => by
    simp only [bare, text, text_bareAll site args]

theorem text_bareReceiver (site : SiteId) :
    ∀ e : Option Expr, receiverText (bareReceiver site e) = receiverText e
  | none => rfl
  | some e => by simp only [bareReceiver, receiverText, text_bare site e]

theorem text_bareAll (site : SiteId) : ∀ es : List Expr, textAll (bareAll site es) = textAll es
  | [] => rfl
  | [e] => text_bare site e
  | e :: e' :: es => by
    have ih := text_bareAll site (e' :: es)
    simp only [bareAll] at ih
    simp only [bareAll, textAll, text_bare site e, ih]

end

/-- Whether two terms are the same one, wherever they are written and however their calls are
numbered. -/
def SameAs (a b : Expr) : Prop := a.type = b.type ∧ a.bare 0 = b.bare 0

/-- Terms that can be read back from their texts are the same if they read alike and mean the
same. -/
theorem sameAs_iff {a b : Expr} (ha : a.Printable) (hb : b.Printable) :
    a.SameAs b ↔ Contract.sharesSlot a b = true ∧ a.meanings = b.meanings := by
  rw [Contract.sharesSlot_iff, SameAs]
  constructor
  · rintro ⟨htype, hbare⟩
    refine ⟨⟨htype, ?_⟩, ?_⟩
    · rw [← text_bare 0 a, hbare, text_bare]
    · rw [← meanings_bare 0 a, hbare, meanings_bare]
  · rintro ⟨⟨htype, htext⟩, hmeanings⟩
    exact ⟨htype, bare_eq_of_text 0 ha hb htext hmeanings⟩

end Typed.Expr

/-! ## The specifications of a program -/

section

variable {source : String} {p : Surface.Program} {env : Env} {specs : Table DeclId Specification}

/-- What is known of the terms of one postcondition is known of all that a specification has. -/
theorem Contract.oldTerm_of_mem {k : SiteId} {clauses : List BoundClause}
    (h : ∀ c ∈ clauses, c.expr.slotNumbers = [] ∧ ∀ x ∈ c.expr.oldTerms, OldTerm k x) {x : Expr}
    (hx : x ∈ oldTermsOf clauses) : OldTerm k x := by
  obtain ⟨c, hc, hx⟩ := List.mem_flatMap.mp hx
  exact (h c hc).2 x hx

/-- Scheduling the specifications of a program changes nothing but their postconditions, in which it
reads slots in place of `old`: those behind the slots of the conditions, one for each class of terms
that read alike. That is one for each term just if no two of them read alike and mean different
things. -/
theorem schedule_slots (hp : Parse.program source = .ok p)
    (henv : Typing.checkProgram p = .ok env)
    (hspecs : specs = Contract.specifications env
      (Contract.bind env (Clause.ofProgram p) p.siteCount).decls) :
    (Contract.schedule env specs).1.keys = specs.keys ∧
    (∀ id ∈ (Contract.schedule env specs).2.keys, id ∈ specs.keys) ∧
    ∀ id s, specs.get? id = some s →
      (∃ s', (Contract.schedule env specs).1.get? id = some s' ∧
        Contract.ScheduledAs s s' ((Contract.schedule env specs).2.get? id)) ∧
      ((∀ a ∈ Contract.oldTermsOf s.postconditions, ∀ b ∈ Contract.oldTermsOf s.postconditions,
          Contract.slotOf s a = Contract.slotOf s b ↔ a.SameAs b) ↔
        ∀ a ∈ Contract.oldTermsOf s.postconditions, ∀ b ∈ Contract.oldTermsOf s.postconditions,
          Contract.sharesSlot a b = true → a.meanings = b.meanings) := by
  have howners := Contract.owners_words (Parse.program_wellFormed hp) henv
  subst hspecs
  have hn := Contract.keys_specifications env
    (Contract.bind env (Clause.ofProgram p) p.siteCount).decls (methodsKeyed_of_check henv).nodup
  refine ⟨?_, fun id hid => ?_, fun id s hs => ?_⟩
  · show (List.map _ (List.map _ _)).map _ = _
    simp only [List.map_map]
    rfl
  · obtain ⟨_, hentry, rfl⟩ := List.mem_map.mp hid
    obtain ⟨_, hscheduled, rfl⟩ := List.mem_map.mp hentry
    obtain ⟨x, hx, rfl⟩ := List.mem_map.mp (List.mem_filter.mp hscheduled).1
    exact List.mem_map.mpr ⟨x, hx, rfl⟩
  have hterms := Contract.oldTerms_of_specification howners hs
  refine ⟨⟨_, ?_, Contract.scheduleOne_scheduledAs (Contract.unscheduled_of_oldTerms hterms)
    (Contract.snapshotPoint env id) ?_⟩, ?_⟩
  · rw [Contract.get?_schedule_specs, hs, Option.map_some]
  · rw [Contract.get?_schedule_snapshots hn, hs]
    rfl
  · refine forall₂_congr fun a ha => forall₂_congr fun b hb => ?_
    rw [Contract.slotOf_eq_iff ha hb, Expr.sameAs_iff (Contract.oldTerm_of_mem hterms ha).printable
      (Contract.oldTerm_of_mem hterms hb).printable]
    exact ⟨fun h hshare => (h.mp hshare).2, fun h => ⟨fun hshare => ⟨hshare, h hshare⟩, And.left⟩⟩

end

/-- The one postcondition of `ambiguousSource` is among those that the theorem is about. -/
theorem schedule_slots_ambiguous :
    ∃ p env specs id s s', Parse.program ambiguousSource = .ok p ∧
      Typing.checkProgram p = .ok env ∧
      specs = Contract.specifications env
        (Contract.bind env (Clause.ofProgram p) p.siteCount).decls ∧
      specs.get? id = some s ∧ (Contract.schedule env specs).1.get? id = some s' ∧
      Contract.ScheduledAs s s' ((Contract.schedule env specs).2.get? id) := by
  obtain ⟨p, env, m, s, _, _, hp, henv, hs, _⟩ := ambiguousSource_terms
  obtain ⟨_, _, hscheduled⟩ := schedule_slots hp henv rfl
  obtain ⟨⟨s', hs', h⟩, _⟩ := hscheduled m.id s hs
  exact ⟨p, env, _, m.id, s, s', hp, henv, rfl, hs, hs', h⟩

/-- Its two terms are different ones and read one slot. -/
theorem one_slot_for_two_terms :
    ∃ p env id s a b, Parse.program ambiguousSource = .ok p ∧ Typing.checkProgram p = .ok env ∧
      (Contract.specifications env
        (Contract.bind env (Clause.ofProgram p) p.siteCount).decls).get? id = some s ∧
      a ∈ Contract.oldTermsOf s.postconditions ∧ b ∈ Contract.oldTermsOf s.postconditions ∧
      ¬ a.SameAs b ∧ Contract.slotOf s a = Contract.slotOf s b := by
  obtain ⟨p, env, m, s, a, b, hp, henv, hs, ha, hb, hshare, hne⟩ := ambiguousSource_terms
  have hterms := Contract.oldTerms_of_specification
    (Contract.owners_words (Parse.program_wellFormed hp) henv) hs
  have ha' := Contract.oldTerm_of_mem hterms ha
  have hb' := Contract.oldTerm_of_mem hterms hb
  refine ⟨p, env, m.id, s, a, b, hp, henv, hs, ha, hb, fun hsame => hne ?_,
    (Contract.slotOf_eq_iff ha hb).mpr hshare⟩
  -- The same term would have one value.
  obtain ⟨_, hmeanings⟩ := (Expr.sameAs_iff ha'.printable hb'.printable).mp hsame
  have hsameAt : SameAtEntry ⟨env, Contract.weave env (.ofProgram p env) {}⟩ m a b :=
    sameAtEntry_of_meanings hp henv ha' hb' (Contract.sharesSlot_iff.mp hshare).2 hmeanings
  exact hsameAt.entryValue

end Covenant
