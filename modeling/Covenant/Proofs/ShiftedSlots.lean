import Covenant.Proofs.Covered
import Covenant.Proofs.Refinement

/-!
# Other numbers for entry values

The conditions of `throws` clauses come first among the entry values of a member.
If they are deleted, the terms in `old` move up: each is stored under a number
that is smaller by the number of conditions. `shiftSlots` gives the numbers back,
and an expression that reads shifted numbers has the value of the one that it was
made of wherever the values are shifted too.
-/

namespace Covenant

namespace Typed.Expr

mutual

/-- The expression with greater numbers for the entry values that it reads. What cannot be evaluated
is left alone. -/
def shiftSlots (k : Nat) : Expr → Expr
  | slot span t n => slot span t (n + k)
  | field span t o name => field span t (o.shiftSlots k) name
  | length span a => length span (a.shiftSlots k)
  | index span t a i => index span t (a.shiftSlots k) (i.shiftSlots k)
  | binary span op l r => binary span op (l.shiftSlots k) (r.shiftSlots k)
  | unary span op x => unary span op (x.shiftSlots k)
  | call span t site receiver m name args =>
    call span t site (shiftSlotsOpt k receiver) m name (shiftSlotsAll k args)
  | new span site c ctor args => new span site c ctor (shiftSlotsAll k args)
  | newArray span elem len => newArray span elem (len.shiftSlots k)
  | e => e

def shiftSlotsOpt (k : Nat) : Option Expr → Option Expr
  | none => none
  | some e => some (e.shiftSlots k)

def shiftSlotsAll (k : Nat) : List Expr → List Expr
  | [] => []
  | e :: es => e.shiftSlots k :: shiftSlotsAll k es

end

mutual

/-- Whether nothing is spread in an expression. -/
def spreadFree : Expr → Bool
  | int .. | bool .. | null .. | this .. | var .. | param .. | staticField .. | result ..
  | slot .. => true
  | spread .. => false
  | field _ _ e _ | length _ e | unary _ _ e | newArray _ _ e | old _ e => e.spreadFree
  | index _ _ a i => a.spreadFree && i.spreadFree
  | binary _ _ l r => l.spreadFree && r.spreadFree
  | call _ _ _ receiver _ _ args => spreadFreeOpt receiver && spreadFreeAll args
  | new _ _ _ _ args => spreadFreeAll args

def spreadFreeOpt : Option Expr → Bool
  | none => true
  | some e => e.spreadFree

def spreadFreeAll : List Expr → Bool
  | [] => true
  | e :: es => e.spreadFree && spreadFreeAll es

end

end Typed.Expr

open Typed (Expr)

/-- The clause with greater numbers for the entry values that it reads. -/
def BoundClause.shiftSlots (k : Nat) (c : BoundClause) : BoundClause :=
  { c with expr := c.expr.shiftSlots k }

/-! ## Clauses spread nothing -/

namespace Typing

mutual

theorem Elab.spreadFree {s : Scope} {e : Surface.Expr} {t : Expr} {cs : List CallSite}
    (h : Elab s e t cs) (hl : e.Lexical .condition) : t.spreadFree = true := by
  cases h with
  | int | bool | null | this | var | param | ownStatic | ownField | classField | result
  | staticField => rfl
  | unary he =>
      have ih := Elab.spreadFree he hl
      exact ih
  | field he | length he =>
      have ih := Elab.spreadFree he hl.1
      exact ih
  | newArray _ he | old he =>
      have ih := Elab.spreadFree he hl.2
      exact ih
  | binary hl' hr =>
      rw [Expr.spreadFree, Elab.spreadFree hl' hl.1, Elab.spreadFree hr hl.2]
      rfl
  | index ha _ hi =>
      rw [Expr.spreadFree, Elab.spreadFree ha hl.1, Elab.spreadFree hi hl.2]
      rfl
  | staticCall ha | new _ _ ha | ownCall ha =>
      have ia := ElabAll.spreadFree ha hl.2
      exact ia
  | classCall _ ha | droppedCall _ _ ha =>
      have ia := ElabAll.spreadFree ha hl.2.2
      exact ia
  | methodCall ho _ ha =>
      rw [Expr.spreadFree, Expr.spreadFreeOpt, Elab.spreadFree ho hl.1,
        ElabAll.spreadFree ha hl.2.2]
      rfl
  | spread => exact absurd hl.1 (by simp)

theorem ElabAll.spreadFree {s : Scope} {es : List Surface.Expr} {ts : List Expr}
    {cs : List CallSite} (h : ElabAll s es ts cs) (hl : Surface.lexicalAll .condition es) :
    Expr.spreadFreeAll ts = true := by
  cases h with
  | nil => rfl
  | cons he hes =>
      rw [Expr.spreadFreeAll, Elab.spreadFree he hl.1, ElabAll.spreadFree hes hl.2]
      rfl

end

end Typing

namespace Contract

/-! ## Storing behind other values -/

/-- A clause as binding makes it: no `old` in `old`, no slots, nothing spread. -/
structure Fresh (c : BoundClause) : Prop where
  unscheduled : Unscheduled c.expr.oldTerms c.expr.slotNumbers
  spreadFree : c.expr.spreadFree = true

section

variable (conditions slots : List Expr)

/-- Slots in front that cannot be shared only make the numbers greater. -/
theorem slotFor_append (x : Expr) :
    slotFor conditions.length (conditions ++ slots) x =
      ((slotFor 0 slots x).1 + conditions.length, conditions ++ (slotFor 0 slots x).2) := by
  simp only [slotFor, List.drop_left, List.drop_zero]
  cases slots.findIdx? (sharesSlot · x) with
  | none => simp [Nat.add_comm]
  | some i => simp [Nat.add_comm]

mutual

theorem storeOld_append (slots : List Expr) : ∀ e : Expr,
    Unscheduled e.oldTerms e.slotNumbers → e.spreadFree = true →
    storeOld conditions.length (conditions ++ slots) e =
      ((storeOld 0 slots e).1.shiftSlots conditions.length,
        conditions ++ (storeOld 0 slots e).2)
  | .int .., _, _ | .bool .., _, _ | .null .., _, _ | .this .., _, _ | .var .., _, _
  | .param .., _, _ | .staticField .., _, _ | .result .., _, _ => rfl
  | .slot .., h, _ => absurd h.numbers (by simp [Expr.slotNumbers])
  | .spread .., _, h => absurd h (by simp [Expr.spreadFree])
  | .old _ x, h, _ => by
    have hflat := h.flat x List.mem_cons_self
    rw [storeOld, storeOld, storeOld_of_no_old _ _ x hflat, storeOld_of_no_old _ _ x hflat]
    simp only [slotFor_append]
    rfl
  | .field _ _ e _, h, hs | .length _ e, h, hs | .unary _ _ e, h, hs | .newArray _ _ e, h, hs => by
    rw [storeOld, storeOld, storeOld_append slots e h hs]
    rfl
  | .index _ _ l r, h, hs | .binary _ _ l r, h, hs => by
    obtain ⟨hl, hr⟩ := Bool.and_eq_true_iff.mp hs
    rw [storeOld, storeOld, storeOld_append slots l h.left hl]
    simp only [storeOld_append _ r h.right hr]
    rfl
  | .call _ _ _ receiver _ _ args, h, hs => by
    obtain ⟨hr, ha⟩ := Bool.and_eq_true_iff.mp hs
    rw [storeOld, storeOld, storeOldOpt_append slots receiver h.left hr]
    simp only [storeOldAll_append _ args h.right ha]
    rfl
  | .new _ _ _ _ args, h, hs => by
    rw [storeOld, storeOld, storeOldAll_append slots args h hs]
    rfl

theorem storeOldOpt_append (slots : List Expr) : ∀ e : Option Expr,
    Unscheduled (Expr.oldTermsOpt e) (Expr.slotNumbersOpt e) → Expr.spreadFreeOpt e = true →
    storeOldOpt conditions.length (conditions ++ slots) e =
      (Expr.shiftSlotsOpt conditions.length (storeOldOpt 0 slots e).1,
        conditions ++ (storeOldOpt 0 slots e).2)
  | none, _, _ => rfl
  | some e, h, hs => by
    rw [storeOldOpt, storeOldOpt, storeOld_append slots e h hs]
    rfl

theorem storeOldAll_append (slots : List Expr) : ∀ es : List Expr,
    Unscheduled (Expr.oldTermsAll es) (Expr.slotNumbersAll es) → Expr.spreadFreeAll es = true →
    storeOldAll conditions.length (conditions ++ slots) es =
      (Expr.shiftSlotsAll conditions.length (storeOldAll 0 slots es).1,
        conditions ++ (storeOldAll 0 slots es).2)
  | [], _, _ => rfl
  | e :: es, h, hs => by
    obtain ⟨he, hes⟩ := Bool.and_eq_true_iff.mp hs
    rw [storeOldAll, storeOldAll, storeOld_append slots e h.left he]
    simp only [storeOldAll_append _ es h.right hes]
    rfl

end

theorem storePosts_append {posts : List BoundClause} (h : ∀ c ∈ posts, Fresh c) :
    storePosts conditions.length (conditions ++ slots) posts =
      ((storePosts 0 slots posts).1.map (·.shiftSlots conditions.length),
        conditions ++ (storePosts 0 slots posts).2) := by
  induction posts generalizing slots with
  | nil => rfl
  | cons c cs ih =>
      have hc := h c List.mem_cons_self
      rw [storePosts, storePosts, storeOld_append conditions slots c.expr hc.unscheduled
        hc.spreadFree]
      simp only [ih _ fun c hc => h c (List.mem_cons_of_mem _ hc)]
      rfl

end

end Contract

/-! ## Reading behind other values -/

namespace Run

/-- Whether the values that `t` has under some numbers are in `s` under greater ones. -/
def ShiftedOn (k : Nat) (s t : Slots) (ns : List Nat) : Prop :=
  ∀ n ∈ ns, ∃ v, t.get? n = some v ∧ s.get? (n + k) = some v

section

variable {k : Nat} {s t : Slots} {ns ms : List Nat}

theorem ShiftedOn.left (h : ShiftedOn k s t (ns ++ ms)) : ShiftedOn k s t ns :=
  fun n hn => h n (List.mem_append_left _ hn)

theorem ShiftedOn.right (h : ShiftedOn k s t (ns ++ ms)) : ShiftedOn k s t ms :=
  fun n hn => h n (List.mem_append_right _ hn)

end

variable {env : Env} {c : Calls} {f : Frame} {k : Nat} {t : Slots}

mutual

theorem eval_shiftSlots : ∀ e : Expr, ShiftedOn k f.slots t e.slotNumbers →
    eval env c f (e.shiftSlots k) = eval env c { f with slots := t } e
  | .int .., _ | .bool .., _ | .null .., _ | .this .., _ | .var .., _ | .param .., _
  | .staticField .., _ | .result .., _ | .old .., _ | .spread .., _ => by
    simp only [Expr.shiftSlots, eval]
  | .slot _ _ n, h => by
    obtain ⟨v, ht, hs⟩ := h n List.mem_cons_self
    simp only [Expr.shiftSlots, eval, ht, hs]
  | .field _ _ e _, h | .length _ e, h | .unary _ _ e, h | .newArray _ _ e, h => by
    simp only [Expr.shiftSlots, eval, eval_shiftSlots e h]
  | .index _ _ l r, h => by
    simp only [Expr.shiftSlots, eval, eval_shiftSlots l h.left, eval_shiftSlots r h.right]
  | .binary _ op l r, h => by
    cases op <;>
      simp only [Expr.shiftSlots, eval, eval_shiftSlots l h.left, eval_shiftSlots r h.right]
  | .call _ _ _ receiver _ _ args, h => by
    simp only [Expr.shiftSlots, eval, evalReceiver_shiftSlots receiver h.left,
      evalAll_shiftSlots args h.right]
  | .new _ _ _ _ args, h => by
    simp only [Expr.shiftSlots, eval, evalAll_shiftSlots args h]

theorem evalReceiver_shiftSlots : ∀ e : Option Expr,
    ShiftedOn k f.slots t (Expr.slotNumbersOpt e) →
    evalReceiver env c f (Expr.shiftSlotsOpt k e) = evalReceiver env c { f with slots := t } e
  | none, _ => rfl
  | some e, h => by
    simp only [Expr.shiftSlotsOpt, evalReceiver, eval_shiftSlots e h]

theorem evalAll_shiftSlots : ∀ es : List Expr,
    ShiftedOn k f.slots t (Expr.slotNumbersAll es) →
    evalAll env c f (Expr.shiftSlotsAll k es) = evalAll env c { f with slots := t } es
  | [], _ => rfl
  | e :: es, h => by
    simp only [Expr.shiftSlotsAll, evalAll, eval_shiftSlots e h.left,
      evalAll_shiftSlots es h.right]

end

/-- Postconditions that read shifted numbers are checked as those that they were made of. -/
theorem checkPostcondition_shiftSlots {clauses : List BoundClause}
    (h : ∀ b ∈ clauses, ShiftedOn k f.slots t b.expr.slotNumbers) :
    checkPostcondition env c f (clauses.map (·.shiftSlots k)) =
      checkPostcondition env c { f with slots := t } clauses := by
  have first : firstFalse env c f (clauses.map (·.shiftSlots k)) =
      (do return (← firstFalse env c { f with slots := t } clauses).map (·.shiftSlots k)) := by
    induction clauses with
    | nil => rfl
    | cons b bs ih =>
        have hb : holds env c f (b.shiftSlots k) = holds env c { f with slots := t } b := by
          simp only [holds, BoundClause.shiftSlots, eval_shiftSlots b.expr (h b List.mem_cons_self)]
        simp only [List.map_cons, firstFalse, hb, ih fun b hb => h b (List.mem_cons_of_mem _ hb),
          bind_assoc]
        congr 1
        funext truth
        cases truth <;> rfl
  simp only [checkPostcondition, first, bind_assoc, pure_bind]
  congr 1
  funext r
  cases r <;> rfl

end Run

end Covenant
