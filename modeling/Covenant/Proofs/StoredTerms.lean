import Covenant.Proofs.EntryValues
import Covenant.Proofs.SoundChecks

/-!
# Postconditions that read slots

Scheduling takes the terms in `old` out of postconditions. If a postcondition fits the
exit of a member, then so does what is left of it, where the slots have the types of
the terms that are stored; and the terms fit the entry, but for one thing that is only
there at the exit: the result.
-/

namespace Covenant

namespace Typed

/-! ## Other contexts -/

/-- What the names of one context stand for they stand for in the other, where `this` may be of a
subclass. Nothing is said of the result. -/
structure Context.Widens (env : Env) (Γ Γ' : Context) : Prop where
  this : ∀ c, Γ.this = some c → ∃ d, Γ'.this = some d ∧ env.isSubtype d c = true
  locals : Γ.locals = Γ'.locals
  params : Γ.params = Γ'.params
  slots : Γ.slots <+: Γ'.slots
  hasOld : Γ.hasOld = true → Γ'.hasOld = true
  hasSpread : Γ.hasSpread = true → Γ'.hasSpread = true

/-- Where some of the parts read the result, both contexts have one of the same type. -/
def Context.KeepsResult (Γ Γ' : Context) (parts : List Expr) : Prop :=
  ∀ span t, .result span t ∈ parts → Γ.result = some t → Γ'.result = some t

section

variable {env : Env} {Γ Γ' : Context}

theorem Context.Widens.inOld (h : Γ.Widens env Γ') :
    Context.Widens env { Γ with hasOld := false } { Γ' with hasOld := false } :=
  { h with hasOld := id }

section

variable {e : Expr} {parts parts' : List Expr}

theorem Context.KeepsResult.tail (h : Γ.KeepsResult Γ' (e :: parts)) : Γ.KeepsResult Γ' parts :=
  fun span t hin => h span t (List.mem_cons_of_mem _ hin)

theorem Context.KeepsResult.left (h : Γ.KeepsResult Γ' (parts ++ parts')) :
    Γ.KeepsResult Γ' parts :=
  fun span t hin => h span t (List.mem_append_left _ hin)

theorem Context.KeepsResult.right (h : Γ.KeepsResult Γ' (parts ++ parts')) :
    Γ.KeepsResult Γ' parts' :=
  fun span t hin => h span t (List.mem_append_right _ hin)

end

mutual

theorem Expr.Fits.widen {Γ Γ' : Context} (h : Γ.Widens env Γ') : ∀ {e : Expr}, e.Fits env Γ →
    Γ.KeepsResult Γ' e.parts → e.Fits env Γ'
  | .int .., _, _ | .bool .., _, _ | .null _, _, _ => trivial
  | .this .., he, _ => by
      obtain ⟨d, hd, hsub⟩ := he
      obtain ⟨d', hd', hsub'⟩ := h.this d hd
      exact ⟨d', hd', Env.isSubtype_trans hsub' hsub⟩
  | .var _ t name, he, _ => by
      rw [Expr.Fits, h.locals] at he
      exact he
  | .param _ t i _, he, _ => by
      rw [Expr.Fits, h.params] at he
      exact he
  | .staticField .., he, _ => he
  | .result span t, he, hr => hr span t List.mem_cons_self he
  | .slot _ t n, he, _ => by
      obtain ⟨more, hmore⟩ := h.slots
      rw [Expr.Fits, ← hmore, List.getElem?_append_left (List.getElem?_eq_some_iff.mp he).1]
      exact he
  | .field .., he, hr | .length .., he, hr | .unary .., he, hr =>
      ⟨Expr.Fits.widen h he.1 hr.tail, he.2⟩
  | .newArray .., he, hr => ⟨⟨Expr.Fits.widen h he.1.1 hr.tail, he.1.2⟩, he.2⟩
  | .spread .., he, hr => ⟨h.hasSpread he.1, Expr.Fits.widen h he.2 hr.tail⟩
  | .old .., he, hr => ⟨h.hasOld he.1, Expr.Fits.widen h.inOld he.2 hr.tail⟩
  | .index .., ⟨⟨ha, hta⟩, hi, hti⟩, hr =>
      ⟨⟨Expr.Fits.widen h ha hr.tail.left, hta⟩, Expr.Fits.widen h hi hr.tail.right, hti⟩
  | .binary .., ⟨⟨hl, hr'⟩, hop⟩, hr =>
      ⟨⟨Expr.Fits.widen h hl hr.tail.left, Expr.Fits.widen h hr' hr.tail.right⟩, hop⟩
  | .call .., ⟨⟨ho, ha⟩, hm⟩, hr =>
      ⟨⟨Expr.receiverFits_widen h ho hr.tail.left, Expr.argsFit_widen h ha hr.tail.right⟩, hm⟩
  | .new .., ⟨ha, hm⟩, hr => ⟨Expr.argsFit_widen h ha hr.tail, hm⟩

theorem Expr.receiverFits_widen {Γ Γ' : Context} (h : Γ.Widens env Γ') : ∀ {e : Option Expr},
    Expr.receiverFits env Γ e → Γ.KeepsResult Γ' (partsOpt e) → Expr.receiverFits env Γ' e
  | none, _, _ => trivial
  | some _, he, hr => Expr.Fits.widen h he hr

theorem Expr.argsFit_widen {Γ Γ' : Context} (h : Γ.Widens env Γ') : ∀ {es : List Expr},
    Expr.argsFit env Γ es → Γ.KeepsResult Γ' (partsAll es) → Expr.argsFit env Γ' es
  | [], _, _ => trivial
  | _ :: _, ⟨he, hes⟩, hr =>
      ⟨Expr.Fits.widen h he hr.left, Expr.argsFit_widen h hes hr.right⟩

end

end

/-! ## Terms in `old` -/

mutual

/-- What stands in `old` fits where no `old` is allowed. -/
theorem Expr.Fits.oldTerms {env : Env} {Γ : Context} : ∀ {e : Expr}, e.Fits env Γ →
    ∀ x ∈ e.oldTerms, x.Fits env { Γ with hasOld := false }
  | .int .., _, _, hx | .bool .., _, _, hx | .null _, _, _, hx | .this .., _, _, hx
  | .var .., _, _, hx | .param .., _, _, hx | .staticField .., _, _, hx
  | .result .., _, _, hx | .slot .., _, _, hx => absurd hx List.not_mem_nil
  | .old .., he, _, hx => List.mem_singleton.mp hx ▸ he.2
  | .field .., he, x, hx | .length .., he, x, hx | .unary .., he, x, hx => he.1.oldTerms x hx
  | .newArray .., he, x, hx => he.1.1.oldTerms x hx
  | .spread .., he, x, hx => he.2.oldTerms x hx
  | .index .., ⟨⟨ha, _⟩, hi, _⟩, x, hx =>
      (List.mem_append.mp hx).elim (ha.oldTerms x) (hi.oldTerms x)
  | .binary .., ⟨⟨hl, hr⟩, _⟩, x, hx =>
      (List.mem_append.mp hx).elim (hl.oldTerms x) (hr.oldTerms x)
  | .call .., ⟨⟨ho, ha⟩, _⟩, x, hx =>
      (List.mem_append.mp hx).elim (Expr.fits_oldTermsOpt ho x) (Expr.fits_oldTermsAll ha x)
  | .new .., ⟨ha, _⟩, x, hx => Expr.fits_oldTermsAll ha x hx

theorem Expr.fits_oldTermsOpt {env : Env} {Γ : Context} : ∀ {e : Option Expr},
    Expr.receiverFits env Γ e → ∀ x ∈ oldTermsOpt e, x.Fits env { Γ with hasOld := false }
  | none, _, _, hx => absurd hx List.not_mem_nil
  | some _, he, x, hx => Expr.Fits.oldTerms he x hx

theorem Expr.fits_oldTermsAll {env : Env} {Γ : Context} : ∀ {es : List Expr},
    Expr.argsFit env Γ es → ∀ x ∈ oldTermsAll es, x.Fits env { Γ with hasOld := false }
  | [], _, _, hx => absurd hx List.not_mem_nil
  | _ :: _, ⟨he, hes⟩, x, hx =>
      (List.mem_append.mp hx).elim (he.oldTerms x) (Expr.fits_oldTermsAll hes x)

end

/-! ## Reading slots -/

/-- The context where `old` is gone and these terms are stored. -/
def Context.storing (Γ : Context) (slots : List Expr) : Context :=
  { Γ with hasOld := false, slots := slots.map (·.type) }

section

variable {env : Env} {Γ : Context} {slots more : List Expr}

theorem Context.widens_storing :
    (Γ.storing slots).Widens env (Γ.storing (slots ++ more)) where
  this c hc := ⟨c, hc, Env.isSubtype_refl⟩
  locals := rfl
  params := rfl
  slots := ⟨more.map Expr.type, List.map_append.symm⟩
  hasOld h := h
  hasSpread h := h

/-- More terms may be stored. -/
theorem Expr.Fits.store {e : Expr} (h : e.Fits env (Γ.storing slots)) :
    e.Fits env (Γ.storing (slots ++ more)) :=
  h.widen Context.widens_storing fun _ _ _ hr => hr

end

section

variable {env : Env} {args args' : List Expr} {types : List Ty}

theorem ArgsFit.of_types (h : ArgsFit env args types)
    (ha : args'.map (·.type) = args.map (·.type)) : ArgsFit env args' types := by
  rw [ArgsFit, ← List.forall₂_map_left_iff (f := Expr.type) (R := fun s t =>
    env.isAssignable s t = true)] at h ⊢
  exact ha ▸ h

/-- Only the types of the receiver and the arguments count. -/
theorem CallTyped.of_types {m : MethodInfo} {t : Ty} {site : SiteId} {o o' : Option Expr}
    {id : DeclId} {name : String} (h : CallTyped env m t site o id name args)
    (ho : o'.map (·.type) = o.map (·.type)) (ha : args'.map (·.type) = args.map (·.type)) :
    CallTyped env m t site o' id name args' where
  method := h.method
  isMethod := h.isMethod
  name := h.name
  type := h.type
  args := h.args.of_types ha
  static hnone := h.static (by simpa [hnone, eq_comm] using ho)
  receiver e he := by
    obtain ⟨e₀, he₀, heq⟩ : ∃ e₀, o = some e₀ ∧ e₀.type = e.type := by
      simpa [he, eq_comm] using ho
    exact heq ▸ h.receiver e₀ he₀
  site := h.site

theorem ConstructorTyped.of_types {m : MethodInfo} {c : String} {site : SiteId} {id : DeclId}
    (h : ConstructorTyped env m c site id args) (ha : args'.map (·.type) = args.map (·.type)) :
    ConstructorTyped env m c site id args' :=
  { h with args := h.args.of_types ha }

end

end Typed

namespace Contract

open Typed (Expr Context)

section

variable {env : Env} {Γ : Context} {first : Nat}

/-- The slot of a term has its type. -/
theorem slotFor_type {slots : List Expr} (hf : first ≤ slots.length) (x : Expr) :
    ((slotFor first slots x).2.map (·.type))[(slotFor first slots x).1]? = some x.type := by
  obtain ⟨⟨y, hy, hfind⟩, _⟩ := List.forall₂_cons.mp (slotFor_stores (x := x) hf).stored
  have hshare := List.find?_some hfind
  rw [sharesSlot, Bool.and_eq_true, beq_iff_eq] at hshare
  rw [List.getElem?_map, hy, Option.map_some, hshare.1]

section

variable {slots slots' terms : List Expr} {numbers : List Nat}
  (h : Stores first slots slots' terms numbers)

include h

theorem Stores.fits {e : Expr} (he : e.Fits env (Γ.storing slots)) :
    e.Fits env (Γ.storing slots') := by
  obtain ⟨more, rfl, _⟩ := h.grown
  exact he.store

theorem Stores.receiverFits {e : Option Expr} (he : Expr.receiverFits env (Γ.storing slots) e) :
    Expr.receiverFits env (Γ.storing slots') e := by
  cases e with
  | none => trivial
  | some e => exact h.fits he

end

mutual

/-- What is left of an expression reads slots of the types of its terms in `old`. -/
theorem storeOld_fits {slots : List Expr} (hf : first ≤ slots.length) : ∀ e : Expr,
    Unscheduled e.oldTerms e.slotNumbers → e.Fits env Γ →
    (storeOld first slots e).1.Fits env (Γ.storing (storeOld first slots e).2) ∧
      (storeOld first slots e).1.type = e.type
  | .int .., _, _ | .bool .., _, _ | .null _, _, _ => ⟨trivial, rfl⟩
  | .this .., _, he | .var .., _, he | .param .., _, he | .staticField .., _, he
  | .result .., _, he => ⟨he, rfl⟩
  | .slot .., h, _ => absurd h.numbers (by simp [Expr.slotNumbers])
  | .old _ x, h, _ => by
    rw [storeOld, storeOld_of_no_old first slots x (h.flat x List.mem_cons_self)]
    exact ⟨slotFor_type hf x, rfl⟩
  | .field _ _ o _, h, ⟨ho, c, f, hc, hfield⟩ => by
    obtain ⟨io, hto⟩ := storeOld_fits hf o h ho
    rw [storeOld]
    exact ⟨⟨io, c, f, hto.trans hc, hfield⟩, rfl⟩
  | .length _ a, h, ⟨ha, e, he⟩ => by
    obtain ⟨ia, hta⟩ := storeOld_fits hf a h ha
    rw [storeOld]
    exact ⟨⟨ia, e, hta.trans he⟩, rfl⟩
  | .unary _ _ e, h, ⟨he, ht⟩ => by
    obtain ⟨ie, hte⟩ := storeOld_fits hf e h he
    rw [storeOld]
    exact ⟨⟨ie, hte.trans ht⟩, rfl⟩
  | .newArray _ _ e, h, ⟨⟨he, ht⟩, hs⟩ => by
    obtain ⟨ie, hte⟩ := storeOld_fits hf e h he
    rw [storeOld]
    exact ⟨⟨⟨ie, hte.trans ht⟩, hs⟩, rfl⟩
  | .spread _ e, h, ⟨hs, he⟩ => by
    obtain ⟨ie, hte⟩ := storeOld_fits hf e h he
    rw [storeOld]
    exact ⟨⟨hs, ie⟩, by simp only [Expr.type, hte]⟩
  | .index _ _ a i, h, ⟨⟨ha, hta⟩, hi, hti⟩ => by
    have hf₁ := (storeOld_stores hf a h.left).le_length hf
    have hgrown := storeOld_stores hf₁ i h.right
    obtain ⟨ia, ita⟩ := storeOld_fits hf a h.left ha
    obtain ⟨ii, iti⟩ := storeOld_fits hf₁ i h.right hi
    rw [storeOld]
    exact ⟨⟨⟨hgrown.fits ia, ita.trans hta⟩, ii, iti.trans hti⟩, rfl⟩
  | .binary _ op l r, h, ⟨⟨hl, hr⟩, hop⟩ => by
    have hf₁ := (storeOld_stores hf l h.left).le_length hf
    have hgrown := storeOld_stores hf₁ r h.right
    obtain ⟨il, itl⟩ := storeOld_fits hf l h.left hl
    obtain ⟨ir, itr⟩ := storeOld_fits hf₁ r h.right hr
    rw [storeOld]
    exact ⟨⟨⟨hgrown.fits il, ir⟩, itl ▸ itr ▸ hop⟩, rfl⟩
  | .call _ _ _ receiver _ _ args, h, ⟨⟨ho, ha⟩, m, hm⟩ => by
    have hf₁ := (storeOldOpt_stores hf receiver h.left).le_length hf
    have hgrown := storeOldAll_stores hf₁ args h.right
    obtain ⟨io, ito⟩ := storeOldOpt_fits hf receiver h.left ho
    obtain ⟨ia, ita⟩ := storeOldAll_fits hf₁ args h.right ha
    rw [storeOld]
    exact ⟨⟨⟨hgrown.receiverFits io, ia⟩, m, hm.of_types ito ita⟩, rfl⟩
  | .new _ _ _ _ args, h, ⟨ha, m, hm⟩ => by
    obtain ⟨ia, ita⟩ := storeOldAll_fits hf args h ha
    rw [storeOld]
    exact ⟨⟨ia, m, hm.of_types ita⟩, rfl⟩

theorem storeOldOpt_fits {slots : List Expr} (hf : first ≤ slots.length) : ∀ e : Option Expr,
    Unscheduled (Expr.oldTermsOpt e) (Expr.slotNumbersOpt e) → Expr.receiverFits env Γ e →
    Expr.receiverFits env (Γ.storing (storeOldOpt first slots e).2)
        (storeOldOpt first slots e).1 ∧
      (storeOldOpt first slots e).1.map (·.type) = e.map (·.type)
  | none, _, _ => ⟨trivial, rfl⟩
  | some e, h, he => by
    obtain ⟨ie, hte⟩ := storeOld_fits hf e h he
    rw [storeOldOpt]
    exact ⟨ie, congrArg some hte⟩

theorem storeOldAll_fits {slots : List Expr} (hf : first ≤ slots.length) : ∀ es : List Expr,
    Unscheduled (Expr.oldTermsAll es) (Expr.slotNumbersAll es) → Expr.argsFit env Γ es →
    Expr.argsFit env (Γ.storing (storeOldAll first slots es).2) (storeOldAll first slots es).1 ∧
      (storeOldAll first slots es).1.map (·.type) = es.map (·.type)
  | [], _, _ => ⟨trivial, rfl⟩
  | e :: es, h, ⟨he, hes⟩ => by
    have hf₁ := (storeOld_stores hf e h.left).le_length hf
    have hgrown := storeOldAll_stores hf₁ es h.right
    obtain ⟨ie, ite⟩ := storeOld_fits hf e h.left he
    obtain ⟨ies, ites⟩ := storeOldAll_fits hf₁ es h.right hes
    rw [storeOldAll]
    exact ⟨⟨hgrown.fits ie, ies⟩, congrArg₂ List.cons ite ites⟩

end

/-- Postconditions that fit read slots of the types of what is stored. -/
theorem storePosts_fit {slots : List Expr} (hf : first ≤ slots.length) {posts : List BoundClause}
    (hposts : ∀ c ∈ posts, Unscheduled c.expr.oldTerms c.expr.slotNumbers ∧ c.IsCondition env Γ) :
    ∀ c ∈ (storePosts first slots posts).1,
      c.IsCondition env (Γ.storing (storePosts first slots posts).2) := by
  induction posts generalizing slots with
  | nil => exact fun c hc => absurd hc List.not_mem_nil
  | cons c cs ih =>
      obtain ⟨⟨hfresh, hfits, htype⟩, hcs⟩ := List.forall_mem_cons.mp hposts
      have hf₁ := (storeOld_stores hf c.expr hfresh).le_length hf
      obtain ⟨ic, itc⟩ := storeOld_fits hf c.expr hfresh hfits
      obtain ⟨more, hmore, _⟩ := (storePosts_stores hf₁ fun c hc => (hcs c hc).1).1
      refine List.forall_mem_cons.mpr ⟨⟨?_, itc.trans htype⟩, ih hf₁ hcs⟩
      show Expr.Fits env (Γ.storing (storePosts first _ cs).2) _
      rw [hmore]
      exact ic.store

end

end Contract

end Covenant
