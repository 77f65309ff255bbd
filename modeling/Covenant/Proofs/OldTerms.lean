import Covenant.Proofs.BoundClauses
import Covenant.Proofs.SameTerm

/-!
# Terms in `old`

What stands in `old` in a bound clause can be read back from its text: its names
are words, nothing is selected from a prefix operator because none yields an
object, and there is no further `old` in it. A bound clause reads no slots;
those come in when entry values are scheduled.
-/

namespace Covenant

namespace Typed.Expr

mutual

/-- The terms that stand in `old`, from left to right. -/
def oldTerms : Expr → List Expr
  | int .. | bool .. | null .. | this .. | var .. | param .. | staticField .. | result ..
  | slot .. => []
  | old _ e => [e]
  | field _ _ e _ | length _ e | unary _ _ e | newArray _ _ e | spread _ e => e.oldTerms
  | index _ _ a i => a.oldTerms ++ i.oldTerms
  | binary _ _ l r => l.oldTerms ++ r.oldTerms
  | call _ _ _ receiver _ _ args => oldTermsOpt receiver ++ oldTermsAll args
  | new _ _ _ _ args => oldTermsAll args

def oldTermsOpt : Option Expr → List Expr
  | none => []
  | some e => e.oldTerms

def oldTermsAll : List Expr → List Expr
  | [] => []
  | e :: es => e.oldTerms ++ oldTermsAll es

end

mutual

/-- The numbers of the slots that an expression reads, from left to right. -/
def slotNumbers : Expr → List Nat
  | int .. | bool .. | null .. | this .. | var .. | param .. | staticField .. | result .. => []
  | slot _ _ n => [n]
  | field _ _ e _ | length _ e | unary _ _ e | newArray _ _ e | old _ e | spread _ e =>
    e.slotNumbers
  | index _ _ a i => a.slotNumbers ++ i.slotNumbers
  | binary _ _ l r => l.slotNumbers ++ r.slotNumbers
  | call _ _ _ receiver _ _ args => slotNumbersOpt receiver ++ slotNumbersAll args
  | new _ _ _ _ args => slotNumbersAll args

def slotNumbersOpt : Option Expr → List Nat
  | none => []
  | some e => e.slotNumbers

def slotNumbersAll : List Expr → List Nat
  | [] => []
  | e :: es => e.slotNumbers ++ slotNumbersAll es

end

mutual

theorem sites_oldTerms : ∀ e : Expr, ∀ x ∈ e.oldTerms, ∀ i ∈ x.sites, i ∈ e.sites
  | int .., _, hx | bool .., _, hx | null .., _, hx | this .., _, hx | var .., _, hx
  | param .., _, hx | staticField .., _, hx | result .., _, hx | slot .., _, hx =>
    absurd hx List.not_mem_nil
  | old _ e, x, hx => fun i hi => by
    obtain rfl := List.mem_singleton.mp hx
    exact hi
  | field _ _ e _, x, hx | length _ e, x, hx | unary _ _ e, x, hx | newArray _ _ e, x, hx
  | spread _ e, x, hx => sites_oldTerms e x hx
  | index _ _ l r, x, hx | binary _ _ l r, x, hx => fun i hi => by
    refine List.mem_append.mpr ?_
    rcases List.mem_append.mp hx with hx | hx
    · exact .inl (sites_oldTerms l x hx i hi)
    · exact .inr (sites_oldTerms r x hx i hi)
  | call _ _ site receiver _ _ args, x, hx => fun i hi => by
    refine List.mem_append.mpr ?_
    rcases List.mem_append.mp hx with hx | hx
    · exact .inl (sites_oldTermsOpt receiver x hx i hi)
    · exact .inr (List.mem_cons_of_mem _ (sites_oldTermsAll args x hx i hi))
  | new _ site _ _ args, x, hx => fun i hi =>
    List.mem_cons_of_mem _ (sites_oldTermsAll args x hx i hi)

theorem sites_oldTermsOpt : ∀ e : Option Expr, ∀ x ∈ oldTermsOpt e, ∀ i ∈ x.sites, i ∈ sitesOpt e
  | none, _, hx => absurd hx List.not_mem_nil
  | some e, x, hx => sites_oldTerms e x hx

theorem sites_oldTermsAll : ∀ es : List Expr, ∀ x ∈ oldTermsAll es, ∀ i ∈ x.sites, i ∈ sitesAll es
  | [], _, hx => absurd hx List.not_mem_nil
  | e :: es, x, hx => fun i hi => by
    refine List.mem_append.mpr ?_
    rcases List.mem_append.mp hx with hx | hx
    · exact .inl (sites_oldTerms e x hx i hi)
    · exact .inr (sites_oldTermsAll es x hx i hi)

end

mutual

theorem slotNumbers_oldTerms : ∀ e : Expr, ∀ x ∈ e.oldTerms, ∀ n ∈ x.slotNumbers,
    n ∈ e.slotNumbers
  | int .., _, hx | bool .., _, hx | null .., _, hx | this .., _, hx | var .., _, hx
  | param .., _, hx | staticField .., _, hx | result .., _, hx | slot .., _, hx =>
    absurd hx List.not_mem_nil
  | old _ e, x, hx => fun n hn => by
    obtain rfl := List.mem_singleton.mp hx
    exact hn
  | field _ _ e _, x, hx | length _ e, x, hx | unary _ _ e, x, hx | newArray _ _ e, x, hx
  | spread _ e, x, hx => slotNumbers_oldTerms e x hx
  | index _ _ l r, x, hx | binary _ _ l r, x, hx => fun n hn => by
    refine List.mem_append.mpr ?_
    rcases List.mem_append.mp hx with hx | hx
    · exact .inl (slotNumbers_oldTerms l x hx n hn)
    · exact .inr (slotNumbers_oldTerms r x hx n hn)
  | call _ _ _ receiver _ _ args, x, hx => fun n hn => by
    refine List.mem_append.mpr ?_
    rcases List.mem_append.mp hx with hx | hx
    · exact .inl (slotNumbers_oldTermsOpt receiver x hx n hn)
    · exact .inr (slotNumbers_oldTermsAll args x hx n hn)
  | new _ _ _ _ args, x, hx => slotNumbers_oldTermsAll args x hx

theorem slotNumbers_oldTermsOpt : ∀ e : Option Expr, ∀ x ∈ oldTermsOpt e, ∀ n ∈ x.slotNumbers,
    n ∈ slotNumbersOpt e
  | none, _, hx => absurd hx List.not_mem_nil
  | some e, x, hx => slotNumbers_oldTerms e x hx

theorem slotNumbers_oldTermsAll : ∀ es : List Expr, ∀ x ∈ oldTermsAll es, ∀ n ∈ x.slotNumbers,
    n ∈ slotNumbersAll es
  | [], _, hx => absurd hx List.not_mem_nil
  | e :: es, x, hx => fun n hn => by
    refine List.mem_append.mpr ?_
    rcases List.mem_append.mp hx with hx | hx
    · exact .inl (slotNumbers_oldTerms e x hx n hn)
    · exact .inr (slotNumbers_oldTermsAll es x hx n hn)

end

/-- What an object or an array is selected from is no prefix operator. -/
theorem isUnary_eq_false {e : Expr} (h : e.type ≠ .int) (h' : e.type ≠ .boolean) :
    e.isUnary = false := by
  cases e with
  | unary span op x =>
      cases op with
      | neg => exact absurd rfl h
      | not => exact absurd rfl h'
  | _ => rfl

end Typed.Expr

/-- A field that is found by its name has that name, and is a field of some type. -/
theorem Env.lookupField?_some {env : Env} {c name : String} {f : FieldInfo}
    (h : env.lookupField? c name = some f) : f.name = name ∧ ∃ id, env.field? id = some f := by
  refine ⟨by simpa using List.find?_some h, ?_⟩
  obtain ⟨id, _, hid⟩ := List.mem_filterMap.mp (List.mem_of_find?_eq_some h)
  exact ⟨id, hid⟩

namespace Typing

open Typed (Expr)

/-! ## Along the rules of typing -/

mutual

theorem Elab.sites_subset {s : Scope} {e : Surface.Expr} {t : Expr} {cs : List CallSite}
    (h : Elab s e t cs) : ∀ i ∈ t.sites, i ∈ e.sites := by
  cases h with
  | int | bool | null | this | var | param | ownStatic | ownField | classField | result =>
      exact fun i hi => absurd hi List.not_mem_nil
  | staticField => exact fun i hi => absurd hi List.not_mem_nil
  | unary h | field h | length h | old h | spread h =>
      have ih := Elab.sites_subset h
      exact ih
  | newArray _ h =>
      have ih := Elab.sites_subset h
      exact ih
  | binary hl hr =>
      have il := Elab.sites_subset hl
      have ir := Elab.sites_subset hr
      intro i hi
      exact List.mem_append.mpr ((List.mem_append.mp hi).imp (il i) (ir i))
  | index ha _ hi =>
      have il := Elab.sites_subset ha
      have ir := Elab.sites_subset hi
      intro i hi
      exact List.mem_append.mpr ((List.mem_append.mp hi).imp (il i) (ir i))
  | staticCall ha | ownCall ha | new _ _ ha =>
      have ia := ElabAll.sites_subset ha
      intro i hi
      exact List.mem_cons.mpr ((List.mem_cons.mp hi).imp id (ia i))
  | classCall _ ha | droppedCall _ _ ha =>
      have ia := ElabAll.sites_subset ha
      intro i hi
      exact List.mem_append_right _ (List.mem_cons.mpr ((List.mem_cons.mp hi).imp id (ia i)))
  | methodCall ho _ ha =>
      have io := Elab.sites_subset ho
      have ia := ElabAll.sites_subset ha
      intro i hi
      refine List.mem_append.mpr ((List.mem_append.mp hi).imp (io i) fun hi => ?_)
      exact List.mem_cons.mpr ((List.mem_cons.mp hi).imp id (ia i))

theorem ElabAll.sites_subset {s : Scope} {es : List Surface.Expr} {ts : List Expr}
    {cs : List CallSite} (h : ElabAll s es ts cs) :
    ∀ i ∈ Expr.sitesAll ts, i ∈ Surface.sitesAll es := by
  cases h with
  | nil => exact fun i hi => absurd hi List.not_mem_nil
  | cons he hes =>
      have ie := Elab.sites_subset he
      have ies := ElabAll.sites_subset hes
      intro i hi
      exact List.mem_append.mpr ((List.mem_append.mp hi).imp (ie i) (ies i))

end

mutual

/-- Typing makes no expression that reads a slot. -/
theorem Elab.slotNumbers {s : Scope} {e : Surface.Expr} {t : Expr} {cs : List CallSite}
    (h : Elab s e t cs) : t.slotNumbers = [] := by
  cases h with
  | int | bool | null | this | var | param | ownStatic | ownField | classField | result => rfl
  | staticField => rfl
  | unary h | field h | length h | old h | spread h =>
      have ih := Elab.slotNumbers h
      exact ih
  | newArray _ h =>
      have ih := Elab.slotNumbers h
      exact ih
  | binary hl hr => rw [Expr.slotNumbers, Elab.slotNumbers hl, Elab.slotNumbers hr]; rfl
  | index ha _ hi => rw [Expr.slotNumbers, Elab.slotNumbers ha, Elab.slotNumbers hi]; rfl
  | staticCall ha | new _ _ ha | classCall _ ha | droppedCall _ _ ha =>
      have ia := ElabAll.slotNumbers ha
      exact ia
  | ownCall ha =>
      have ia := ElabAll.slotNumbers ha
      exact ia
  | methodCall ho _ ha =>
      rw [Expr.slotNumbers, Expr.slotNumbersOpt, Elab.slotNumbers ho, ElabAll.slotNumbers ha]
      rfl

theorem ElabAll.slotNumbers {s : Scope} {es : List Surface.Expr} {ts : List Expr}
    {cs : List CallSite} (h : ElabAll s es ts cs) : Expr.slotNumbersAll ts = [] := by
  cases h with
  | nil => rfl
  | cons he hes => rw [Expr.slotNumbersAll, Elab.slotNumbers he, ElabAll.slotNumbers hes]; rfl

end

/-! ## What can be read back -/

open Contract (misplaced? misplacedAny?)

/-- The scope of a clause: there are no local variables, and the classes of fields are words. -/
structure Scope.OfClause (s : Scope) : Prop where
  locals : s.locals = []
  owners : ∀ id f, s.env.field? id = some f → IsWord f.owner

theorem Scope.OfClause.local? {s : Scope} (hs : s.OfClause) (name : String) :
    s.local? name = none := by
  rw [Scope.local?, hs.locals]
  rfl

theorem Scope.OfClause.owner {s : Scope} (hs : s.OfClause) {c name : String} {f : FieldInfo}
    (h : s.env.lookupField? c name = some f) : IsWord f.owner := by
  obtain ⟨_, id, hid⟩ := Env.lookupField?_some h
  exact hs.owners id f hid

theorem isWord_resolveType {env : Env} {t : Surface.TypeExpr} {type : Ty} (ht : t.Plain)
    (h : env.resolveType t = .ok type) : IsWord type.text := by
  cases t with
  | int | boolean =>
      cases h
      exact ⟨by decide, List.all_eq_true.mp (by decide)⟩
  | named span name =>
      rw [Env.resolveType] at h
      split at h
      · cases h
        exact ht
      · exact absurd h (by simp [typingFault])
  | array => exact ht.elim

/-- The parts of an expression in which nothing is misplaced. -/
theorem misplaced?_none {isPost hasResult inOld : Bool} {e : Surface.Expr}
    (h : misplaced? isPost hasResult inOld e = none) :
    Contract.misplacedForm? isPost hasResult inOld e = none ∧
      match e with
      | .int .. | .bool .. | .null .. | .this .. | .name .. | .result .. => True
      | .binary _ _ l r => misplaced? isPost hasResult inOld l = none ∧
          misplaced? isPost hasResult inOld r = none
      | .unary _ _ x | .field _ x _ | .newArray _ _ x | .spread _ x =>
        misplaced? isPost hasResult inOld x = none
      | .index _ a i => misplaced? isPost hasResult inOld a = none ∧
          misplaced? isPost hasResult inOld i = none
      | .call _ _ _ args | .new _ _ _ args => misplacedAny? isPost hasResult inOld args = none
      | .methodCall _ _ object _ args => misplaced? isPost hasResult inOld object = none ∧
          misplacedAny? isPost hasResult inOld args = none
      | .old _ x => misplaced? isPost hasResult true x = none := by
  cases e <;> simpa only [misplaced?, Option.or_eq_none_iff] using h

theorem misplacedAny?_none {isPost hasResult inOld : Bool} {e : Surface.Expr}
    {es : List Surface.Expr} (h : misplacedAny? isPost hasResult inOld (e :: es) = none) :
    misplaced? isPost hasResult inOld e = none ∧ misplacedAny? isPost hasResult inOld es = none := by
  simpa only [misplacedAny?, Option.or_eq_none_iff] using h

/-- No `old` may stand in `old`. -/
theorem not_old_in_old {isPost hasResult : Bool} {span : Span} {x : Surface.Expr} :
    misplaced? isPost hasResult true (.old span x) ≠ none := by
  intro h
  have := (misplaced?_none h).1
  cases isPost <;> simp [Contract.misplacedForm?] at this

section

variable {s : Scope} {isPost hasResult : Bool}

mutual

/-- A term that stands in `old` can be read back from its text. -/
theorem Elab.printable {e : Surface.Expr} {t : Expr} {cs : List CallSite} (hs : s.OfClause)
    (h : Elab s e t cs) (hl : e.Lexical .condition)
    (hm : misplaced? isPost hasResult true e = none) : t.Printable := by
  cases h with
  | int => exact hl
  | bool | null | this | result => exact trivial
  | var hv => exact absurd hv (by simp [hs.local?])
  | param => exact hl
  | ownStatic hf =>
      obtain ⟨rfl, _⟩ := Env.lookupField?_some hf
      exact ⟨hs.owner hf, hl⟩
  | ownField hf =>
      obtain ⟨rfl, _⟩ := Env.lookupField?_some hf
      exact ⟨trivial, rfl, hl⟩
  | binary hlhs hrhs =>
      have hparts := (misplaced?_none hm).2
      exact ⟨Elab.printable hs hlhs hl.1 hparts.1, Elab.printable hs hrhs hl.2 hparts.2⟩
  | unary he =>
      have ih := Elab.printable hs he hl (misplaced?_none hm).2
      exact ih
  | classField _ hf =>
      have hname := (Env.lookupField?_some hf).1
      exact ⟨hs.owner hf, hname ▸ hl.2⟩
  | staticField _ _ hf =>
      have hname := (Env.lookupField?_some hf).1
      exact ⟨hs.owner hf, hname ▸ hl.2⟩
  | field ho ht hf =>
      have hname := (Env.lookupField?_some hf).1
      exact ⟨Elab.printable hs ho hl.1 (misplaced?_none hm).2,
        Expr.isUnary_eq_false (by simp [ht]) (by simp [ht]), hname ▸ hl.2⟩
  | length ho ht =>
      exact ⟨Elab.printable hs ho hl.1 (misplaced?_none hm).2,
        Expr.isUnary_eq_false (by simp [ht]) (by simp [ht])⟩
  | staticCall ha =>
      exact ⟨trivial, hl.1, ElabAll.printable hs ha hl.2 (misplaced?_none hm).2⟩
  | ownCall ha =>
      exact ⟨⟨trivial, rfl⟩, hl.1, ElabAll.printable hs ha hl.2 (misplaced?_none hm).2⟩
  | classCall _ ha =>
      exact ⟨trivial, hl.2.1, ElabAll.printable hs ha hl.2.2 (misplaced?_none hm).2.2⟩
  | droppedCall _ _ ha =>
      exact ⟨trivial, hl.2.1, ElabAll.printable hs ha hl.2.2 (misplaced?_none hm).2.2⟩
  | methodCall ho ht ha =>
      have hparts := (misplaced?_none hm).2
      exact ⟨⟨Elab.printable hs ho hl.1 hparts.1,
        Expr.isUnary_eq_false (by simp [ht]) (by simp [ht])⟩, hl.2.1,
        ElabAll.printable hs ha hl.2.2 hparts.2⟩
  | new _ _ ha => exact ⟨hl.1, ElabAll.printable hs ha hl.2 (misplaced?_none hm).2⟩
  | newArray he hlen =>
      exact ⟨isWord_resolveType hl.1 he, Elab.printable hs hlen hl.2 (misplaced?_none hm).2⟩
  | index ha hta hi =>
      have hparts := (misplaced?_none hm).2
      exact ⟨Elab.printable hs ha hl.1 hparts.1,
        Expr.isUnary_eq_false (by simp [hta]) (by simp [hta]),
        Elab.printable hs hi hl.2 hparts.2⟩
  | old => exact absurd hm not_old_in_old
  | spread => exact absurd hl.1 (by simp)

theorem ElabAll.printable {es : List Surface.Expr} {ts : List Expr} {cs : List CallSite}
    (hs : s.OfClause) (h : ElabAll s es ts cs) (hl : Surface.lexicalAll .condition es)
    (hm : misplacedAny? isPost hasResult true es = none) : Expr.PrintableAll ts := by
  cases h with
  | nil => exact trivial
  | cons he hes =>
      have hparts := misplacedAny?_none hm
      exact ⟨Elab.printable hs he hl.1 hparts.1, ElabAll.printable hs hes hl.2 hparts.2⟩

end

mutual

/-- All terms that stand in `old` in a clause can be read back from their texts. -/
theorem Elab.oldTerms_printable {e : Surface.Expr} {t : Expr} {cs : List CallSite}
    (hs : s.OfClause) (h : Elab s e t cs) (hl : e.Lexical .condition)
    (hm : misplaced? isPost hasResult false e = none) : ∀ x ∈ t.oldTerms, x.Printable := by
  cases h with
  | int | bool | null | this | result | var | param | ownStatic | ownField | classField
  | staticField => exact fun x hx => absurd hx List.not_mem_nil
  | binary hlhs hrhs =>
      have hparts := (misplaced?_none hm).2
      exact Contract.forall_append (Elab.oldTerms_printable hs hlhs hl.1 hparts.1)
        (Elab.oldTerms_printable hs hrhs hl.2 hparts.2)
  | unary he =>
      have ih := Elab.oldTerms_printable hs he hl (misplaced?_none hm).2
      exact ih
  | field ho | length ho =>
      have ih := Elab.oldTerms_printable hs ho hl.1 (misplaced?_none hm).2
      exact ih
  | staticCall ha | ownCall ha | new _ _ ha =>
      have ih := ElabAll.oldTerms_printable hs ha hl.2 (misplaced?_none hm).2
      exact ih
  | classCall _ ha | droppedCall _ _ ha =>
      have ih := ElabAll.oldTerms_printable hs ha hl.2.2 (misplaced?_none hm).2.2
      exact ih
  | methodCall ho _ ha =>
      have hparts := (misplaced?_none hm).2
      exact Contract.forall_append (Elab.oldTerms_printable hs ho hl.1 hparts.1)
        (ElabAll.oldTerms_printable hs ha hl.2.2 hparts.2)
  | newArray _ hlen =>
      have ih := Elab.oldTerms_printable hs hlen hl.2 (misplaced?_none hm).2
      exact ih
  | index ha _ hi =>
      have hparts := (misplaced?_none hm).2
      exact Contract.forall_append (Elab.oldTerms_printable hs ha hl.1 hparts.1)
        (Elab.oldTerms_printable hs hi hl.2 hparts.2)
  | old he =>
      intro x hx
      obtain rfl := List.mem_singleton.mp hx
      exact Elab.printable hs he hl.2 (misplaced?_none hm).2
  | spread => exact absurd hl.1 (by simp)

theorem ElabAll.oldTerms_printable {es : List Surface.Expr} {ts : List Expr} {cs : List CallSite}
    (hs : s.OfClause) (h : ElabAll s es ts cs) (hl : Surface.lexicalAll .condition es)
    (hm : misplacedAny? isPost hasResult false es = none) :
    ∀ x ∈ Expr.oldTermsAll ts, x.Printable := by
  cases h with
  | nil => exact fun x hx => absurd hx List.not_mem_nil
  | cons he hes =>
      have hparts := misplacedAny?_none hm
      exact Contract.forall_append (Elab.oldTerms_printable hs he hl.1 hparts.1)
        (ElabAll.oldTerms_printable hs hes hl.2 hparts.2)

end

end

end Typing

end Covenant
