import Covenant.Proofs.CallScopes
import Covenant.Proofs.Lookups
import Covenant.Proofs.ShiftedSlots
import Covenant.Proofs.WellTyped

/-!
# What typing makes of a program fits

Whatever the checker makes of an expression or a statement fits the context that its
scope stands for, in the environment that checking the bodies leads to: the checker
has asked for all that evaluation relies on. The forms that only clauses know fit
where the context has them.
-/

namespace Covenant

/-! ## Forms that only clauses know -/

namespace Surface

mutual

/-- Whether `old` stands only where it may and not in itself, and `[*]` only where it may. -/
def Expr.FormsFit (hasOld hasSpread : Bool) : Expr → Prop
  | .int .. | .bool .. | .null .. | .this .. | .result .. | .name .. => True
  | .binary _ _ l r | .index _ l r => l.FormsFit hasOld hasSpread ∧ r.FormsFit hasOld hasSpread
  | .unary _ _ e | .field _ e _ | .newArray _ _ e => e.FormsFit hasOld hasSpread
  | .old _ e => hasOld = true ∧ e.FormsFit false hasSpread
  | .spread _ e => hasSpread = true ∧ e.FormsFit hasOld hasSpread
  | .call _ _ _ args | .new _ _ _ args => formsFitAll hasOld hasSpread args
  | .methodCall _ _ o _ args => o.FormsFit hasOld hasSpread ∧ formsFitAll hasOld hasSpread args

def formsFitAll (hasOld hasSpread : Bool) : List Expr → Prop
  | [] => True
  | e :: es => e.FormsFit hasOld hasSpread ∧ formsFitAll hasOld hasSpread es

end

mutual

/-- An expression of a body has none of these forms. -/
theorem Expr.formsFit_body : ∀ {e : Expr}, e.Lexical .body → e.FormsFit false false
  | .int .., _ | .bool .., _ | .null .., _ | .this .., _ | .name .., _ | .result .., _ => trivial
  | .binary .., h => ⟨Expr.formsFit_body h.1, Expr.formsFit_body h.2⟩
  | .index .., h => ⟨Expr.formsFit_body h.1, Expr.formsFit_body h.2⟩
  | .unary _ _ e, h => by
      have he : e.FormsFit false false := Expr.formsFit_body h
      exact he
  | .field _ o _, h => by
      have ho : o.FormsFit false false := Expr.formsFit_body h.1
      exact ho
  | .newArray _ _ e, h => by
      have he : e.FormsFit false false := Expr.formsFit_body h.2
      exact he
  | .old .., h => absurd h.1 (by simp [Parse.Dialect.isClause])
  | .spread .., h => absurd h.1 (by simp)
  | .call _ _ _ args, h => by
      have ha : formsFitAll false false args := formsFitAll_body h.2
      exact ha
  | .new _ _ _ args, h => by
      have ha : formsFitAll false false args := formsFitAll_body h.2
      exact ha
  | .methodCall .., h => ⟨Expr.formsFit_body h.1, formsFitAll_body h.2.2⟩

theorem formsFitAll_body : ∀ {es : List Expr}, lexicalAll .body es → formsFitAll false false es
  | [], _ => trivial
  | _ :: _, h => ⟨Expr.formsFit_body h.1, formsFitAll_body h.2⟩

end

end Surface

/-! ## Expressions -/

namespace Typing

open Typed (Context SiteOf ArgsFit CallTyped ConstructorTyped)

/-- A context stands for a scope. -/
structure Scope.In (s : Scope) (env : Env) (Γ : Context) : Prop where
  env : s.env.SameDecls env
  this : s.isStatic = false → Γ.this = some s.className
  locals : Γ.locals = s.locals
  params : ∀ name i type, s.param? name = some (i, type) → Γ.params[i]? = some type
  result : ∀ type, s.clause.bind (·.result) = some type → Γ.result = some type

/-- Without its mark a context stands for the same scope. -/
theorem Scope.In.inOld {s : Scope} {env : Env} {Γ : Context} (h : s.In env Γ) :
    s.In env { Γ with hasOld := false } :=
  ⟨h.env, h.this, h.locals, h.params, h.result⟩

/-- All calls are what is written down for their sites. -/
def SitesOf (env : Env) (cs : List CallSite) : Prop := ∀ c ∈ cs, SiteOf env c.id c.callee

theorem SitesOf.append {env : Env} {cs ds : List CallSite} :
    SitesOf env (cs ++ ds) ↔ SitesOf env cs ∧ SitesOf env ds := List.forall_mem_append

section

variable {env : Env} {s : Scope} {Γ : Context}

theorem argsFit_of_isApplicable {args : List Typed.Expr} {m : MethodInfo}
    (h : isApplicable env (args.map (·.type)) m = true) : ArgsFit env args m.paramTypes := by
  rw [isApplicable, Bool.and_eq_true, beq_iff_eq, List.length_map] at h
  obtain ⟨hlen, hall⟩ := h
  have hlen : args.length = m.paramTypes.length := by
    rw [MethodInfo.paramTypes, List.length_map, hlen]
  refine List.forall₂_iff_zip.mpr ⟨hlen, fun {e t} hmem => ?_⟩
  refine List.all_eq_true.mp hall (e.type, t) ?_
  rw [List.zip_map_left]
  exact List.mem_map_of_mem (f := Prod.map (·.type) id) hmem

variable {p : Surface.Program} (hd : env.DeclaredBy p) (hs : s.In env Γ)

include hs

omit hd in
theorem isAssignable_in {t u : Ty} (h : s.env.isAssignable t u = true) :
    env.isAssignable t u = true :=
  (hs.env.isAssignable t u).trans h

omit hd in
theorem operandsFit_in {op : BinaryOp} {t u : Ty} (h : OperandsFit s.env op t u) :
    OperandsFit env op t u := by
  cases op with
  | eq | neq => exact h.imp (isAssignable_in hs) (isAssignable_in hs)
  | _ => exact ⟨isAssignable_in hs h.1, isAssignable_in hs h.2⟩

omit hd in
theorem thisExpr_fits (hi : s.isStatic = false) (span : Span) :
    (s.thisExpr span).Fits env Γ :=
  ⟨s.className, hs.this hi, Env.isSubtype_refl⟩

omit hd in
theorem argsFit_in {candidates : List MethodInfo} {args : List Typed.Expr} {m : MethodInfo}
    (h : selectOverload? s.env candidates (args.map (·.type)) = some m) :
    m ∈ candidates ∧ ArgsFit env args m.paramTypes := by
  obtain ⟨hm, happ⟩ := selectOverload?_ok h
  refine ⟨hm, argsFit_of_isApplicable ?_⟩
  rw [isApplicable] at happ ⊢
  simpa only [hs.env.isAssignable] using happ

include hd

theorem staticField_fits {c name : String} {f : FieldInfo}
    (h : s.env.lookupField? c name = some f) (hstatic : f.isStatic = true) (span : Span) :
    (Typed.Expr.staticField span f.type f.owner f.name).Fits env Γ := by
  have hf := (hs.env.lookupField? c name).trans h
  exact ⟨f, hd.lookupField?_owner (Env.mem_of_lookupField? hf).1, hstatic, rfl⟩

omit hd in
theorem field_fits {c name : String} {f : FieldInfo} (h : s.env.lookupField? c name = some f)
    (hstatic : f.isStatic = false) {o : Typed.Expr} (ho : o.Fits env Γ) (ht : o.type = .ofClass c)
    (span : Span) : (Typed.Expr.field span f.type o f.name).Fits env Γ := by
  have hf := (hs.env.lookupField? c name).trans h
  obtain rfl := (Env.mem_of_lookupField? hf).2
  exact ⟨ho, c, f, ht, hf, hstatic, rfl⟩

/-- A method that was found by its name, and the calls of it. -/
theorem callTyped {c name : String} {args : List Typed.Expr} {m : MethodInfo}
    (h : selectOverload? s.env (s.env.lookupMethods c name) (args.map (·.type)) = some m)
    {site : SiteId} (hsite : SiteOf env site m.id) {receiver : Option Typed.Expr}
    (hstatic : receiver = none → m.isStatic = true)
    (hreceiver : ∀ e, receiver = some e → m.isStatic = false ∧ e.type = .ofClass c) :
    CallTyped env m m.returnType site receiver m.id name args := by
  obtain ⟨hm, hargs⟩ := argsFit_in hs h
  rw [← hs.env.lookupMethods] at hm
  obtain ⟨hget, hmethod, hsub, hname⟩ := hd.mem_lookupMethods.mp hm
  refine ⟨hget, hmethod, hname, rfl, hargs, hstatic, fun e he => ?_, hsite⟩
  obtain ⟨hinstance, htype⟩ := hreceiver e he
  exact ⟨hinstance, c, htype, hsub⟩

theorem constructorTyped {c : String} {args : List Typed.Expr} {m : MethodInfo}
    (h : selectOverload? s.env (s.env.constructors c) (args.map (·.type)) = some m)
    {site : SiteId} (hsite : SiteOf env site m.id) :
    ConstructorTyped env m c site m.id args := by
  obtain ⟨hm, hargs⟩ := argsFit_in hs h
  rw [← hs.env.constructors] at hm
  obtain ⟨hget, howner, hctor, hinstance, _⟩ := hd.mem_constructors hm
  exact ⟨hget, hctor, hinstance, howner, hargs, hsite⟩

end

mutual

theorem Elab.fits {env : Env} {p : Surface.Program} (hd : env.DeclaredBy p) {s : Scope}
    {Γ : Context} (hs : s.In env Γ) {e : Surface.Expr} {t : Typed.Expr} {cs : List CallSite}
    (h : Elab s e t cs) (hf : e.FormsFit Γ.hasOld Γ.hasSpread) (hc : SitesOf env cs) :
    t.Fits env Γ := by
  cases h with
  | int | bool | null => trivial
  | this hi => exact thisExpr_fits hs hi _
  | var hl =>
      show Γ.locals.lookup _ = some _
      rw [hs.locals]
      exact hl
  | param hp => exact hs.params _ _ _ hp
  | ownStatic hl hstatic | classField _ hl hstatic => exact staticField_fits hd hs hl hstatic _
  | ownField hl hstatic hi => exact field_fits hs hl hstatic (thisExpr_fits hs hi _) rfl _
  | binary hl hr ho =>
      obtain ⟨hcl, hcr⟩ := SitesOf.append.mp hc
      exact ⟨⟨Elab.fits hd hs hl hf.1 hcl, Elab.fits hd hs hr hf.2 hcr⟩, operandsFit_in hs ho⟩
  | @unary _ op _ e' _ he ht =>
      refine ⟨Elab.fits hd hs he hf hc, ?_⟩
      cases op with
      | neg => exact Env.eq_int_of_isAssignable ht
      | not => exact Env.eq_boolean_of_isAssignable ht
  | staticField _ _ hl hstatic => exact staticField_fits hd hs hl hstatic _
  | field ho ht hl hstatic => exact field_fits hs hl hstatic (Elab.fits hd hs ho hf hc) ht _
  | length ho ht => exact ⟨Elab.fits hd hs ho hf hc, _, ht⟩
  | staticCall ha hm hstatic =>
      obtain ⟨hca, hsite⟩ := SitesOf.append.mp hc
      refine ⟨⟨trivial, ElabAll.fits hd hs ha hf hca⟩, _, callTyped hd hs hm ?_ ?_ ?_⟩
      · exact hsite _ List.mem_cons_self
      · exact fun _ => hstatic
      · exact fun _ he => absurd he (by simp)
  | classCall _ ha hm hstatic =>
      obtain ⟨hca, hsite⟩ := SitesOf.append.mp hc
      refine ⟨⟨trivial, ElabAll.fits hd hs ha hf.2 hca⟩, _, callTyped hd hs hm ?_ ?_ ?_⟩
      · exact hsite _ List.mem_cons_self
      · exact fun _ => hstatic
      · exact fun _ he => absurd he (by simp)
  | droppedCall _ _ ha hm hstatic =>
      obtain ⟨hcs, hsite⟩ := SitesOf.append.mp hc
      obtain ⟨_, hca⟩ := SitesOf.append.mp hcs
      refine ⟨⟨trivial, ElabAll.fits hd hs ha hf.2 hca⟩, _, callTyped hd hs hm ?_ ?_ ?_⟩
      · exact hsite _ List.mem_cons_self
      · exact fun _ => hstatic
      · exact fun _ he => absurd he (by simp)
  | @ownCall _ _ name _ _ _ _ ha hm hstatic hi =>
      obtain ⟨hca, hsite⟩ := SitesOf.append.mp hc
      refine ⟨⟨thisExpr_fits hs hi name.span, ElabAll.fits hd hs ha hf hca⟩, _,
        callTyped hd hs hm ?_ ?_ ?_⟩
      · exact hsite _ List.mem_cons_self
      · exact fun he => absurd he (by simp)
      · rintro e ⟨⟩
        exact ⟨hstatic, rfl⟩
  | methodCall ho ht ha hm hstatic =>
      obtain ⟨hcs, hsite⟩ := SitesOf.append.mp hc
      obtain ⟨hco, hca⟩ := SitesOf.append.mp hcs
      refine ⟨⟨Elab.fits hd hs ho hf.1 hco, ElabAll.fits hd hs ha hf.2 hca⟩, _,
        callTyped hd hs hm ?_ ?_ ?_⟩
      · exact hsite _ List.mem_cons_self
      · exact fun he => absurd he (by simp)
      · rintro e ⟨⟩
        exact ⟨hstatic, ht⟩
  | new _ _ ha hm =>
      obtain ⟨hca, hsite⟩ := SitesOf.append.mp hc
      exact ⟨ElabAll.fits hd hs ha hf hca, _,
        constructorTyped hd hs hm (hsite _ List.mem_cons_self)⟩
  | newArray he hl ht =>
      exact ⟨⟨Elab.fits hd hs hl hf hc, Env.eq_int_of_isAssignable ht⟩,
        Env.stored_of_resolveType he⟩
  | index ha hta hi hti =>
      obtain ⟨hca, hci⟩ := SitesOf.append.mp hc
      exact ⟨⟨Elab.fits hd hs ha hf.1 hca, hta⟩, Elab.fits hd hs hi hf.2 hci,
        Env.eq_int_of_isAssignable hti⟩
  | old he => exact ⟨hf.1, Elab.fits hd hs.inOld he hf.2 hc⟩
  | result hr => exact hs.result _ hr
  | spread he => exact ⟨hf.1, Elab.fits hd hs he hf.2 hc⟩

theorem ElabAll.fits {env : Env} {p : Surface.Program} (hd : env.DeclaredBy p) {s : Scope}
    {Γ : Context} (hs : s.In env Γ) {es : List Surface.Expr} {ts : List Typed.Expr}
    {cs : List CallSite} (h : ElabAll s es ts cs)
    (hf : Surface.formsFitAll Γ.hasOld Γ.hasSpread es) (hc : SitesOf env cs) :
    Typed.Expr.argsFit env Γ ts := by
  cases h with
  | nil => trivial
  | cons he hes =>
      obtain ⟨hce, hces⟩ := SitesOf.append.mp hc
      exact ⟨Elab.fits hd hs he hf.1 hce, ElabAll.fits hd hs hes hf.2 hces⟩

end

end Typing

end Covenant
