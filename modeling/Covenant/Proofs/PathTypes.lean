import Covenant.Proofs.ClosedSets
import Covenant.Proofs.FittedCalls
import Covenant.Proofs.FittedClauses
import Covenant.Proofs.SoundChecks

/-!
# Where the paths of closed sets lead

A path of a typed expression leads along: each of its steps is one that the type in
front of it has. So do the paths of closed sets, from what the member is called with,
as far as this holds of the targets that were declared: the receivers and arguments
of calls fit what the callee expects of them. And what a path leads to along fields
and elements is of one type only, however the path came about.
-/

namespace Covenant

open Surface (Program)
open Typed (Context)

namespace Effect

/-- The path leads along from its root, from a class to a static field first. -/
def Path.Leads (env : Env) (p : Path) : Prop :=
  match p.root with
  | .this | .param _ => StepsFit env p.rootType p.steps
  | .static c => p.rootType = .void ∧ ∃ name f rest, p.steps = (.field name, f.type) :: rest ∧
      env.lookupField? c name = some f ∧ f.isStatic = true ∧ StepsFit env f.type rest

/-- The path starts at what the member is called with. Its receiver may be known by a supertype. -/
def Path.Rooted (env : Env) (m : MethodInfo) (p : Path) : Prop :=
  match p.root with
  | .this => m.isStatic = false ∧ ∃ o, p.rootType = .ofClass o ∧ env.isSubtype m.owner o = true
  | .param i => m.paramTypes[i]? = some p.rootType
  | .static _ => True

section

variable {env : Env} {m : MethodInfo} {p q : Path}

theorem Path.Leads.append (h : p.Leads env) {more : List (Step × Ty)}
    (hm : StepsFit env p.type more) : Path.Leads env { p with steps := p.steps ++ more } := by
  obtain ⟨root, rootType, steps⟩ := p
  cases root with
  | this | param => exact stepsFit_append.mpr ⟨h, hm⟩
  | static c =>
      obtain ⟨hvoid, name, f, rest, heq, hf, hs, hrest⟩ := h
      obtain rfl : steps = (.field name, f.type) :: rest := heq
      have hm : StepsFit env (endType f.type rest) more := endType_cons (s := rootType) ▸ hm
      exact ⟨hvoid, name, f, rest ++ more, rfl, hf, hs, stepsFit_append.mpr ⟨hrest, hm⟩⟩

theorem Path.Leads.step (h : p.Leads env) {s : Step} {t : Ty} (hs : StepFits env p.type s t) :
    (p.step s t).Leads env := h.append ⟨hs, trivial⟩

@[simp] theorem Path.type_step (p : Path) (s : Step) (t : Ty) : (p.step s t).type = t := by
  simp [Path.type, Path.step]

theorem Path.Leads.fits (h : p.Leads env) (hr : p.Rooted env m) : p.Fits env m := by
  obtain ⟨root, rootType, steps⟩ := p
  cases root with
  | this =>
      obtain ⟨hs, o, ho, hsub⟩ := hr
      obtain rfl : rootType = .ofClass o := ho
      exact ⟨hs, Env.isAssignable_ofClass hsub, h⟩
  | param i => exact ⟨⟨rootType, hr, Env.isAssignable_refl⟩, h⟩
  | static c =>
      obtain ⟨hvoid, name, f, rest, heq, hf, hs, hrest⟩ := h
      obtain rfl : steps = (.field name, f.type) :: rest := heq
      refine ⟨hvoid, ?_⟩
      rintro _ _ _ ⟨⟩
      exact ⟨⟨name, f, rfl, hf, hs, rfl⟩, hrest⟩

theorem Path.Rooted.of_initial (h : p.Rooted env m) (hq : q ∈ p.prefixes) : q.Rooted env m := by
  obtain ⟨n, _, rfl⟩ := Path.mem_prefixes.mp hq
  exact h

end

/-! ## Paths of expressions -/

section

open Contract (badSpread?)

/-- What a part of the expression spreads is a collection. -/
def Spreadable (e : Typed.Expr) : Prop := ∀ x ∈ e.parts, badSpread? x = none

theorem Spreadable.of_parts {e e' : Typed.Expr} (h : Spreadable e) (hsub : e'.parts ⊆ e.parts) :
    Spreadable e' := fun x hx => h x (hsub hx)

theorem Spreadable.elem {span : Span} {e : Typed.Expr} (h : Spreadable (.spread span e)) :
    e.type = .array (Typed.Expr.spread span e).type := by
  have hb := h _ List.mem_cons_self
  simp only [badSpread?] at hb
  cases ht : e.type with
  | array t => simp [Typed.Expr.type, ht, Ty.elem?]
  | _ => simp [ht, Ty.elem?] at hb

variable {env : Env} {source : Program} (hd : env.DeclaredBy source) {Γ : Context}
  {params : List (String × Ty)}

include hd

/-- The path of an expression leads to what the expression yields, or to the array whose length it
is. -/
theorem of?_leads : ∀ {e : Typed.Expr} {p : Path}, e.Fits env Γ →
    (Γ.hasSpread = true → Spreadable e) → Path.of? params e = some p →
    p.Leads env ∧ (e.type = p.type ∨ e.type = .int) ∧ (p.root = .this → Γ.this ≠ none)
  | .this _ c, p, h, _, hp => by
      cases hp
      obtain ⟨d, hd, _⟩ := h
      exact ⟨trivial, .inl rfl, fun _ => by simp [hd]⟩
  | .param _ t i _, p, _, _, hp => by
      cases hp
      exact ⟨trivial, .inl rfl, nofun⟩
  | .var _ t name, p, _, _, hp => by
      obtain ⟨i, _, rfl⟩ := Option.map_eq_some_iff.mp hp
      exact ⟨trivial, .inl rfl, nofun⟩
  | .staticField _ t c name, p, h, _, hp => by
      cases hp
      obtain ⟨f, hf, hs, rfl⟩ := h
      exact ⟨⟨rfl, name, f, [], rfl, hf, hs, trivial⟩, .inl rfl, nofun⟩
  | .field _ t o name, p, h, hb, hp => by
      obtain ⟨ho, c, f, hc, hf, hs, rfl⟩ := h
      obtain ⟨q, hq, rfl⟩ := Option.map_eq_some_iff.mp hp
      obtain ⟨hleads, htype, hthis⟩ :=
        of?_leads ho (fun hspread => (hb hspread).of_parts (List.subset_cons_self _ _)) hq
      have htype : q.type = .ofClass c := by simpa [hc, eq_comm] using htype
      exact ⟨hleads.step ⟨c, f, htype ▸ Env.isAssignable_refl, hf, hs, rfl⟩,
        .inl (Path.type_step ..).symm, hthis⟩
  | .length _ a, p, h, hb, hp => by
      obtain ⟨hleads, _, hthis⟩ :=
        of?_leads h.1 (fun hspread => (hb hspread).of_parts (List.subset_cons_self _ _)) hp
      exact ⟨hleads, .inr rfl, hthis⟩
  | .index _ t a i, p, h, hb, hp => by
      obtain ⟨⟨ha, hta⟩, _⟩ := h
      obtain ⟨q, hq, rfl⟩ := Option.map_eq_some_iff.mp hp
      obtain ⟨hleads, htype, hthis⟩ := of?_leads ha (fun hspread => (hb hspread).of_parts
        fun x hx => List.mem_cons_of_mem _ (List.mem_append_left _ hx)) hq
      have htype : q.type = .array t := by simpa [hta, eq_comm] using htype
      exact ⟨hleads.step (htype ▸ Env.isAssignable_refl), .inl (Path.type_step ..).symm, hthis⟩
  | .call _ t site none id name args, p, _, _, hp => by
      rw [Path.of?] at hp
      split at hp <;> cases hp
  | .call _ t site (some o) id name args, p, h, hb, hp => by
      rw [Path.of?] at hp
      split at hp
      · next hempty =>
          obtain ⟨⟨ho, _⟩, m, hcall⟩ := h
          obtain ⟨q, hq, rfl⟩ := Option.map_eq_some_iff.mp hp
          obtain ⟨hleads, htype, hthis⟩ := of?_leads ho (fun hspread => (hb hspread).of_parts
            fun x hx => List.mem_cons_of_mem _ (List.mem_append_left _ hx)) hq
          obtain ⟨hstatic, c, hc, hsub⟩ := hcall.receiver o rfl
          have htype : q.type = .ofClass c := by simpa [hc, eq_comm] using htype
          have hkey : m.id = id := (hd.method_cases id m hcall.method).1
          have hparams : m.params = [] := by
            obtain rfl := List.isEmpty_iff.mp hempty
            simpa [MethodInfo.paramTypes, Typed.ArgsFit] using hcall.args
          exact ⟨hleads.step ⟨m, htype ▸ Env.isAssignable_ofClass hsub, hkey ▸ hcall.method,
            hstatic, hcall.isMethod, hcall.name, hparams, hcall.type⟩,
            .inl (Path.type_step ..).symm, hthis⟩
      · cases hp
  | .spread span a, p, h, hb, hp => by
      obtain ⟨hspread, ha⟩ := h
      obtain ⟨q, hq, rfl⟩ := Option.map_eq_some_iff.mp hp
      obtain ⟨hleads, htype, hthis⟩ :=
        of?_leads ha (fun hs => (hb hs).of_parts (List.subset_cons_self _ _)) hq
      have hta := (hb hspread).elem
      have htype : q.type = .array (Typed.Expr.spread span a).type := by
        simpa [hta, eq_comm] using htype
      exact ⟨hleads.step (htype ▸ Env.isAssignable_refl), .inl (Path.type_step ..).symm, hthis⟩
  | .int .., _, _, _, hp | .bool .., _, _, _, hp | .null .., _, _, _, hp
  | .binary .., _, _, _, hp | .unary .., _, _, _, hp | .new .., _, _, _, hp
  | .newArray .., _, _, _, hp | .old .., _, _, _, hp | .result .., _, _, _, hp
  | .slot .., _, _, _, hp => nomatch hp

end

/-! ## Targets and closed sets -/

/-- From a number no step leads on. -/
theorem stepsFit_int {env : Env} {steps : List (Step × Ty)} (h : StepsFit env .int steps) :
    steps = [] := by
  cases steps with
  | nil => rfl
  | cons x rest =>
      obtain ⟨step, t⟩ := x
      cases step with
      | field =>
          obtain ⟨c, f, ha, _⟩ := h.1
          exact absurd ha (by simp [Env.isAssignable_iff])
      | accessor =>
          obtain ⟨m, ha, _⟩ := h.1
          exact absurd ha (by simp [Env.isAssignable_iff])
      | elements => exact absurd h.1 (by simp [StepFits, Env.isAssignable_iff])

/-- Steps that go on where an expression leads that stands for their root. -/
theorem Path.Leads.from_ {env : Env} {base q : Path} (h : base.Leads env) {t : Ty}
    (ht : t = base.type ∨ t = .int) (ha : env.isAssignable t q.rootType = true)
    (hq : StepsFit env q.rootType q.steps) : (q.from_ base).Leads env := by
  rcases ht with rfl | rfl
  · exact h.append (hq.assign ha)
  · have hnone : q.steps = [] := stepsFit_int (hq.assign ha)
    exact h.append (hnone ▸ trivial)

section

variable {source : Program} (hp : source.WellFormed) {env : Env}
  (h : Typing.checkProgram source = .ok env) {m : MethodInfo} (hm : env.method? m.id = some m)

include hp h hm

/-- A target leads along from what the member is called with. -/
theorem stands_target {c : BoundClause} (hc : TargetFor env source.siteCount m c) {q : Path}
    (hq : Path.of? [] c.expr = some q) : q.Leads env ∧ q.Rooted env m := by
  have hdecl := Env.declaredBy_of_check hp h
  obtain ⟨r, howner, htag, ht⟩ := hc
  obtain ⟨s, hs, hfits, hspread⟩ := ht.fits hp h
  obtain ⟨d, hd, rfl⟩ := Contract.method_of_scope (by simp [htag]) hs
  obtain ⟨d', hd', htyped⟩ := rootTyped_of_target ht htag hq
  obtain rfl := Option.some.inj (hd.symm.trans hd')
  obtain ⟨hleads, _, hthis⟩ :=
    of?_leads hdecl hfits (fun _ x hx => List.findSome?_eq_none_iff.mp hspread x hx) hq
  -- Where the target is written, the receiver is known by a type above that of the member.
  have hinherits := hdecl.inheritsFrom hm hd howner
  refine ⟨hleads, ?_⟩
  rw [Path.RootTyped] at htyped
  rw [Path.Rooted]
  cases hroot : q.root with
  | this =>
      rw [hroot] at htyped
      have hdstatic : d.isStatic = false := by
        simpa [Contract.ClauseScope.context] using hthis hroot
      exact ⟨hinherits.isStatic ▸ hdstatic, d.owner, htyped, hinherits.owner⟩
  | param i =>
      rw [hroot] at htyped
      exact hinherits.paramTypes ▸ htyped
  | static c => trivial

/-- What a call mutates leads along from what the member is called with, if what its callee mutates
does. -/
theorem stands_call {site : CallSite} (hsite : site ∈ env.callSitesOf m.id) {s : Specification}
    {receiver : Path} (hr : licensedReceiver? m s site = some receiver) {callee : List Path}
    (hcallee : ∀ m', env.method? m'.id = some m' → m'.id = site.callee →
      ∀ q ∈ callee, q.Leads env ∧ q.Rooted env m')
    {q : Path} (hq : q ∈ callTargets m site receiver callee) :
    q.Leads env ∧ q.Rooted env m := by
  have hdecl := Env.declaredBy_of_check hp h
  have htyped := rootTyped_of_call hp h hm hsite hr hq
  have hfit := Typing.fitsIn_method hp h hm hsite
  obtain ⟨q₀, hq₀, hq⟩ := List.mem_filterMap.mp hq
  obtain ⟨hkind, ⟨o, ho, hpath⟩, _⟩ := licensedReceiver?_eq_some.mp hr
  obtain ⟨locals, ⟨hreceiver, hargs⟩, m', t, name, hcall⟩ := hfit.call hkind
  have hkey : m'.id = site.callee := (hdecl.method_cases _ m' hcall.method).1
  obtain ⟨hleads₀, hroot₀⟩ := hcallee m' (hkey ▸ hcall.method) hkey q₀ hq₀
  have rooted (hthis : q.root = .this → m.isStatic = false) : q.Rooted env m := by
    rw [Path.RootTyped] at htyped
    rw [Path.Rooted]
    cases hroot : q.root with
    | this => exact ⟨hthis hroot, m.owner, by simpa [hroot] using htyped, Env.isSubtype_refl⟩
    | param i => simpa [hroot] using htyped
    | static c => trivial
  rw [Path.substitute] at hq
  rw [Path.Leads] at hleads₀
  rw [Path.Rooted] at hroot₀
  split at hq
  · -- Along the receiver.
    next hroot =>
      cases hq
      rw [hroot] at hleads₀ hroot₀
      obtain ⟨_, c, htype, hsub⟩ := hroot₀
      rw [ho] at hreceiver
      obtain ⟨_, d, hd, hsub'⟩ := hcall.receiver o ho
      obtain ⟨hleads, htypes, hthis⟩ := of?_leads hdecl hreceiver (fun hs => by cases hs) hpath
      refine ⟨hleads.from_ htypes ?_ hleads₀, rooted fun hq => ?_⟩
      · rw [hd, htype]
        exact Env.isAssignable_ofClass (Env.isSubtype_trans hsub' hsub)
      · simpa [Context.ofBody] using hthis hq
  · -- Along an argument.
    next i hroot =>
      obtain ⟨base, hbase, rfl⟩ := Option.map_eq_some_iff.mp hq
      rw [hroot] at hleads₀ hroot₀
      have harg := Option.join_eq_some_iff.mp hbase
      rw [List.getElem?_map, Option.map_eq_some_iff] at harg
      obtain ⟨e, he, hpath⟩ := harg
      obtain ⟨hleads, htypes, hthis⟩ :=
        of?_leads hdecl (Typed.Expr.fits_of_mem hargs (List.mem_of_getElem? he))
          (fun hs => by cases hs) hpath
      refine ⟨hleads.from_ htypes (Typed.ArgsFit.getElem? hcall.args he hroot₀) hleads₀, rooted fun hq => ?_⟩
      simpa [Context.ofBody] using hthis hq
  · next c hroot =>
      cases hq
      refine ⟨?_, rooted fun hq => absurd (hroot.symm.trans hq) (by simp)⟩
      rw [Path.Leads]
      exact hleads₀

end

section

variable {source : Program} (hp : source.WellFormed) {env : Env}
  (h : Typing.checkProgram source = .ok env)

include hp h

/-- Every path of the closed set of a member leads along from what the member is called with. -/
theorem stands_closureFrom {specs : Table DeclId Specification}
    {classes : Table DeclId EffectClass}
    (htargets : TargetsWritten env source.siteCount specs)
    {n : Nat} {visiting : List DeclId} {m : MethodInfo} (hm : env.method? m.id = some m) {q : Path}
    (hq : q ∈ closureFrom env specs classes n visiting m.id) :
    q.Leads env ∧ q.Rooted env m := by
  induction n generalizing visiting m q with
  | zero => exact absurd hq List.not_mem_nil
  | succ n ih =>
      obtain ⟨_, m', s, ⟨⟩, _, _, hm', hs, hq⟩ := closureFrom_cases hq
      obtain rfl := Option.some.inj (hm.symm.trans hm')
      obtain hq | ⟨site, hsite, receiver, hr, hq⟩ := hq
      · rcases List.mem_append.mp hq with hq | hq
        · -- The new object of a constructor.
          split at hq
          · next hctor =>
              obtain rfl := List.mem_singleton.mp hq
              have hd := Env.declaredBy_of_check hp h
              obtain ⟨info, hi, hid⟩ := hd.type_of_constructor hm hctor
              obtain ⟨m', hm', _, _, hstatic, _⟩ := hd.constructor_of_type hi hid
              obtain rfl := Option.some.inj (hm.symm.trans hm')
              exact ⟨trivial, hstatic, m.owner, rfl, Env.isSubtype_refl⟩
          · exact absurd hq List.not_mem_nil
        · obtain ⟨c, hc, hpath⟩ := List.mem_filterMap.mp hq
          exact stands_target hp h hm (htargets m s hm hs c hc) hpath
      · refine stands_call hp h hm hsite hr (fun m' hm' hkey q hq => ?_) hq
        exact ih hm' (hkey ▸ hq)

end

/-! ## Where paths lead to is of one type -/

section

variable {source : Program} {env : Env} (hd : env.DeclaredBy source)

include hd

/-- A field of a type, and the elements of an array, are of one type. -/
theorem stepFits_unique {s t t' : Ty} (hs : s.Stored) {step : Step}
    (hstep : ∀ name, step ≠ .accessor name) (h : StepFits env s step t)
    (h' : StepFits env s step t') : t = t' ∧ t.Stored := by
  cases step with
  | accessor name => exact absurd rfl (hstep name)
  | elements =>
      have elem {t : Ty} (h : StepFits env s .elements t) : s = .array t := by
        rcases Env.isAssignable_iff.mp h with rfl | ⟨rfl, _⟩ | ⟨_, _, _, ht, _⟩
        · rfl
        · exact hs.elim
        · cases ht
      obtain rfl := elem h
      exact ⟨Ty.array.inj (elem h'), hs⟩
  | field name =>
      have field {t : Ty} (h : StepFits env s (.field name) t) : ∃ c f, s = .ofClass c ∧
          env.lookupField? c name = some f ∧ f.type = t := by
        obtain ⟨c, f, ha, hf, _, rfl⟩ := h
        rcases Env.isAssignable_iff.mp ha with rfl | ⟨rfl, _⟩ | ⟨a, b, rfl, hb, hsub⟩
        · exact ⟨c, f, rfl, hf, rfl⟩
        · exact hs.elim
        · cases hb
          exact ⟨a, f, rfl, hd.lookupField?_mono hsub hf, rfl⟩
      obtain ⟨c, f, rfl, hf, rfl⟩ := field h
      obtain ⟨_, f', heq, hf', rfl⟩ := field h'
      cases heq
      obtain rfl := Option.some.inj (hf.symm.trans hf')
      exact ⟨rfl, hd.stored_of_mem_fieldsOf (Env.mem_of_lookupField? hf).1⟩

/-- Along fields and elements, steps of one trail have the same types. -/
theorem stepsFit_unique {s : Ty} (hs : s.Stored) {steps steps' : List (Step × Ty)}
    (htrail : steps.map (·.1) = steps'.map (·.1))
    (hsteps : ∀ name, .accessor name ∉ steps.map (·.1)) (h : StepsFit env s steps)
    (h' : StepsFit env s steps') : steps = steps' := by
  induction steps generalizing s steps' with
  | nil => exact (List.map_eq_nil_iff.mp htrail.symm).symm
  | cons x steps ih =>
      cases steps' with
      | nil => cases htrail
      | cons x' steps' =>
          obtain ⟨step, t⟩ := x
          obtain ⟨step', t'⟩ := x'
          obtain ⟨hhead, htail⟩ := List.cons.inj htrail
          obtain rfl : step = step' := hhead
          obtain ⟨rfl, ht⟩ := stepFits_unique hd hs
            (fun name heq => hsteps name (heq ▸ List.mem_cons_self)) h.1 h'.1
          rw [ih ht htail (fun name hin => hsteps name (List.mem_cons_of_mem _ hin)) h.2 h'.2]

/-- Two paths that are the same lead to one type, if they go along fields and elements and not only
to `this`, which may be known by several types. -/
theorem type_unique {m : MethodInfo} (hm : env.method? m.id = some m) {p q : Path}
    (hsame : p.same q = true) (hfits : p.Fits env m) (hroot : p.Rooted env m)
    (hfits' : q.Fits env m) (hroot' : q.Rooted env m)
    (hsteps : ∀ name, .accessor name ∉ p.trail) (hthis : p.root = .this → p.trail ≠ []) :
    p.type = q.type := by
  obtain ⟨root, rootType, steps⟩ := p
  obtain ⟨root', rootType', steps'⟩ := q
  obtain ⟨heq, htrail⟩ := Path.same_iff.mp hsame
  obtain rfl : root = root' := heq
  have htrail : steps.map (·.1) = steps'.map (·.1) := htrail
  cases root with
  | this =>
      obtain ⟨_, ha, hfits⟩ := hfits
      obtain ⟨_, ha', hfits'⟩ := hfits'
      obtain rfl : steps = steps' := stepsFit_unique hd (s := .ofClass m.owner) trivial htrail
        hsteps (hfits.assign ha) (hfits'.assign ha')
      cases steps with
      | nil => exact absurd rfl (hthis rfl)
      | cons x rest => simp [Path.type, List.getLast?_cons]
  | param i =>
      have hroot : m.paramTypes[i]? = some rootType := hroot
      obtain rfl : rootType = rootType' := Option.some.inj (hroot.symm.trans hroot')
      have hstored : rootType.Stored := by
        obtain ⟨x, hx, rfl⟩ := List.mem_map.mp (List.mem_of_getElem? hroot)
        exact (hd.params_cases hm).2 x hx
      obtain rfl : steps = steps' := stepsFit_unique hd hstored htrail hsteps hfits.2 hfits'.2
      rfl
  | static c =>
      obtain ⟨hvoid, hfirst⟩ := hfits
      obtain ⟨hvoid', hfirst'⟩ := hfits'
      obtain rfl : rootType = rootType' := hvoid.trans hvoid'.symm
      cases steps with
      | nil =>
          obtain rfl : steps' = [] := List.map_eq_nil_iff.mp htrail.symm
          rfl
      | cons x rest =>
          cases steps' with
          | nil => cases htrail
          | cons x' rest' =>
              obtain ⟨step, t⟩ := x
              obtain ⟨step', t'⟩ := x'
              obtain ⟨hhead, htail⟩ := List.cons.inj htrail
              obtain rfl : step = step' := hhead
              obtain ⟨⟨name, f, rfl, hf, _, rfl⟩, hrest⟩ := hfirst _ _ _ rfl
              obtain ⟨⟨_, f', heq, hf', _, rfl⟩, hrest'⟩ := hfirst' _ _ _ rfl
              cases heq
              obtain rfl := Option.some.inj (hf.symm.trans hf')
              obtain rfl : rest = rest' :=
                stepsFit_unique hd (hd.stored_of_mem_fieldsOf (Env.mem_of_lookupField? hf).1) htail
                  (fun name hin => hsteps name (List.mem_cons_of_mem _ hin)) hrest hrest'
              rfl

end

end Effect

end Covenant
