import Covenant.Typing.Program
import Covenant.Proofs.Elaborated

/-!
# What typing makes of a body

The rules for statements go with those for expressions: `ElabStmt k s c t s' cs`
says that in the scope `s` of a body of kind `k` the statement `c` means `t`,
that the statements behind it stand in the scope `s'`, and that `cs` are its
calls. A property of typed bodies is again proved by going through the rules.
-/

namespace Covenant.Typing

open Surface (Block Handler)

mutual

inductive ElabStmt (k : BodyKind) :
    Scope → Surface.Stmt → Typed.Stmt → Scope → List CallSite → Prop
  | declare {s span type type' name} (ht : s.env.resolveType type = .ok type')
      (hf : s.local? name.val = none) :
      ElabStmt k s (.declare span type name none) (.declare span type' name.val none)
        (s.add name.val type') []
  | declareInit {s span type type' name v v' cs} (ht : s.env.resolveType type = .ok type')
      (hv : Elab s v v' cs) (ha : s.env.isAssignable v'.type type' = true)
      (hf : s.local? name.val = none) :
      ElabStmt k s (.declare span type name (some v)) (.declare span type' name.val (some v'))
        (s.add name.val type') cs
  | setVar {s span target v v' tspan type name cs ds} (hv : Elab s v v' cs)
      (ht : Elab s target (.var tspan type name) ds)
      (ha : s.env.isAssignable v'.type type = true) :
      ElabStmt k s (.assign span target v) (.setVar span name v') s (cs ++ ds)
  | setField {s span target v v' tspan type o name cs ds} (hv : Elab s v v' cs)
      (ht : Elab s target (.field tspan type o name) ds)
      (ha : s.env.isAssignable v'.type type = true) :
      ElabStmt k s (.assign span target v) (.setField span o name v') s (cs ++ ds)
  | setStatic {s span target v v' tspan type c name cs ds} (hv : Elab s v v' cs)
      (ht : Elab s target (.staticField tspan type c name) ds)
      (ha : s.env.isAssignable v'.type type = true) :
      ElabStmt k s (.assign span target v) (.setStatic span c name v') s (cs ++ ds)
  | setIndex {s span target v v' tspan type a i cs ds} (hv : Elab s v v' cs)
      (ht : Elab s target (.index tspan type a i) ds)
      (ha : s.env.isAssignable v'.type type = true) :
      ElabStmt k s (.assign span target v) (.setIndex span a i v') s (cs ++ ds)
  | expr {s span e e' cs} (he : Elab s e e' cs) :
      ElabStmt k s (.expr span e) (.expr span e') s cs
  | branch {s s₁ span c c' a a' b b' cs ds es} (hc : Elab s c c' cs)
      (ht : s.env.isAssignable c'.type .boolean = true) (ha : ElabStmt k s a a' s₁ ds)
      (hb : ElabElse k s b b' es) :
      ElabStmt k s (.branch span c a b) (.branch span c' a' b') s (cs ++ ds ++ es)
  | loop {s s₁ span c c' b b' cs ds} (hc : Elab s c c' cs)
      (ht : s.env.isAssignable c'.type .boolean = true) (hb : ElabStmt k s b b' s₁ ds) :
      ElabStmt k s (.loop span c b) (.loop span c' b') s (cs ++ ds)
  | retVoid {s span} (hk : k.returnType = .void) :
      ElabStmt k s (.ret span none) (.ret span none) s []
  | ret {s span v v' cs} (hk : k.returnType ≠ .void) (hv : Elab s v v' cs)
      (ha : s.env.isAssignable v'.type k.returnType = true) :
      ElabStmt k s (.ret span (some v)) (.ret span (some v')) s cs
  | throw {s span v v' c cs} (hv : Elab s v v' cs) (ht : v'.type = .ofClass c)
      (he : s.env.isException c = true) :
      ElabStmt k s (.throw span v) (.throw span v') s cs
  | attempt {s span body body' handlers handlers' cleanup cleanup' cs ds es}
      (hb : ElabStmts k s body.stmts body' cs) (hh : ElabHandlers k s handlers handlers' ds)
      (hc : ElabCleanup k s cleanup cleanup' es) :
      ElabStmt k s (.attempt span body handlers cleanup) (.attempt span body' handlers' cleanup') s
        (cs ++ ds ++ es)
  | block {s span body body' cs} (hb : ElabStmts k s body.stmts body' cs) :
      ElabStmt k s (.block span body) (.block span body') s cs

inductive ElabElse (k : BodyKind) :
    Scope → Option Surface.Stmt → Option Typed.Stmt → List CallSite → Prop
  | none {s} : ElabElse k s none none []
  | some {s s₁ b b' cs} (hb : ElabStmt k s b b' s₁ cs) : ElabElse k s (some b) (some b') cs

inductive ElabStmts (k : BodyKind) :
    Scope → List Surface.Stmt → List Typed.Stmt → List CallSite → Prop
  | nil {s} : ElabStmts k s [] [] []
  | cons {s s₁ c c' rest rest' cs ds} (hc : ElabStmt k s c c' s₁ cs)
      (hr : ElabStmts k s₁ rest rest' ds) :
      ElabStmts k s (c :: rest) (c' :: rest') (cs ++ ds)

inductive ElabCleanup (k : BodyKind) :
    Scope → Option Block → Option (List Typed.Stmt) → List CallSite → Prop
  | none {s} : ElabCleanup k s none none []
  | some {s b b' cs} (hb : ElabStmts k s b.stmts b' cs) : ElabCleanup k s (some b) (some b') cs

inductive ElabHandlers (k : BodyKind) :
    Scope → List Handler → List Typed.Handler → List CallSite → Prop
  | nil {s} : ElabHandlers k s [] [] []
  | cons {s c var body body' rest rest' cs ds} (he : s.env.isException c.val = true)
      (hf : s.local? var.val = none)
      (hb : ElabStmts k (s.add var.val (.ofClass c.val)) body.stmts body' cs)
      (hr : ElabHandlers k s rest rest' ds) :
      ElabHandlers k s (.mk c var body :: rest) (.mk c.val var.val body' :: rest') (cs ++ ds)

end

/-- The rules for a whole body. Only the first statement of a constructor calls one of the
superclass. -/
inductive ElabBody (k : BodyKind) (s : Scope) :
    List Surface.Stmt → List Typed.Stmt → List CallSite → Prop
  | plain {stmts stmts' cs} (hs : ElabStmts k s stmts stmts' cs) : ElabBody k s stmts stmts' cs
  | super {span site args args' info superclass ctor rest rest' cs ds}
      (hk : k.isConstructor = true) (hc : s.env.class? s.className = some info)
      (hi : info.superclass = some superclass) (ha : ElabAll s args args' cs)
      (hm : selectOverload? s.env (s.env.constructors superclass) (args'.map (·.type)) = some ctor)
      (hr : ElabStmts k s rest rest' ds) :
      ElabBody k s (.superCall span site args :: rest) (.superCall span site ctor.id args' :: rest')
        (cs ++ [⟨site, s.decl, ctor.id, .super, some (s.thisExpr span), args', span⟩] ++ ds)

/-! ## The steps of the checker -/

section

variable {k : BodyKind} {s : Scope} {acc acc' : List CallSite}

theorem bodyExpr_elab (hs : s.clause = none) {e : Surface.Expr} {t : Typed.Expr}
    (h : checkExpr s e acc = .ok (t, acc')) : ∃ cs, Elab s e t cs ∧ acc' = acc ++ cs := by
  obtain ⟨cs, he, rfl⟩ := checkExpr_elab h
  exact ⟨cs, he, by simp [written, hs]⟩

theorem bodyArgs_elab (hs : s.clause = none) {es : List Surface.Expr} {ts : List Typed.Expr}
    (h : checkArgs s es acc = .ok (ts, acc')) : ∃ cs, ElabAll s es ts cs ∧ acc' = acc ++ cs := by
  obtain ⟨cs, he, rfl⟩ := checkArgs_elab h
  exact ⟨cs, he, by simp [written, hs]⟩

theorem resolveType_ok {t : Surface.TypeExpr} {type : Ty}
    (h : resolveType s t acc = .ok (type, acc')) :
    s.env.resolveType t = .ok type ∧ acc' = acc := by
  cases hr : s.env.resolveType t with
  | error fault => exact absurd h (by simp [resolveType, hr]; rintro ⟨⟩)
  | ok type' =>
      rw [resolveType, hr] at h
      cases h
      exact ⟨rfl, rfl⟩

theorem requireFresh_ok {name : Located String} (h : requireFresh s name acc = .ok ((), acc')) :
    s.local? name.val = none ∧ acc' = acc := by
  rw [requireFresh] at h
  split at h
  · exact absurd h check_fail
  · next hf =>
      cases h
      exact ⟨by simpa using hf, rfl⟩

theorem checkCondition_elab (hs : s.clause = none) {e : Surface.Expr} {t : Typed.Expr}
    (h : checkCondition s e acc = .ok (t, acc')) :
    ∃ cs, Elab s e t cs ∧ s.env.isAssignable t.type .boolean = true ∧ acc' = acc ++ cs := by
  obtain ⟨t', _, he, h₁⟩ := stateT_bind.mp h
  obtain ⟨_, _, ht, hend⟩ := stateT_bind.mp h₁
  obtain ⟨cs, ee, rfl⟩ := bodyExpr_elab hs he
  obtain ⟨et, rfl⟩ := requireType_ok ht
  cases hend
  exact ⟨cs, ee, et, rfl⟩

theorem checkAssign_elab (hs : s.clause = none) {span : Span} {target v : Surface.Expr}
    {t : Typed.Stmt} (h : checkAssign s span target v acc = .ok (t, acc')) :
    ∃ cs, ElabStmt k s (.assign span target v) t s cs ∧ acc' = acc ++ cs := by
  obtain ⟨v', _, hv, h₁⟩ := stateT_bind.mp h
  obtain ⟨target', _, ht, h₂⟩ := stateT_bind.mp h₁
  obtain ⟨_, _, hr, h₃⟩ := stateT_bind.mp h₂
  obtain ⟨cs, ev, rfl⟩ := bodyExpr_elab hs hv
  obtain ⟨ds, et, rfl⟩ := bodyExpr_elab hs ht
  obtain ⟨ea, rfl⟩ := requireType_ok hr
  cases target' with
  | var =>
      cases h₃
      exact ⟨cs ++ ds, .setVar ev et ea, List.append_assoc ..⟩
  | field =>
      cases h₃
      exact ⟨cs ++ ds, .setField ev et ea, List.append_assoc ..⟩
  | staticField =>
      cases h₃
      exact ⟨cs ++ ds, .setStatic ev et ea, List.append_assoc ..⟩
  | index =>
      cases h₃
      exact ⟨cs ++ ds, .setIndex ev et ea, List.append_assoc ..⟩
  | _ => exact absurd h₃ check_fail

theorem checkReturn_elab (hs : s.clause = none) {span : Span} {v : Option Surface.Expr}
    {t : Typed.Stmt} (h : checkReturn s span k.returnType v acc = .ok (t, acc')) :
    ∃ cs, ElabStmt k s (.ret span v) t s cs ∧ acc' = acc ++ cs := by
  cases v with
  | none =>
      by_cases hk : k.returnType = .void
      · simp only [checkReturn, hk] at h
        cases h
        exact ⟨[], .retVoid hk, (List.append_nil _).symm⟩
      · simp only [checkReturn] at h
        exact absurd h check_fail
  | some v =>
      by_cases hk : k.returnType = .void
      · simp only [checkReturn, hk] at h
        exact absurd h check_fail
      · obtain ⟨v', _, hv, h₁⟩ := stateT_bind.mp (checkReturn.eq_4 s span k.returnType v hk ▸ h)
        obtain ⟨_, _, ht, hend⟩ := stateT_bind.mp h₁
        obtain ⟨cs, ev, rfl⟩ := bodyExpr_elab hs hv
        obtain ⟨et, rfl⟩ := requireType_ok ht
        cases hend
        exact ⟨cs, .ret hk ev et, rfl⟩

theorem checkThrow_elab (hs : s.clause = none) {span : Span} {v : Surface.Expr} {t : Typed.Stmt}
    (h : checkThrow s span v acc = .ok (t, acc')) :
    ∃ cs, ElabStmt k s (.throw span v) t s cs ∧ acc' = acc ++ cs := by
  obtain ⟨v', _, hv, h₁⟩ := stateT_bind.mp h
  obtain ⟨cs, ev, rfl⟩ := bodyExpr_elab hs hv
  split at h₁
  · next he =>
      cases h₁
      cases ht : v'.type with
      | ofClass c =>
          rw [ht] at he
          exact ⟨cs, .throw ev ht (by simpa [Ty.className?] using he), rfl⟩
      | _ => simp [ht, Ty.className?] at he
  · exact absurd h₁ check_fail

theorem checkDeclare_elab (hs : s.clause = none) {span : Span} {type : Surface.TypeExpr}
    {name : Located String} {v : Option Surface.Expr} {t : Typed.Stmt} {s' : Scope}
    (h : checkDeclare s span type name v acc = .ok ((t, s'), acc')) :
    ∃ cs, ElabStmt k s (.declare span type name v) t s' cs ∧ acc' = acc ++ cs ∧
      s'.clause = none := by
  obtain ⟨type', _, ht, h₁⟩ := stateT_bind.mp h
  obtain ⟨et, rfl⟩ := resolveType_ok ht
  cases v with
  | none =>
      obtain ⟨_, _, hpure, h₂⟩ := stateT_bind.mp h₁
      cases hpure
      obtain ⟨_, _, hf, hend⟩ := stateT_bind.mp h₂
      obtain ⟨ef, rfl⟩ := requireFresh_ok hf
      cases hend
      exact ⟨[], .declare et ef, (List.append_nil _).symm, hs⟩
  | some v =>
      obtain ⟨v', _, hv, h₂⟩ := stateT_bind.mp h₁
      obtain ⟨_, _, ha, h₃⟩ := stateT_bind.mp h₂
      obtain ⟨_, _, hpure, h₄⟩ := stateT_bind.mp h₃
      cases hpure
      obtain ⟨_, _, hf, hend⟩ := stateT_bind.mp h₄
      obtain ⟨cs, ev, rfl⟩ := bodyExpr_elab hs hv
      obtain ⟨ea, rfl⟩ := requireType_ok ha
      obtain ⟨ef, rfl⟩ := requireFresh_ok hf
      cases hend
      exact ⟨cs, .declareInit et ev ea ef, rfl, hs⟩

end

/-! ## The checker follows the rules -/

mutual

theorem checkStmt_elab {k : BodyKind} {s s' : Scope} {acc acc' : List CallSite}
    {c : Surface.Stmt} {t : Typed.Stmt} (hs : s.clause = none)
    (h : checkStmt k s c acc = .ok ((t, s'), acc')) :
    ∃ cs, ElabStmt k s c t s' cs ∧ acc' = acc ++ cs ∧ s'.clause = none := by
  match c with
  | .declare span type name v => exact checkDeclare_elab hs h
  | .assign span target v =>
      obtain ⟨t', _, ha, hend⟩ := stateT_bind.mp h
      obtain ⟨cs, ea, rfl⟩ := checkAssign_elab hs ha
      cases hend
      exact ⟨cs, ea, rfl, hs⟩
  | .expr span e =>
      obtain ⟨e', _, he, hend⟩ := stateT_bind.mp h
      obtain ⟨cs, ee, rfl⟩ := bodyExpr_elab hs he
      cases hend
      exact ⟨cs, .expr ee, rfl, hs⟩
  | .branch span c a b =>
      obtain ⟨c', _, hc, h₁⟩ := stateT_bind.mp h
      obtain ⟨⟨a', s₁⟩, _, ha, h₂⟩ := stateT_bind.mp h₁
      obtain ⟨b', _, hb, hend⟩ := stateT_bind.mp h₂
      obtain ⟨cs, ec, et, rfl⟩ := checkCondition_elab hs hc
      obtain ⟨ds, ea, rfl, _⟩ := checkStmt_elab hs ha
      obtain ⟨es, eb, rfl⟩ := checkElse_elab hs hb
      cases hend
      exact ⟨cs ++ ds ++ es, .branch ec et ea eb, by simp, hs⟩
  | .loop span c b =>
      obtain ⟨c', _, hc, h₁⟩ := stateT_bind.mp h
      obtain ⟨⟨b', s₁⟩, _, hb, hend⟩ := stateT_bind.mp h₁
      obtain ⟨cs, ec, et, rfl⟩ := checkCondition_elab hs hc
      obtain ⟨ds, eb, rfl, _⟩ := checkStmt_elab hs hb
      cases hend
      exact ⟨cs ++ ds, .loop ec et eb, by simp, hs⟩
  | .ret span v =>
      obtain ⟨t', _, hr, hend⟩ := stateT_bind.mp h
      obtain ⟨cs, er, rfl⟩ := checkReturn_elab hs hr
      cases hend
      exact ⟨cs, er, rfl, hs⟩
  | .throw span v =>
      obtain ⟨t', _, hv, hend⟩ := stateT_bind.mp h
      obtain ⟨cs, ev, rfl⟩ := checkThrow_elab hs hv
      cases hend
      exact ⟨cs, ev, rfl, hs⟩
  | .superCall .. => exact absurd h check_fail
  | .attempt span body handlers cleanup =>
      obtain ⟨body', _, hb, h₁⟩ := stateT_bind.mp h
      obtain ⟨handlers', _, hh, h₂⟩ := stateT_bind.mp h₁
      obtain ⟨cleanup', _, hc, hend⟩ := stateT_bind.mp h₂
      obtain ⟨cs, eb, rfl⟩ := checkBlock_elab hs hb
      obtain ⟨ds, eh, rfl⟩ := checkHandlers_elab hs hh
      obtain ⟨es, ec, rfl⟩ := checkCleanup_elab hs hc
      cases hend
      exact ⟨cs ++ ds ++ es, .attempt eb eh ec, by simp, hs⟩
  | .block span body =>
      obtain ⟨body', _, hb, hend⟩ := stateT_bind.mp h
      obtain ⟨cs, eb, rfl⟩ := checkBlock_elab hs hb
      cases hend
      exact ⟨cs, .block eb, rfl, hs⟩

theorem checkElse_elab {k : BodyKind} {s : Scope} {acc acc' : List CallSite}
    {c : Option Surface.Stmt} {t : Option Typed.Stmt} (hs : s.clause = none)
    (h : checkElse k s c acc = .ok (t, acc')) : ∃ cs, ElabElse k s c t cs ∧ acc' = acc ++ cs := by
  match c with
  | none =>
      cases h
      exact ⟨[], .none, (List.append_nil _).symm⟩
  | some c =>
      obtain ⟨⟨t', s₁⟩, _, hc, hend⟩ := stateT_bind.mp h
      obtain ⟨cs, ec, rfl, _⟩ := checkStmt_elab hs hc
      cases hend
      exact ⟨cs, .some ec, rfl⟩

theorem checkBlock_elab {k : BodyKind} {s : Scope} {acc acc' : List CallSite} {b : Block}
    {ts : List Typed.Stmt} (hs : s.clause = none) (h : checkBlock k s b acc = .ok (ts, acc')) :
    ∃ cs, ElabStmts k s b.stmts ts cs ∧ acc' = acc ++ cs := by
  match b with
  | .mk _ stmts => exact checkStmts_elab hs h

theorem checkCleanup_elab {k : BodyKind} {s : Scope} {acc acc' : List CallSite}
    {b : Option Block} {t : Option (List Typed.Stmt)} (hs : s.clause = none)
    (h : checkCleanup k s b acc = .ok (t, acc')) :
    ∃ cs, ElabCleanup k s b t cs ∧ acc' = acc ++ cs := by
  match b with
  | none =>
      cases h
      exact ⟨[], .none, (List.append_nil _).symm⟩
  | some b =>
      obtain ⟨ts, _, hb, hend⟩ := stateT_bind.mp h
      obtain ⟨cs, eb, rfl⟩ := checkBlock_elab hs hb
      cases hend
      exact ⟨cs, .some eb, rfl⟩

theorem checkHandlers_elab {k : BodyKind} {s : Scope} {acc acc' : List CallSite}
    {hs : List Handler} {ts : List Typed.Handler} (hc : s.clause = none)
    (h : checkHandlers k s hs acc = .ok (ts, acc')) :
    ∃ cs, ElabHandlers k s hs ts cs ∧ acc' = acc ++ cs := by
  match hs with
  | [] =>
      cases h
      exact ⟨[], .nil, (List.append_nil _).symm⟩
  | .mk c var body :: rest =>
      obtain ⟨t, _, hh, h₁⟩ := stateT_bind.mp h
      obtain ⟨ts', _, hr, hend⟩ := stateT_bind.mp h₁
      cases hend
      simp only [checkHandler] at hh
      cases he : s.env.isException c.val with
      | false =>
          simp only [he, Bool.not_false, if_true] at hh
          obtain ⟨_, _, hfail, _⟩ := stateT_bind.mp hh
          exact absurd hfail check_fail
      | true =>
          simp only [he, Bool.not_true, Bool.false_eq_true, if_false] at hh
          obtain ⟨_, _, hf, h₂⟩ := stateT_bind.mp hh
          obtain ⟨body', _, hb, hend⟩ := stateT_bind.mp h₂
          obtain ⟨ef, rfl⟩ := requireFresh_ok hf
          obtain ⟨cs, eb, rfl⟩ := checkBlock_elab (s := s.add var.val (.ofClass c.val)) hc hb
          cases hend
          obtain ⟨ds, er, rfl⟩ := checkHandlers_elab hc hr
          exact ⟨cs ++ ds, .cons he ef eb er, List.append_assoc ..⟩

theorem checkStmts_elab {k : BodyKind} {s : Scope} {acc acc' : List CallSite}
    {cs : List Surface.Stmt} {ts : List Typed.Stmt} (hs : s.clause = none)
    (h : checkStmts k s cs acc = .ok (ts, acc')) :
    ∃ ds, ElabStmts k s cs ts ds ∧ acc' = acc ++ ds := by
  match cs with
  | [] =>
      cases h
      exact ⟨[], .nil, (List.append_nil _).symm⟩
  | c :: rest =>
      obtain ⟨⟨t, s₁⟩, _, hc, h₁⟩ := stateT_bind.mp h
      obtain ⟨ts', _, hr, hend⟩ := stateT_bind.mp h₁
      obtain ⟨ds, ec, rfl, hs₁⟩ := checkStmt_elab hs hc
      obtain ⟨es, er, rfl⟩ := checkStmts_elab hs₁ hr
      cases hend
      exact ⟨ds ++ es, .cons ec er, List.append_assoc ..⟩

end

theorem checkSuperCall_elab {s : Scope} {acc acc' : List CallSite} (hs : s.clause = none)
    {span : Span} {site : SiteId} {args : List Surface.Expr} {t : Typed.Stmt}
    (h : checkSuperCall s span site args acc = .ok (t, acc')) :
    ∃ info superclass ctor args' cs, s.env.class? s.className = some info ∧
      info.superclass = some superclass ∧ ElabAll s args args' cs ∧
      selectOverload? s.env (s.env.constructors superclass) (args'.map (·.type)) = some ctor ∧
      t = .superCall span site ctor.id args' ∧
      acc' = acc ++ (cs ++ [⟨site, s.decl, ctor.id, .super, some (s.thisExpr span), args', span⟩]) := by
  cases hsup : (s.env.class? s.className).bind (·.superclass) with
  | none =>
      simp only [checkSuperCall, hsup] at h
      exact absurd h check_fail
  | some superclass =>
      simp only [checkSuperCall, hsup] at h
      obtain ⟨info, hc, hi⟩ := Option.bind_eq_some_iff.mp hsup
      obtain ⟨args', _, ha, h₁⟩ := stateT_bind.mp h
      obtain ⟨ctor, _, hm, h₂⟩ := stateT_bind.mp h₁
      obtain ⟨_, _, hr, hend⟩ := stateT_bind.mp h₂
      obtain ⟨cs, ea, rfl⟩ := bodyArgs_elab hs ha
      obtain ⟨em, rfl⟩ := selectOverload_ok hm
      obtain rfl := record_ok hr
      cases hend
      exact ⟨info, superclass, ctor, args', cs, hc, hi, ea, em, rfl, by simp [written, hs]⟩

/-- A body follows the rules, and if it has to return a value then it does not run off its end. -/
theorem checkBody_elab {k : BodyKind} {s : Scope} {acc acc' : List CallSite} {b : Block}
    {ts : List Typed.Stmt} (hs : s.clause = none) (h : checkBody k s b acc = .ok (ts, acc')) :
    ∃ cs, ElabBody k s b.stmts ts cs ∧ (k.returnType = .void ∨ Typed.exitsAll ts = true) ∧
      acc' = acc ++ cs := by
  have last {stmts : List Typed.Stmt} {acc₁ : List CallSite}
      (h : (do
        if k.returnType != .void && !Typed.exitsAll stmts then
          fail (.missingReturn k.returnType) ⟨b.span.stop - 1, b.span.stop⟩
        return stmts : Check (List Typed.Stmt)) acc₁ = .ok (ts, acc')) :
      ts = stmts ∧ (k.returnType = .void ∨ Typed.exitsAll ts = true) ∧ acc' = acc₁ := by
    split at h
    · obtain ⟨_, _, hfail, _⟩ := stateT_bind.mp h
      exact absurd hfail check_fail
    · next hr =>
        cases h
        refine ⟨rfl, ?_, rfl⟩
        by_cases hk : k.returnType = .void
        · exact .inl hk
        · exact .inr (by simpa [hk] using hr)
  rw [checkBody.eq_def] at h
  split at h
  · next span site args rest heq =>
      rw [heq]
      cases hk : k.isConstructor with
      | false =>
          simp only [hk, Bool.not_false, if_true] at h
          obtain ⟨_, _, hfail, _⟩ := stateT_bind.mp h
          exact absurd hfail check_fail
      | true =>
          simp only [hk, Bool.not_true, Bool.false_eq_true, if_false] at h
          obtain ⟨first, _, hfirst, h₁⟩ := stateT_bind.mp h
          obtain ⟨rest', _, hrest, h₂⟩ := stateT_bind.mp h₁
          obtain ⟨_, _, hpure, h₃⟩ := stateT_bind.mp h₂
          cases hpure
          obtain ⟨rfl, hexit, rfl⟩ := last h₃
          obtain ⟨info, superclass, ctor, args', cs, hc, hi, ea, em, rfl, rfl⟩ :=
            checkSuperCall_elab hs hfirst
          obtain ⟨ds, er, rfl⟩ := checkStmts_elab hs hrest
          exact ⟨_, .super hk hc hi ea em er, hexit, by simp⟩
  · obtain ⟨stmts, _, hstmts, h₁⟩ := stateT_bind.mp h
    obtain ⟨rfl, hexit, rfl⟩ := last h₁
    obtain ⟨cs, es, rfl⟩ := checkStmts_elab hs hstmts
    exact ⟨cs, .plain es, hexit, rfl⟩

end Covenant.Typing
