import Covenant.Typing.Expr
import Covenant.Proofs.Declared

/-!
# What typing makes of an expression

`Elab s e t cs` says that in the scope `s` the expression `e` means `t`, and that
`cs` are the calls which a body writes down on the way. There is one rule for
each way in which `checkExpr` succeeds, so a property of typed expressions is
proved by going through the rules, and the checker is opened once, in
`checkExpr_elab`. The calls of a receiver that is dropped, because the method
turns out to be static, are written down all the same.
-/

namespace Covenant.Typing

/-- What the operands of an operator have to be. -/
def OperandsFit (env : Env) : BinaryOp → Ty → Ty → Prop
  | .add, l, r | .sub, l, r | .mul, l, r | .div, l, r | .mod, l, r | .lt, l, r | .gt, l, r
  | .ltEq, l, r | .gtEq, l, r => env.isAssignable l .int = true ∧ env.isAssignable r .int = true
  | .and, l, r | .or, l, r => env.isAssignable l .boolean = true ∧ env.isAssignable r .boolean = true
  | .eq, l, r | .neq, l, r => env.isAssignable l r = true ∨ env.isAssignable r l = true

mutual

inductive Elab (s : Scope) : Surface.Expr → Typed.Expr → List CallSite → Prop
  | int {span n} : Elab s (.int span n) (.int span n) []
  | bool {span b} : Elab s (.bool span b) (.bool span b) []
  | null {span} : Elab s (.null span) (.null span) []
  | this {span} (hi : s.isStatic = false) : Elab s (.this span) (s.thisExpr span) []
  | var {span name type} (h : s.local? name = some type) :
      Elab s (.name span name) (.var span type name) []
  | param {span name i type} (h : s.param? name = some (i, type)) :
      Elab s (.name span name) (.param span type i name) []
  | ownStatic {span name f} (h : s.ownField? name = some f) (hs : f.isStatic = true) :
      Elab s (.name span name) (.staticField span f.type f.owner f.name) []
  | ownField {span name f} (h : s.ownField? name = some f) (hs : f.isStatic = false)
      (hi : s.isStatic = false) :
      Elab s (.name span name) (.field span f.type (s.thisExpr span) f.name) []
  | binary {span op l r l' r' cs ds} (hl : Elab s l l' cs) (hr : Elab s r r' ds)
      (ho : OperandsFit s.env op l'.type r'.type) :
      Elab s (.binary span op l r) (.binary span op l' r') (cs ++ ds)
  | unary {span op e e' cs} (he : Elab s e e' cs)
      (ht : s.env.isAssignable e'.type (Typed.Expr.operandType op) = true) :
      Elab s (.unary span op e) (.unary span op e') cs
  | classField {span o owner name f} (hc : s.namedClass? o = some owner)
      (h : s.env.lookupField? owner name.val = some f) (hs : f.isStatic = true) :
      Elab s (.field span o name) (.staticField span f.type f.owner f.name) []
  | staticField {span o o' owner name f cs} (ho : Elab s o o' cs) (ht : o'.type = .ofClass owner)
      (h : s.env.lookupField? owner name.val = some f) (hs : f.isStatic = true) :
      Elab s (.field span o name) (.staticField span f.type f.owner f.name) cs
  | field {span o o' owner name f cs} (ho : Elab s o o' cs) (ht : o'.type = .ofClass owner)
      (h : s.env.lookupField? owner name.val = some f) (hs : f.isStatic = false) :
      Elab s (.field span o name) (.field span f.type o' f.name) cs
  | length {span o o' elem name cs} (ho : Elab s o o' cs) (ht : o'.type = .array elem) :
      Elab s (.field span o name) (.length span o') cs
  | staticCall {span site name args args' m cs} (ha : ElabAll s args args' cs)
      (hm : selectOverload? s.env (s.env.lookupMethods s.className name.val)
        (args'.map (·.type)) = some m) (hs : m.isStatic = true) :
      Elab s (.call span site name args) (.call span m.returnType site none m.id name.val args')
        (cs ++ [⟨site, s.decl, m.id, .method, none, args', span⟩])
  | ownCall {span site name args args' m cs} (ha : ElabAll s args args' cs)
      (hm : selectOverload? s.env (s.env.lookupMethods s.className name.val)
        (args'.map (·.type)) = some m) (hs : m.isStatic = false) (hi : s.isStatic = false) :
      Elab s (.call span site name args)
        (.call span m.returnType site (some (s.thisExpr name.span)) m.id name.val args')
        (cs ++ [⟨site, s.decl, m.id, .method, some (s.thisExpr name.span), args', span⟩])
  | classCall {span site o owner name args args' m cs} (hc : s.namedClass? o = some owner)
      (ha : ElabAll s args args' cs)
      (hm : selectOverload? s.env (s.env.lookupMethods owner name.val)
        (args'.map (·.type)) = some m) (hs : m.isStatic = true) :
      Elab s (.methodCall span site o name args)
        (.call span m.returnType site none m.id name.val args')
        (cs ++ [⟨site, s.decl, m.id, .method, none, args', span⟩])
  | droppedCall {span site o o' owner name args args' m bs cs} (ho : Elab s o o' bs)
      (ht : o'.type = .ofClass owner) (ha : ElabAll s args args' cs)
      (hm : selectOverload? s.env (s.env.lookupMethods owner name.val)
        (args'.map (·.type)) = some m) (hs : m.isStatic = true) :
      Elab s (.methodCall span site o name args)
        (.call span m.returnType site none m.id name.val args')
        (bs ++ cs ++ [⟨site, s.decl, m.id, .method, none, args', span⟩])
  | methodCall {span site o o' owner name args args' m bs cs} (ho : Elab s o o' bs)
      (ht : o'.type = .ofClass owner) (ha : ElabAll s args args' cs)
      (hm : selectOverload? s.env (s.env.lookupMethods owner name.val)
        (args'.map (·.type)) = some m) (hs : m.isStatic = false) :
      Elab s (.methodCall span site o name args)
        (.call span m.returnType site (some o') m.id name.val args')
        (bs ++ cs ++ [⟨site, s.decl, m.id, .method, some o', args', span⟩])
  | new {span site c args args' ctor info cs} (hc : s.env.class? c.val = some info)
      (hi : info.isInterface = false) (ha : ElabAll s args args' cs)
      (hm : selectOverload? s.env (s.env.constructors c.val) (args'.map (·.type)) = some ctor) :
      Elab s (.new span site c args) (.new span site c.val ctor.id args')
        (cs ++ [⟨site, s.decl, ctor.id, .new, none, args', span⟩])
  | newArray {span elem elem' len len' cs} (he : s.env.resolveType elem = .ok elem')
      (hl : Elab s len len' cs) (ht : s.env.isAssignable len'.type .int = true) :
      Elab s (.newArray span elem len) (.newArray span elem' len') cs
  | index {span a a' i i' elem bs cs} (ha : Elab s a a' bs) (hta : a'.type = .array elem)
      (hi : Elab s i i' cs) (hti : s.env.isAssignable i'.type .int = true) :
      Elab s (.index span a i) (.index span elem a' i') (bs ++ cs)
  | old {span e e' cs} (he : Elab s e e' cs) : Elab s (.old span e) (.old span e') cs
  | result {span type} (h : s.clause.bind (·.result) = some type) :
      Elab s (.result span) (.result span type) []
  | spread {span e e' cs} (he : Elab s e e' cs) : Elab s (.spread span e) (.spread span e') cs

inductive ElabAll (s : Scope) : List Surface.Expr → List Typed.Expr → List CallSite → Prop
  | nil : ElabAll s [] [] []
  | cons {e e' es es' cs ds} (he : Elab s e e' cs) (hes : ElabAll s es es' ds) :
      ElabAll s (e :: es) (e' :: es') (cs ++ ds)

end

/-! ## The steps of the checker -/

section

variable {α : Type} {s : Scope} {acc acc' : List CallSite}

theorem check_fail {fault : TypingFault} {span : Span} {r : α × List CallSite} :
    ¬ (fail fault span : Check α) acc = .ok r := by
  intro h
  cases h

/-- What is written down after some more calls: all of them in a body, none in a clause. -/
def written (s : Scope) (acc cs : List CallSite) : List CallSite :=
  if s.clause.isSome then acc else acc ++ cs

@[simp] theorem written_nil : written s acc [] = acc := by
  simp [written]

@[simp] theorem written_written (cs ds : List CallSite) :
    written s (written s acc cs) ds = written s acc (cs ++ ds) := by
  cases h : s.clause.isSome <;> simp [written, h]

theorem record_ok {id : SiteId} {callee : DeclId} {kind : CallKind}
    {receiver : Option Typed.Expr} {args : List Typed.Expr} {span : Span}
    (h : record s id callee kind receiver args span acc = .ok ((), acc')) :
    acc' = written s acc [⟨id, s.decl, callee, kind, receiver, args, span⟩] := by
  rw [record] at h
  cases hc : s.clause.isSome with
  | true =>
      simp only [hc, if_true] at h
      cases h
      simp [written, hc]
  | false =>
      simp only [hc, Bool.false_eq_true, if_false] at h
      cases h
      simp [written, hc]

theorem requireType_ok {place : TypedPlace} {want : Ty} {e : Typed.Expr}
    (h : requireType s place want e acc = .ok ((), acc')) :
    s.env.isAssignable e.type want = true ∧ acc' = acc := by
  rw [requireType] at h
  split at h
  · next ht =>
      cases h
      exact ⟨ht, rfl⟩
  · exact absurd h check_fail

theorem requireInstance_ok {use : InstanceUse} {span : Span}
    (h : requireInstance s use span acc = .ok ((), acc')) : s.isStatic = false ∧ acc' = acc := by
  rw [requireInstance] at h
  split at h
  · exact absurd h check_fail
  · next hs =>
      cases h
      exact ⟨by simpa using hs, rfl⟩

/-- The member that is selected is one of the candidates, and takes the arguments. -/
theorem selectOverload?_ok {env : Env} {candidates : List MethodInfo} {types : List Ty}
    {m : MethodInfo} (h : selectOverload? env candidates types = some m) :
    m ∈ candidates ∧ isApplicable env types m = true := by
  rcases Option.or_eq_some_iff.mp h with h | ⟨_, h⟩
  · exact List.mem_filter.mp (List.mem_of_find?_eq_some h)
  · exact List.mem_filter.mp (List.mem_of_head? h)

theorem selectOverload_ok {candidates : List MethodInfo} {name : String} {args : List Typed.Expr}
    {span : Span} {m : MethodInfo}
    (h : selectOverload s candidates name args span acc = .ok (m, acc')) :
    selectOverload? s.env candidates (args.map (·.type)) = some m ∧ acc' = acc := by
  cases hm : selectOverload? s.env candidates (args.map (·.type)) with
  | none =>
      simp only [selectOverload, hm] at h
      exact absurd h check_fail
  | some m' =>
      simp only [selectOverload, hm] at h
      cases h
      exact ⟨rfl, rfl⟩

theorem requireOperands_ok {op : BinaryOp} {type : Ty} {l r : Typed.Expr}
    (h : requireOperands s op type l r acc = .ok ((), acc')) :
    s.env.isAssignable l.type type = true ∧ s.env.isAssignable r.type type = true ∧ acc' = acc := by
  obtain ⟨_, acc₁, hl, hr⟩ := stateT_bind.mp h
  obtain ⟨htl, rfl⟩ := requireType_ok hl
  obtain ⟨htr, rfl⟩ := requireType_ok hr
  exact ⟨htl, htr, rfl⟩

theorem checkOperands_ok {span : Span} {op : BinaryOp} {l r : Typed.Expr}
    (h : checkOperands s span op l r acc = .ok ((), acc')) :
    OperandsFit s.env op l.type r.type ∧ acc' = acc := by
  cases op with
  | eq | neq =>
      simp only [checkOperands] at h
      split at h
      · next hb =>
          cases h
          exact ⟨by simpa [OperandsFit] using hb, rfl⟩
      · exact absurd h check_fail
  | _ =>
      obtain ⟨hl, hr, rfl⟩ := requireOperands_ok h
      exact ⟨⟨hl, hr⟩, rfl⟩

theorem checkCall_ok {span : Span} {site : SiteId} {receiver : Option Typed.Expr}
    {m : MethodInfo} {name : String} {args : List Typed.Expr} {t : Typed.Expr}
    (h : checkCall s span site receiver m name args acc = .ok (t, acc')) :
    t = .call span m.returnType site receiver m.id name args ∧
      acc' = written s acc [⟨site, s.decl, m.id, .method, receiver, args, span⟩] := by
  obtain ⟨_, acc₁, hr, h⟩ := stateT_bind.mp h
  obtain rfl := record_ok hr
  cases h
  exact ⟨rfl, rfl⟩

end

/-! ## The checker follows the rules -/

theorem checkName_elab {s : Scope} {span : Span} {name : String} {acc acc' : List CallSite}
    {t : Typed.Expr} (h : checkName s span name acc = .ok (t, acc')) :
    Elab s (.name span name) t [] ∧ acc' = acc := by
  cases hl : s.local? name with
  | some type =>
      simp only [checkName, hl] at h
      cases h
      exact ⟨.var hl, rfl⟩
  | none =>
      cases hp : s.param? name with
      | some p =>
          simp only [checkName, hl, hp] at h
          cases h
          exact ⟨.param hp, rfl⟩
      | none =>
          cases hf : s.ownField? name with
          | none =>
              simp only [checkName, hl, hp, hf] at h
              exact absurd h check_fail
          | some f =>
              simp only [checkName, hl, hp, hf] at h
              cases hs : f.isStatic with
              | true =>
                  simp only [hs, if_true] at h
                  cases h
                  exact ⟨.ownStatic hf hs, rfl⟩
              | false =>
                  simp only [hs, Bool.false_eq_true, if_false] at h
                  obtain ⟨_, _, hreq, hend⟩ := stateT_bind.mp h
                  obtain ⟨hi, rfl⟩ := requireInstance_ok hreq
                  cases hend
                  exact ⟨.ownField hf hs hi, rfl⟩

theorem checkStaticField_elab {s : Scope} {span : Span} {o : Surface.Expr} {owner : String}
    {name : Located String} {acc acc' : List CallSite} {t : Typed.Expr}
    (hc : s.namedClass? o = some owner)
    (h : checkStaticField s span owner name acc = .ok (t, acc')) :
    Elab s (.field span o name) t [] ∧ acc' = acc := by
  cases hf : s.env.lookupField? owner name.val with
  | none =>
      simp only [checkStaticField, hf] at h
      exact absurd h check_fail
  | some f =>
      simp only [checkStaticField, hf] at h
      cases hs : f.isStatic with
      | true =>
          simp only [hs, if_true] at h
          cases h
          exact ⟨.classField hc hf hs, rfl⟩
      | false =>
          simp only [hs, Bool.false_eq_true, if_false] at h
          exact absurd h check_fail

theorem checkField_elab {s : Scope} {span : Span} {o : Surface.Expr} {o' : Typed.Expr}
    {name : Located String} {acc acc' cs : List CallSite} {t : Typed.Expr} (ho : Elab s o o' cs)
    (h : checkField s span o' name acc = .ok (t, acc')) :
    Elab s (.field span o name) t cs ∧ acc' = acc := by
  cases ht : o'.type with
  | ofClass owner =>
      simp only [checkField, ht] at h
      cases hf : s.env.lookupField? owner name.val with
      | none =>
          simp only [hf] at h
          exact absurd h check_fail
      | some f =>
          simp only [hf] at h
          cases hs : f.isStatic with
          | true =>
              simp only [hs, if_true] at h
              cases h
              exact ⟨.staticField ho ht hf hs, rfl⟩
          | false =>
              simp only [hs, Bool.false_eq_true, if_false] at h
              cases h
              exact ⟨.field ho ht hf hs, rfl⟩
  | array elem =>
      simp only [checkField, ht] at h
      cases hn : name.val == "length" with
      | true =>
          simp only [hn, if_true] at h
          cases h
          exact ⟨.length ho ht, rfl⟩
      | false =>
          simp only [hn, Bool.false_eq_true, if_false] at h
          exact absurd h check_fail
  | int | boolean | void | null =>
      simp only [checkField, ht] at h
      exact absurd h check_fail

mutual

theorem checkExpr_elab {s : Scope} {e : Surface.Expr} {acc acc' : List CallSite}
    {t : Typed.Expr} (h : checkExpr s e acc = .ok (t, acc')) :
    ∃ cs, Elab s e t cs ∧ acc' = written s acc cs := by
  match e with
  | .int _ _ =>
      cases h
      exact ⟨[], .int, by simp⟩
  | .bool _ _ =>
      cases h
      exact ⟨[], .bool, by simp⟩
  | .null _ =>
      cases h
      exact ⟨[], .null, by simp⟩
  | .this span =>
      obtain ⟨_, _, hreq, hend⟩ := stateT_bind.mp h
      obtain ⟨hi, rfl⟩ := requireInstance_ok hreq
      cases hend
      exact ⟨[], .this hi, by simp⟩
  | .name span name =>
      obtain ⟨he, rfl⟩ := checkName_elab h
      exact ⟨[], he, by simp⟩
  | .binary span op l r =>
      obtain ⟨l', _, hl, h₁⟩ := stateT_bind.mp h
      obtain ⟨r', _, hr, h₂⟩ := stateT_bind.mp h₁
      obtain ⟨_, _, ho, hend⟩ := stateT_bind.mp h₂
      obtain ⟨cs, el, rfl⟩ := checkExpr_elab hl
      obtain ⟨ds, er, rfl⟩ := checkExpr_elab hr
      obtain ⟨eo, rfl⟩ := checkOperands_ok ho
      cases hend
      exact ⟨cs ++ ds, .binary el er eo, by simp⟩
  | .unary span op x =>
      obtain ⟨x', _, hx, h₁⟩ := stateT_bind.mp h
      obtain ⟨_, _, ht, hend⟩ := stateT_bind.mp h₁
      obtain ⟨cs, ex, rfl⟩ := checkExpr_elab hx
      obtain ⟨et, rfl⟩ := requireType_ok ht
      cases hend
      exact ⟨cs, .unary ex et, rfl⟩
  | .field span o name =>
      cases hc : s.namedClass? o with
      | some owner =>
          simp only [checkExpr, hc] at h
          obtain ⟨he, rfl⟩ := checkStaticField_elab hc h
          exact ⟨[], he, by simp⟩
      | none =>
          simp only [checkExpr, hc] at h
          obtain ⟨o', _, ho, h₁⟩ := stateT_bind.mp h
          obtain ⟨cs, eo, rfl⟩ := checkExpr_elab ho
          obtain ⟨he, rfl⟩ := checkField_elab eo h₁
          exact ⟨cs, he, rfl⟩
  | .call span site name args =>
      obtain ⟨args', _, ha, h₁⟩ := stateT_bind.mp h
      obtain ⟨m, _, hm, h₂⟩ := stateT_bind.mp h₁
      obtain ⟨cs, ea, rfl⟩ := checkArgs_elab ha
      obtain ⟨em, rfl⟩ := selectOverload_ok hm
      cases hs : m.isStatic with
      | true =>
          simp only [hs, if_true] at h₂
          obtain ⟨rfl, rfl⟩ := checkCall_ok h₂
          exact ⟨_, .staticCall ea em hs, by simp⟩
      | false =>
          simp only [hs, Bool.false_eq_true, if_false] at h₂
          obtain ⟨_, _, hreq, h₃⟩ := stateT_bind.mp h₂
          obtain ⟨hi, rfl⟩ := requireInstance_ok hreq
          obtain ⟨rfl, rfl⟩ := checkCall_ok h₃
          exact ⟨_, .ownCall ea em hs hi, by simp⟩
  | .methodCall span site o name args =>
      cases hc : s.namedClass? o with
      | some owner =>
          simp only [checkExpr, hc] at h
          obtain ⟨args', _, ha, h₁⟩ := stateT_bind.mp h
          obtain ⟨m, _, hm, h₂⟩ := stateT_bind.mp h₁
          obtain ⟨cs, ea, rfl⟩ := checkArgs_elab ha
          obtain ⟨em, rfl⟩ := selectOverload_ok hm
          cases hs : m.isStatic with
          | true =>
              simp only [hs, if_true] at h₂
              obtain ⟨rfl, rfl⟩ := checkCall_ok h₂
              exact ⟨_, .classCall hc ea em hs, by simp⟩
          | false =>
              simp only [hs, Bool.false_eq_true, if_false] at h₂
              exact absurd h₂ check_fail
      | none =>
          simp only [checkExpr, hc] at h
          obtain ⟨o', _, ho, h₁⟩ := stateT_bind.mp h
          obtain ⟨bs, eo, rfl⟩ := checkExpr_elab ho
          cases ht : o'.type with
          | ofClass owner =>
              simp only [ht] at h₁
              obtain ⟨args', _, ha, h₂⟩ := stateT_bind.mp h₁
              obtain ⟨m, _, hm, h₃⟩ := stateT_bind.mp h₂
              obtain ⟨cs, ea, rfl⟩ := checkArgs_elab ha
              obtain ⟨em, rfl⟩ := selectOverload_ok hm
              cases hs : m.isStatic with
              | true =>
                  simp only [hs, if_true] at h₃
                  obtain ⟨rfl, rfl⟩ := checkCall_ok h₃
                  exact ⟨_, .droppedCall eo ht ea em hs, by simp⟩
              | false =>
                  simp only [hs, Bool.false_eq_true, if_false] at h₃
                  obtain ⟨rfl, rfl⟩ := checkCall_ok h₃
                  exact ⟨_, .methodCall eo ht ea em hs, by simp⟩
          | int | boolean | void | null | array _ =>
              simp only [ht] at h₁
              exact absurd h₁ check_fail
  | .new span site c args =>
      obtain ⟨_, _, hnew, h₁⟩ := stateT_bind.mp h
      obtain ⟨args', _, ha, h₂⟩ := stateT_bind.mp h₁
      obtain ⟨ctor, _, hm, h₃⟩ := stateT_bind.mp h₂
      obtain ⟨_, _, hr, hend⟩ := stateT_bind.mp h₃
      cases hc : s.env.class? c.val with
      | none =>
          simp only [checkNewClass, hc] at hnew
          exact absurd hnew check_fail
      | some info =>
          cases hi : info.isInterface with
          | true =>
              simp only [checkNewClass, hc, hi, if_true] at hnew
              exact absurd hnew check_fail
          | false =>
              simp only [checkNewClass, hc, hi, Bool.false_eq_true, if_false] at hnew
              cases hnew
              obtain ⟨cs, ea, rfl⟩ := checkArgs_elab ha
              obtain ⟨em, rfl⟩ := selectOverload_ok hm
              obtain rfl := record_ok hr
              cases hend
              exact ⟨_, .new hc hi ea em, by simp⟩
  | .newArray span elem len =>
      obtain ⟨elem', _, he, h₁⟩ := stateT_bind.mp h
      obtain ⟨len', _, hl, h₂⟩ := stateT_bind.mp h₁
      obtain ⟨_, _, ht, hend⟩ := stateT_bind.mp h₂
      obtain ⟨cs, el, rfl⟩ := checkExpr_elab hl
      obtain ⟨et, rfl⟩ := requireType_ok ht
      cases hend
      cases hr : s.env.resolveType elem with
      | error fault => exact absurd he (by simp [resolveType, hr]; rintro ⟨⟩)
      | ok type =>
          rw [resolveType, hr] at he
          cases he
          exact ⟨cs, .newArray hr el et, rfl⟩
  | .index span a i =>
      obtain ⟨a', _, ha, h₁⟩ := stateT_bind.mp h
      obtain ⟨bs, ea, rfl⟩ := checkExpr_elab ha
      cases ht : a'.type with
      | array elem =>
          simp only [ht] at h₁
          obtain ⟨i', _, hi, h₂⟩ := stateT_bind.mp h₁
          obtain ⟨_, _, hti, hend⟩ := stateT_bind.mp h₂
          obtain ⟨cs, ei, rfl⟩ := checkExpr_elab hi
          obtain ⟨eti, rfl⟩ := requireType_ok hti
          cases hend
          exact ⟨bs ++ cs, .index ea ht ei eti, by simp⟩
      | int | boolean | void | null | ofClass _ =>
          simp only [ht] at h₁
          exact absurd h₁ check_fail
  | .old span x =>
      obtain ⟨x', _, hx, hend⟩ := stateT_bind.mp h
      obtain ⟨cs, ex, rfl⟩ := checkExpr_elab hx
      cases hend
      exact ⟨cs, .old ex, rfl⟩
  | .result span =>
      cases hr : s.clause.bind (·.result) with
      | none =>
          simp only [checkExpr, hr] at h
          exact absurd h check_fail
      | some type =>
          simp only [checkExpr, hr] at h
          cases h
          exact ⟨[], .result hr, by simp⟩
  | .spread span x =>
      obtain ⟨x', _, hx, hend⟩ := stateT_bind.mp h
      obtain ⟨cs, ex, rfl⟩ := checkExpr_elab hx
      cases hend
      exact ⟨cs, .spread ex, rfl⟩

theorem checkArgs_elab {s : Scope} {es : List Surface.Expr} {acc acc' : List CallSite}
    {ts : List Typed.Expr} (h : checkArgs s es acc = .ok (ts, acc')) :
    ∃ cs, ElabAll s es ts cs ∧ acc' = written s acc cs := by
  match es with
  | [] =>
      cases h
      exact ⟨[], .nil, by simp⟩
  | e :: es =>
      obtain ⟨e', _, he, h₁⟩ := stateT_bind.mp h
      obtain ⟨es', _, hes, hend⟩ := stateT_bind.mp h₁
      obtain ⟨cs, ee, rfl⟩ := checkExpr_elab he
      obtain ⟨ds, ees, rfl⟩ := checkArgs_elab hes
      cases hend
      exact ⟨cs ++ ds, .cons ee ees, by simp⟩

end

end Covenant.Typing
