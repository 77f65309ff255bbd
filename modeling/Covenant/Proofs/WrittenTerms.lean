import Covenant.Proofs.ReadTerms

/-!
# What is written is read

The rule for expressions comes from tokens that a tree may be written as to the loop
over operators, with the tree on its left side, if what follows can at most go on
with expressions of the level that the tree is written at. From there the rules
outside take over: a rule of a higher level stops, and one of that level or below
goes on. So the same statement serves for a left operand, which the loop goes on
with, and for everything in brackets and behind an operator, where it ends.
-/

namespace Covenant.Parse

open Surface (Expr TypeExpr shapeAll)

/-! ## Running rules -/

section

variable {α β : Type} {st st₁ : State} {l : Lexeme} {ls : List Lexeme}

theorem run_bind {x : Parser α} {f : α → Parser β} {a : α} (h : x st = .ok (a, st₁)) :
    (x >>= f) st = f a st₁ := by
  show (x st >>= fun p => f p.1 p.2) = _
  rw [h]
  rfl

theorem skip_run (h : st.rest = l :: ls) : skip st = .ok ((), { st with rest := ls }) := by
  show Except.ok ((), { st with rest := st.rest.tail }) = _
  rw [h]
  rfl

theorem expectMark_run {s : Symbol} (h : st.rest = l :: ls) (ht : l.token = .symbol s) :
    expectMark s st = .ok (l.span, { st with rest := ls }) := by
  have hpeek : peek st = .ok (some l, st) := by
    show Except.ok (st.rest.head?, st) = _
    rw [h]
    rfl
  rw [expectMark, expect, run_bind hpeek]
  simp only [ht, if_true]
  rw [run_bind (skip_run h)]
  rfl

/-- Whether no `(` comes next, which would make a call of a name. -/
def NoCall (ls : List Lexeme) : Prop := ∀ l, ls.head? = some l → l.token ≠ .symbol .lparen

theorem isNextMark_lparen (h : NoCall st.rest) : isNextMark .lparen st = .ok (false, st) := by
  show Except.ok (((st.rest[0]?).any (·.token == .symbol .lparen)), st) = _
  cases hr : st.rest with
  | nil => rfl
  | cons l ls =>
      have hne := h l (by rw [hr]; rfl)
      simp [hne]

/-! ## Where the loop stops, and where it goes on -/

variable {n power : Nat} {lhs : Expr}

/-- In front of an operator the loop compares its power. -/
theorem operators_eq {op : BinaryOp} (h : st.rest = l :: ls) (ht : l.token = .symbol op.mark) :
    operators .body (n + 1) power lhs st =
      (if leftPower op < power then pure lhs
      else do
        skip
        let rhs ← exprWithin .body n (rightPower op)
        operators .body n power (.binary ⟨lhs.span.start, rhs.span.stop⟩ op lhs rhs)) st := by
  obtain ⟨t, span, doc⟩ := l
  obtain rfl : t = .symbol op.mark := ht
  obtain ⟨rest, eof, decl, site⟩ := st
  obtain rfl : rest = _ := h
  cases op <;> rfl

theorem operators_stop (hp : power / 2 ≤ postfixLevel) (h : Stops st.rest (power / 2)) :
    operators .body n power lhs st = .ok (lhs, st) := by
  cases n with
  | zero => rfl
  | succ n =>
      cases hr : st.rest with
      | nil =>
          obtain ⟨rest, eof, decl, site⟩ := st
          obtain rfl : rest = [] := hr
          rfl
      | cons l ls =>
          have hlevel := h l (by rw [hr]; rfl)
          cases hop : binaryOp? l.token with
          | some op =>
              have ht := eq_mark_of_binaryOp? hop
              have hlt := hlevel op.level (by rw [ht, level?_mark])
              rw [operators_eq hr ht, if_pos (leftPower_lt_iff.mpr hlt)]
              rfl
          | none =>
              obtain ⟨rest, eof, decl, site⟩ := st
              obtain rfl : rest = l :: ls := hr
              obtain ⟨t, span, doc⟩ := l
              cases t with
              | symbol s =>
                  cases s <;> first
                    | rfl
                    | exact absurd (hlevel _ rfl) (Nat.not_lt.mpr hp)
                    | cases hop
              | _ => rfl

theorem operators_mark {op : BinaryOp} (h : st.rest = l :: ls) (ht : l.token = .symbol op.mark)
    (hle : power / 2 ≤ op.level) :
    operators .body (n + 1) power lhs st =
      (exprWithin .body n (rightPower op) >>= fun rhs =>
        operators .body n power (.binary ⟨lhs.span.start, rhs.span.stop⟩ op lhs rhs))
          { st with rest := ls } := by
  rw [operators_eq h ht, if_neg fun hlt => Nat.not_lt.mpr hle (leftPower_lt_iff.mp hlt)]
  exact run_bind (skip_run h)

/-- Behind a `.` the loop goes on with a field or with a call. -/
theorem operators_dot {x : String} {s₁ s₂ : Span} {d₁ d₂ : Option Surface.DocComment}
    (h : st.rest = ⟨.symbol .dot, s₁, d₁⟩ :: ⟨.ident x, s₂, d₂⟩ :: ls) :
    operators .body (n + 1) power lhs st =
      (isNextMark .lparen >>= fun isCall =>
        if isCall = true then do
          let site ← freshSite
          let (args, stop) ← arguments .body n
          operators .body n power (.methodCall ⟨lhs.span.start, stop⟩ site lhs ⟨x, s₂⟩ args)
        else
          operators .body n power (.field ⟨lhs.span.start, s₂.stop⟩ lhs ⟨x, s₂⟩))
        { st with rest := ls } := by
  obtain ⟨rest, eof, decl, site⟩ := st
  obtain rfl : rest = _ := h
  rfl

theorem operators_field {x : String} {s₁ s₂ : Span} {d₁ d₂ : Option Surface.DocComment}
    (h : st.rest = ⟨.symbol .dot, s₁, d₁⟩ :: ⟨.ident x, s₂, d₂⟩ :: ls) (hcall : NoCall ls) :
    operators .body (n + 1) power lhs st =
      operators .body n power (.field ⟨lhs.span.start, s₂.stop⟩ lhs ⟨x, s₂⟩)
        { st with rest := ls } := by
  rw [operators_dot h, run_bind (isNextMark_lparen hcall)]
  rfl

theorem operators_methodCall {x : String} {s₁ s₂ : Span} {d₁ d₂ : Option Surface.DocComment}
    (h : st.rest = ⟨.symbol .dot, s₁, d₁⟩ :: ⟨.ident x, s₂, d₂⟩ :: l :: ls)
    (hcall : l.token = .symbol .lparen) :
    operators .body (n + 1) power lhs st =
      (arguments .body n >>= fun (args, stop) =>
        operators .body n power (.methodCall ⟨lhs.span.start, stop⟩ st.nextSite lhs ⟨x, s₂⟩ args))
        { st with rest := l :: ls, nextSite := st.nextSite + 1 } := by
  have hnext : isNextMark .lparen { st with rest := l :: ls } =
      .ok (true, { st with rest := l :: ls }) := by
    show Except.ok (l.token == Token.symbol .lparen, _) = _
    rw [hcall]
    rfl
  rw [operators_dot h, run_bind hnext]
  rfl

theorem operators_index (h : st.rest = l :: ls) (ht : l.token = .symbol .lbracket) :
    operators .body (n + 1) power lhs st =
      (exprWithin .body n 0 >>= fun index => expectMark .rbracket >>= fun close =>
        operators .body n power (.index ⟨lhs.span.start, close.stop⟩ lhs index))
        { st with rest := ls } := by
  obtain ⟨t, span, doc⟩ := l
  obtain rfl : t = .symbol .lbracket := ht
  obtain ⟨rest, eof, decl, site⟩ := st
  obtain rfl : rest = _ := h
  rfl

/-! ## Operands -/

theorem operand_unary {op : UnaryOp} (h : st.rest = l :: ls) (ht : l.token = .symbol op.mark) :
    operand .body (n + 1) st =
      (exprWithin .body n unaryPower >>= fun e =>
        pure (.unary ⟨l.span.start, e.span.stop⟩ op e)) { st with rest := ls } := by
  obtain ⟨t, span, doc⟩ := l
  obtain rfl : t = .symbol op.mark := ht
  obtain ⟨rest, eof, decl, site⟩ := st
  obtain rfl : rest = _ := h
  cases op <;> rfl

theorem operand_parens (h : st.rest = l :: ls) (ht : l.token = .symbol .lparen) :
    operand .body (n + 1) st =
      (exprWithin .body n 0 >>= fun inner => expectMark .rparen >>= fun _ => pure inner)
        { st with rest := ls } := by
  obtain ⟨t, span, doc⟩ := l
  obtain rfl : t = .symbol .lparen := ht
  obtain ⟨rest, eof, decl, site⟩ := st
  obtain rfl : rest = _ := h
  rfl

theorem operand_name {x : String} (h : st.rest = l :: ls) (ht : l.token = .ident x)
    (hcall : NoCall ls) :
    operand .body (n + 2) st = .ok (.name l.span x, { st with rest := ls }) := by
  obtain ⟨t, span, doc⟩ := l
  obtain rfl : t = .ident x := ht
  obtain ⟨rest, eof, decl, site⟩ := st
  obtain rfl : rest = _ := h
  show named .body (n + 1) ⟨x, span⟩ _ = _
  simp only [named, Dialect.isClause, Bool.false_and, Bool.false_eq_true, if_false]
  rw [run_bind (isNextMark_lparen hcall)]
  rfl

theorem operand_call {x : String} {s₁ s₂ : Span} {d₁ d₂ : Option Surface.DocComment}
    (h : st.rest = ⟨.ident x, s₁, d₁⟩ :: ⟨.symbol .lparen, s₂, d₂⟩ :: ls) :
    operand .body (n + 2) st =
      (arguments .body n >>= fun (args, stop) =>
        pure (.call ⟨s₁.start, stop⟩ st.nextSite ⟨x, s₁⟩ args))
        { st with rest := ⟨.symbol .lparen, s₂, d₂⟩ :: ls, nextSite := st.nextSite + 1 } := by
  obtain ⟨rest, eof, decl, site⟩ := st
  obtain rfl : rest = _ := h
  rfl

theorem operand_new {c : String} {s₁ s₂ s₃ : Span} {d₁ d₂ d₃ : Option Surface.DocComment}
    (h : st.rest =
      ⟨.keyword .new_, s₁, d₁⟩ :: ⟨.ident c, s₂, d₂⟩ :: ⟨.symbol .lparen, s₃, d₃⟩ :: ls) :
    operand .body (n + 2) st =
      (arguments .body n >>= fun (args, stop) =>
        pure (.new ⟨s₁.start, stop⟩ st.nextSite ⟨c, s₂⟩ args))
        { st with rest := ⟨.symbol .lparen, s₃, d₃⟩ :: ls, nextSite := st.nextSite + 1 } := by
  obtain ⟨rest, eof, decl, site⟩ := st
  obtain rfl : rest = _ := h
  rfl

theorem operand_newArray {t : Token} {elem : TypeExpr} {s₁ s₂ s₃ : Span}
    {d₁ d₂ d₃ : Option Surface.DocComment} (helem : WrittenType elem t)
    (h : st.rest =
      ⟨.keyword .new_, s₁, d₁⟩ :: ⟨t, s₂, d₂⟩ :: ⟨.symbol .lbracket, s₃, d₃⟩ :: ls) :
    operand .body (n + 2) st =
      (exprWithin .body n 0 >>= fun length => expectMark .rbracket >>= fun close =>
        pure (.newArray ⟨s₁.start, close.stop⟩ (elem.mapSpans fun _ => s₂) length))
        { st with rest := ls } := by
  obtain ⟨rest, eof, decl, site⟩ := st
  obtain rfl : rest = _ := h
  cases helem <;> rfl

/-! ## Arguments -/

theorem argumentList_end {isFirst : Bool} (h : st.rest = l :: ls)
    (ht : l.token = .symbol .rparen) :
    argumentList .body (n + 1) isFirst st = .ok ([], st) := by
  obtain ⟨t, span, doc⟩ := l
  obtain rfl : t = .symbol .rparen := ht
  obtain ⟨rest, eof, decl, site⟩ := st
  obtain rfl : rest = _ := h
  rfl

theorem argumentList_first (h : st.rest = l :: ls) (ht : l.token ≠ .symbol .rparen) :
    argumentList .body (n + 1) true st =
      (exprWithin .body n 0 >>= fun arg => argumentList .body n false >>= fun rest =>
        pure (arg :: rest)) st := by
  have hended : atCloser .rparen st = .ok (false, st) := by
    obtain ⟨rest, eof, decl, site⟩ := st
    obtain rfl : rest = _ := h
    show Except.ok (l.token == Token.symbol .rparen || false, _) = _
    rw [beq_false_of_ne ht]
    rfl
  rw [argumentList, run_bind hended]
  rfl

theorem argumentList_next (h : st.rest = l :: ls) (ht : l.token = .symbol .comma) :
    argumentList .body (n + 1) false st =
      (exprWithin .body n 0 >>= fun arg => argumentList .body n false >>= fun rest =>
        pure (arg :: rest)) { st with rest := ls } := by
  obtain ⟨t, span, doc⟩ := l
  obtain rfl : t = .symbol .comma := ht
  obtain ⟨rest, eof, decl, site⟩ := st
  obtain rfl : rest = _ := h
  rfl

end

/-! ## What cannot go on -/

/-- A token that goes on with no expression. -/
def Ends (t : Token) : Prop := level? t = none ∧ t ≠ .symbol .lparen

theorem ends_rparen : Ends (.symbol .rparen) := ⟨rfl, by decide⟩

theorem ends_rbracket : Ends (.symbol .rbracket) := ⟨rfl, by decide⟩

theorem ends_comma : Ends (.symbol .comma) := ⟨rfl, by decide⟩

section

variable {l : Lexeme} {ls : List Lexeme}

theorem Ends.stops {k : Nat} (h : Ends l.token) : Stops (l :: ls) k := stops_of_level? rfl h.1

theorem Ends.within {k : Nat} (h : Ends l.token) : Within (l :: ls) k := h.stops.within

theorem Ends.noCall (h : Ends l.token) : NoCall (l :: ls) := fun _ hl => Option.some.inj hl ▸ h.2

theorem noCall_mark {op : BinaryOp} (h : l.token = .symbol op.mark) : NoCall (l :: ls) :=
  fun _ hl => Option.some.inj hl ▸ h ▸ by cases op <;> decide

theorem noCall_cons (h : l.token ≠ .symbol .lparen) : NoCall (l :: ls) :=
  fun _ hl => Option.some.inj hl ▸ h

end

/-! ## Reading what is written -/

/-- The rule comes to the loop with a tree of the shape on the left side, in front of what is left,
and with budget enough for it. -/
def Reaches (n power : Nat) (st : State) (e : Expr) (rest : List Lexeme) : Prop :=
  ∃ e' st' n', e'.shape = e.shape ∧ st'.rest = rest ∧ 4 * rest.length + 1 ≤ n' ∧
    exprWithin .body n power st = operators .body n' power e' st'

section

variable {n power : Nat} {st st' : State} {e e' : Expr} {l : Lexeme} {rest : List Lexeme}

/-- Where what comes next is for the rules outside, the rule ends with the tree. -/
theorem Reaches.stop (h : Reaches n power st e rest) (hp : power / 2 ≤ postfixLevel)
    (hstops : Stops rest (power / 2)) :
    ∃ e' st', exprWithin .body n power st = .ok (e', st') ∧ e'.shape = e.shape ∧
      st'.rest = rest := by
  obtain ⟨e', st', n', hshape, rfl, -, hrun⟩ := h
  exact ⟨e', st', hrun.trans (operators_stop hp hstops), hshape, rfl⟩

/-- In front of a closing mark the rule ends, and the mark is taken off behind it. -/
theorem Reaches.close {α : Type} {s : Symbol} (h : Reaches n 0 st e (l :: rest))
    (hl : l.token = .symbol s) (hs : Ends (.symbol s)) :
    ∃ e' st', e'.shape = e.shape ∧ st'.rest = rest ∧ ∀ f : Expr → Span → Parser α,
      (exprWithin .body n 0 >>= fun x => expectMark s >>= f x) st = f e' l.span st' := by
  obtain ⟨e', st', hrun, hshape, hrest⟩ := h.stop (Nat.zero_le _) (Ends.stops (hl ▸ hs))
  exact ⟨e', { st' with rest }, hshape, rfl, fun f => by
    rw [run_bind hrun, run_bind (expectMark_run hrest hl)]⟩

theorem reaches_loop {n' : Nat}
    (h : exprWithin .body n power st = operators .body n' power e' st')
    (hshape : e'.shape = e.shape) (hrest : st'.rest = rest) (hn : 4 * rest.length + 1 ≤ n') :
    Reaches n power st e rest :=
  ⟨e', st', n', hshape, hrest, hn, h⟩

theorem reaches_operand (h : operand .body n st = .ok (e', st')) (hshape : e'.shape = e.shape)
    (hrest : st'.rest = rest) (hn : 4 * rest.length + 1 ≤ n) : Reaches (n + 1) power st e rest :=
  ⟨e', st', n, hshape, hrest, hn, run_bind h⟩

/-- A literal is read by its one token. -/
theorem reaches_literal {t : Token} {f : Span → Expr}
    (hrun : ∀ n span doc ls eof decl site,
      operand .body (n + 1) ⟨⟨t, span, doc⟩ :: ls, eof, decl, site⟩ =
        .ok (f span, ⟨ls, eof, decl, site⟩))
    (hshape : ∀ span, (f span).shape = e.shape) (hb : Opens st.rest [t] rest)
    (hn : 4 * st.rest.length + 2 ≤ n) : Reaches n power st e rest := by
  have hlen := hb.length
  rw [List.length_singleton] at hlen
  obtain ⟨span, doc, ls, hls, hend⟩ := hb.of_cons
  obtain rfl := hend.of_nil
  obtain ⟨m, rfl⟩ : ∃ m, n = m + 2 := ⟨n - 2, by omega⟩
  obtain ⟨_, eof, decl, site⟩ := st
  obtain rfl := hls
  exact reaches_operand (hrun m span doc ls eof decl site) (hshape span) rfl (by omega)

end

/-- An expression does not begin with a closing parenthesis. -/
theorem Written.front {k : Nat} {e : Expr} {ts : List Token} {ls rest : List Lexeme}
    (h : Written k e ts) (hb : Opens ls ts rest) :
    ∃ l ls', ls = l :: ls' ∧ l.token ≠ .symbol .rparen := by
  obtain ⟨t, us, rfl, hne⟩ := h.starts
  obtain ⟨span, doc, ls', rfl, -⟩ := hb.of_cons
  exact ⟨_, ls', rfl, hne⟩

/-- What follows an argument is a comma or the closing parenthesis. -/
theorem WrittenMore.front {es : List Expr} {us : List Token} {mid rest : List Lexeme} {l : Lexeme}
    (h : WrittenMore es us) (hb : Opens mid us (l :: rest)) (hl : Ends l.token) :
    ∃ l' ls', mid = l' :: ls' ∧ Ends l'.token := by
  cases h with
  | nil => exact ⟨l, rest, hb.of_nil, hl⟩
  | cons next more =>
      obtain ⟨span, doc, ls, rfl, -⟩ := hb.of_cons
      exact ⟨_, ls, rfl, ends_comma⟩

/-- An argument and the ones behind it are read one after another. -/
theorem reads_item {n : Nat} {s : State} {e : Expr} {es : List Expr} {l : Lexeme}
    {ls rest : List Lexeme} (hfirst : Reaches n 0 s e (l :: ls)) (hends : Ends l.token)
    (hmore : ∀ st', st'.rest = l :: ls → ∃ es' st'',
      argumentList .body n false st' = .ok (es', st'') ∧ shapeAll es' = shapeAll es ∧
        st''.rest = rest) :
    ∃ args' st', (exprWithin .body n 0 >>= fun arg => argumentList .body n false >>= fun rest =>
        pure (arg :: rest)) s = .ok (args', st') ∧ shapeAll args' = shapeAll (e :: es) ∧
      st'.rest = rest := by
  obtain ⟨e', st', hrun, hshape, hrest⟩ := hfirst.stop (Nat.zero_le _) hends.stops
  obtain ⟨es', st'', hrun', hshapes, hrest'⟩ := hmore st' hrest
  refine ⟨e' :: es', st'', ?_, by rw [shapeAll, hshape, hshapes, shapeAll], hrest'⟩
  rw [run_bind hrun, run_bind hrun']
  rfl

mutual

/-- What is written comes to the loop as a left side. -/
theorem Written.reaches {k n p : Nat} {e : Expr} {ts : List Token} {s : State}
    {rest : List Lexeme} (h : Written k e ts) (hpower : p / 2 ≤ k)
    (hmax : p / 2 ≤ postfixLevel) (hb : Opens s.rest ts rest)
    (hnext : Within rest k) (hcall : NoCall rest) (hn : 4 * s.rest.length + 2 ≤ n) :
    Reaches n p s e rest := by
  have hlen := hb.length
  match h with
  | .int => exact reaches_literal (f := (.int · _)) (fun _ _ _ _ _ _ _ => rfl) (fun _ => rfl) hb hn
  | .true_ =>
      exact reaches_literal (f := (.bool · true)) (fun _ _ _ _ _ _ _ => rfl) (fun _ => rfl) hb hn
  | .false_ =>
      exact reaches_literal (f := (.bool · false)) (fun _ _ _ _ _ _ _ => rfl) (fun _ => rfl) hb hn
  | .null => exact reaches_literal (f := .null) (fun _ _ _ _ _ _ _ => rfl) (fun _ => rfl) hb hn
  | .this => exact reaches_literal (f := .this) (fun _ _ _ _ _ _ _ => rfl) (fun _ => rfl) hb hn
  | .name =>
      rw [List.length_singleton] at hlen
      obtain ⟨span, doc, ls, hls, hend⟩ := hb.of_cons
      obtain rfl := hend.of_nil
      obtain ⟨m, rfl⟩ : ∃ m, n = m + 3 := ⟨n - 3, by omega⟩
      exact reaches_operand (operand_name hls rfl hcall) rfl rfl (by omega)
  | .parens inner =>
      obtain ⟨span, doc, ls, hls, hparens⟩ := hb.of_cons
      obtain ⟨span', doc', hinner⟩ := hparens.of_closed
      have hlen' := hinner.length
      rw [hls] at hn
      simp only [List.length_cons] at hn hlen'
      obtain ⟨m, rfl⟩ : ∃ m, n = m + 2 := ⟨n - 2, by omega⟩
      obtain ⟨e', st', hshape, hrest, hrun⟩ := (inner.reaches (n := m) (p := 0)
        (s := { s with rest := ls }) (Nat.zero_le _) (by decide) hinner ends_rparen.within
        ends_rparen.noCall (by simp only; omega)).close rfl ends_rparen
      exact reaches_operand ((operand_parens hls rfl).trans (hrun _)) hshape hrest (by omega)
  | @Written.binary _ _ op _ _ _ _ hle left right =>
      simp only [List.length_cons, List.length_append] at hlen
      obtain ⟨_, hleft, hb⟩ := hb.of_append
      obtain ⟨span, doc, ls, rfl, hright⟩ := hb.of_cons
      obtain ⟨l', st', n', hl, hrest, hn', hrun⟩ := left.reaches (p := p)
        (Nat.le_trans hpower hle) hmax hleft (within_mark rfl (Nat.le_refl _))
        (noCall_mark rfl) hn
      rw [List.length_cons] at hn'
      obtain ⟨m, rfl⟩ : ∃ m, n' = m + 1 := ⟨n' - 1, by omega⟩
      have hlevel : rightPower op / 2 ≤ postfixLevel :=
        rightPower_div op ▸ Nat.le_succ_of_le (level_lt op)
      obtain ⟨r', st'', hrun', hr, hrest'⟩ := (right.reaches (p := rightPower op) (n := m)
        (s := { st' with rest := ls }) (Nat.le_of_eq (rightPower_div op)) hlevel hright
        (hnext.mono (Nat.le_succ_of_le hle)) hcall (by simp only; omega)).stop hlevel
        (hnext.stops (rightPower_div op ▸ Nat.lt_succ_of_le hle))
      have hlen' := hright.length
      refine reaches_loop (hrun.trans ((operators_mark hrest rfl (Nat.le_trans hpower hle)).trans
        (run_bind hrun'))) ?_ hrest' (by omega)
      simp only [Expr.shape, hl, hr]
  | .unary hle operand =>
      obtain ⟨span, doc, ls, hls, hb⟩ := hb.of_cons
      have hlen' := hb.length
      rw [hls, List.length_cons] at hn
      obtain ⟨m, rfl⟩ : ∃ m, n = m + 2 := ⟨n - 2, by omega⟩
      obtain ⟨e', st', hrun, hshape, hrest⟩ := (operand.reaches (n := m) (p := unaryPower)
        (s := { s with rest := ls }) (by decide) (by decide) hb (hnext.mono hle) hcall
        (by simp only; omega)).stop (by decide) (hnext.stops_prefixLevel hle)
      refine reaches_operand ((operand_unary hls rfl).trans (run_bind hrun)) ?_ hrest (by omega)
      simp only [Expr.shape, hshape]
  | .field object =>
      obtain ⟨_, hobject, hpost⟩ := hb.of_append
      obtain ⟨s₁, d₁, _, rfl, hname⟩ := hpost.of_cons
      obtain ⟨s₂, d₂, ls, rfl, hend⟩ := hname.of_cons
      obtain rfl := hend.of_nil
      obtain ⟨o', st', n', ho, hrest, hn', hrun⟩ := object.reaches (p := p) hmax
        hmax hobject (within_postfixLevel _) (noCall_cons (by simp)) hn
      simp only [List.length_cons] at hn'
      obtain ⟨m, rfl⟩ : ∃ m, n' = m + 1 := ⟨n' - 1, by omega⟩
      refine reaches_loop (hrun.trans (operators_field hrest hcall)) ?_ rfl (by omega)
      simp only [Expr.shape, ho]
  | .index array inner =>
      obtain ⟨_, harray, hpost⟩ := hb.of_append
      obtain ⟨s₁, d₁, ls, rfl, hbrackets⟩ := hpost.of_cons
      obtain ⟨s₂, d₂, hinner⟩ := hbrackets.of_closed
      have hlen' := hinner.length
      obtain ⟨a', st', n', ha, hrest, hn', hrun⟩ := array.reaches (p := p) hmax
        hmax harray (within_postfixLevel _) (noCall_cons (by simp)) hn
      simp only [List.length_cons] at hn' hlen'
      obtain ⟨m, rfl⟩ : ∃ m, n' = m + 1 := ⟨n' - 1, by omega⟩
      obtain ⟨i', st'', hi, hrest', hrun'⟩ := (inner.reaches (n := m) (p := 0)
        (s := { st' with rest := ls }) (Nat.zero_le _) (by decide) hinner ends_rbracket.within
        ends_rbracket.noCall (by simp only; omega)).close rfl ends_rbracket
      refine reaches_loop (hrun.trans ((operators_index hrest rfl).trans (hrun' _))) ?_ hrest'
        (by omega)
      simp only [Expr.shape, ha, hi]
  | .call inner =>
      obtain ⟨s₁, d₁, _, hls, hparens⟩ := hb.of_cons
      obtain ⟨s₂, d₂, ls, rfl, hargs⟩ := hparens.of_cons
      have hlen' := hargs.length
      rw [hls] at hn
      simp only [List.length_cons] at hn
      obtain ⟨m, rfl⟩ : ∃ m, n = m + 3 := ⟨n - 3, by omega⟩
      obtain ⟨args', stop, st', hrun, hshape, hrest⟩ := inner.read (n := m)
        (s := { s with rest := ⟨.symbol .lparen, s₂, d₂⟩ :: ls, nextSite := s.nextSite + 1 })
        rfl rfl hargs (by simp only [List.length_cons]; omega)
      refine reaches_operand ((operand_call hls).trans (run_bind hrun)) ?_ hrest (by omega)
      simp only [Expr.shape, hshape]
  | .methodCall object inner =>
      obtain ⟨_, hobject, hpost⟩ := hb.of_append
      obtain ⟨s₁, d₁, _, rfl, hname⟩ := hpost.of_cons
      obtain ⟨s₂, d₂, _, rfl, hparens⟩ := hname.of_cons
      obtain ⟨s₃, d₃, ls, rfl, hargs⟩ := hparens.of_cons
      have hlen' := hargs.length
      obtain ⟨o', st', n', ho, hrest, hn', hrun⟩ := object.reaches (p := p) hmax
        hmax hobject (within_postfixLevel _) (noCall_cons (by simp)) hn
      simp only [List.length_cons] at hn'
      obtain ⟨m, rfl⟩ : ∃ m, n' = m + 1 := ⟨n' - 1, by omega⟩
      obtain ⟨args', stop, st'', hrun', hshape, hrest'⟩ := inner.read (n := m)
        (s := { st' with rest := ⟨.symbol .lparen, s₃, d₃⟩ :: ls, nextSite := st'.nextSite + 1 })
        rfl rfl hargs (by simp only [List.length_cons]; omega)
      refine reaches_loop (hrun.trans ((operators_methodCall hrest rfl).trans (run_bind hrun'))) ?_
        hrest' (by omega)
      simp only [Expr.shape, ho, hshape]
  | .new inner =>
      obtain ⟨s₁, d₁, _, hls, hname⟩ := hb.of_cons
      obtain ⟨s₂, d₂, _, rfl, hparens⟩ := hname.of_cons
      obtain ⟨s₃, d₃, ls, rfl, hargs⟩ := hparens.of_cons
      have hlen' := hargs.length
      rw [hls] at hn
      simp only [List.length_cons] at hn
      obtain ⟨m, rfl⟩ : ∃ m, n = m + 3 := ⟨n - 3, by omega⟩
      obtain ⟨args', stop, st', hrun, hshape, hrest⟩ := inner.read (n := m)
        (s := { s with rest := ⟨.symbol .lparen, s₃, d₃⟩ :: ls, nextSite := s.nextSite + 1 })
        rfl rfl hargs (by simp only [List.length_cons]; omega)
      refine reaches_operand ((operand_new hls).trans (run_bind hrun)) ?_ hrest (by omega)
      simp only [Expr.shape, hshape]
  | .newArray helem inner =>
      obtain ⟨s₁, d₁, _, hls, htype⟩ := hb.of_cons
      obtain ⟨s₂, d₂, _, rfl, hopen⟩ := htype.of_cons
      obtain ⟨s₃, d₃, ls, rfl, hbrackets⟩ := hopen.of_cons
      obtain ⟨s₄, d₄, hinner⟩ := hbrackets.of_closed
      have hlen' := hinner.length
      rw [hls] at hn
      simp only [List.length_cons] at hn hlen'
      obtain ⟨m, rfl⟩ : ∃ m, n = m + 3 := ⟨n - 3, by omega⟩
      obtain ⟨len', st', hshape, hrest, hrun⟩ := (inner.reaches (n := m) (p := 0)
        (s := { s with rest := ls }) (Nat.zero_le _) (by decide) hinner ends_rbracket.within
        ends_rbracket.noCall (by simp only; omega)).close rfl ends_rbracket
      refine reaches_operand ((operand_newArray helem hls).trans (hrun _)) ?_ hrest (by omega)
      cases helem <;> simp only [Expr.shape, TypeExpr.mapSpans, hshape]

/-- What is written as arguments is read with its parentheses. -/
theorem WrittenArgs.read {n : Nat} {args : List Expr} {ts : List Token} {s : State}
    {l : Lexeme} {ls rest : List Lexeme} (h : WrittenArgs args ts) (hls : s.rest = l :: ls)
    (hl : l.token = .symbol .lparen) (hb : Opens ls (ts ++ [.symbol .rparen]) rest)
    (hn : 4 * s.rest.length + 3 ≤ n) :
    ∃ args' stop st', arguments .body n s = .ok ((args', stop), st') ∧
      shapeAll args' = shapeAll args ∧ st'.rest = rest := by
  rw [hls, List.length_cons] at hn
  obtain ⟨m, rfl⟩ : ∃ m, n = m + 2 := ⟨n - 2, by omega⟩
  obtain ⟨span, doc, hinner⟩ := hb.of_closed
  have close {args' : List Expr} {st' : State}
      (hrun : argumentList .body (m + 1) true { s with rest := ls } = .ok (args', st'))
      (hshape : shapeAll args' = shapeAll args)
      (hrest : st'.rest = ⟨.symbol .rparen, span, doc⟩ :: rest) :
      ∃ args' stop st', arguments .body (m + 2) s = .ok ((args', stop), st') ∧
        shapeAll args' = shapeAll args ∧ st'.rest = rest := by
    refine ⟨args', span.stop, { st' with rest }, ?_, hshape, rfl⟩
    rw [arguments, run_bind (expectMark_run hls hl), run_bind hrun,
      run_bind (expectMark_run hrest rfl)]
    rfl
  match h with
  | .none => exact close (argumentList_end hinner.of_nil rfl) rfl hinner.of_nil
  | .some first more =>
      obtain ⟨mid, hfirst, hmore⟩ := hinner.of_append
      obtain ⟨l', ls', rfl, hends⟩ := more.front hmore ends_rparen
      have hlen := hfirst.length
      have hlen' := hmore.length
      obtain ⟨l'', ls'', rfl, hne⟩ := first.front hfirst
      simp only [List.length_cons] at hn hlen hlen'
      obtain ⟨args', st', hrun, hshape, hrest⟩ := reads_item (s := { s with rest := _ })
        (first.reaches (n := m) (p := 0) (Nat.zero_le _) (by decide) hfirst hends.within
          hends.noCall (by simp only [List.length_cons]; omega)) hends
        fun st' hst' => more.read (n := m) (s := st') (hst' ▸ hmore) rfl
          (by rw [hst', List.length_cons]; omega)
      exact close ((argumentList_first rfl hne).trans hrun) hshape hrest

/-- What is written as further arguments is read up to the closing parenthesis. -/
theorem WrittenMore.read {n : Nat} {args : List Expr} {ts : List Token} {s : State}
    {l : Lexeme} {rest : List Lexeme} (h : WrittenMore args ts)
    (hb : Opens s.rest ts (l :: rest)) (hl : l.token = .symbol .rparen)
    (hn : 4 * s.rest.length + 3 ≤ n) :
    ∃ args' st', argumentList .body n false s = .ok (args', st') ∧
      shapeAll args' = shapeAll args ∧ st'.rest = l :: rest := by
  obtain ⟨m, rfl⟩ : ∃ m, n = m + 1 := ⟨n - 1, by omega⟩
  match h with
  | .nil => exact ⟨[], s, argumentList_end hb.of_nil hl, rfl, hb.of_nil⟩
  | .cons next more =>
      obtain ⟨s₁, d₁, ls, hls, hitem⟩ := hb.of_cons
      obtain ⟨mid, hfirst, hmore⟩ := hitem.of_append
      obtain ⟨l', ls', rfl, hends⟩ := more.front hmore (hl ▸ ends_rparen)
      have hlen := hfirst.length
      rw [hls] at hn
      simp only [List.length_cons] at hn hlen
      obtain ⟨args', st', hrun, hshape, hrest⟩ := reads_item (s := { s with rest := ls })
        (next.reaches (n := m) (p := 0) (Nat.zero_le _) (by decide) hfirst hends.within
          hends.noCall (by simp only; omega)) hends
        fun st' hst' => more.read (n := m) (s := st') (hst' ▸ hmore) hl
          (by rw [hst', List.length_cons]; omega)
      exact ⟨args', st', (argumentList_next hls rfl).trans hrun, hshape, hrest⟩

end

/-! ## The rule and the grammar -/

section

variable {e : Expr} {ts : List Token} {st st' : State} {rest : List Lexeme}

theorem Written.read (h : Written 0 e ts) (hb : Opens st.rest ts rest)
    (hends : ∀ l, rest.head? = some l → Ends l.token) :
    ∃ e' st', expr .body st = .ok (e', st') ∧ e'.shape = e.shape ∧ st'.rest = rest := by
  have hstops : Stops rest 0 := fun l hl m hm => by
    rw [(hends l hl).1] at hm
    cases hm
  exact (h.reaches (n := 4 * (st.rest.length + 1)) (p := 0) (Nat.zero_le _) (by decide) hb
    (fun l hl m hm => Nat.le_of_lt (hstops l hl m hm)) (fun l hl => (hends l hl).2)
    (by omega)).stop (by decide) hstops

theorem expr_written (h : expr .body st = .ok (e, st')) :
    ∃ ts, Opens st.rest ts st'.rest ∧ Written 0 e ts := by
  obtain ⟨ts, htook, hw, -⟩ :=
    exprWithin_written (n := 4 * (st.rest.length + 1)) (by omega) (Nat.zero_le _) h
  exact ⟨ts, htook, hw⟩

/-- No tokens are written for two trees. -/
theorem Written.shape_unique {e' : Expr} (h : Written 0 e ts) (h' : Written 0 e' ts) :
    e.shape = e'.shape := by
  let st : State := ⟨ts.map fun t => ⟨t, .point 0, none⟩, 0, 0, 0⟩
  have hb : Opens st.rest ts [] :=
    ⟨st.rest, (List.append_nil _).symm, by simp only [st, List.map_map, Function.comp_def,
      List.map_id']⟩
  obtain ⟨e₁, st₁, hrun, hshape, -⟩ := h.read hb (fun _ hl => nomatch hl)
  obtain ⟨e₂, st₂, hrun', hshape', -⟩ := h'.read hb (fun _ hl => nomatch hl)
  obtain ⟨rfl, rfl⟩ := Prod.mk.inj (Except.ok.inj (hrun.symm.trans hrun'))
  exact hshape.symm.trans hshape'

end

/-- The expression rule accepts its grammar. The expressions of programs are the trees that can be
written. Whatever a tree is written as, with parentheses at least where levels ask for them, is
read as the tree again, apart from spans and the numbers of calls, up to the end or to any token
that is no infix operator, `.`, `[` or `(`. And if the rule reads a tree, then the tokens that it
takes off are what the tree may be written as. -/
theorem expr_exact :
    (∀ e : Expr, e.Host ↔ ∃ ts, Written 0 e ts) ∧
    (∀ (e : Expr) (ts : List Token) (st : State) (rest : List Lexeme),
      Written 0 e ts → Opens st.rest ts rest →
      (∀ l, rest.head? = some l → (∀ op : BinaryOp, l.token ≠ .symbol op.mark) ∧
        l.token ≠ .symbol .dot ∧ l.token ≠ .symbol .lbracket ∧ l.token ≠ .symbol .lparen) →
      ∃ e' st', expr .body st = .ok (e', st') ∧ e'.shape = e.shape ∧ st'.rest = rest) ∧
    (∀ (st st' : State) (e : Expr), expr .body st = .ok (e, st') →
      ∃ ts, Opens st.rest ts st'.rest ∧ Written 0 e ts) := by
  refine ⟨fun e => ⟨fun h => exists_written h 0, fun ⟨_, h⟩ => h.host⟩,
    fun e ts st rest h hb hnext => h.read hb fun l hl => ?_, fun st st' e => expr_written⟩
  obtain ⟨hop, hdot, hopen, hparen⟩ := hnext l hl
  refine ⟨level?_eq_none ?_ hdot hopen, hparen⟩
  cases h : binaryOp? l.token with
  | none => rfl
  | some op => exact absurd (eq_mark_of_binaryOp? h) (hop op)

/-- The tokens of `(1 - x) * -a[2].f` with a semicolon behind, and the tree without spans. -/
theorem expr_exact_product :
    let at_ := Span.point 0
    let tree : Expr := .binary at_ .mul (.binary at_ .sub (.int at_ 1) (.name at_ "x"))
      (.unary at_ .neg (.field at_ (.index at_ (.name at_ "a") (.int at_ 2)) ⟨"f", at_⟩))
    let tokens : List Token := [.symbol .lparen, .int 1, .symbol .minus, .ident "x",
      .symbol .rparen, .symbol .star, .symbol .minus, .ident "a", .symbol .lbracket, .int 2,
      .symbol .rbracket, .symbol .dot, .ident "f"]
    let semicolon : Lexeme := ⟨.symbol .semi, at_, none⟩
    let st : State := ⟨tokens.map (⟨·, at_, none⟩) ++ [semicolon], 0, 0, 0⟩
    tree.Host ∧ Written 0 tree tokens ∧
    (∃ e' st', expr .body st = .ok (e', st') ∧ e'.shape = tree.shape ∧ st'.rest = [semicolon]) ∧
    ∃ ts, Opens st.rest ts [semicolon] ∧ Written 0 tree ts := by
  intro at_ tree tokens semicolon st
  have written : Written 0 tree tokens :=
    .binary (by decide)
      (.parens (.binary (by decide) .int .name))
      (.unary (by decide) (.field (.index .name .int)))
  have hb : Opens st.rest tokens [semicolon] := ⟨tokens.map (⟨·, at_, none⟩), rfl, rfl⟩
  refine ⟨(expr_exact.1 tree).mpr ⟨_, written⟩, written,
    expr_exact.2.1 tree tokens st [semicolon] written hb ?_,
    expr_exact.2.2 st ⟨[semicolon], 0, 0, 0⟩ tree ?_⟩
  · rintro l ⟨⟩
    exact ⟨fun op => by cases op <;> decide, by decide, by decide, by decide⟩
  · rfl

end Covenant.Parse
