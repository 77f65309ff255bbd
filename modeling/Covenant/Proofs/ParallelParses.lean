import Covenant.Proofs.Parsed

/-!
# Two parses beside each other

A text may be parsed twice: with its comments and without them, with call sites
numbered from here or from there. A pairing says what two parses have in common.
Two rules of the grammar go abreast if, on such states, both fail or both go on
to such states, with results that belong together. There is one lemma for each
way to put rules together, and from these the expression grammar goes abreast of
itself: what it makes is the same up to the numbers of call sites.
-/

namespace Covenant

/-! ## Numbers of call sites -/

namespace Surface.Expr

mutual

/-- The same expression with other numbers for its call sites. -/
def mapSites (f : SiteId → SiteId) : Expr → Expr
  | int s n => int s n
  | bool s b => bool s b
  | null s => null s
  | this s => this s
  | name s n => name s n
  | binary s op l r => binary s op (l.mapSites f) (r.mapSites f)
  | unary s op e => unary s op (e.mapSites f)
  | field s o n => field s (o.mapSites f) n
  | call s site m args => call s (f site) m (mapSitesAll f args)
  | methodCall s site o m args => methodCall s (f site) (o.mapSites f) m (mapSitesAll f args)
  | new s site c args => new s (f site) c (mapSitesAll f args)
  | newArray s t len => newArray s t (len.mapSites f)
  | index s a i => index s (a.mapSites f) (i.mapSites f)
  | old s e => old s (e.mapSites f)
  | result s => result s
  | spread s e => spread s (e.mapSites f)

def mapSitesAll (f : SiteId → SiteId) : List Expr → List Expr
  | [] => []
  | e :: es => e.mapSites f :: mapSitesAll f es

end

@[simp] theorem span_mapSites (f : SiteId → SiteId) (e : Expr) : (e.mapSites f).span = e.span := by
  cases e <;> simp [mapSites, span]

theorem mapSitesAll_eq (f : SiteId → SiteId) (es : List Expr) :
    mapSitesAll f es = es.map (·.mapSites f) := by
  induction es with
  | nil => rfl
  | cons e es ih => rw [mapSitesAll, ih, List.map_cons]

mutual

theorem mapSites_of_id {f : SiteId → SiteId} (hf : ∀ n, f n = n) : ∀ e : Expr, e.mapSites f = e
  | int .. | bool .. | null .. | this .. | name .. | result .. => by rw [mapSites]
  | binary _ _ l r | index _ l r => by
    rw [mapSites, mapSites_of_id hf l, mapSites_of_id hf r]
  | unary _ _ e | field _ e _ | newArray _ _ e | old _ e | spread _ e => by
    rw [mapSites, mapSites_of_id hf e]
  | call _ _ _ args | new _ _ _ args => by
    rw [mapSites, hf, mapSitesAll_of_id hf args]
  | methodCall _ _ o _ args => by
    rw [mapSites, hf, mapSites_of_id hf o, mapSitesAll_of_id hf args]

theorem mapSitesAll_of_id {f : SiteId → SiteId} (hf : ∀ n, f n = n) :
    ∀ es : List Expr, mapSitesAll f es = es
  | [] => rfl
  | e :: es => by rw [mapSitesAll, mapSites_of_id hf e, mapSitesAll_of_id hf es]

end

end Surface.Expr

namespace Parse

open Surface (Expr TypeExpr)

/-! ## Parses abreast -/

/-- What two parses have in common. -/
structure Pairing where
  left : Dialect
  right : Dialect
  /-- How much higher the call sites on the right are numbered. -/
  offset : Nat
  /-- Whether both find the same comments and the same end, and so the same faults. -/
  exact : Prop
  /-- The tokens that may come. -/
  reads : Token → Prop
  /-- Two dialects differ in a few tokens only. -/
  agree : left = right ∨
    ∀ t, reads t → t ≠ .symbol .ellipsis ∧ t ≠ .ident "old" ∧ t ≠ .ident "result"

/-- A token without the comments in front of it. -/
def Lexeme.bare (l : Lexeme) : Located Token := ⟨l.token, l.span⟩

namespace Pairing

variable {P : Pairing} {α β γ δ : Type}

/-- Two parsers stand in front of the same tokens. -/
structure Abreast (P : Pairing) (st st' : State) : Prop where
  rest : st'.rest.map Lexeme.bare = st.rest.map Lexeme.bare
  exact : P.exact → st'.rest = st.rest ∧ st'.eof = st.eof
  decl : st'.nextDecl = st.nextDecl
  site : st'.nextSite = st.nextSite + P.offset
  reads : ∀ l ∈ st.rest, P.reads l.token

/-- Two parses end alike: with results that belong together, or with faults. -/
inductive Ends (P : Pairing) (R : α → β → Prop) :
    Except (Located GrammarFault) (α × State) → Except (Located GrammarFault) (β × State) → Prop
  | ok {a b st st'} (hr : R a b) (hst : P.Abreast st st') : Ends P R (.ok (a, st)) (.ok (b, st'))
  | error {e e'} (he : P.exact → e' = e) : Ends P R (.error e) (.error e')

/-- Two rules of the grammar end alike in front of the same tokens. -/
def Alike (P : Pairing) (R : α → β → Prop) (x : Parser α) (y : Parser β) : Prop :=
  ∀ ⦃st st'⦄, P.Abreast st st' → P.Ends R (x st) (y st')

namespace Alike

variable {R : α → β → Prop} {S : γ → δ → Prop} {x : Parser α} {y : Parser β}
  {f : α → Parser γ} {g : β → Parser δ}

theorem pure {a : α} {b : β} (h : R a b) : P.Alike R (Pure.pure a) (Pure.pure b) :=
  fun _ _ hst => .ok h hst

theorem bind (hx : P.Alike R x y) (hf : ∀ a b, R a b → P.Alike S (f a) (g b)) :
    P.Alike S (x >>= f) (y >>= g) := by
  intro st st' hst
  show P.Ends S ((x st).bind fun r => f r.1 r.2) ((y st').bind fun r => g r.1 r.2)
  have hends := hx hst
  generalize x st = r, y st' = r' at hends
  cases hends with
  | ok hr hst₁ => exact hf _ _ hr hst₁
  | error he => exact .error he

theorem mono {R' : α → β → Prop} (h : ∀ a b, R a b → R' a b) (hx : P.Alike R x y) :
    P.Alike R' x y := by
  intro st st' hst
  have hends := hx hst
  generalize x st = r, y st' = r' at hends
  cases hends with
  | ok hr hst₁ => exact .ok (h _ _ hr) hst₁
  | error he => exact .error he

/-- A rule whose result is the same on both sides. -/
theorem andThen {x y : Parser α} {f : α → Parser γ} {g : α → Parser δ} (hx : P.Alike Eq x y)
    (hf : ∀ a, P.Alike S (f a) (g a)) : P.Alike S (x >>= f) (y >>= g) :=
  .bind hx fun a _ h => h ▸ hf a

theorem map {x y : Parser α} {f : α → γ} (hx : P.Alike Eq x y) : P.Alike Eq (f <$> x) (f <$> y) := by
  rw [← bind_pure_comp, ← bind_pure_comp]
  exact hx.andThen fun _ => .pure rfl

theorem ite {p : Prop} [Decidable p] {x' : Parser α} {y' : Parser β} (hx : p → P.Alike R x y)
    (hy : ¬ p → P.Alike R x' y') : P.Alike R (if p then x else x') (if p then y else y') := by
  split
  · next hp => exact hx hp
  · next hp => exact hy hp

theorem failAt {fault : GrammarFault} {span : Span} :
    P.Alike R (Parse.failAt fault span) (Parse.failAt fault span) := fun _ _ _ => .error fun _ => rfl

theorem failsAt {fault : GrammarFault} {span : Span} :
    P.Alike S (Parse.failAt fault span >>= f) (Parse.failAt fault span >>= g) :=
  .bind (R := fun _ _ => False) .failAt fun _ _ h => h.elim

theorem failAtEnd {fault : GrammarFault} :
    P.Alike R (Parse.failAtEnd fault) (Parse.failAtEnd fault) := by
  intro st st' hst
  refine .error fun hexact => ?_
  rw [(hst.exact hexact).2]

end Alike

/-! ### The stream -/

namespace Abreast

variable {st st' : State}

theorem length (h : P.Abreast st st') : st'.rest.length = st.rest.length := by
  simpa using congrArg List.length h.rest

theorem getElem? (h : P.Abreast st st') (n : Nat) :
    st'.rest[n]?.map Lexeme.bare = st.rest[n]?.map Lexeme.bare := by
  rw [← List.getElem?_map, h.rest, List.getElem?_map]

theorem tail (h : P.Abreast st st') :
    P.Abreast { st with rest := st.rest.tail } { st' with rest := st'.rest.tail } where
  rest := by
    show st'.rest.tail.map _ = st.rest.tail.map _
    rw [List.map_tail, h.rest, List.map_tail]
  exact he := ⟨congrArg List.tail (h.exact he).1, (h.exact he).2⟩
  decl := h.decl
  site := h.site
  reads l hl := h.reads l (List.mem_of_mem_tail hl)

end Abreast

namespace Alike

variable {R : α → β → Prop}

theorem peek {f : Option Lexeme → Parser α} {g : Option Lexeme → Parser β}
    (hnone : P.Alike R (f none) (g none))
    (hsome : ∀ t span doc doc', P.reads t →
      P.Alike R (f (some ⟨t, span, doc⟩)) (g (some ⟨t, span, doc'⟩))) :
    P.Alike R (Parse.peek >>= f) (Parse.peek >>= g) := by
  intro st st' hst
  show P.Ends R (f st.rest.head? st) (g st'.rest.head? st')
  have hrest := hst.rest
  cases hl : st.rest with
  | nil =>
      rw [hl, List.map_nil, List.map_eq_nil_iff] at hrest
      rw [hrest]
      exact hnone hst
  | cons l ls =>
      cases hl' : st'.rest with
      | nil => simp [hl, hl'] at hrest
      | cons l' ls' =>
          obtain ⟨t, span, doc⟩ := l
          obtain ⟨t', span', doc'⟩ := l'
          simp only [hl, hl', List.map_cons, List.cons.injEq, Lexeme.bare, Located.mk.injEq] at hrest
          obtain ⟨⟨rfl, rfl⟩, _⟩ := hrest
          exact hsome t' span' doc doc' (hst.reads _ (hl ▸ List.mem_cons_self)) hst

theorem isAhead {n : Nat} {t : Token} : P.Alike Eq (Parse.isAhead n t) (Parse.isAhead n t) := by
  intro st st' hst
  refine .ok ?_ hst
  have hn := hst.getElem? n
  cases h : st.rest[n]? <;> cases h' : st'.rest[n]? <;> simp_all [Lexeme.bare]

theorem skip {f : Unit → Parser α} {g : Unit → Parser β} (h : P.Alike R (f ()) (g ())) :
    P.Alike R (Parse.skip >>= f) (Parse.skip >>= g) := fun _ _ hst => h hst.tail

theorem budget : P.Alike Eq Parse.budget Parse.budget := by
  intro st st' hst
  refine .ok ?_ hst
  rw [hst.length]

theorem atEnd : P.Alike Eq Parse.atEnd Parse.atEnd := by
  intro st st' hst
  refine .ok (Bool.eq_iff_iff.mpr ?_) hst
  rw [List.isEmpty_iff_length_eq_zero, List.isEmpty_iff_length_eq_zero, hst.length]

theorem freshSite : P.Alike (fun n n' => n' = n + P.offset) Parse.freshSite Parse.freshSite := by
  intro st st' hst
  refine .ok hst.site { hst with site := ?_ }
  show st'.nextSite + 1 = st.nextSite + 1 + P.offset
  rw [hst.site, Nat.add_right_comm]

theorem freshDecl : P.Alike Eq Parse.freshDecl Parse.freshDecl := by
  intro st st' hst
  refine .ok hst.decl.symm { hst with decl := ?_ }
  show st'.nextDecl + 1 = st.nextDecl + 1
  rw [hst.decl]

theorem atCloser {closer : Symbol} : P.Alike Eq (Parse.atCloser closer) (Parse.atCloser closer) :=
  .andThen .isAhead fun _ => .andThen .atEnd fun _ => .pure rfl

theorem eat {t : Token} : P.Alike Eq (Parse.eat t) (Parse.eat t) :=
  .andThen .isAhead fun _ => .ite (fun _ => .skip (.pure rfl)) fun _ => .pure rfl

theorem failExpected {what : Expected} :
    P.Alike R (Parse.failExpected what) (Parse.failExpected what) :=
  .peek .failAtEnd fun _ _ _ _ _ => .failAt

theorem expect {t : Token} {what : Expected} :
    P.Alike Eq (Parse.expect t what) (Parse.expect t what) :=
  .peek .failExpected fun _ _ _ _ _ => .ite (fun _ => .skip (.pure rfl)) fun _ => .failExpected

theorem expectMark {s : Symbol} : P.Alike Eq (Parse.expectMark s) (Parse.expectMark s) := .expect

theorem expectName : P.Alike Eq Parse.expectName Parse.expectName := by
  refine .peek .failExpected fun t _ _ _ _ => ?_
  cases t with
  | ident => exact .skip (.pure rfl)
  | _ => exact .failExpected

theorem elementType : P.Alike Eq Parse.elementType Parse.elementType := by
  refine .peek .failExpected fun t _ _ _ _ => ?_
  cases t with
  | ident => exact .skip (.pure rfl)
  | keyword word =>
      cases word with
      | int_ | boolean_ => exact .skip (.pure rfl)
      | _ => exact .failExpected
  | _ => exact .failExpected

theorem isArrayAhead : P.Alike Eq Parse.isArrayAhead Parse.isArrayAhead :=
  .andThen .isAhead fun _ => .andThen .isAhead fun _ => .andThen .isAhead fun _ => .pure rfl

end Alike

/-! ### Expressions -/

/-- An expression with its call sites numbered as on the right. -/
def Moved (P : Pairing) (e e' : Expr) : Prop := e' = e.mapSites (· + P.offset)

/-- The same of arguments, and of the offset behind them. -/
def MovedArgs (P : Pairing) (args args' : List Expr × Nat) : Prop :=
  args' = (Expr.mapSitesAll (· + P.offset) args.1, args.2)

/-- A word that may come is a form of clauses for both dialects or for none. -/
theorem isForm_right {name word : String} (hreads : P.reads (.ident name))
    (hword : word = "old" ∨ word = "result") :
    (P.right.isClause && name == word) = (P.left.isClause && name == word) := by
  rcases P.agree with h | h
  · rw [h]
  · obtain ⟨_, hold, hresult⟩ := h _ hreads
    have hne : (name == word) = false := by
      rw [beq_eq_false_iff_ne]
      rintro rfl
      rcases hword with rfl | rfl
      · exact hold rfl
      · exact hresult rfl
    rw [hne, Bool.and_false, Bool.and_false]

theorem isEffect_right (hreads : P.reads (.symbol .ellipsis)) :
    P.right = .effect ↔ P.left = .effect := by
  rcases P.agree with h | h
  · rw [h]
  · exact absurd rfl (h _ hreads).1

mutual

theorem exprWithin_alike : ∀ n power,
    P.Alike P.Moved (exprWithin P.left n power) (exprWithin P.right n power)
  | 0, _ => .failAtEnd
  | n + 1, power => .bind (operand_alike n) fun _ _ hl => operators_alike n power hl

theorem operators_alike : ∀ n power {lhs lhs' : Expr}, P.Moved lhs lhs' →
    P.Alike P.Moved (operators P.left n power lhs) (operators P.right n power lhs')
  | 0, _, _, _, hl => .pure hl
  | n + 1, power, lhs, _, rfl => by
    refine .peek (.pure rfl) fun t span _ _ _ => ?_
    have operator (op? : Option BinaryOp) : P.Alike P.Moved
        (match op? with
          | none => Pure.pure lhs
          | some op =>
            if leftPower op < power then Pure.pure lhs
            else Parse.skip >>= fun _ => exprWithin P.left n (rightPower op) >>= fun rhs =>
              operators P.left n power (.binary ⟨lhs.span.start, rhs.span.stop⟩ op lhs rhs))
        (match op? with
          | none => Pure.pure (lhs.mapSites (· + P.offset))
          | some op =>
            if leftPower op < power then Pure.pure (lhs.mapSites (· + P.offset))
            else Parse.skip >>= fun _ => exprWithin P.right n (rightPower op) >>= fun rhs =>
              operators P.right n power (.binary
                ⟨(lhs.mapSites (· + P.offset)).span.start, rhs.span.stop⟩ op
                (lhs.mapSites (· + P.offset)) rhs)) := by
      cases op? with
      | none => exact .pure rfl
      | some op =>
          refine .ite (fun _ => .pure rfl) fun _ => .skip (.bind (exprWithin_alike n _) ?_)
          rintro rhs _ rfl
          exact operators_alike n power (by simp only [Moved, Expr.mapSites, Expr.span_mapSites])
    cases t with
    | symbol mark =>
        have hoperator := operator (binaryOp? (.symbol mark))
        cases mark with
        | dot =>
            refine .skip (.andThen .expectName fun name => .andThen .isAhead fun _ =>
              .ite (fun _ => ?_) fun _ => ?_)
            · refine .bind .freshSite ?_
              rintro site _ rfl
              refine .bind (arguments_alike n) ?_
              rintro ⟨args, stop⟩ _ rfl
              exact operators_alike n power
                (by simp only [Moved, Expr.mapSites, Expr.span_mapSites])
            · exact operators_alike n power
                (by simp only [Moved, Expr.mapSites, Expr.span_mapSites])
        | lbracket =>
            refine .skip (.bind (exprWithin_alike n 0) ?_)
            rintro index _ rfl
            refine .andThen .expectMark fun close => operators_alike n power ?_
            simp only [Moved, Expr.mapSites, Expr.span_mapSites]
        | _ => exact hoperator
    | _ => exact .pure rfl

theorem operand_alike (n : Nat) : P.Alike P.Moved (operand P.left n) (operand P.right n) := by
  cases n with
  | zero => exact .failAtEnd
  | succ n =>
      refine .peek .failAtEnd fun token span _ _ hreads => ?_
      -- An operator in front of its operand.
      have prefixed (node : Span → Expr → Expr)
          (hnode : ∀ s e, (node s e).mapSites (· + P.offset) = node s (e.mapSites (· + P.offset))) :
          P.Alike P.Moved
            (Parse.skip >>= fun _ => exprWithin P.left n unaryPower >>= fun e =>
              Pure.pure (node ⟨span.start, e.span.stop⟩ e))
            (Parse.skip >>= fun _ => exprWithin P.right n unaryPower >>= fun e =>
              Pure.pure (node ⟨span.start, e.span.stop⟩ e)) := by
        refine .skip (.bind (exprWithin_alike n _) ?_)
        rintro e _ rfl
        refine .pure ?_
        rw [Moved, hnode, Expr.span_mapSites]
      cases token with
      | int => exact .skip (.pure rfl)
      | ident name => exact .skip (named_alike n hreads)
      | keyword word =>
          cases word with
          | true_ | false_ | null_ | this_ => exact .skip (.pure rfl)
          | new_ => exact .skip (creation_alike n)
          | _ => exact .failAt
      | symbol mark =>
          cases mark with
          | lparen =>
              exact .skip (.bind (exprWithin_alike n 0) fun _ _ hinner =>
                .andThen .expectMark fun _ => .pure hinner)
          | minus => exact prefixed (.unary · .neg ·) fun _ _ => rfl
          | bang => exact prefixed (.unary · .not ·) fun _ _ => rfl
          | ellipsis =>
              simp only [isEffect_right hreads]
              exact .ite (fun _ => prefixed .spread fun _ _ => rfl) fun _ => .failAt
          | _ => exact .failAt
      | _ => exact .failAt

theorem named_alike : ∀ n {name : Located String}, P.reads (.ident name.val) →
    P.Alike P.Moved (named P.left n name) (named P.right n name)
  | 0, _, _ => .pure rfl
  | n + 1, name, hreads => by
    rw [named, named, isForm_right hreads (.inr rfl)]
    refine .ite (fun _ => .pure rfl) fun _ => .andThen .isAhead fun isCall => ?_
    rw [isForm_right hreads (.inl rfl)]
    refine .ite (fun _ => ?_) fun _ => .ite (fun _ => ?_) fun _ => .pure rfl
    · refine .skip (.bind (exprWithin_alike n 0) ?_)
      rintro inner _ rfl
      exact .andThen .expectMark fun close => .pure rfl
    · refine .bind .freshSite ?_
      rintro site _ rfl
      refine .bind (arguments_alike n) ?_
      rintro ⟨args, stop⟩ _ rfl
      exact .pure rfl

theorem creation_alike : ∀ n {start : Span},
    P.Alike P.Moved (creation P.left n start) (creation P.right n start)
  | 0, _ => .failAtEnd
  | n + 1, start => by
    refine .andThen .isArrayAhead fun _ => .ite (fun _ => ?_) fun _ => ?_
    · exact .andThen .elementType fun elem => .andThen .expectMark fun _ =>
        .bind (exprWithin_alike n 0) fun length _ hl => .andThen .expectMark fun close =>
          .pure (by rw [Moved, hl, Expr.mapSites])
    · refine .andThen .expectName fun c => .bind .freshSite ?_
      rintro site _ rfl
      refine .bind (arguments_alike n) ?_
      rintro ⟨args, stop⟩ _ rfl
      exact .pure rfl

theorem arguments_alike (n : Nat) :
    P.Alike P.MovedArgs (arguments P.left n) (arguments P.right n) := by
  cases n with
  | zero => exact .failAtEnd
  | succ n =>
      refine .andThen .expectMark fun _ => .bind (argumentList_alike n true) fun _ _ hargs =>
        .andThen .expectMark fun _ => .pure ?_
      rw [MovedArgs, hargs]

theorem argumentList_alike : ∀ n isFirst,
    P.Alike (fun es es' => es' = Expr.mapSitesAll (· + P.offset) es)
      (argumentList P.left n isFirst) (argumentList P.right n isFirst)
  | 0, _ => .pure rfl
  | n + 1, isFirst => by
    have more : P.Alike (fun es es' => es' = Expr.mapSitesAll (· + P.offset) es)
        (exprWithin P.left n 0 >>= fun arg => argumentList P.left n false >>= fun rest =>
          Pure.pure (arg :: rest))
        (exprWithin P.right n 0 >>= fun arg => argumentList P.right n false >>= fun rest =>
          Pure.pure (arg :: rest)) := by
      refine .bind (exprWithin_alike n 0) ?_
      rintro arg _ rfl
      refine .bind (argumentList_alike n false) ?_
      rintro rest _ rfl
      exact .pure rfl
    exact .andThen .atCloser fun _ => .ite (fun _ => .pure rfl) fun _ =>
      .ite (fun _ => .andThen .expectMark fun _ => more) fun _ => more

end

theorem exprAbove_alike (power : Nat) :
    P.Alike P.Moved (exprAbove P.left power) (exprAbove P.right power) :=
  .andThen .budget fun n => exprWithin_alike n power

theorem callArguments_alike :
    P.Alike P.MovedArgs (callArguments P.left) (callArguments P.right) :=
  .andThen .budget fun n => arguments_alike n

end Pairing

end Parse

end Covenant
