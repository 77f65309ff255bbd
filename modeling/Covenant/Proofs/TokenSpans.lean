import Covenant.Proofs.FaultPlaces
import Covenant.Proofs.ProgramComments

/-!
# Spans from token to token

A span that the parser makes begins where one of its tokens begins and ends where one
of them ends, so no span of a body is that of something in a comment. `Yields` says of
a rule that what it makes has a property, whatever tokens it is given of some list, and
there is one lemma for each way of putting rules together.
-/

namespace Covenant

namespace Surface

mutual

/-- Whether all expressions of a statement are such. -/
def Stmt.All (Q : Expr → Prop) : Stmt → Prop
  | .declare _ _ _ value | .ret _ value => ∀ e, value = some e → Q e
  | .assign _ target value => Q target ∧ Q value
  | .expr _ value | .throw _ value => Q value
  | .branch _ condition a b => Q condition ∧ a.All Q ∧ elseAll Q b
  | .loop _ condition body => Q condition ∧ body.All Q
  | .superCall _ _ args => ∀ e ∈ args, Q e
  | .attempt _ body handlers cleanup => body.All Q ∧ handlersAll Q handlers ∧ blockAll Q cleanup
  | .block _ body => body.All Q

def elseAll (Q : Expr → Prop) : Option Stmt → Prop
  | none => True
  | some s => s.All Q

def Block.All (Q : Expr → Prop) : Block → Prop
  | .mk _ stmts => stmtsAll Q stmts

def blockAll (Q : Expr → Prop) : Option Block → Prop
  | none => True
  | some b => b.All Q

def stmtsAll (Q : Expr → Prop) : List Stmt → Prop
  | [] => True
  | s :: rest => s.All Q ∧ stmtsAll Q rest

def Handler.All (Q : Expr → Prop) : Handler → Prop
  | .mk _ _ body => body.All Q

def handlersAll (Q : Expr → Prop) : List Handler → Prop
  | [] => True
  | h :: rest => h.All Q ∧ handlersAll Q rest

end

theorem Block.All.stmts {Q : Expr → Prop} {b : Block} (h : b.All Q) : stmtsAll Q b.stmts := by
  cases b
  exact h

/-- The same of the body or the first value of a member. -/
def Member.All (Q : Expr → Prop) : Member → Prop
  | .field d => ∀ e, d.init = some e → Q e
  | .constructor d | .method d => blockAll Q d.body
  | .initializer d => d.body.All Q

/-- All spans of some arguments are such. -/
theorem wellSpannedAll_of_forall {P : Span → Prop} {around : Span} {es : List Expr}
    (h : ∀ e ∈ es, e.AllSpans P) : wellSpannedAll (fun s _ => P s) (fun s _ => P s) around es := by
  induction es with
  | nil => exact trivial
  | cons e es ih =>
      obtain ⟨he, hes⟩ := List.forall_mem_cons.mp h
      exact ⟨he, ih hes⟩

end Surface

namespace Parse

open Surface (Expr TypeExpr Stmt Block Handler Member TypeDecl)

/-- A span that begins with a token and ends with one. -/
structure FromTokens (ls : List Lexeme) (s : Span) : Prop where
  start : ∃ l ∈ ls, l.span.start = s.start
  stop : ∃ l ∈ ls, l.span.stop = s.stop

variable {α β : Type} {ls : List Lexeme}

/-- Given some of these tokens, a rule leaves some of them, and what it makes has a property. -/
def Yields (ls : List Lexeme) (x : Parser α) (Q : α → Prop) : Prop :=
  ∀ st a st', st.rest ⊆ ls → x st = .ok (a, st') → st'.rest ⊆ ls ∧ Q a

/-! ## Putting rules together -/

namespace Yields

variable {x y : Parser α} {Q : α → Prop} {R : β → Prop}

theorem pure {a : α} (h : Q a) : Yields ls (Pure.pure a) Q := by
  rintro st _ _ hst ⟨⟩
  exact ⟨hst, h⟩

theorem any {a : α} : Yields ls (Pure.pure a) fun _ => True := .pure trivial

theorem bind {f : α → Parser β} (hx : Yields ls x Q) (hf : ∀ a, Q a → Yields ls (f a) R) :
    Yields ls (x >>= f) R := by
  intro st b st' hst h
  obtain ⟨a, st₁, hxs, h₁⟩ := stateT_bind.mp h
  obtain ⟨hst₁, ha⟩ := hx st a st₁ hst hxs
  exact hf a ha st₁ b st' hst₁ h₁

/-- What is made first need not be known. -/
theorem andThen {Q : α → Prop} {f : α → Parser β} (hx : Yields ls x Q)
    (hf : ∀ a, Yields ls (f a) R) : Yields ls (x >>= f) R :=
  .bind hx fun a _ => hf a

theorem map {f : α → β} (hx : Yields ls x Q) : Yields ls (f <$> x) fun _ => True := by
  intro st b st' hst h
  obtain ⟨a, st₁, hxs, heq⟩ := stateT_map h
  cases heq
  exact ⟨(hx st a _ hst hxs).1, trivial⟩

theorem ite {p : Prop} [Decidable p] (hx : p → Yields ls x Q) (hy : ¬ p → Yields ls y Q) :
    Yields ls (if p then x else y) Q := by
  split
  · next hp => exact hx hp
  · next hp => exact hy hp

theorem failAt {fault : GrammarFault} {span : Span} : Yields ls (Parse.failAt fault span) Q :=
  fun _ _ _ _ h => absurd h not_failAt

theorem failsAt {fault : GrammarFault} {span : Span} {f : α → Parser β} :
    Yields ls (Parse.failAt fault span >>= f) R :=
  .bind (Q := fun _ => False) .failAt fun _ h => h.elim

theorem failAtEnd {fault : GrammarFault} : Yields ls (Parse.failAtEnd fault) Q :=
  fun _ _ _ _ h => absurd h not_failAtEnd

theorem failExpected {what : Expected} : Yields ls (Parse.failExpected what) Q :=
  fun _ _ _ _ h => absurd h not_failExpected

/-- A rule that only looks at what is there. -/
theorem look {x : Parser α} (h : ∀ {st a st'}, x st = .ok (a, st') → st = st') :
    Yields ls x fun _ => True :=
  fun _ _ _ hst hx => ⟨h hx ▸ hst, trivial⟩

/-- A rule that takes tokens off. -/
theorem skips {x : Parser α} (h : ∀ {st a st'}, x st = .ok (a, st') → Skips st st') :
    Yields ls x fun _ => True :=
  fun _ _ _ hst hx => ⟨List.Subset.trans (h hx).rest.subset hst, trivial⟩

theorem peek : Yields ls Parse.peek fun l => ∀ x, l = some x → x ∈ ls := by
  intro st l st' hst h
  obtain ⟨rfl, rfl⟩ := peek_ok h
  exact ⟨hst, fun x hx => hst (List.mem_of_mem_head? hx)⟩

theorem skip : Yields ls Parse.skip fun _ => True := .skips skip_ok

theorem eat {t : Token} : Yields ls (Parse.eat t) fun _ => True := .skips eat_ok

theorem isAhead {n : Nat} {t : Token} : Yields ls (Parse.isAhead n t) fun _ => True :=
  .look isAhead_ok

theorem budget : Yields ls Parse.budget fun _ => True := .look budget_ok

theorem freshSite : Yields ls Parse.freshSite fun _ => True := by
  rintro st n st' hst ⟨⟩
  exact ⟨hst, trivial⟩

theorem freshDecl : Yields ls Parse.freshDecl fun _ => True := by
  rintro st n st' hst ⟨⟩
  exact ⟨hst, trivial⟩

end Yields

theorem fromTokens_of_mem {l : Lexeme} (h : l ∈ ls) : FromTokens ls l.span :=
  ⟨⟨l, h, rfl⟩, l, h, rfl⟩

theorem expect_yields {t : Token} {what : Expected} :
    Yields ls (expect t what) (FromTokens ls) := by
  refine .bind .peek fun l hl => ?_
  cases l with
  | none => exact .failExpected
  | some l =>
      refine .ite (fun _ => ?_) fun _ => .failExpected
      exact .andThen .skip fun _ => .pure (fromTokens_of_mem (hl l rfl))

theorem expectMark_yields {s : Symbol} : Yields ls (expectMark s) (FromTokens ls) := expect_yields

theorem expectName_yields : Yields ls expectName fun n => FromTokens ls n.span := by
  refine .bind .peek fun l hl => ?_
  split
  · exact .andThen .skip fun _ => .pure (fromTokens_of_mem (hl _ rfl))
  · exact .failExpected

theorem atCloser_yields {c : Symbol} : Yields ls (atCloser c) fun _ => True := .look atCloser_ok

/-! ## Types and expressions -/

theorem elementType_yields : Yields ls elementType fun t => FromTokens ls t.span ∧
    t.WellSpanned (fun s _ => FromTokens ls s) fun s _ => FromTokens ls s := by
  refine .bind .peek fun l hl => ?_
  split
  · exact .andThen .skip fun _ => .pure ⟨fromTokens_of_mem (hl _ rfl), fromTokens_of_mem (hl _ rfl)⟩
  · exact .andThen .skip fun _ => .pure ⟨fromTokens_of_mem (hl _ rfl), fromTokens_of_mem (hl _ rfl)⟩
  · exact .andThen .skip fun _ => .pure ⟨fromTokens_of_mem (hl _ rfl), fromTokens_of_mem (hl _ rfl)⟩
  · exact .failExpected

/-- All spans of an expression begin with a token and end with one. -/
abbrev Tokened (ls : List Lexeme) (e : Expr) : Prop := e.AllSpans (FromTokens ls)

/-- The same of arguments, and of the offset behind them. -/
abbrev ArgsTokened (ls : List Lexeme) (args : List Expr × Nat) : Prop :=
  (∀ e ∈ args.1, Tokened ls e) ∧ ∃ l ∈ ls, l.span.stop = args.2

mutual

theorem exprWithin_yields {d : Dialect} : ∀ n power, Yields ls (exprWithin d n power) (Tokened ls)
  | 0, _ => .failAtEnd
  | n + 1, power => .bind (operand_yields n) fun _ hl => operators_yields n power hl

theorem operators_yields {d : Dialect} : ∀ n power {lhs : Expr}, Tokened ls lhs →
    Yields ls (operators d n power lhs) (Tokened ls)
  | 0, _, _, hl => .pure hl
  | n + 1, power, lhs, hl => by
    refine .bind .peek fun l _ => ?_
    split
    · exact .pure hl
    · refine .andThen .skip fun _ => .bind expectName_yields fun name hname =>
        .andThen .isAhead fun _ => .ite (fun _ => ?_) fun _ => ?_
      · refine .andThen .freshSite fun _ => .bind (arguments_yields n) fun (args, stop) hargs => ?_
        exact operators_yields n power ⟨⟨hl.1.start, hargs.2⟩, hl, ⟨hname, hname⟩,
          Surface.wellSpannedAll_of_forall hargs.1⟩
      · exact operators_yields n power ⟨⟨hl.1.start, hname.stop⟩, hl, hname, hname⟩
    · refine .andThen .skip fun _ => .bind (exprWithin_yields n 0) fun index hi =>
        .bind expectMark_yields fun close hclose => ?_
      exact operators_yields n power ⟨⟨hl.1.start, hclose.stop⟩, hl, hi⟩
    · split
      · exact .pure hl
      · refine .ite (fun _ => .pure hl) fun _ => ?_
        refine .andThen .skip fun _ => .bind (exprWithin_yields n _) fun rhs hr => ?_
        exact operators_yields n power ⟨⟨hl.1.start, hr.1.stop⟩, hl, hr⟩

theorem operand_yields {d : Dialect} (n : Nat) : Yields ls (operand d n) (Tokened ls) := by
  cases n with
  | zero => exact .failAtEnd
  | succ n =>
      refine .bind .peek fun l hl => ?_
      split
      · exact .failAtEnd
      · next token span _ =>
          have hspan : FromTokens ls span := fromTokens_of_mem (hl _ rfl)
          -- An operator in front of its operand.
          have prefixed (node : Span → Expr → Expr)
              (hnode : ∀ s e, FromTokens ls s → Tokened ls e → Tokened ls (node s e)) :
              Yields ls (Parse.skip >>= fun _ => exprWithin d n unaryPower >>= fun e =>
                Pure.pure (node ⟨span.start, e.span.stop⟩ e)) (Tokened ls) :=
            .andThen .skip fun _ => .bind (exprWithin_yields n _) fun e he =>
              .pure (hnode _ e ⟨hspan.start, he.1.stop⟩ he)
          cases token with
          | int => exact .andThen .skip fun _ => .pure ⟨hspan, trivial⟩
          | ident => exact .andThen .skip fun _ => named_yields n hspan
          | keyword word =>
              cases word with
              | true_ | false_ | null_ | this_ =>
                  exact .andThen .skip fun _ => .pure ⟨hspan, trivial⟩
              | new_ => exact .andThen .skip fun _ => creation_yields n hspan
              | _ => exact .failAt
          | symbol mark =>
              cases mark with
              | lparen =>
                  exact .andThen .skip fun _ => .bind (exprWithin_yields n 0) fun _ hinner =>
                    .andThen expectMark_yields fun _ => .pure hinner
              | minus => exact prefixed (.unary · .neg ·) fun _ _ hs he => ⟨hs, he⟩
              | bang => exact prefixed (.unary · .not ·) fun _ _ hs he => ⟨hs, he⟩
              | ellipsis =>
                  exact .ite (fun _ => prefixed .spread fun _ _ hs he => ⟨hs, he⟩) fun _ => .failAt
              | _ => exact .failAt
          | _ => exact .failAt

theorem named_yields {d : Dialect} : ∀ n {name : Located String}, FromTokens ls name.span →
    Yields ls (named d n name) (Tokened ls)
  | 0, _, hname => .pure ⟨hname, hname⟩
  | n + 1, name, hname => by
    refine .ite (fun _ => .pure ⟨hname, hname⟩) fun _ => .andThen .isAhead fun _ =>
      .ite (fun _ => ?_) fun _ => .ite (fun _ => ?_) fun _ => .pure ⟨hname, hname⟩
    · exact .andThen .skip fun _ => .bind (exprWithin_yields n 0) fun inner hi =>
        .bind expectMark_yields fun close hclose => .pure ⟨⟨hname.start, hclose.stop⟩, hi⟩
    · exact .andThen .freshSite fun _ => .bind (arguments_yields n) fun (args, stop) hargs =>
        .pure ⟨⟨hname.start, hargs.2⟩, ⟨hname, hname⟩, Surface.wellSpannedAll_of_forall hargs.1⟩

theorem creation_yields {d : Dialect} : ∀ n {start : Span}, FromTokens ls start →
    Yields ls (creation d n start) (Tokened ls)
  | 0, _, _ => .failAtEnd
  | n + 1, start, hstart => by
    refine .andThen (.look isArrayAhead_ok) fun _ => .ite (fun _ => ?_) fun _ => ?_
    · exact .bind elementType_yields fun elem helem => .andThen expectMark_yields fun _ =>
        .bind (exprWithin_yields n 0) fun length hl => .bind expectMark_yields fun close hclose =>
          .pure ⟨⟨hstart.start, hclose.stop⟩, helem, hl⟩
    · exact .bind expectName_yields fun c hc => .andThen .freshSite fun _ =>
        .bind (arguments_yields n) fun (args, stop) hargs =>
          .pure ⟨⟨hstart.start, hargs.2⟩, ⟨hc, hc⟩, Surface.wellSpannedAll_of_forall hargs.1⟩

theorem arguments_yields {d : Dialect} (n : Nat) :
    Yields ls (arguments d n) (ArgsTokened ls) := by
  cases n with
  | zero => exact .failAtEnd
  | succ n =>
      exact .andThen expectMark_yields fun _ => .bind (argumentList_yields n true) fun _ hargs =>
        .bind expectMark_yields fun _ hclose => .pure ⟨hargs, hclose.stop⟩

theorem argumentList_yields {d : Dialect} : ∀ n isFirst,
    Yields ls (argumentList d n isFirst) fun es => ∀ e ∈ es, Tokened ls e
  | 0, _ => .pure (List.forall_mem_nil _)
  | n + 1, isFirst => by
    have more : Yields ls (exprWithin d n 0 >>= fun arg => argumentList d n false >>= fun rest =>
        Pure.pure (arg :: rest)) fun es => ∀ e ∈ es, Tokened ls e :=
      .bind (exprWithin_yields n 0) fun _ harg => .bind (argumentList_yields n false) fun _ hrest =>
        .pure (List.forall_mem_cons.mpr ⟨harg, hrest⟩)
    refine .andThen atCloser_yields fun _ => .ite (fun _ => .pure (List.forall_mem_nil _))
      fun _ => .ite (fun _ => .andThen expectMark_yields fun _ => more) fun _ => more

end

theorem expr_yields {d : Dialect} : Yields ls (expr d) (Tokened ls) :=
  .andThen .budget fun n => exprWithin_yields n 0

theorem callArguments_yields {d : Dialect} : Yields ls (callArguments d) (ArgsTokened ls) :=
  .andThen .budget fun n => arguments_yields n

/-! ## Statements -/

theorem arraySuffixes_yields : ∀ n t, Yields ls (arraySuffixes n t) fun _ => True
  | 0, _ => .pure trivial
  | n + 1, _ => .andThen .isAhead fun _ => .andThen .isAhead fun _ =>
      .ite (fun _ => .andThen .skip fun _ => .andThen expectMark_yields fun _ =>
        arraySuffixes_yields n _) fun _ => .pure trivial

theorem typeExpr_yields : Yields ls typeExpr fun _ => True :=
  .andThen elementType_yields fun t => .andThen .budget fun n => arraySuffixes_yields n t

theorem semicolon_yields : Yields ls semicolon fun _ => True := .skips semicolon_ok

theorem optionalValue_yields : Yields ls optionalValue fun v => ∀ e, v = some e → Tokened ls e :=
  .andThen .eat fun _ => .ite
    (fun _ => .bind expr_yields fun _ he => .pure fun _ heq => Option.some.inj heq ▸ he)
    fun _ => .pure fun _ heq => nomatch heq

theorem condition_yields : Yields ls condition (Tokened ls) :=
  .andThen expectMark_yields fun _ => .bind expr_yields fun _ he =>
    .andThen expectMark_yields fun _ => .pure he

theorem declaration_yields {start : Nat} :
    Yields ls (declaration start) (Stmt.All (Tokened ls)) :=
  .andThen typeExpr_yields fun _ => .andThen expectName_yields fun _ =>
    .bind optionalValue_yields fun _ hv => .andThen semicolon_yields fun _ => .pure hv

theorem simpleStmt_yields {start : Nat} : Yields ls (simpleStmt start) (Stmt.All (Tokened ls)) := by
  refine .bind expr_yields fun e he => .andThen .eat fun _ => .ite (fun _ => ?_) fun _ => ?_
  · exact .ite (fun _ => .failsAt) fun _ =>
      .bind expr_yields fun v hv => .andThen semicolon_yields fun _ => .pure ⟨he, hv⟩
  · exact .andThen semicolon_yields fun _ => .pure he

mutual

theorem stmtWithin_yields (n : Nat) : Yields ls (stmtWithin n) (Stmt.All (Tokened ls)) := by
  cases n with
  | zero => exact .failAtEnd
  | succ n =>
      refine .andThen (.look position_ok) fun start => .bind .peek fun l _ => ?_
      split
      · exact .failAtEnd
      · split
        · exact .bind (blockWithin_yields n) fun _ hb => .pure hb
        · refine .andThen .skip fun _ => .bind condition_yields fun cond hc =>
            .bind (stmtWithin_yields n) fun yes hyes => .andThen .eat fun _ => .ite (fun _ => ?_)
              fun _ => .pure ⟨hc, hyes, trivial⟩
          exact .bind (stmtWithin_yields n) fun no hno => .pure ⟨hc, hyes, hno⟩
        · exact .andThen .skip fun _ => .bind condition_yields fun cond hc =>
            .bind (stmtWithin_yields n) fun body hbody => .pure ⟨hc, hbody⟩
        · refine .andThen .skip fun _ => .andThen .isAhead fun _ => .ite (fun _ => ?_) fun _ => ?_
          · exact .andThen semicolon_yields fun _ => .pure fun _ heq => nomatch heq
          · exact .bind expr_yields fun v hv => .andThen semicolon_yields fun _ =>
              .pure fun _ heq => Option.some.inj heq ▸ hv
        · refine .andThen .skip fun _ => .bind (blockWithin_yields n) fun body hbody =>
            .bind (handlersWithin_yields n) fun handlers hh => .andThen .eat fun _ =>
              .ite (fun _ => ?_) fun _ => ?_
          · exact .bind (blockWithin_yields n) fun cleanup hc => .pure ⟨hbody, hh, hc⟩
          · exact .ite (fun _ => .failsAt) fun _ =>
              .pure ⟨hbody, hh, trivial⟩
        · exact .andThen .skip fun _ => .bind expr_yields fun v hv =>
            .andThen semicolon_yields fun _ => .pure hv
        · exact .andThen .skip fun _ => .andThen .freshSite fun _ =>
            .bind callArguments_yields fun (args, stop) hargs => .andThen semicolon_yields fun _ =>
              .pure hargs.1
        · exact .andThen (.look isDeclarationAhead_ok) fun _ => .ite (fun _ => declaration_yields)
            fun _ => simpleStmt_yields

theorem blockWithin_yields (n : Nat) : Yields ls (blockWithin n) (Block.All (Tokened ls)) := by
  cases n with
  | zero => exact .failExpected
  | succ n =>
      exact .andThen expectMark_yields fun _ => .bind (stmtsWithin_yields n) fun _ hstmts =>
        .andThen expectMark_yields fun _ => .pure hstmts

theorem stmtsWithin_yields (n : Nat) :
    Yields ls (stmtsWithin n) (Surface.stmtsAll (Tokened ls)) := by
  cases n with
  | zero => exact .pure trivial
  | succ n =>
      refine .andThen atCloser_yields fun _ => .ite (fun _ => .pure trivial) fun _ => ?_
      exact .bind (stmtWithin_yields n) fun _ hs => .bind (stmtsWithin_yields n) fun _ hrest =>
        .pure ⟨hs, hrest⟩

theorem handlersWithin_yields (n : Nat) :
    Yields ls (handlersWithin n) (Surface.handlersAll (Tokened ls)) := by
  cases n with
  | zero => exact .pure trivial
  | succ n =>
      refine .andThen .eat fun _ => .ite (fun _ => ?_) fun _ => .pure trivial
      exact .andThen expectMark_yields fun _ => .andThen expectName_yields fun _ =>
        .andThen expectName_yields fun _ => .andThen expectMark_yields fun _ =>
          .bind (blockWithin_yields n) fun _ hbody => .bind (handlersWithin_yields n)
            fun _ hrest => .pure ⟨hbody, hrest⟩

end

theorem block_yields : Yields ls block (Block.All (Tokened ls)) :=
  .andThen .budget fun n => blockWithin_yields n

/-! ## Declarations -/

theorem parameterList_yields : ∀ n isFirst, Yields ls (parameterList n isFirst) fun _ => True
  | 0, _ => .pure trivial
  | n + 1, _ => by
    have more : Yields ls (typeExpr >>= fun type => expectName >>= fun name =>
        parameterList n false >>= fun rest => Pure.pure ((⟨name, type⟩ : Surface.Param) :: rest))
        fun _ => True :=
      .andThen typeExpr_yields fun _ => .andThen expectName_yields fun _ =>
        .andThen (parameterList_yields n false) fun _ => .pure trivial
    exact .andThen atCloser_yields fun _ => .ite (fun _ => .pure trivial) fun _ =>
      .ite (fun _ => .andThen expectMark_yields fun _ => more) fun _ => more

theorem parameters_yields : Yields ls parameters fun _ => True :=
  .andThen expectMark_yields fun _ => .andThen .budget fun n =>
    .andThen (parameterList_yields n true) fun _ => .andThen expectMark_yields fun _ =>
      .pure trivial

theorem constructorDecl_yields {id : DeclId} {doc : Option Surface.DocComment} {start : Nat} :
    Yields ls (constructorDecl id doc start) (Member.All (Tokened ls)) :=
  .andThen expectName_yields fun _ => .andThen parameters_yields fun _ =>
    .bind block_yields fun _ hb => .pure hb

theorem memberTail_yields {id : DeclId} {doc : Option Surface.DocComment} {start : Nat}
    {isStatic : Bool} (type : Option TypeExpr) :
    Yields ls (memberTail id doc start isStatic type) (Member.All (Tokened ls)) := by
  refine .andThen expectName_yields fun name => .andThen .isAhead fun _ =>
    .ite (fun _ => ?_) fun _ => ?_
  · refine .andThen parameters_yields fun params => .andThen .isAhead fun _ =>
      .ite (fun _ => ?_) fun _ => ?_
    · exact .andThen semicolon_yields fun _ => .pure trivial
    · exact .bind block_yields fun _ hb => .pure hb
  · cases type with
    | none => exact .failAt
    | some type =>
        exact .bind optionalValue_yields fun _ hv => .andThen semicolon_yields fun _ => .pure hv

theorem typedMember_yields {id : DeclId} {doc : Option Surface.DocComment} {start : Nat}
    {isStatic : Bool} :
    Yields ls (typedMember id doc start isStatic) (Member.All (Tokened ls)) := by
  exact .andThen .eat fun _ => .ite (fun _ => .andThen .any memberTail_yields)
    fun _ => .andThen (.map typeExpr_yields) memberTail_yields

theorem member_yields {owner : String} : Yields ls (member owner) (Member.All (Tokened ls)) := by
  refine .andThen (.look fun h => (documentation_ok h).1) fun doc =>
    .andThen (.look position_ok) fun start => .andThen .freshDecl fun id =>
    .andThen .isAhead fun _ => .ite (fun _ => ?_) fun _ => ?_
  · exact .bind block_yields fun _ hb => .pure hb
  · exact .andThen .eat fun isStatic => .andThen (.look isConstructorAhead_ok) fun _ =>
      .ite (fun _ => constructorDecl_yields) fun _ => typedMember_yields

theorem members_yields {owner : String} {kind : Surface.TypeKind} (n : Nat) :
    Yields ls (members owner kind n) fun ms => ∀ m ∈ ms, m.All (Tokened ls) := by
  induction n with
  | zero => exact .pure (List.forall_mem_nil _)
  | succ n ih =>
      refine .andThen atCloser_yields fun _ => .ite (fun _ => .pure (List.forall_mem_nil _))
        fun _ => .bind member_yields fun _ hm => .ite (fun _ => .failsAt) fun _ => ?_
      exact .bind ih fun _ hrest => .pure (List.forall_mem_cons.mpr ⟨hm, hrest⟩)

theorem nameList_yields (n : Nat) : Yields ls (nameList n) fun _ => True := by
  induction n with
  | zero => exact .pure trivial
  | succ n ih =>
      exact .andThen expectName_yields fun _ => .andThen .eat fun _ =>
        .ite (fun _ => .andThen ih fun _ => .pure trivial) fun _ => .pure trivial

theorem namesAfter_yields {word : Keyword} : Yields ls (namesAfter word) fun _ => True :=
  .andThen .eat fun _ => .ite (fun _ => .andThen .budget fun n => nameList_yields (n + 1))
    fun _ => .pure trivial

theorem typeDecl_yields {kind : Surface.TypeKind} {doc : Option Surface.DocComment} {start : Span} :
    Yields ls (typeDecl kind doc start) fun t => ∀ m ∈ t.members, m.All (Tokened ls) := by
  have body {id : DeclId} {name : Located String} {superclass : Option (Located String)}
      {interfaces : List (Located String)} :
      Yields ls (expectMark .lbrace >>= fun _ => budget >>= fun n => members name.val kind n >>=
        fun members => expectMark .rbrace >>= fun close => pure
          ({ id, kind, name, superclass, interfaces, doc, members,
             span := ⟨start.start, close.stop⟩ } : TypeDecl))
        fun t => ∀ m ∈ t.members, m.All (Tokened ls) :=
    .andThen expectMark_yields fun _ => .andThen .budget fun n => .bind (members_yields n)
      fun ms hms => .andThen expectMark_yields fun _ => .pure hms
  refine .andThen .freshDecl fun id => .andThen expectName_yields fun name => ?_
  cases kind with
  | ofClass =>
      exact .andThen .eat fun _ => .ite
        (fun _ => .andThen (.map expectName_yields) fun _ => .andThen namesAfter_yields fun _ =>
          body)
        fun _ => .andThen .any fun _ => .andThen namesAfter_yields fun _ => body
  | ofInterface =>
      exact .andThen .any fun _ => .andThen namesAfter_yields fun _ => body

theorem typeDecls_yields (n : Nat) : Yields ls (typeDecls n) fun ts =>
    ∀ t ∈ ts, ∀ m ∈ t.members, m.All (Tokened ls) := by
  induction n with
  | zero => exact .pure (List.forall_mem_nil _)
  | succ n ih =>
      refine .andThen (.look fun h => (documentation_ok h).1) fun doc => .bind .peek fun l _ => ?_
      have more {kind : Surface.TypeKind} {span : Span} :
          Yields ls (skip >>= fun _ => typeDecl kind doc span >>= fun t => typeDecls n >>=
            fun rest => pure (t :: rest)) fun ts => ∀ t ∈ ts, ∀ m ∈ t.members, m.All (Tokened ls) :=
        .andThen .skip fun _ => .bind typeDecl_yields fun t ht => .bind ih
          fun rest hrest => .pure (List.forall_mem_cons.mpr ⟨ht, hrest⟩)
      split
      · exact .pure (List.forall_mem_nil _)
      · exact more
      · exact more
      · exact .failExpected

/-- All spans of the bodies and first values of a program begin with a token and end with one. -/
theorem program_tokened {source : String} {p : Surface.Program} (h : program source = .ok p) :
    ∃ ts, Scan.program source.toList = .ok ts ∧
      ∀ t ∈ p.types, ∀ m ∈ t.members, m.All (Tokened (lexemesFrom none ts)) := by
  obtain ⟨ts, n, st, hts, htypes, _⟩ := program_ok h
  exact ⟨ts, hts, (typeDecls_yields n _ _ _ (List.Subset.refl _) htypes).2⟩

end Parse

end Covenant
