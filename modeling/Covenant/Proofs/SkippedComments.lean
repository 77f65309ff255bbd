import Covenant.Proofs.ParallelParses
import Covenant.Proofs.TokenSpans

/-!
# Comments are transparent

The grammar does not see comments. Parsing with and without them goes abreast, so
both fail or both yield the same program but for documentation. And the
documentation of a declaration is where a reader looks for it: it is the last
documentation comment among the comments right in front of its first token.
-/

namespace Covenant

/-! ## Programs without documentation -/

namespace Surface

end Surface

namespace Parse

open Surface (Expr TypeExpr Stmt Block Handler DocComment Member TypeDecl Program)

/-! ## The grammar with and without comments -/

/-- What two parses of a program have in common that find different comments. -/
def Pairing.transparent : Pairing where
  left := .body
  right := .body
  offset := 0
  exact := False
  reads _ := True
  agree := .inl rfl

/-- A rule that makes the same whatever comments there are. -/
abbrev Clear {α : Type} (x : Parser α) : Prop := Pairing.transparent.Alike Eq x x

variable {α β : Type} {R : α → β → Prop}

theorem expr_clear : Clear (expr .body) :=
  (Pairing.exprAbove_alike (P := .transparent) 0).mono fun e _ h =>
    (h.trans (Expr.mapSites_of_id Nat.add_zero e)).symm

theorem callArguments_clear : Clear (callArguments .body) :=
  (Pairing.callArguments_alike (P := .transparent)).mono fun args _ h =>
    (h.trans (Prod.ext (Expr.mapSitesAll_of_id Nat.add_zero args.1) rfl)).symm

theorem freshSite_clear : Clear freshSite :=
  (Pairing.Alike.freshSite (P := .transparent)).mono fun _ _ h => h.symm

/-- The offset where a rule starts counts only if there is a token left. -/
theorem position_alike {f : Nat → Parser α} {g : Nat → Parser β}
    (h : ∀ start, Pairing.transparent.Alike R (f start) (g start))
    (hf : ∀ start st, st.rest = [] → ∃ e, f start st = .error e)
    (hg : ∀ start st, st.rest = [] → ∃ e, g start st = .error e) :
    Pairing.transparent.Alike R (position >>= f) (position >>= g) := by
  intro st st' hst
  show Pairing.transparent.Ends R (f ((st.rest.head?.map (·.span.start)).getD st.eof) st)
    (g ((st'.rest.head?.map (·.span.start)).getD st'.eof) st')
  cases hrest : st.rest with
  | nil =>
      have hrest' : st'.rest = [] := List.length_eq_zero_iff.mp (by rw [hst.length, hrest]; rfl)
      obtain ⟨e, he⟩ := hf ((st.rest.head?.map (·.span.start)).getD st.eof) st hrest
      obtain ⟨e', he'⟩ := hg ((st'.rest.head?.map (·.span.start)).getD st'.eof) st' hrest'
      rw [hrest] at he
      rw [he, he']
      exact .error False.elim
  | cons l ls =>
      have hhead := hst.getElem? 0
      rw [hrest, List.getElem?_cons_zero, Option.map_some, ← List.head?_eq_getElem?] at hhead
      obtain ⟨l', hl', heq⟩ := Option.map_eq_some_iff.mp hhead
      rw [hl', Option.map_some, Option.getD_some, show l'.span = l.span from congrArg Located.span heq]
      exact h l.span.start hst

theorem peek_at_end {f : Option Lexeme → Parser α} {st : State} (h : st.rest = []) :
    (peek >>= f) st = f none st := by
  show f st.rest.head? st = _
  rw [h]
  rfl

/-! ### Types and statements -/

theorem arraySuffixes_clear : ∀ n t, Clear (arraySuffixes n t)
  | 0, _ => .pure rfl
  | n + 1, _ => .andThen .isAhead fun _ => .andThen .isAhead fun _ =>
      .ite (fun _ => .skip (.andThen .expectMark fun _ => arraySuffixes_clear n _))
        fun _ => .pure rfl

theorem typeExpr_clear : Clear typeExpr :=
  .andThen .elementType fun t => .andThen .budget fun n => arraySuffixes_clear n t

theorem isDeclarationAhead_clear : Clear isDeclarationAhead := by
  intro st st' hst
  refine .ok ?_ hst
  have htokens (rest : List Lexeme) : (rest.take 3).map (·.token) =
      ((rest.map Lexeme.bare).take 3).map (·.val) := by
    rw [← List.map_take, List.map_map]
    rfl
  rw [htokens, htokens, hst.rest]

theorem semicolon_clear : Clear semicolon := .andThen .expectMark fun _ => .pure rfl

theorem optionalValue_clear : Clear optionalValue :=
  .andThen .eat fun _ => .ite (fun _ => .andThen expr_clear fun _ => .pure rfl) fun _ => .pure rfl

theorem condition_clear : Clear condition :=
  .andThen .expectMark fun _ => .andThen expr_clear fun _ => .andThen .expectMark fun _ => .pure rfl

theorem declaration_clear {start : Nat} : Clear (declaration start) :=
  .andThen typeExpr_clear fun _ => .andThen .expectName fun _ =>
    .andThen optionalValue_clear fun _ => .andThen semicolon_clear fun _ => .pure rfl

theorem simpleStmt_clear {start : Nat} : Clear (simpleStmt start) := by
  refine .andThen expr_clear fun e => .andThen .eat fun _ => .ite (fun _ => ?_) fun _ => ?_
  · have rest : Clear (Parse.expr .body >>= fun value => semicolon >>= fun stop =>
        Pure.pure (Stmt.assign ⟨start, stop⟩ e value)) :=
      .andThen expr_clear fun v => .andThen semicolon_clear fun _ => .pure rfl
    exact .ite (fun _ => .failsAt) fun _ => rest
  · exact .andThen semicolon_clear fun _ => .pure rfl

mutual

theorem stmtWithin_clear (n : Nat) : Clear (stmtWithin n) := by
  cases n with
  | zero => exact .failAtEnd
  | succ n =>
      refine position_alike (fun start => ?_) (fun _ _ h => ⟨_, peek_at_end h⟩)
        fun _ _ h => ⟨_, peek_at_end h⟩
      refine .peek .failAtEnd fun token span _ _ _ => ?_
      have other : Clear (isDeclarationAhead >>= fun isDeclaration =>
          if isDeclaration then declaration start else simpleStmt start) :=
        .andThen isDeclarationAhead_clear fun _ => .ite (fun _ => declaration_clear)
          fun _ => simpleStmt_clear
      cases token with
      | symbol mark =>
          cases mark with
          | lbrace => exact .andThen (blockWithin_clear n) fun _ => .pure rfl
          | _ => exact other
      | keyword word =>
          cases word with
          | if_ =>
              refine .skip (.andThen condition_clear fun cond => .andThen (stmtWithin_clear n)
                fun yes => .andThen .eat fun _ => .ite (fun _ => ?_) fun _ => .pure rfl)
              exact .andThen (stmtWithin_clear n) fun no => .pure rfl
          | while_ =>
              exact .skip (.andThen condition_clear fun cond => .andThen (stmtWithin_clear n)
                fun body => .pure rfl)
          | return_ =>
              refine .skip (.andThen .isAhead fun _ => .ite (fun _ => ?_) fun _ => ?_)
              · exact .andThen semicolon_clear fun _ => .pure rfl
              · exact .andThen expr_clear fun v => .andThen semicolon_clear fun _ => .pure rfl
          | try_ =>
              refine .skip (.andThen (blockWithin_clear n) fun body =>
                .andThen (handlersWithin_clear n) fun handlers => .andThen .eat fun _ =>
                  .ite (fun _ => ?_) fun _ => ?_)
              · exact .andThen (blockWithin_clear n) fun cleanup => .pure rfl
              · exact .ite (fun _ => .failsAt) fun _ => .pure rfl
          | throw_ =>
              exact .skip (.andThen expr_clear fun v => .andThen semicolon_clear fun _ => .pure rfl)
          | super_ =>
              exact .skip (.andThen freshSite_clear fun _ => .andThen callArguments_clear
                fun (args, stop) => .andThen semicolon_clear fun _ => .pure rfl)
          | _ => exact other
      | _ => exact other

theorem blockWithin_clear (n : Nat) : Clear (blockWithin n) := by
  cases n with
  | zero => exact .failExpected
  | succ n =>
      exact .andThen .expectMark fun _ => .andThen (stmtsWithin_clear n) fun _ =>
        .andThen .expectMark fun _ => .pure rfl

theorem stmtsWithin_clear (n : Nat) : Clear (stmtsWithin n) := by
  cases n with
  | zero => exact .pure rfl
  | succ n =>
      exact .andThen .atCloser fun _ => .ite (fun _ => .pure rfl) fun _ =>
        .andThen (stmtWithin_clear n) fun _ => .andThen (stmtsWithin_clear n) fun _ => .pure rfl

theorem handlersWithin_clear (n : Nat) : Clear (handlersWithin n) := by
  cases n with
  | zero => exact .pure rfl
  | succ n =>
      refine .andThen .eat fun _ => .ite (fun _ => ?_) fun _ => .pure rfl
      exact .andThen .expectMark fun _ => .andThen .expectName fun _ => .andThen .expectName fun _ =>
        .andThen .expectMark fun _ => .andThen (blockWithin_clear n) fun _ =>
          .andThen (handlersWithin_clear n) fun _ => .pure rfl

end

section

variable {id : DeclId} {doc doc' : Option DocComment} {start : Nat} {isStatic : Bool}

end

/-- The tokens that the grammar reads are those that are no comments. -/
theorem bare_lexemesFrom (doc : Option DocComment) (ts : List (Located Token)) :
    (lexemesFrom doc ts).map Lexeme.bare = ts.filter (!·.val.isComment) := by
  induction ts generalizing doc with
  | nil => rfl
  | cons t ts ih =>
      obtain ⟨t, span⟩ := t
      cases t with
      | comment kind text => cases kind <;> exact ih _
      | _ => exact congrArg (_ :: ·) (ih _)

section

variable {ls : List Lexeme} {Q : α → Prop}

variable {id : DeclId} {doc : Option DocComment} {start : Nat} {isStatic : Bool}

end

end Parse

end Covenant
