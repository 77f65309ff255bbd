import Covenant.Proofs.SkippedComments

/-!
# What clauses and bodies share

Clauses know `old(e)`, `result` and `...e` besides the expressions of bodies. Where none
of the words that these begin with occurs, a clause is read as an expression of a body
is: the two parses go abreast, and all that tells them apart is where the numbers of
call sites begin.
-/

namespace Covenant.Parse

/-- The tokens that begin no form of clauses. -/
def IsHost (t : Token) : Prop := t ≠ .symbol .ellipsis ∧ t ≠ .ident "old" ∧ t ≠ .ident "result"

/-- An expression parsed as one of a body, and as one of a clause whose call sites are numbered from
further on. -/
def Pairing.extended (d : Dialect) (offset : Nat) : Pairing where
  left := .body
  right := d
  offset := offset
  exact := True
  reads := IsHost
  agree := .inr fun _ h => h

variable {ts : List (Located Token)} {d : Dialect} {offset : Nat}

theorem abreast_extended (hts : ∀ t ∈ ts, IsHost t.val) :
    (Pairing.extended d offset).Abreast (.ofTokens ts 0) (.ofTokens ts offset) where
  rest := rfl
  exact _ := ⟨rfl, rfl⟩
  decl := rfl
  site := (Nat.zero_add offset).symm
  reads l hl := by
    -- The parser sees the tokens that are no comments, as they are.
    have hbare : l.bare ∈ ts.filter (!·.val.isComment) :=
      bare_lexemesFrom none ts ▸ List.mem_map_of_mem hl
    exact hts l.bare (List.mem_filter.mp hbare).1

/-- States that are abreast with the same tokens left differ in where their numbers go on. -/
theorem Pairing.Abreast.eq_add {st st' : State} (h : (extended d offset).Abreast st st') :
    st' = { st with nextSite := st.nextSite + offset } := by
  obtain ⟨hrest, heof⟩ := h.exact trivial
  show State.mk st'.rest st'.eof st'.nextDecl st'.nextSite = _
  rw [hrest, heof, h.decl, h.site]
  rfl

/-- Over tokens that begin no form of clauses, reading an expression of a clause and reading one of
a body either fail alike, or yield expressions that differ in how their call sites are numbered,
and leave the same behind. -/
theorem host_syntax_kept (hts : ∀ t ∈ ts, t.val ≠ .symbol .ellipsis ∧ t.val ≠ .ident "old" ∧
      t.val ≠ .ident "result") (d : Dialect) (power : Nat) (firstSite : SiteId) :
    (∃ fault, (exprAbove .body power).run (.ofTokens ts 0) = .error fault ∧
      (exprAbove d power).run (.ofTokens ts firstSite) = .error fault) ∨
    ∃ e st, (exprAbove .body power).run (.ofTokens ts 0) = .ok (e, st) ∧
      (exprAbove d power).run (.ofTokens ts firstSite) =
        .ok (e.mapSites (· + firstSite), { st with nextSite := st.nextSite + firstSite }) := by
  have hends : (Pairing.extended d firstSite).Ends (Pairing.extended d firstSite).Moved
      ((exprAbove .body power).run (.ofTokens ts 0))
      ((exprAbove d power).run (.ofTokens ts firstSite)) :=
    Pairing.exprAbove_alike power (abreast_extended hts)
  generalize (exprAbove .body power).run (.ofTokens ts 0) = host at hends ⊢
  generalize (exprAbove d power).run (.ofTokens ts firstSite) = clause at hends ⊢
  cases hends with
  | @ok e e' st st' he hst =>
      refine .inr ⟨e, st, rfl, ?_⟩
      rw [show e' = e.mapSites (· + firstSite) from he, hst.eq_add]
  | error he =>
      obtain rfl := he trivial
      exact .inl ⟨_, rfl, rfl⟩

/-- The tokens of `f(x) < g()`. -/
def twoCalls : List (Located Token) :=
  [⟨.ident "f", ⟨0, 1⟩⟩, ⟨.symbol .lparen, ⟨1, 2⟩⟩, ⟨.ident "x", ⟨2, 3⟩⟩, ⟨.symbol .rparen, ⟨3, 4⟩⟩,
    ⟨.symbol .lt, ⟨5, 6⟩⟩, ⟨.ident "g", ⟨7, 8⟩⟩, ⟨.symbol .lparen, ⟨8, 9⟩⟩,
    ⟨.symbol .rparen, ⟨9, 10⟩⟩]

/-- The two calls are numbered 0 and 1 in a body, and 40 and 41 in a condition that comes behind
forty calls. -/
theorem host_syntax_kept_twoCalls : (∀ t ∈ twoCalls, t.val ≠ .symbol .ellipsis ∧
      t.val ≠ .ident "old" ∧ t.val ≠ .ident "result") ∧
    ∃ e st, (exprAbove .body 0).run (.ofTokens twoCalls 0) = .ok (e, st) ∧ st.nextSite = 2 ∧
      (exprAbove .condition 0).run (.ofTokens twoCalls 40) =
        .ok (e.mapSites (· + 40), { st with nextSite := 42 }) := by
  have hts : ∀ t ∈ twoCalls, t.val ≠ .symbol .ellipsis ∧ t.val ≠ .ident "old" ∧
      t.val ≠ .ident "result" := by decide
  obtain ⟨e, st, hread, hsites⟩ : ∃ e st,
      (exprAbove .body 0).run (.ofTokens twoCalls 0) = .ok (e, st) ∧ st.nextSite = 2 :=
    ⟨_, _, rfl, rfl⟩
  refine ⟨hts, e, st, hread, hsites, ?_⟩
  obtain ⟨_, hfault, _⟩ | ⟨e', st', hread', hclause⟩ := host_syntax_kept hts .condition 0 40
  · rw [hread] at hfault
    cases hfault
  · rw [hread] at hread'
    cases hread'
    rw [hclause, hsites]

end Covenant.Parse
