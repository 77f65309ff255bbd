import Covenant.Proofs.ParsedProgram
import Covenant.Proofs.TextParts

/-!
# Declarations in the order of the source

A declaration begins at the first token that its rule takes, and every rule for a
declaration takes one. What a rule leaves to the next is a rest of what it got.
So declarations that are parsed one after another, members behind their type,
begin at tokens that follow one another in the source.
-/

namespace Covenant

/-- The offsets at which a type and its members begin. -/
def Surface.TypeDecl.starts (t : Surface.TypeDecl) : List Nat :=
  t.span.start :: t.members.map (·.span.start)

namespace Parse

open Surface (TypeExpr Stmt Block Member TypeDecl)

/-- What a rule does that takes at least one token. -/
def Takes (st st' : State) : Prop := ∃ l ls, st.rest = l :: ls ∧ st'.rest <:+ ls

section

variable {st st₁ st' : State}

theorem Takes.before (h : Takes st st₁) (h' : st'.rest <:+ st₁.rest) : Takes st st' := by
  obtain ⟨l, ls, heq, hls⟩ := h
  exact ⟨l, ls, heq, h'.trans hls⟩

theorem Takes.after (h : Skips st st₁) (h' : Takes st₁ st') : Takes st st' := by
  obtain ⟨l, ls, heq, hls⟩ := h'
  obtain ⟨read, hread⟩ := h.rest
  rw [heq] at hread
  cases read with
  | nil => exact ⟨l, ls, hread.symm, hls⟩
  | cons l' read => exact ⟨l', _, hread.symm, hls.trans ⟨read ++ [l], by simp⟩⟩

theorem skip_takes {l : Lexeme} (hl : st.rest.head? = some l) (h : skip st = .ok ((), st')) :
    Takes st st' := by
  cases h
  obtain ⟨ls, hls⟩ := List.head?_eq_some_iff.mp hl
  refine ⟨l, ls, hls, ?_⟩
  show st.rest.tail <:+ ls
  rw [hls]
  exact List.suffix_refl _

theorem eat_takes {t : Token} (h : eat t st = .ok (true, st')) : Takes st st' := by
  obtain ⟨ahead, _, ha, h₁⟩ := stateT_bind.mp h
  have hahead : ahead = (st.rest[0]?).any (·.token == t) := by
    cases ha
    rfl
  obtain rfl := isAhead_ok ha
  cases ahead with
  | true =>
      obtain ⟨_, _, hskip, hend⟩ := stateT_bind.mp h₁
      cases hend
      cases hl : st.rest[0]? with
      | none =>
          rw [hl] at hahead
          cases hahead
      | some l => exact skip_takes (by rw [List.head?_eq_getElem?, hl]) hskip
  | false => cases h₁

theorem expect_takes {t : Token} {what : Expected} {span : Span}
    (h : expect t what st = .ok (span, st')) : Takes st st' := by
  obtain ⟨l, _, hl, h₁⟩ := stateT_bind.mp h
  obtain ⟨rfl, rfl⟩ := peek_ok hl
  cases hh : st.rest.head? with
  | none =>
      simp only [hh] at h₁
      exact absurd h₁ not_failExpected
  | some l =>
      simp only [hh] at h₁
      split at h₁
      · obtain ⟨_, _, hskip, hend⟩ := stateT_bind.mp h₁
        cases hend
        exact skip_takes hh hskip
      · exact absurd h₁ not_failExpected

theorem expectName_takes {name : Located String} (h : expectName st = .ok (name, st')) :
    Takes st st' := by
  obtain ⟨l, _, hl, h₁⟩ := stateT_bind.mp h
  obtain ⟨rfl, rfl⟩ := peek_ok hl
  obtain ⟨y, hy, h₁⟩ := exists_rule h₁
  split at hy <;> subst hy
  · next hh =>
      obtain ⟨_, _, hskip, hend⟩ := stateT_bind.mp h₁
      cases hend
      exact skip_takes hh hskip
  · exact absurd h₁ not_failExpected

theorem elementType_takes {t : TypeExpr} (h : elementType st = .ok (t, st')) : Takes st st' := by
  obtain ⟨l, _, hl, h₁⟩ := stateT_bind.mp h
  obtain ⟨rfl, rfl⟩ := peek_ok hl
  obtain ⟨y, hy, h₁⟩ := exists_rule h₁
  split at hy <;> subst hy
  · next hh =>
      obtain ⟨_, _, hskip, hend⟩ := stateT_bind.mp h₁
      cases hend
      exact skip_takes hh hskip
  · next hh =>
      obtain ⟨_, _, hskip, hend⟩ := stateT_bind.mp h₁
      cases hend
      exact skip_takes hh hskip
  · next hh =>
      obtain ⟨_, _, hskip, hend⟩ := stateT_bind.mp h₁
      cases hend
      exact skip_takes hh hskip
  · exact absurd h₁ not_failExpected

theorem typeExpr_takes {t : TypeExpr} (h : typeExpr st = .ok (t, st')) : Takes st st' := by
  obtain ⟨base, _, hb, h₁⟩ := stateT_bind.mp h
  obtain ⟨n, _, hn, h₂⟩ := stateT_bind.mp h₁
  obtain rfl := budget_ok hn
  exact (elementType_takes hb).before (arraySuffixes_skips h₂).rest

theorem block_takes {b : Block} (hs : st.Scanned) (h : block st = .ok (b, st')) :
    Takes st st' := by
  obtain ⟨n, _, hn, h₁⟩ := stateT_bind.mp h
  obtain rfl := budget_ok hn
  match n with
  | 0 => exact absurd h₁ not_failExpected
  | n + 1 =>
      obtain ⟨_, _, hopen, h₂⟩ := stateT_bind.mp h₁
      obtain ⟨stmts, _, hstmts, h₃⟩ := stateT_bind.mp h₂
      obtain ⟨_, _, hclose, hend⟩ := stateT_bind.mp h₃
      cases hend
      have hs₁ := (expectMark_ok hopen).scanned hs
      have hrest := (stmtsWithin_spans hs₁ hstmts).before (expectMark_ok hclose)
      exact (expect_takes hopen).before hrest.advances.rest

end

/-! ## Members and types -/

/-- Numbers that grow, each the offset of a token that was taken off between two states. -/
def Begins (st st' : State) (starts : List Nat) : Prop :=
  ∃ read, st.rest = read ++ st'.rest ∧ starts.Sublist (read.map (·.span.start))

namespace Begins

variable {st st₁ st₂ : State} {ms ns : List Nat}

theorem of_suffix (h : st₁.rest <:+ st.rest) : Begins st st₁ [] := by
  obtain ⟨read, hread⟩ := h
  exact ⟨read, hread.symm, List.nil_sublist _⟩

theorem append (h : Begins st st₁ ms) (h' : Begins st₁ st₂ ns) : Begins st st₂ (ms ++ ns) := by
  obtain ⟨read, hread, hms⟩ := h
  obtain ⟨read', hread', hns⟩ := h'
  refine ⟨read ++ read', by rw [hread, hread', List.append_assoc], ?_⟩
  rw [List.map_append]
  exact hms.append hns

/-- What takes tokens begins at the first one. -/
theorem of_takes (h : Takes st st₁) :
    ∃ l, st.rest.head? = some l ∧ Begins st st₁ [l.span.start] := by
  obtain ⟨l, ls, heq, read, hls⟩ := h
  exact ⟨l, by rw [heq]; rfl, l :: read, by rw [heq, ← hls, List.cons_append],
    (List.nil_sublist _).cons_cons _⟩

end Begins

theorem constructorDecl_takes {id : DeclId} {doc : Option Surface.DocComment} {start : Nat}
    {m : Member} {st st' : State} (hs : st.Scanned)
    (h : constructorDecl id doc start st = .ok (m, st')) : Takes st st' := by
  obtain ⟨name, _, hn, h₁⟩ := stateT_bind.mp h
  obtain ⟨ps, _, hps, h₂⟩ := stateT_bind.mp h₁
  obtain ⟨body, _, hb, hend⟩ := stateT_bind.mp h₂
  cases hend
  have hs₁ := (expectName_ok hn hs).1.scanned hs
  have k := parameters_skips hs₁ hps
  exact (expectName_takes hn).before ((block_spans (k.scanned hs₁) hb).after k).advances.rest

theorem typedMember_takes {id : DeclId} {doc : Option Surface.DocComment} {start : Nat}
    {isStatic : Bool} {m : Member} {st st' : State} (hs : st.Scanned)
    (h : typedMember id doc start isStatic st = .ok (m, st')) : Takes st st' := by
  obtain ⟨b, _, hb, h₁⟩ := stateT_bind.mp h
  have k := eat_ok hb
  cases b with
  | true =>
      simp only [if_true] at h₁
      exact (eat_takes hb).before (memberTail_spans (k.scanned hs) h₁).2.advances.rest
  | false =>
      simp only [Bool.false_eq_true, if_false] at h₁
      obtain ⟨type, _, ht, h₂⟩ := stateT_bind.mp h₁
      obtain ⟨t, _, ht', heq⟩ := stateT_map ht
      cases heq
      have kt := typeExpr_skips (k.scanned hs) ht'
      have ps := (memberTail_spans (kt.scanned (k.scanned hs)) h₂).2
      exact .after k ((typeExpr_takes ht').before ps.advances.rest)

theorem member_begins {owner : String} {m : Member} {st st' : State} (hs : st.Scanned)
    (h : member owner st = .ok (m, st')) : Begins st st' [m.span.start] := by
  obtain ⟨doc, _, hdoc, h₁⟩ := stateT_bind.mp h
  obtain ⟨rfl, _⟩ := documentation_ok hdoc
  obtain ⟨start, _, hstart, h₂⟩ := stateT_bind.mp h₁
  have hpos : (st.rest.head?.map (·.span.start)).getD st.eof = start := by
    cases hstart
    rfl
  obtain rfl := position_ok hstart
  obtain ⟨id, st₁, hid, h₃⟩ := stateT_bind.mp h₂
  -- The number of the declaration is taken before its tokens, which stay as they are.
  have numbered {n : Nat} (ht : Takes st₁ st') (hn : n = start) : Begins st st' [n] := by
    have ht : Takes st st' := by
      cases hid
      exact ht
    obtain ⟨l, hl, hbegins⟩ := Begins.of_takes ht
    rw [hl] at hpos
    exact (hn.trans hpos.symm : n = l.span.start) ▸ hbegins
  have hs₁ : st₁.Scanned := by
    cases hid
    exact hs
  obtain ⟨b, _, hb, h₄⟩ := stateT_bind.mp h₃
  obtain rfl := isAhead_ok hb
  cases b with
  | true =>
      simp only [if_true] at h₄
      obtain ⟨body, _, hbody, hend⟩ := stateT_bind.mp h₄
      cases hend
      exact numbered (block_takes hs₁ hbody) rfl
  | false =>
      simp only [Bool.false_eq_true, if_false] at h₄
      obtain ⟨isStatic, _, hstatic, h₅⟩ := stateT_bind.mp h₄
      have k := eat_ok hstatic
      obtain ⟨ahead, _, hahead, h₆⟩ := stateT_bind.mp h₅
      obtain rfl := isConstructorAhead_ok hahead
      split at h₆
      · obtain ⟨⟨_, _, hspan⟩, _⟩ := constructorDecl_spans (k.scanned hs₁) h₆
        exact numbered (.after k (constructorDecl_takes (k.scanned hs₁) h₆)) hspan
      · obtain ⟨⟨_, _, hspan⟩, _⟩ := typedMember_spans (k.scanned hs₁) h₆
        exact numbered (.after k (typedMember_takes (k.scanned hs₁) h₆)) hspan

theorem members_begin {owner : String} {kind : Surface.TypeKind} {n : Nat}
    {ms : List Member} {st st' : State} (hs : st.Scanned)
    (h : members owner kind n st = .ok (ms, st')) :
    Begins st st' (ms.map (·.span.start)) := by
  induction n generalizing ms st with
  | zero =>
      cases h
      exact .of_suffix (List.suffix_refl _)
  | succ n ih =>
      obtain ⟨ended, _, hended, h₁⟩ := stateT_bind.mp h
      obtain rfl := atCloser_ok hended
      cases ended with
      | true =>
          simp only [if_true] at h₁
          cases h₁
          exact .of_suffix (List.suffix_refl _)
      | false =>
          simp only [Bool.false_eq_true, if_false] at h₁
          obtain ⟨m, _, hm, h₂⟩ := stateT_bind.mp h₁
          split at h₂
          · obtain ⟨_, _, hf, _⟩ := stateT_bind.mp h₂
            exact absurd hf not_failAt
          · obtain ⟨rest, _, hrest, hend⟩ := stateT_bind.mp h₂
            cases hend
            exact (member_begins hs hm).append (ih ((member_declares hs hm).1.scanned hs) hrest)

theorem typeDecl_begins {kind : Surface.TypeKind} {doc : Option Surface.DocComment}
    {start : Span} {t : TypeDecl} {st st' : State} (hs : st.Scanned)
    (h : typeDecl kind doc start st = .ok (t, st')) :
    t.span.start = start.start ∧ Begins st st' (t.members.map (·.span.start)) := by
  obtain ⟨id, st₁, hid, h₁⟩ := stateT_bind.mp h
  have hfresh : st₁ = { st with nextDecl := st.nextDecl + 1 } := by
    cases hid
    rfl
  obtain rfl := hfresh
  have d := Declares.fresh st
  obtain ⟨name, _, hn, h₂⟩ := stateT_bind.mp h₁
  have d₁ := d.before (expectName_ok hn (d.scanned hs)).1
  obtain ⟨superclass, _, k₂, _, h₃⟩ := superclass_skips (d₁.scanned hs) h₂
  have d₂ := d₁.before k₂
  obtain ⟨interfaces, _, k₃, h₄⟩ := interfaces_skips (d₂.scanned hs) h₃
  have d₃ := d₂.before k₃
  obtain ⟨_, _, hopen, h₅⟩ := stateT_bind.mp h₄
  have d₄ := d₃.before (expectMark_ok hopen)
  obtain ⟨n, _, hn', h₆⟩ := stateT_bind.mp h₅
  obtain rfl := budget_ok hn'
  obtain ⟨ms, _, hms, h₇⟩ := stateT_bind.mp h₆
  obtain ⟨_, _, hclose, hend⟩ := stateT_bind.mp h₇
  cases hend
  have hbegin := (Begins.of_suffix d₄.rest).append (members_begin (d₄.scanned hs) hms)
  have hall := hbegin.append (.of_suffix (expectMark_ok hclose).rest)
  rw [List.append_nil] at hall
  exact ⟨rfl, hall⟩

theorem typeDecls_begin {n : Nat} {ts : List TypeDecl} {st st' : State} (hs : st.Scanned)
    (h : typeDecls n st = .ok (ts, st')) : Begins st st' (ts.flatMap TypeDecl.starts) := by
  induction n generalizing ts st with
  | zero =>
      cases h
      exact .of_suffix (List.suffix_refl _)
  | succ n ih =>
      obtain ⟨doc, _, hdoc, h₁⟩ := stateT_bind.mp h
      obtain ⟨rfl, _⟩ := documentation_ok hdoc
      obtain ⟨l, _, hpeek, h₂⟩ := stateT_bind.mp h₁
      obtain ⟨rfl, hl⟩ := peek_ok hpeek
      have more {kind : Surface.TypeKind} {x : Lexeme} (hx : st.rest.head? = some x)
          (h : (skip >>= fun _ => typeDecl kind doc x.span >>= fun t =>
            typeDecls n >>= fun rest => pure (t :: rest)) st = .ok (ts, st')) :
          Begins st st' (ts.flatMap TypeDecl.starts) := by
        obtain ⟨_, _, hskip, h₃⟩ := stateT_bind.mp h
        obtain ⟨t, _, ht, h₄⟩ := stateT_bind.mp h₃
        obtain ⟨rest, _, hrest, hend⟩ := stateT_bind.mp h₄
        cases hend
        have hs₁ := (skip_ok hskip).scanned hs
        obtain ⟨hstart, hmembers⟩ := typeDecl_begins hs₁ ht
        obtain ⟨y, hy, hword⟩ := Begins.of_takes (skip_takes hx hskip)
        obtain rfl : x = y := Option.some.inj (hx.symm.trans hy)
        have hrest := ih ((typeDecl_declares hs₁ ht).1.scanned hs₁) hrest
        rw [List.flatMap_cons, TypeDecl.starts, hstart]
        exact (hword.append hmembers).append hrest
      obtain ⟨y, hy, h₂⟩ := exists_rule h₂
      split at hy <;> subst hy
      · cases h₂
        exact .of_suffix (List.suffix_refl _)
      · exact more hl.symm h₂
      · exact more hl.symm h₂
      · exact absurd h₂ not_failExpected

/-! ## Programs -/

/-- Tokens begin one behind the other. -/
theorem ascending_tokens {src : List Char} {lo : Nat} {ts : List (Located Token)}
    (h : Scan.TokensAt src lo ts) :
    (∀ t ∈ ts, lo ≤ t.span.start) ∧ (ts.map (·.span.start)).Pairwise (· < ·) := by
  induction ts generalizing lo with
  | nil => exact ⟨fun t ht => absurd ht List.not_mem_nil, .nil⟩
  | cons t ts ih =>
      obtain ⟨hlo, hat, hrest⟩ := h
      obtain ⟨hall, hpairs⟩ := ih hrest
      have hlt := hat.lt
      refine ⟨fun t' ht' => ?_, List.pairwise_cons.mpr ⟨fun n hn => ?_, hpairs⟩⟩
      · rcases List.mem_cons.mp ht' with rfl | ht'
        · exact hlo
        · have := hall t' ht'
          omega
      · obtain ⟨t', ht', rfl⟩ := List.mem_map.mp hn
        exact Nat.lt_of_lt_of_le hlt (hall t' ht')

/-- The parser reads some of the tokens, in their order. -/
theorem lexemes_sublist (doc : Option Surface.DocComment) (ts : List (Located Token)) :
    ((lexemesFrom doc ts).map (·.span.start)).Sublist (ts.map (·.span.start)) := by
  induction ts generalizing doc with
  | nil => exact List.Sublist.refl _
  | cons t ts ih =>
      rw [lexemesFrom.eq_def]
      split
      · next heq => cases heq
      · next heq =>
          cases heq
          exact (ih _).cons _
      · next heq =>
          cases heq
          exact (ih _).cons _
      · next heq =>
          cases heq
          exact (ih _).cons_cons _

/-- The types and members of a program, in the order of its tree, begin one behind the other in the
source. -/
theorem program_starts {source : String} {p : Surface.Program} (h : program source = .ok p) :
    (p.types.flatMap TypeDecl.starts).Pairwise (· < ·) := by
  obtain ⟨ts, n, st, hts, htypes, _⟩ := program_ok h
  have hs := State.scanned_ofTokens (Scan.program_scanned hts) 0
  obtain ⟨read, hread, hstarts⟩ := typeDecls_begin hs htypes
  obtain ⟨all, hall, hend⟩ := bind_eq_ok.mp hts
  cases hend
  have hpairs := (ascending_tokens (Scan.tokens_at hall)).2
  have hread : read.Sublist (lexemesFrom none _) := hread ▸ List.sublist_append_left _ _
  have hread := (hread.map (·.span.start)).trans (lexemes_sublist none _)
  exact hpairs.sublist ((hstarts.trans hread).trans (List.filter_sublist.map _))

end Parse

end Covenant
