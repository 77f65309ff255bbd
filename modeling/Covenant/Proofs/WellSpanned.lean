import Covenant.Surface.Expr

/-!
# Trees with spans

A tree is spanned well if its names are spelled where it says, and if the span
of each node covers the spans of what the node is made of. When spans are moved,
it is enough to know what becomes of the span of a name, and of one span in
another.
-/

namespace Covenant

namespace Surface

section

variable (spelled : Span → String → Prop) (inside : Span → Span → Prop)

/-- A name in the span of a node. -/
def NameIn (s : Span) (n : Located String) : Prop := inside n.span s ∧ spelled n.span n.val

def TypeExpr.WellSpanned : TypeExpr → Prop
  | .int s => spelled s "int"
  | .boolean s => spelled s "boolean"
  | .named s n => spelled s n
  | .array s e => inside e.span s ∧ e.WellSpanned

mutual

/-- Whether all names of an expression are spelled at their spans, and the span of each node has
those of its parts inside. -/
def Expr.WellSpanned : Expr → Prop
  | .int .. | .bool .. | .null .. | .this .. => True
  | .result s => spelled s "result"
  | .name s n => spelled s n
  | .binary s _ l r =>
    (inside l.span s ∧ l.WellSpanned) ∧ inside r.span s ∧ r.WellSpanned
  | .unary s _ e | .old s e | .spread s e => inside e.span s ∧ e.WellSpanned
  | .field s o n => (inside o.span s ∧ o.WellSpanned) ∧ NameIn spelled inside s n
  | .call s _ n args | .new s _ n args => NameIn spelled inside s n ∧ wellSpannedAll s args
  | .methodCall s _ o n args =>
    (inside o.span s ∧ o.WellSpanned) ∧ NameIn spelled inside s n ∧ wellSpannedAll s args
  | .newArray s t len =>
    (inside t.span s ∧ t.WellSpanned spelled inside) ∧ inside len.span s ∧ len.WellSpanned
  | .index s a i => (inside a.span s ∧ a.WellSpanned) ∧ inside i.span s ∧ i.WellSpanned

/-- The same of the arguments of a node. -/
def wellSpannedAll (s : Span) : List Expr → Prop
  | [] => True
  | e :: es => (inside e.span s ∧ e.WellSpanned) ∧ wellSpannedAll s es

end

end

/-! ## Moving spans -/

@[simp] theorem TypeExpr.span_mapSpans (f : Span → Span) (t : TypeExpr) :
    (t.mapSpans f).span = f t.span := by
  cases t <;> rfl

/-- What is enough to know of spans that are moved. -/
structure Moves (f : Span → Span) (spelled spelled' : Span → String → Prop)
    (inside inside' : Span → Span → Prop) : Prop where
  name : ∀ s n, spelled s n → spelled' (f s) n
  part : ∀ s t, inside s t → inside' (f s) (f t)

section

variable {spelled spelled' : Span → String → Prop} {inside inside' : Span → Span → Prop}
  {f : Span → Span}

theorem NameIn.mapSpans (hf : Moves f spelled spelled' inside inside') {s : Span}
    {n : Located String} (h : NameIn spelled inside s n) :
    NameIn spelled' inside' (f s) (Expr.mapName f n) :=
  ⟨hf.part _ _ h.1, hf.name _ _ h.2⟩

theorem TypeExpr.WellSpanned.mapSpans (hf : Moves f spelled spelled' inside inside')
    {t : TypeExpr} (h : t.WellSpanned spelled inside) :
    (t.mapSpans f).WellSpanned spelled' inside' := by
  induction t with
  | int | boolean | named => exact hf.name _ _ h
  | array s e ih => exact ⟨e.span_mapSpans f ▸ hf.part _ _ h.1, ih h.2⟩

theorem Moves.operand (hf : Moves f spelled spelled' inside inside') {s : Span} {e : Expr}
    (h : inside e.span s) (he : (e.mapSpans f).WellSpanned spelled' inside') :
    inside' (e.mapSpans f).span (f s) ∧ (e.mapSpans f).WellSpanned spelled' inside' :=
  ⟨e.span_mapSpans f ▸ hf.part _ _ h, he⟩

mutual

theorem Expr.WellSpanned.mapSpans (hf : Moves f spelled spelled' inside inside') {e : Expr}
    (h : e.WellSpanned spelled inside) : (e.mapSpans f).WellSpanned spelled' inside' := by
  match e with
  | .int .. | .bool .. | .null .. | .this .. => exact trivial
  | .result .. | .name .. => exact hf.name _ _ h
  | .binary _ _ l r =>
      exact ⟨hf.operand h.1.1 (h.1.2.mapSpans hf), hf.operand h.2.1 (h.2.2.mapSpans hf)⟩
  | .unary _ _ x | .old _ x | .spread _ x => exact hf.operand (e := x) h.1 (h.2.mapSpans hf)
  | .field _ o _ => exact ⟨hf.operand h.1.1 (h.1.2.mapSpans hf), h.2.mapSpans hf⟩
  | .call _ _ _ args | .new _ _ _ args =>
      exact ⟨h.1.mapSpans hf, wellSpannedAll_mapSpans hf h.2⟩
  | .methodCall _ _ o _ args =>
      exact ⟨hf.operand h.1.1 (h.1.2.mapSpans hf), h.2.1.mapSpans hf,
        wellSpannedAll_mapSpans hf h.2.2⟩
  | .newArray _ t len =>
      exact ⟨⟨t.span_mapSpans f ▸ hf.part _ _ h.1.1, h.1.2.mapSpans hf⟩,
        hf.operand h.2.1 (h.2.2.mapSpans hf)⟩
  | .index _ a i =>
      exact ⟨hf.operand h.1.1 (h.1.2.mapSpans hf), hf.operand h.2.1 (h.2.2.mapSpans hf)⟩

theorem wellSpannedAll_mapSpans (hf : Moves f spelled spelled' inside inside') {s : Span}
    {es : List Expr} (h : wellSpannedAll spelled inside s es) :
    wellSpannedAll spelled' inside' (f s) (Expr.mapSpansAll f es) := by
  match es with
  | [] => exact trivial
  | e :: es => exact ⟨hf.operand h.1.1 (h.1.2.mapSpans hf), wellSpannedAll_mapSpans hf h.2⟩

end

end

end Surface

end Covenant
