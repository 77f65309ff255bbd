/-!
# Spans

A span is a half-open range of byte offsets into UTF-8 text. Every tree of the
library carries spans, so that a message can name the text it is about.
-/

namespace Covenant

/-- The bytes from `start` up to, and not including, `stop`. -/
structure Span where
  start : Nat
  stop : Nat
  deriving DecidableEq, Repr, Inhabited

namespace Span

/-- The empty span at one position. -/
def point (pos : Nat) : Span := ⟨pos, pos⟩

/-- The smallest span that covers both. -/
def cover (a b : Span) : Span := ⟨min a.start b.start, max a.stop b.stop⟩

/-- How many bytes the span holds; a span whose ends are crossed holds none. -/
def size (s : Span) : Nat := s.stop - s.start

def isEmpty (s : Span) : Bool := s.size == 0

/-- Both ends moved up by `delta`. -/
def shift (s : Span) (delta : Nat) : Span := ⟨s.start + delta, s.stop + delta⟩

theorem cover_comm (a b : Span) : a.cover b = b.cover a := by
  simp [cover, Nat.min_comm, Nat.max_comm]

@[simp] theorem size_shift (s : Span) (delta : Nat) : (s.shift delta).size = s.size := by
  simp only [size, shift]; omega

end Span

/-- A value and the text that it was read from. -/
structure Located (α : Type) where
  val : α
  span : Span
  deriving DecidableEq, Repr, Inhabited

end Covenant
