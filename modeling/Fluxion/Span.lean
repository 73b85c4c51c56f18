/-!
# Spans

A span is a range of byte offsets in the text of an expression. Tokens, the nodes of a syntax tree
and faults carry spans.
-/

namespace Fluxion

/-- The bytes from `start` on, up to and without `stop`. -/
structure Span where
  start : Nat
  stop : Nat
  deriving DecidableEq, Repr, Inhabited

namespace Span

/-- The empty span at an offset. -/
def empty (offset : Nat) : Span := ⟨offset, offset⟩

/-- The span from the start of one span to the end of another. -/
def cover (first last : Span) : Span := ⟨first.start, last.stop⟩

/-- The gap from the end of one span to the start of another. -/
def gap (left right : Span) : Span := ⟨left.stop, right.start⟩

/-- The span moved to the right. -/
def shift (n : Nat) (s : Span) : Span := ⟨s.start + n, s.stop + n⟩

@[simp] theorem start_cover (a b : Span) : (a.cover b).start = a.start := rfl

@[simp] theorem stop_cover (a b : Span) : (a.cover b).stop = b.stop := rfl

end Span

end Fluxion
