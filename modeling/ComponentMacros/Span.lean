/-!
# Spans

A span is a range of byte offsets into the UTF-8 form of a source text. Every
node of a syntax tree and every edit carries one.
-/

namespace ComponentMacros

/-- The bytes from `start` up to, not including, `stop`. -/
structure Span where
  start : Nat
  stop : Nat
  deriving DecidableEq, Repr, Inhabited

namespace Span

def contains (outer inner : Span) : Bool :=
  outer.start ≤ inner.start && inner.stop ≤ outer.stop

def le (a b : Span) : Bool :=
  a.start < b.start || (a.start == b.start && a.stop ≤ b.stop)

end Span

end ComponentMacros
