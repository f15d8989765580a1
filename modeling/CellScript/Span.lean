/-!
Byte ranges of a source text. Offsets count UTF-8 bytes and a range is half open, so the range of
a token is `[start, stop)` and the end of the input has a range of no width.
-/

namespace CellScript

/-- The bytes from `start` up to, and without, `stop`. -/
structure Span where
  start : Nat
  stop : Nat
deriving Repr, DecidableEq, Inhabited

namespace Span

/-- The range of no width at `offset`. -/
def point (offset : Nat) : Span := ⟨offset, offset⟩

/-- How many bytes the range holds; a range that ends before it starts holds none. -/
def length (s : Span) : Nat := s.stop - s.start

def isEmpty (s : Span) : Bool := s.length == 0

/-- The range moved `n` bytes to the right. -/
def shift (n : Nat) (s : Span) : Span := ⟨s.start + n, s.stop + n⟩

def render (s : Span) : String := toString s.start ++ ".." ++ toString s.stop

@[simp] theorem length_point (n : Nat) : (Span.point n).length = 0 := Nat.sub_self n

theorem isEmpty_iff (s : Span) : s.isEmpty = true ↔ s.stop ≤ s.start := by
  simp [isEmpty, length]; omega

@[simp] theorem length_shift (n : Nat) (s : Span) : (s.shift n).length = s.length := by
  simp [length, shift]; omega

end Span

end CellScript
