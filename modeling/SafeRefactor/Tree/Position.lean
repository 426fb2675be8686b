/-!
# Positions and spans

A position is a line, counted from one, and a column, counted from zero.  Spans
are pairs of positions; a location adds the path of the unit the span lies in.
Columns are integers because the start of an attribute name is computed backwards
from its end.
-/

namespace SafeRefactor

/-- A place in a source text. -/
structure Position where
  line : Int
  column : Int
deriving DecidableEq, Repr, Inhabited

namespace Position

/-- Positions are ordered by line, then by column. -/
instance : LT Position where
  lt first second :=
    first.line < second.line ∨ (first.line = second.line ∧ first.column < second.column)

instance : LE Position where
  le first second :=
    first.line < second.line ∨ (first.line = second.line ∧ first.column ≤ second.column)

instance (first second : Position) : Decidable (first < second) :=
  inferInstanceAs (Decidable (_ ∨ _))

instance (first second : Position) : Decidable (first ≤ second) :=
  inferInstanceAs (Decidable (_ ∨ _))

theorem lt_iff {first second : Position} :
    first < second ↔
      first.line < second.line ∨ (first.line = second.line ∧ first.column < second.column) :=
  Iff.rfl

theorem le_iff {first second : Position} :
    first ≤ second ↔
      first.line < second.line ∨ (first.line = second.line ∧ first.column ≤ second.column) :=
  Iff.rfl

/-- The order of positions is total: either one is before the other or not after it. -/
theorem lt_or_ge (first second : Position) : first < second ∨ second ≤ first := by
  rw [lt_iff, le_iff]
  omega

theorem le_trans {first second third : Position} (left : first ≤ second) (right : second ≤ third) :
    first ≤ third := by
  rw [le_iff] at *
  omega

theorem lt_of_le_of_lt {first second third : Position} (left : first ≤ second)
    (right : second < third) : first < third := by
  rw [le_iff] at left
  rw [lt_iff] at *
  omega

theorem lt_of_lt_of_le {first second third : Position} (left : first < second)
    (right : second ≤ third) : first < third := by
  rw [le_iff] at right
  rw [lt_iff] at *
  omega

end Position

/-- A range of source text, from `start` up to `stop`. -/
structure Span where
  start : Position
  stop : Position
deriving DecidableEq, Repr, Inhabited

namespace Span

/-- A span is empty when it does not start before it stops. -/
def isEmpty (span : Span) : Bool :=
  span.stop ≤ span.start

/-- `outer.contains inner`: the inner span does not reach beyond the outer one. -/
def contains (outer inner : Span) : Bool :=
  outer.start ≤ inner.start && inner.stop ≤ outer.stop

/-- Two spans intersect when each starts before the other stops. -/
def intersects (first second : Span) : Bool :=
  first.start < second.stop && second.start < first.stop

/-- Order by start, then by stop. -/
def before (first second : Span) : Bool :=
  first.start < second.start || (first.start = second.start && first.stop < second.stop)

end Span

/-- A span of the unit stored under a path. -/
structure Location where
  path : String
  span : Span
deriving DecidableEq, Repr

namespace Location

/-- The printed form `path:line:column` of a location's start. -/
def render (location : Location) : String :=
  location.path ++ ":" ++ toString location.span.start.line ++ ":" ++
    toString location.span.start.column

/-- Order by path, then by span. -/
def before (first second : Location) : Bool :=
  first.path < second.path || (first.path = second.path && first.span.before second.span)

end Location

end SafeRefactor
