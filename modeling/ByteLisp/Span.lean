/-
  ByteLisp: places in a source text.

  * `Span` is a range of byte offsets `[lo, hi)`;
  * `Location` is a line and a column, both from zero; the column counts
    characters;
  * `Location.ofPos` finds the last line start that is not after an offset and
    counts the characters from there; `lineStarts` lists the line starts in
    order, and `search` is a binary search among them.
-/
import ByteLisp.Text.Bytes

namespace ByteLisp

/-- The bytes of a source text from `lo` up to but not including `hi`. -/
structure Span where
  lo : Nat
  hi : Nat
deriving Repr, DecidableEq

/-- The empty span at an offset. -/
def Span.point (pos : Nat) : Span := ⟨pos, pos⟩

/-- The number of bytes of a span. -/
def Span.length (sp : Span) : Nat := sp.hi - sp.lo

/-- The characters of `src` within a span. -/
def Span.slice (sp : Span) (src : List Char) : List Char :=
  Text.takeBytes (sp.hi - sp.lo) (Text.dropBytes sp.lo src)

/-- A line and a column, counted from zero; columns count characters. -/
structure Location where
  line : Nat
  column : Nat
deriving Repr, DecidableEq

namespace Location

/-- The line counted from one. -/
def line1 (l : Location) : Nat := l.line + 1

/-- The column counted from one. -/
def column1 (l : Location) : Nat := l.column + 1

/-- The offsets behind the newlines of a text that starts at `pos`. -/
def startsAfter : Nat → List Char → List Nat
  | _, [] => []
  | pos, c :: cs =>
    let next := pos + c.utf8Size
    if c = '\n' then next :: startsAfter next cs else startsAfter next cs

/-- The offsets at which the lines of a text start, in order. -/
def lineStarts (src : List Char) : List Nat :=
  0 :: startsAfter 0 src

/-- The place of an offset among those at `lo` to `hi - 1`, which are in order; if it is not there, the
    place at which it would be put in. -/
def searchBetween (starts : Array Nat) (pos lo hi : Nat) : Except Nat Nat :=
  if lo < hi then
    let mid := lo + (hi - lo) / 2
    match compare (starts.getD mid 0) pos with
    | .eq => .ok mid
    | .lt => searchBetween starts pos (mid + 1) hi
    | .gt => searchBetween starts pos lo mid
  else .error lo
termination_by hi - lo

/-- The place of an offset among others in order, or where it would be put in. -/
def search (starts : Array Nat) (pos : Nat) : Except Nat Nat := searchBetween starts pos 0 starts.size

/-- The location of a byte offset; an offset past the end stands for the end. -/
def ofPos (src : List Char) (pos : Nat) : Location :=
  let pos := min pos (Text.size src)
  let starts := (lineStarts src).toArray
  let line :=
    match search starts pos with
    | .ok line => line
    | .error next => next - 1
  ⟨line, (Span.slice ⟨starts.getD line 0, pos⟩ src).length⟩

end Location

end ByteLisp
