import SolidityFrontend.Source.Position

/-!
# Spans of a source text

A `Span` runs from one location to another. Spans of tokens and syntax come from the text itself;
a span may also be made from bare offsets, and then both its positions are the origin.
-/

namespace SolidityFrontend

/-- A stretch of text between two locations. -/
structure Span where
  start : Location
  stop : Location
  deriving DecidableEq, Repr

namespace Span

/-- The span of two offsets whose lines and columns are unknown. -/
def ofOffsets (start stop : Nat) : Span :=
  ⟨⟨start, .origin⟩, ⟨stop, .origin⟩⟩

/-- The empty span at the start of every text. -/
def origin : Span := ⟨.origin, .origin⟩

/-- The empty span at a location. -/
def point (l : Location) : Span := ⟨l, l⟩

/-- From the start of the first span to the end of the second. -/
def through (a b : Span) : Span := ⟨a.start, b.stop⟩

/-- The empty span behind a span. -/
def after (a : Span) : Span := point a.stop

/-- The number of bytes covered; a span that ends before it starts covers none. -/
def length (a : Span) : Nat := a.stop.offset - a.start.offset

def isEmpty (a : Span) : Bool := a.stop.offset ≤ a.start.offset

/-- Whether the bytes of `b` lie between the ends of `a`. -/
def contains (a b : Span) : Bool :=
  a.start.offset ≤ b.start.offset && b.stop.offset ≤ a.stop.offset

end Span

/-- What follows the first `n` bytes, if these end between two characters. -/
def dropBytes : Nat → List Char → Option (List Char)
  | 0, cs => some cs
  | _ + 1, [] => none
  | n + 1, c :: cs => if c.utf8Size ≤ n + 1 then dropBytes (n + 1 - c.utf8Size) cs else none

/-- The first `n` bytes, if these end between two characters. -/
def takeBytes : Nat → List Char → Option (List Char)
  | 0, _ => some []
  | _ + 1, [] => none
  | n + 1, c :: cs =>
    if c.utf8Size ≤ n + 1 then (takeBytes (n + 1 - c.utf8Size) cs).map (c :: ·) else none

/-- The bytes from `start` to `stop`, if these are offsets of the text in this order and both lie
between two characters. -/
def sliceBytes (start stop : Nat) (cs : List Char) : Option (List Char) :=
  if start ≤ stop then (dropBytes start cs).bind (takeBytes (stop - start)) else none

/-- The text under a span; empty where the span does not fit the text. -/
def Span.text (a : Span) (source : String) : String :=
  String.ofList ((sliceBytes a.start.offset a.stop.offset source.toList).getD [])

end SolidityFrontend
