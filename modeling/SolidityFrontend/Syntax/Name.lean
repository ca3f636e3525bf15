import SolidityFrontend.Source.Span

/-!
# Names

Identifiers, dotted paths of them, and the mark that stands in the syntax for text that could not be
read.
-/

namespace SolidityFrontend

/-- An identifier where it stands. -/
structure Identifier where
  name : String
  span : Span
  deriving DecidableEq, Repr

/-- Identifiers with points between them, such as `Lib.Struct`. -/
structure Path where
  segments : List Identifier
  span : Span
  deriving DecidableEq, Repr

namespace Path

/-- The path as source text without blanks. -/
def text (p : Path) : String := ".".intercalate (p.segments.map Identifier.name)

/-- The segment that names the thing itself. -/
def last? (p : Path) : Option Identifier := p.segments.getLast?

end Path

/-- Text that could not be read, and why. -/
structure ErrorMark where
  message : String
  span : Span
  deriving DecidableEq, Repr

end SolidityFrontend
