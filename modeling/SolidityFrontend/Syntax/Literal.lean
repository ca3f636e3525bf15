import SolidityFrontend.Source.Span
import SolidityFrontend.Syntax.Word

/-!
# Literals

Numbers keep their digits as written. Adjacent strings of one kind are one literal with the bytes of
all of them; the text of a plain or unicode string is for display, with U+FFFD where the bytes are
no characters, and the text of a hex string is its digits.
-/

namespace SolidityFrontend

/-- A string literal of one or more parts. -/
structure StringLiteral where
  value : String
  bytes : List UInt8
  /-- Where the strings stand that make up the literal. -/
  parts : List Span
  span : Span
  deriving DecidableEq, Repr

inductive NumberKind where
  | decimal | hex
  deriving DecidableEq, Repr

/-- A number and perhaps the unit behind it. -/
structure NumberLiteral where
  value : String
  kind : NumberKind
  unit : Option NumberUnit
  span : Span
  deriving DecidableEq, Repr

inductive Literal where
  | string (l : StringLiteral)
  | hexString (l : StringLiteral)
  | unicodeString (l : StringLiteral)
  | number (l : NumberLiteral)
  | boolean (value : Bool) (span : Span)
  deriving DecidableEq, Repr

def Literal.span : Literal → Span
  | .string l | .hexString l | .unicodeString l => l.span
  | .number l => l.span
  | .boolean _ span => span

end SolidityFrontend
