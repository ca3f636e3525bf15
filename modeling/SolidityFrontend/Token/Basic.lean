import SolidityFrontend.Text.Decimal
import SolidityFrontend.Text.Quoted
import SolidityFrontend.Text.Utf8
import SolidityFrontend.Token.Keyword
import SolidityFrontend.Token.Symbol

/-!
# Tokens

A `Token` is a reserved word, a symbol, or carries what its text says: a name, the digits of a
number, the bytes of a string. Words with a meaning in some places only, such as `memory`, are
identifiers. An `error` token stands where the text holds no token.
-/

namespace SolidityFrontend

/-- A token of the language. -/
inductive Token where
  | keyword (k : Keyword)
  | symbol (s : Symbol)
  | elementaryType (word : String)
  | identifier (name : String)
  | decimalNumber (text : String)
  | hexNumber (text : String)
  | string (bytes : List UInt8)
  /-- The digits without separators. -/
  | hexString (digits : String)
  | unicodeString (bytes : List UInt8)
  | error
  deriving DecidableEq, Repr

namespace Token

open Text

/-- The name, if the token is an identifier. -/
def identifier? : Token → Option String
  | .identifier name => some name
  | _ => none

/-- Whether the token is this identifier. -/
def isWord (t : Token) (word : String) : Bool := t.identifier? == some word

/-- The bytes of a string as text in double quotes behind an opener. -/
def stringText (opener : String) (bytes : List UInt8) : String :=
  opener ++ "\"" ++ String.ofList (Utf8.decodeLossy bytes) ++ "\""

/-- The token as source text. -/
def text : Token → String
  | .keyword k => k.text
  | .symbol s => s.text
  | .elementaryType word => word
  | .identifier name => name
  | .decimalNumber digits => digits
  | .hexNumber digits => digits
  | .string bytes => stringText "" bytes
  | .hexString digits => "hex\"" ++ digits ++ "\""
  | .unicodeString bytes => stringText "unicode" bytes
  | .error => "error"

/-- The token in an error message. -/
def describe : Token → String
  | .identifier name => "identifier '" ++ name ++ "'"
  | .elementaryType word => "type '" ++ word ++ "'"
  | .decimalNumber _ | .hexNumber _ => "number literal"
  | .string _ | .unicodeString _ => "string literal"
  | .hexString _ => "hex string literal"
  | .error => "invalid token"
  | .keyword k => "'" ++ k.text ++ "'"
  | .symbol s => "'" ++ s.text ++ "'"

/-- A list of bytes in decimal. -/
def bytesText (bytes : List UInt8) : String :=
  "[" ++ ", ".intercalate (bytes.map fun b => decimal b.toNat) ++ "]"

/-- The token in a token dump. -/
def dump : Token → String
  | .keyword k => k.name
  | .symbol s => s.name
  | .elementaryType word => "ElementaryType(" ++ quote word ++ ")"
  | .identifier name => "Identifier(" ++ quote name ++ ")"
  | .decimalNumber digits => "DecimalNumber(" ++ quote digits ++ ")"
  | .hexNumber digits => "HexNumber(" ++ quote digits ++ ")"
  | .string bytes => "String(" ++ bytesText bytes ++ ")"
  | .hexString digits => "HexString(" ++ quote digits ++ ")"
  | .unicodeString bytes => "UnicodeString(" ++ bytesText bytes ++ ")"
  | .error => "Error"

end Token

end SolidityFrontend
