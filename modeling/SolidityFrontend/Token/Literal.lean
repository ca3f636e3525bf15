import SolidityFrontend.Text.Decimal
import SolidityFrontend.Text.Utf8
import SolidityFrontend.Token.Fault

/-!
# Bodies of strings and comments

What follows an opening quote or an opening comment mark. A string ends at its quote, or else before
the first line break outside an escape, or at the end of the text; a malformed escape does not move
that end and counts only when the string is closed.
-/

namespace SolidityFrontend.Literal

open Text

/-- An escape sequence: how many characters follow its backslash, and the bytes it stands for unless
it is malformed. -/
structure Escape where
  length : Nat
  bytes : Option (List UInt8)
  deriving DecidableEq, Repr

/-- An escape that stands for a character. -/
def Escape.char (length : Nat) (c : Char) : Escape := ⟨length, some (Utf8.encodeChar c)⟩

/-- The escape of this length for a code point, malformed if there is no such character. -/
def Escape.codePoint (length : Nat) (n : Nat) : Escape :=
  if n.isValidChar then .char length (Char.ofNat n) else ⟨length, none⟩

/-- At most `n` leading characters that satisfy `p`. -/
def takeUpTo (n : Nat) (p : Char → Bool) (cs : List Char) : List Char := (cs.take n).takeWhile p

/-- The escape `u` with braces and up to six digits, or with exactly four digits. -/
def unicodeEscape : List Char → Escape
  | '{' :: cs =>
    let digits := takeUpTo 6 isHexDigit cs
    if digits.isEmpty || (cs.drop digits.length).head? != some '}' then ⟨2 + digits.length, none⟩
    else .codePoint (3 + digits.length) (ofDigits 16 digits)
  | cs =>
    let digits := takeUpTo 4 isHexDigit cs
    if digits.length = 4 then .codePoint 5 (ofDigits 16 digits) else ⟨1 + digits.length, none⟩

/-- The escape `x` with exactly two digits. -/
def hexEscape (cs : List Char) : Escape :=
  let digits := takeUpTo 2 isHexDigit cs
  if digits.length = 2 then ⟨3, some [UInt8.ofNat (ofDigits 16 digits)]⟩
  else ⟨1 + digits.length, none⟩

/-- The escape of up to three octal digits, which stand for one byte. -/
def octalEscape (cs : List Char) : Escape :=
  let digits := takeUpTo 3 isOctalDigit cs
  let n := ofDigits 8 digits
  ⟨digits.length, if n < 256 then some [UInt8.ofNat n] else none⟩

/-- The escape after a backslash, if anything follows. A line break there continues the string on the
next line, and any other character stands for itself. -/
def escape? : List Char → Option Escape
  | [] => none
  | c :: cs => some <|
    match c with
    | 'n' => .char 1 '\n'
    | 't' => .char 1 '\t'
    | 'r' => .char 1 '\r'
    | 'b' => .char 1 '\x08'
    | 'f' => .char 1 '\x0c'
    | 'v' => .char 1 '\x0b'
    | '\n' => ⟨1, some []⟩
    | '\r' => ⟨if cs.head? = some '\n' then 2 else 1, some []⟩
    | 'x' => hexEscape cs
    | 'u' => unicodeEscape cs
    | _ => if isOctalDigit c then octalEscape (c :: cs) else .char 1 c

/-- The body of a string: its length in characters with the closing quote, whether it is closed,
its bytes, and its first malformed escape. -/
structure StringBody where
  length : Nat
  closed : Bool
  bytes : List UInt8
  malformed : Option String
  deriving DecidableEq, Repr

/-- The body with a character of the string before it. -/
def StringBody.consChar (c : Char) (b : StringBody) : StringBody :=
  { b with length := b.length + 1, bytes := Utf8.encodeChar c ++ b.bytes }

/-- The body with an escape before it, which is the given text behind a backslash. -/
def StringBody.consEscape (e : Escape) (text : List Char) (b : StringBody) : StringBody where
  length := b.length + 1 + e.length
  closed := b.closed
  bytes := e.bytes.getD [] ++ b.bytes
  malformed := if e.bytes.isNone then some (String.ofList ('\\' :: text)) else b.malformed

/-- The body of a string behind its opening quote. -/
def stringBody (quote : Char) : List Char → StringBody
  | [] => ⟨0, false, [], none⟩
  | c :: cs =>
    if c = quote then ⟨1, true, [], none⟩
    else if c = '\n' ∨ c = '\r' then ⟨0, false, [], none⟩
    else if c = '\\' then
      match escape? cs with
      | none => ⟨1, false, [], none⟩
      | some e => (stringBody quote (cs.drop e.length)).consEscape e (cs.take e.length)
    else (stringBody quote cs).consChar c
  termination_by cs => cs.length
  decreasing_by all_goals simp only [List.length_drop, List.length_cons]; omega

/-- How many characters a string literal takes behind its opening quote, and its bytes. -/
def scanString (quote : Char) (cs : List Char) : Nat × Except LexFault (List UInt8) :=
  let body := stringBody quote cs
  (body.length,
    if body.closed then
      match body.malformed with
      | some sequence => .error (.invalidEscape sequence)
      | none => .ok body.bytes
    else .error .unterminatedString)

/-- The body of a hex string: its length in characters with the closing quote, whether it is closed,
its digits, and its first character that is neither digit nor separator. -/
structure HexBody where
  length : Nat
  closed : Bool
  digits : List Char
  unexpected : Option Char
  deriving DecidableEq, Repr

/-- The body of a hex string behind its opening quote. -/
def hexBody (quote : Char) : List Char → HexBody
  | [] => ⟨0, false, [], none⟩
  | c :: cs =>
    if c = quote then ⟨1, true, [], none⟩
    else if c = '\n' ∨ c = '\r' then ⟨0, false, [], none⟩
    else
      let rest := hexBody quote cs
      if c = '_' then { rest with length := rest.length + 1 }
      else if isHexDigit c then { rest with length := rest.length + 1, digits := c :: rest.digits }
      else { rest with length := rest.length + 1, unexpected := some c }

/-- How many characters a hex string literal takes behind its opening quote, and its digits. -/
def scanHexString (quote : Char) (cs : List Char) : Nat × Except LexFault String :=
  let body := hexBody quote cs
  (body.length,
    if body.closed then
      match body.unexpected with
      | some c => .error (.invalidHexString (.unexpectedCharacter c))
      | none =>
        if body.digits.length % 2 = 0 then .ok (String.ofList body.digits)
        else .error (.invalidHexString .oddLength)
    else .error .unterminatedString)

/-- How many characters a block comment takes behind its opening mark, if it is closed. -/
def scanBlockComment : List Char → Option Nat
  | '*' :: '/' :: _ => some 2
  | _ :: cs => (scanBlockComment cs).map (· + 1)
  | [] => none

end SolidityFrontend.Literal
