import SolidityFrontend.Token.Basic
import SolidityFrontend.Token.Literal

/-!
# Lexical rules

Each `Rule` describes a class of lexemes, and `Rule.length` gives the length of the longest lexeme of
the class at the start of a text. `longest` chooses the rule with the longest lexeme, and of several
the one that stands first in `Rule.all`, so that reserved words and elementary types come before
identifiers.
-/

namespace SolidityFrontend

open Text

/-- The kinds of string literal. -/
inductive StringKind where
  | plain | hex | unicode
  deriving DecidableEq, Repr

/-- The word before the opening quote. -/
def StringKind.opener : StringKind → String
  | .plain => ""
  | .hex => "hex"
  | .unicode => "unicode"

/-- A class of lexemes. The last two are only the opening of theirs. -/
inductive Rule where
  | blank
  | lineComment
  | keyword (k : Keyword)
  | elementaryType
  | identifier
  | decimalNumber
  | hexNumber
  | symbol (s : Symbol)
  | openString (kind : StringKind) (quote : Char)
  | openComment
  deriving DecidableEq, Repr

namespace Rule

/-- The characters that separate tokens. -/
def isSeparator (c : Char) : Bool :=
  [' ', '\t', '\r', '\n', '\x0c', '\uFEFF', '\u2060', '\u200B', '\u00A0'].contains c

def startsIdentifier (c : Char) : Bool :=
  ('a' ≤ c && c ≤ 'z') || ('A' ≤ c && c ≤ 'Z') || c == '$' || c == '_'

def continuesIdentifier (c : Char) : Bool := startsIdentifier c || isDigit c

/-- Digits of a number may be separated by underscores. -/
def continuesNumber (c : Char) : Bool := isDigit c || c == '_'

/-- The length of the longest run of characters that satisfy `p`. -/
def runLength (p : Char → Bool) (cs : List Char) : Nat := (cs.takeWhile p).length

/-- The length of a fixed text at the start of `cs`, zero if it is not there. -/
def spellingLength (text : List Char) (cs : List Char) : Nat :=
  if text.isPrefixOf cs then text.length else 0

/-- The length of an identifier, reserved or not. -/
def wordLength : List Char → Nat
  | [] => 0
  | c :: cs => if startsIdentifier c then 1 + runLength continuesIdentifier cs else 0

/-- The length of a digit and what continues a number behind it. -/
def digitsLength : List Char → Nat
  | [] => 0
  | c :: cs => if isDigit c then 1 + runLength continuesNumber cs else 0

/-- The length of a point with digits behind it. -/
def fractionLength : List Char → Nat
  | '.' :: cs => match digitsLength cs with
    | 0 => 0
    | n => n + 1
  | _ => 0

/-- The length of an exponent: a mark, perhaps a minus, and digits. -/
def exponentLength : List Char → Nat
  | c :: cs =>
    if c = 'e' ∨ c = 'E' then
      let sign := spellingLength ['-'] cs
      match digitsLength (cs.drop sign) with
      | 0 => 0
      | n => n + sign + 1
    else 0
  | [] => 0

/-- The length of a decimal number: digits or a fraction or both, and perhaps an exponent. -/
def decimalLength (cs : List Char) : Nat :=
  let whole := digitsLength cs
  let mantissa := whole + fractionLength (cs.drop whole)
  if mantissa = 0 then 0 else mantissa + exponentLength (cs.drop mantissa)

/-- The length of a hexadecimal number. -/
def hexLength : List Char → Nat
  | '0' :: x :: cs =>
    if x = 'x' ∨ x = 'X' then
      match runLength (fun c => isHexDigit c || c == '_') cs with
      | 0 => 0
      | n => n + 2
    else 0
  | _ => 0

/-- The names of the elementary types but the fixed point numbers. -/
def elementaryWords : List (List Char) :=
  (["address", "bool", "string", "var", "byte", "bytes", "int", "uint"]
    ++ (List.range 32).map (fun i => "bytes" ++ decimal (i + 1))
    ++ (List.range 32).map (fun i => "int" ++ decimal (8 * (i + 1)))
    ++ (List.range 32).map (fun i => "uint" ++ decimal (8 * (i + 1)))).map String.toList

/-- The length of the two widths of a fixed point number, with an `x` between them. -/
def widthsLength (cs : List Char) : Nat :=
  let total := runLength isDigit cs
  match total, cs.drop total with
  | 0, _ => 0
  | _, 'x' :: rest => match runLength isDigit rest with
    | 0 => 0
    | decimals => total + 1 + decimals
  | _, _ => 0

/-- The length of the name of a fixed point type. -/
def fixedLength (cs : List Char) : Nat :=
  let sign := spellingLength ['u'] cs
  match spellingLength "fixed".toList (cs.drop sign) with
  | 0 => 0
  | n => sign + n + widthsLength (cs.drop (sign + n))

/-- The length of the name of an elementary type. -/
def elementaryLength (cs : List Char) : Nat :=
  elementaryWords.foldl (fun n word => max n (spellingLength word cs)) (fixedLength cs)

/-- The length of the longest lexeme of the class at the start of a text, zero if there is none. -/
def length : Rule → List Char → Nat
  | .blank, cs => runLength isSeparator cs
  | .lineComment, cs => match spellingLength ['/', '/'] cs with
    | 0 => 0
    | n => n + runLength (· != '\n') (cs.drop n)
  | .keyword k, cs => spellingLength k.text.toList cs
  | .elementaryType, cs => elementaryLength cs
  | .identifier, cs => wordLength cs
  | .decimalNumber, cs => decimalLength cs
  | .hexNumber, cs => hexLength cs
  | .symbol s, cs => spellingLength s.text.toList cs
  | .openString kind quote, cs => spellingLength (kind.opener.toList ++ [quote]) cs
  | .openComment, cs => spellingLength ['/', '*'] cs

/-- The rules for string literals. -/
def strings : List Rule :=
  [.openString .plain '"', .openString .plain '\x27', .openString .hex '"',
   .openString .hex '\x27', .openString .unicode '"', .openString .unicode '\x27']

/-- Every rule, those that win a tie first. -/
def all : List Rule :=
  [blank, lineComment] ++ Keyword.all.map .keyword
    ++ [elementaryType, identifier, decimalNumber, hexNumber]
    ++ Symbol.all.map .symbol ++ strings ++ [openComment]

/-- The better of a choice and a further rule on the same text: the one with the longer lexeme. -/
def better (cs : List Char) (best : Option (Rule × Nat)) (r : Rule) : Option (Rule × Nat) :=
  let n := r.length cs
  if (best.elim 0 Prod.snd) < n then some (r, n) else best

/-- The rule with the longest lexeme at the start of a text, and the length of that lexeme. -/
def longest (cs : List Char) : Option (Rule × Nat) := all.foldl (better cs) none

end Rule

end SolidityFrontend
