import SolidityFrontend.Text.Decimal
import SolidityFrontend.Text.Printable

/-!
# Quoted text

A text in double quotes, on one line and fit to be shown: the quote and the backslash are escaped,
NUL, tab, line feed and carriage return have short escapes, and a character that has no visible form
or attaches to the one before it is written as its code point in hexadecimal.
-/

namespace SolidityFrontend.Text

/-- The code point of a character in braces. -/
def codePointEscape (c : Char) : List Char :=
  '\\' :: 'u' :: '{' :: (Nat.toDigits 16 c.toNat ++ ['}'])

/-- One character of a quoted text. -/
def quoteChar (c : Char) : List Char :=
  if c = '\x00' then ['\\', '0']
  else if c = '\t' then ['\\', 't']
  else if c = '\n' then ['\\', 'n']
  else if c = '\r' then ['\\', 'r']
  else if c = '"' then ['\\', '"']
  else if c = '\\' then ['\\', '\\']
  else if ' ' ≤ c ∧ c ≤ '~' then [c]
  else if extendsGrapheme c || !isPrintable c then codePointEscape c
  else [c]

/-- The characters of a text in double quotes. -/
def quoteChars (cs : List Char) : List Char :=
  '"' :: (cs.flatMap quoteChar ++ ['"'])

/-- A text in double quotes. -/
def quote (s : String) : String := String.ofList (quoteChars s.toList)

end SolidityFrontend.Text
