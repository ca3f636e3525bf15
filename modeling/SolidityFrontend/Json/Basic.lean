import SolidityFrontend.Text.Decimal

/-!
# JSON values

A value keeps the fields of an object in the order in which they were given. It is written either on
one line or over several, with two blanks for each level and an empty list or object on one line.
Quotes, backslashes and control characters of strings are escaped, and nothing else.
-/

namespace SolidityFrontend

/-- A JSON value whose numbers are natural. -/
inductive Json where
  | null
  | bool (b : Bool)
  | number (n : Nat)
  | string (s : String)
  | array (values : List Json)
  | object (fields : List (String × Json))

namespace Json

open Text

/-- Two hexadecimal digits. -/
def twoDigits (n : Nat) : List Char :=
  if n < 16 then '0' :: Nat.toDigits 16 n else Nat.toDigits 16 n

/-- One character of a string. -/
def escapeChar (c : Char) : List Char :=
  if c = '"' then ['\\', '"']
  else if c = '\\' then ['\\', '\\']
  else if c = '\x08' then ['\\', 'b']
  else if c = '\x0c' then ['\\', 'f']
  else if c = '\n' then ['\\', 'n']
  else if c = '\r' then ['\\', 'r']
  else if c = '\t' then ['\\', 't']
  else if c < ' ' then '\\' :: 'u' :: '0' :: '0' :: twoDigits c.toNat
  else [c]

/-- A string in quotes. -/
def escape (s : String) : String :=
  "\"" ++ String.ofList (s.toList.flatMap escapeChar) ++ "\""

/-- The texts of a list in brackets, on one line. -/
def enclose (opening closing : String) (items : List String) : String :=
  opening ++ ",".intercalate items ++ closing

/-- The texts of a list in brackets, each on a line of its own; `indent` is the blank in front of the
line that closes it. -/
def encloseLines (opening closing indent : String) : List String → String
  | [] => opening ++ closing
  | items =>
    let inner := "\n" ++ indent ++ "  "
    opening ++ inner ++ ("," ++ inner).intercalate items ++ "\n" ++ indent ++ closing

mutual

/-- The value on one line. -/
def compact : Json → String
  | .null => "null"
  | .bool b => if b then "true" else "false"
  | .number n => decimal n
  | .string s => escape s
  | .array values => enclose "[" "]" (compactValues values)
  | .object fields => enclose "\x7b" "\x7d" (compactFields fields)

def compactValues : List Json → List String
  | [] => []
  | v :: vs => compact v :: compactValues vs

def compactFields : List (String × Json) → List String
  | [] => []
  | (name, v) :: fields => (escape name ++ ":" ++ compact v) :: compactFields fields

end

mutual

/-- The value over several lines, the first of which is already indented. -/
def prettyAt (indent : String) : Json → String
  | .null => "null"
  | .bool b => if b then "true" else "false"
  | .number n => decimal n
  | .string s => escape s
  | .array values => encloseLines "[" "]" indent (prettyValues (indent ++ "  ") values)
  | .object fields => encloseLines "\x7b" "\x7d" indent (prettyFields (indent ++ "  ") fields)

def prettyValues (indent : String) : List Json → List String
  | [] => []
  | v :: vs => prettyAt indent v :: prettyValues indent vs

def prettyFields (indent : String) : List (String × Json) → List String
  | [] => []
  | (name, v) :: fields =>
    (escape name ++ ": " ++ prettyAt indent v) :: prettyFields indent fields

end

/-- The value over several lines. -/
def pretty (v : Json) : String := prettyAt "" v

/-- The text of an optional value. -/
def ofOption {α : Type} (f : α → Json) : Option α → Json
  | none => .null
  | some x => f x

/-- The list of the texts of several values. -/
def ofList {α : Type} (f : α → Json) (xs : List α) : Json := .array (xs.map f)

/-- A value under the name of its variant. -/
def tagged (name : String) (v : Json) : Json := .object [(name, v)]

end Json

end SolidityFrontend
