import SolidityFrontend.Text.Decimal

/-!
# Elementary types

The types named by one word. A width in bits is a multiple of eight up to 256 and a width in bytes
lies between 1 and 32, both without leading zeros; the two widths of a fixed point number only have
to fit sixteen bits.
-/

namespace SolidityFrontend

open Text

/-- A type named by one word, or `address payable`. -/
inductive ElementaryType where
  | address
  | addressPayable
  | bool
  | string
  /-- The type that is inferred from the initial value. -/
  | var
  | byte
  /-- Bytes of any number. -/
  | bytes
  | fixedBytes (size : Nat)
  | int (bits : Nat)
  | uint (bits : Nat)
  | fixed (widths : Option (Nat × Nat))
  | ufixed (widths : Option (Nat × Nat))
  deriving DecidableEq, Repr

namespace ElementaryType

/-- The two widths of a fixed point number. -/
def widthsText : Option (Nat × Nat) → String
  | none => ""
  | some (total, decimals) => decimal total ++ "x" ++ decimal decimals

/-- The canonical spelling. -/
def text : ElementaryType → String
  | .address => "address"
  | .addressPayable => "address payable"
  | .bool => "bool"
  | .string => "string"
  | .var => "var"
  | .byte => "byte"
  | .bytes => "bytes"
  | .fixedBytes size => "bytes" ++ decimal size
  | .int bits => "int" ++ decimal bits
  | .uint bits => "uint" ++ decimal bits
  | .fixed widths => "fixed" ++ widthsText widths
  | .ufixed widths => "ufixed" ++ widthsText widths

/-- The types whose names carry no number. -/
def named : List (String × ElementaryType) :=
  [("address", .address), ("bool", .bool), ("string", .string), ("var", .var), ("byte", .byte),
   ("bytes", .bytes), ("int", .int 256), ("uint", .uint 256), ("fixed", .fixed none),
   ("ufixed", .ufixed none)]

/-- A number without leading zeros. -/
def plainNumber? (cs : List Char) : Option Nat :=
  if cs.isEmpty || cs.head? = some '0' || !cs.all isDigit then none else some (ofDigits 10 cs)

def byteSize? (cs : List Char) : Option Nat :=
  (plainNumber? cs).filter fun n => 1 ≤ n && n ≤ 32

def bitWidth? (cs : List Char) : Option Nat :=
  (plainNumber? cs).filter fun n => n % 8 == 0 && 8 ≤ n && n ≤ 256

/-- A number that fits sixteen bits, perhaps with leading zeros. -/
def shortNumber? (cs : List Char) : Option Nat :=
  if cs.isEmpty || !cs.all isDigit then none
  else (some (ofDigits 10 cs)).filter (· < 0x10000)

/-- The two widths of a fixed point number, with an `x` between them. -/
def widths? (cs : List Char) : Option (Nat × Nat) :=
  match cs.span (· != 'x') with
  | (total, _ :: decimals) => do return (← shortNumber? total, ← shortNumber? decimals)
  | (_, []) => none

/-- What follows a fixed text. -/
def strip? (start : String) (cs : List Char) : Option (List Char) :=
  if start.toList.isPrefixOf cs then some (cs.drop start.length) else none

/-- The type named by a base word and a number. -/
def ofBase? (cs : List Char) : Option ElementaryType :=
  if let some rest := strip? "bytes" cs then (byteSize? rest).map .fixedBytes
  else if let some rest := strip? "uint" cs then (bitWidth? rest).map .uint
  else if let some rest := strip? "int" cs then (bitWidth? rest).map .int
  else if let some rest := strip? "ufixed" cs then (widths? rest).map (.ufixed ∘ some)
  else if let some rest := strip? "fixed" cs then (widths? rest).map (.fixed ∘ some)
  else none

/-- The type that a word names. -/
def ofWord? (word : String) : Option ElementaryType :=
  match named.lookup word with
  | some type => some type
  | none => ofBase? word.toList

end ElementaryType

end SolidityFrontend
