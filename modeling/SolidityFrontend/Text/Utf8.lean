/-!
# UTF-8

Reading bytes as characters. The first byte of a sequence fixes how many bytes follow it and in
which range the second lies; the later ones lie between 0x80 and 0xBF. Where a sequence breaks off,
the bytes that could still have begun a character are one maximal invalid part: `decode` reports the
first such part, `decodeLossy` replaces each by one U+FFFD.
-/

namespace SolidityFrontend.Text.Utf8

/-- The bytes of one character. -/
def encodeChar (c : Char) : List UInt8 := String.utf8EncodeChar c

/-- The bytes of a run of characters. -/
def encode (cs : List Char) : List UInt8 := cs.flatMap encodeChar

/-- What the first byte of a sequence says: how many bytes follow, and the range of the next one. -/
structure Lead where
  following : Nat
  low : UInt8
  high : UInt8

def Lead.ofByte? (b : UInt8) : Option Lead :=
  if b < 0x80 then some ⟨0, 0x80, 0xBF⟩
  else if 0xC2 ≤ b ∧ b ≤ 0xDF then some ⟨1, 0x80, 0xBF⟩
  else if b = 0xE0 then some ⟨2, 0xA0, 0xBF⟩
  else if b = 0xED then some ⟨2, 0x80, 0x9F⟩
  else if 0xE1 ≤ b ∧ b ≤ 0xEF then some ⟨2, 0x80, 0xBF⟩
  else if b = 0xF0 then some ⟨3, 0x90, 0xBF⟩
  else if 0xF1 ≤ b ∧ b ≤ 0xF3 then some ⟨3, 0x80, 0xBF⟩
  else if b = 0xF4 then some ⟨3, 0x80, 0x8F⟩
  else none

/-- How many of the next bytes fit a sequence that owes `owed` more, the first of them in the given
range, and whether the bytes ran out before it was settled. -/
def fitting : Nat → UInt8 → UInt8 → List UInt8 → Nat × Bool
  | 0, _, _, _ => (0, false)
  | _ + 1, _, _, [] => (0, true)
  | owed + 1, low, high, b :: bs =>
    if low ≤ b ∧ b ≤ high then
      let (n, ranOut) := fitting owed 0x80 0xBF bs
      (n + 1, ranOut)
    else (0, false)

/-- The code point that a complete sequence stands for. -/
def codePoint (lead : UInt8) (following : List UInt8) : Nat :=
  let head := match following.length with
    | 0 => lead.toNat
    | 1 => lead.toNat % 0x20
    | 2 => lead.toNat % 0x10
    | _ => lead.toNat % 0x08
  following.foldl (fun n b => n * 0x40 + b.toNat % 0x40) head

/-- The start of a byte string: a character, or a part that belongs to none. -/
inductive Piece where
  | char (c : Char)
  | invalid
  /-- The bytes end inside a sequence that is valid so far. -/
  | incomplete
  deriving DecidableEq, Repr

/-- The piece that begins with byte `b`, and how many of the next bytes belong to it. -/
def piece (b : UInt8) (bs : List UInt8) : Piece × Nat :=
  match Lead.ofByte? b with
  | none => (.invalid, 0)
  | some lead =>
    match fitting lead.following lead.low lead.high bs with
    | (n, ranOut) =>
      if n = lead.following then (.char (Char.ofNat (codePoint b (bs.take n))), n)
      else if ranOut then (.incomplete, n)
      else (.invalid, n)

/-- The pieces of a byte string with their lengths; `skip` more bytes belong to the last one. -/
def piecesFrom : Nat → List UInt8 → List (Piece × Nat)
  | _, [] => []
  | skip + 1, _ :: bs => piecesFrom skip bs
  | 0, b :: bs =>
    let (p, n) := piece b bs
    (p, n + 1) :: piecesFrom n bs

/-- The pieces of a byte string with their lengths. -/
def pieces (bs : List UInt8) : List (Piece × Nat) := piecesFrom 0 bs

/-- Each part that is no character becomes one replacement character. -/
def decodeLossy (bs : List UInt8) : List Char :=
  (pieces bs).map fun
    | (.char c, _) => c
    | _ => '\uFFFD'

/-- Where and how a byte string fails to be UTF-8. -/
inductive Failure where
  /-- A part of this many bytes belongs to no character. -/
  | invalid (length index : Nat)
  /-- The bytes from this index on begin a character that the end cuts off. -/
  | incomplete (index : Nat)
  deriving DecidableEq, Repr

/-- The characters, or the first failure; `index` bytes went before. -/
def collect (index : Nat) : List (Piece × Nat) → Except Failure (List Char)
  | [] => .ok []
  | (.char c, n) :: rest => (collect (index + n) rest).map (c :: ·)
  | (.invalid, n) :: _ => .error (.invalid n index)
  | (.incomplete, _) :: _ => .error (.incomplete index)

/-- The characters of a byte string, if it is UTF-8. -/
def decode (bs : List UInt8) : Except Failure (List Char) := collect 0 (pieces bs)

end SolidityFrontend.Text.Utf8
