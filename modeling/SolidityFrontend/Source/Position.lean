/-!
# Positions in a source text

A `Position` is a line and a column, both counted from one; a `Location` adds the offset in bytes of
the text's UTF-8 form. Both move over characters: only a line feed ends a line, every other
character is one column wide, and the offset grows by the character's encoded size.
-/

namespace SolidityFrontend

/-- A line and a column, counted from one. -/
structure Position where
  line : Nat
  column : Nat
  deriving DecidableEq, Repr

namespace Position

/-- The first position of every text. -/
def origin : Position := ⟨1, 1⟩

/-- The position after one character. -/
def advance (p : Position) (c : Char) : Position :=
  if c = '\n' then ⟨p.line + 1, 1⟩ else ⟨p.line, p.column + 1⟩

/-- The position after a run of characters. -/
def advanceBy (p : Position) (cs : List Char) : Position :=
  cs.foldl advance p

/-- Lines come first, columns second. -/
def order (p q : Position) : Ordering :=
  (compare p.line q.line).then (compare p.column q.column)

theorem advanceBy_nil (p : Position) : p.advanceBy [] = p := rfl

theorem advanceBy_cons (p : Position) (c : Char) (cs : List Char) :
    p.advanceBy (c :: cs) = (p.advance c).advanceBy cs := rfl

theorem advanceBy_append (p : Position) (cs ds : List Char) :
    p.advanceBy (cs ++ ds) = (p.advanceBy cs).advanceBy ds :=
  List.foldl_append ..

end Position

/-- The number of bytes in the UTF-8 form of a run of characters. -/
def byteLength : List Char → Nat
  | [] => 0
  | c :: cs => c.utf8Size + byteLength cs

theorem byteLength_append (cs ds : List Char) :
    byteLength (cs ++ ds) = byteLength cs + byteLength ds := by
  induction cs with
  | nil => simp [byteLength]
  | cons c cs ih => simp [byteLength, ih, Nat.add_assoc]

/-- A place in a text: how many bytes precede it, and on which line and column it is. -/
structure Location where
  offset : Nat
  position : Position
  deriving DecidableEq, Repr

namespace Location

/-- The place before the first character. -/
def origin : Location := ⟨0, .origin⟩

/-- The place after one character. -/
def advance (l : Location) (c : Char) : Location :=
  ⟨l.offset + c.utf8Size, l.position.advance c⟩

/-- The place after a run of characters. -/
def advanceBy (l : Location) (cs : List Char) : Location :=
  cs.foldl advance l

theorem advanceBy_nil (l : Location) : l.advanceBy [] = l := rfl

theorem advanceBy_cons (l : Location) (c : Char) (cs : List Char) :
    l.advanceBy (c :: cs) = (l.advance c).advanceBy cs := rfl

theorem advanceBy_append (l : Location) (cs ds : List Char) :
    l.advanceBy (cs ++ ds) = (l.advanceBy cs).advanceBy ds :=
  List.foldl_append ..

theorem offset_advanceBy (l : Location) (cs : List Char) :
    (l.advanceBy cs).offset = l.offset + byteLength cs := by
  induction cs generalizing l with
  | nil => rfl
  | cons c cs ih => rw [advanceBy_cons, ih]; simp [advance, byteLength, Nat.add_assoc]

theorem offset_advanceBy_origin (cs : List Char) :
    (Location.origin.advanceBy cs).offset = byteLength cs := by
  rw [offset_advanceBy, origin, Nat.zero_add]

theorem position_advanceBy (l : Location) (cs : List Char) :
    (l.advanceBy cs).position = l.position.advanceBy cs := by
  induction cs generalizing l with
  | nil => rfl
  | cons c cs ih => rw [advanceBy_cons, ih]; rfl

end Location

end SolidityFrontend
