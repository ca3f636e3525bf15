import SolidityFrontend.Source.Position
import SolidityFrontend.Text.Blank
import SolidityFrontend.Text.Decimal
import SolidityFrontend.Syntax.Word

/-!
# Version requirements

The value of a version pragma: alternatives separated by `||`, each a list of constraints or a range
`a - b`, which stands for the two constraints `>=a` and `<=b`. Blanks are spaces, tabs and line
breaks. A constraint keeps its bytes in the text it was read from.
-/

namespace SolidityFrontend

open Text

/-- How a version is compared with the one a constraint names. -/
inductive VersionOperator where
  | caret | tilde | eq | gt | ge | lt | le
  deriving DecidableEq, Repr

namespace VersionOperator

/-- Every operator; one that begins with another stands before it. -/
def all : List VersionOperator := [.ge, .le, .gt, .lt, .eq, .caret, .tilde]

/-- The spelling in source text. -/
def text : VersionOperator → String
  | .caret => "^"
  | .tilde => "~"
  | .eq => "="
  | .gt => ">"
  | .ge => ">="
  | .lt => "<"
  | .le => "<="

end VersionOperator

namespace Version

/-- A constraint, from byte `start` up to byte `stop` of its text. -/
structure Constraint where
  operator : Option VersionOperator
  version : String
  start : Nat
  stop : Nat
  deriving DecidableEq, Repr

/-- Why a text is no version requirement. -/
inductive Fault where
  /-- The text ends where a constraint is due. -/
  | incomplete (text : String)
  | unexpected (rest : String)
  deriving DecidableEq, Repr

def Fault.message : Fault → String
  | .incomplete text => "incomplete version requirement '" ++ text ++ "'"
  | .unexpected rest => "unexpected '" ++ rest ++ "' in version requirement"

/-- The rest of a text, with the number of bytes before it. -/
structure Cursor where
  offset : Nat
  rest : List Char

namespace Cursor

/-- The cursor `n` characters further on. -/
def skip (c : Cursor) (n : Nat) : Cursor := ⟨c.offset + byteLength (c.rest.take n), c.rest.drop n⟩

/-- The cursor behind a fixed text, if the rest begins with it. -/
def match? (c : Cursor) (text : String) : Option Cursor :=
  if text.toList.isPrefixOf c.rest then some (c.skip text.length) else none

def isSpace (c : Char) : Bool := c == ' ' || c == '\t' || c == '\r' || c == '\n'

def skipSpace (c : Cursor) : Cursor := c.skip (c.rest.takeWhile isSpace).length

/-- An operator, if the rest begins with one. -/
def operator (c : Cursor) : Option VersionOperator × Cursor :=
  match VersionOperator.all.findSome? fun op => (c.match? op.text).map (op, ·) with
  | some (op, next) => (some op, next)
  | none => (none, c)

/-- The length of one part of a version: digits, or a sign that stands for any number. -/
def partLength : List Char → Nat
  | [] => 0
  | c :: cs =>
    if isDigit c then 1 + (cs.takeWhile isDigit).length
    else if c = 'x' ∨ c = 'X' ∨ c = '*' then 1
    else 0

/-- The length of at most `n` further parts, each behind a point. -/
def morePartsLength : Nat → List Char → Nat
  | n + 1, '.' :: cs => match partLength cs with
    | 0 => 0
    | m => 1 + m + morePartsLength n (cs.drop m)
  | _, _ => 0

/-- The length of a version of one to three parts. -/
def versionLength (cs : List Char) : Nat :=
  match partLength cs with
  | 0 => 0
  | n => n + morePartsLength 2 (cs.drop n)

/-- A constraint and the cursor behind it. -/
def constraint? (c : Cursor) : Option (Constraint × Cursor) :=
  let start := c.skipSpace
  let (operator, afterOperator) := start.operator
  let version := afterOperator.skipSpace
  match versionLength version.rest with
  | 0 => none
  | n =>
    let stop := version.skip n
    some (⟨operator, String.ofList (version.rest.take n), start.offset, stop.offset⟩, stop)

/-- The constraints that follow each other from here, at most `fuel` of them. -/
def constraints : Nat → Cursor → List Constraint × Cursor
  | 0, c => ([], c)
  | fuel + 1, c => match c.constraint? with
    | none => ([], c)
    | some (k, next) =>
      let (ks, stop) := constraints fuel next
      (k :: ks, stop)

/-- A constraint and those that follow it; every constraint has a character of its own. -/
def list (first : Constraint) (c : Cursor) : List Constraint × Cursor :=
  let (ks, stop) := constraints c.rest.length c
  (first :: ks, stop)

/-- An alternative: a range, whose ends have no operators, or a list of constraints. -/
def alternative? (c : Cursor) : Option (List Constraint × Cursor) := do
  let (first, next) ← c.constraint?
  if first.operator.isNone then
    if let some afterHyphen := next.skipSpace.match? "-" then
      let (last, stop) ← afterHyphen.constraint?
      if last.operator.isNone then
        return ([{ first with operator := some .ge }, { last with operator := some .le }], stop)
  return list first next

end Cursor

/-- The fault of a text whose part `rest` cannot be read. -/
def faultAt (text rest : List Char) : Fault :=
  let rest := trim rest
  if rest.isEmpty then .incomplete (String.ofList (trim text))
  else .unexpected (String.ofList rest)

/-- The alternatives from a cursor on, at most `fuel` of them. -/
def alternatives (text : List Char) : Nat → Cursor → Except Fault (List (List Constraint))
  | 0, c => .error (faultAt text c.rest)
  | fuel + 1, c => do
    match c.alternative? with
    | none => .error (faultAt text c.rest)
    | some (ks, next) =>
      match next.skipSpace.match? "||" with
      | some after => return ks :: (← alternatives text fuel after)
      | none =>
        let stop := next.skipSpace.rest
        if stop.isEmpty then return [ks] else .error (faultAt text stop)

/-- The alternatives of a version requirement. -/
def parse (text : List Char) : Except Fault (List (List Constraint)) :=
  alternatives text (text.length + 1) ⟨0, text⟩

end Version

end SolidityFrontend
