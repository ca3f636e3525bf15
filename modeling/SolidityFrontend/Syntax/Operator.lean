import SolidityFrontend.Token.Basic

/-!
# Operators

The operators of expressions and the tokens that spell them. Binary operators fall into tiers: an
operator of a higher tier binds its operands more tightly. All associate to the left but the power,
which has a tier of its own above the ten others.
-/

namespace SolidityFrontend

/-- An operator between two operands. -/
inductive BinaryOp where
  | or | and | eq | ne | lt | gt | le | ge | bitOr | bitXor | bitAnd | shl | shr | sar | add | sub
  | mul | div | mod | pow
  deriving DecidableEq, Repr

namespace BinaryOp

def symbol : BinaryOp → Symbol
  | .or => .barBar
  | .and => .ampersandAmpersand
  | .eq => .eqEq
  | .ne => .bangEq
  | .lt => .less
  | .gt => .greater
  | .le => .lessEq
  | .ge => .greaterEq
  | .bitOr => .bar
  | .bitXor => .caret
  | .bitAnd => .ampersand
  | .shl => .shiftLeft
  | .shr => .shiftRight
  | .sar => .shiftRightSigned
  | .add => .plus
  | .sub => .minus
  | .mul => .star
  | .div => .slash
  | .mod => .percent
  | .pow => .starStar

def text (op : BinaryOp) : String := op.symbol.text

/-- The operators that associate to the left, tier by tier, the loosest first. -/
def tiers : List (List BinaryOp) :=
  [[.or], [.and], [.eq, .ne], [.lt, .gt, .le, .ge], [.bitOr], [.bitXor], [.bitAnd],
   [.shl, .shr, .sar], [.add, .sub], [.mul, .div, .mod]]

/-- The operator of a list that a token spells. -/
def ofToken? (ops : List BinaryOp) : Token → Option BinaryOp
  | .symbol s => ops.find? fun op => op.symbol == s
  | _ => none

end BinaryOp

/-- An operator in front of its operand. -/
inductive UnaryOp where
  | not | bitNot | neg | plus | delete
  deriving DecidableEq, Repr

namespace UnaryOp

def all : List UnaryOp := [.not, .bitNot, .neg, .plus, .delete]

def token : UnaryOp → Token
  | .not => .symbol .bang
  | .bitNot => .symbol .tilde
  | .neg => .symbol .minus
  | .plus => .symbol .plus
  | .delete => .keyword .delete

def text (op : UnaryOp) : String := op.token.text

/-- The operator that a token spells. -/
def ofToken? (t : Token) : Option UnaryOp := all.find? fun op => op.token == t

end UnaryOp

/-- A step of a variable by one. -/
inductive UpdateOp where
  | increment | decrement
  deriving DecidableEq, Repr

namespace UpdateOp

def symbol : UpdateOp → Symbol
  | .increment => .plusPlus
  | .decrement => .minusMinus

def text (op : UpdateOp) : String := op.symbol.text

/-- The operator that a token spells. -/
def ofToken? : Token → Option UpdateOp
  | .symbol .plusPlus => some .increment
  | .symbol .minusMinus => some .decrement
  | _ => none

end UpdateOp

/-- The side of its operand on which an operator stands. -/
inductive Fixity where
  | before | after
  deriving DecidableEq, Repr

/-- An assignment, plain or combined with an operation. -/
inductive AssignOp where
  | assign | or | xor | and | shl | shr | sar | add | sub | mul | div | mod
  deriving DecidableEq, Repr

namespace AssignOp

def all : List AssignOp :=
  [.assign, .or, .xor, .and, .shl, .shr, .sar, .add, .sub, .mul, .div, .mod]

def symbol : AssignOp → Symbol
  | .assign => .assign
  | .or => .barAssign
  | .xor => .caretAssign
  | .and => .ampersandAssign
  | .shl => .shiftLeftAssign
  | .shr => .shiftRightAssign
  | .sar => .shiftRightSignedAssign
  | .add => .plusAssign
  | .sub => .minusAssign
  | .mul => .starAssign
  | .div => .slashAssign
  | .mod => .percentAssign

def text (op : AssignOp) : String := op.symbol.text

/-- The operator that a token spells. -/
def ofToken? : Token → Option AssignOp
  | .symbol s => all.find? fun op => op.symbol == s
  | _ => none

end AssignOp

end SolidityFrontend
