/-!
# Operators and punctuation

The tokens that are spelled with punctuation characters, each with its spelling and the name under
which token dumps show it.
-/

namespace SolidityFrontend

/-- An operator or a piece of punctuation. -/
inductive Symbol where
  | plus | minus | star | slash | percent | starStar | plusPlus | minusMinus | eqEq | bangEq
  | less | greater | lessEq | greaterEq | ampersandAmpersand | barBar | bang | ampersand | bar
  | caret | tilde | shiftLeft | shiftRight | shiftRightSigned | assign | plusAssign | minusAssign
  | starAssign | slashAssign | percentAssign | barAssign | ampersandAssign | caretAssign
  | shiftLeftAssign | shiftRightAssign | shiftRightSignedAssign | arrow | question | leftParen
  | rightParen | leftBracket | rightBracket | leftBrace | rightBrace | comma | semicolon | colon
  | dot
  deriving DecidableEq, Repr

namespace Symbol

/-- Every symbol once. -/
def all : List Symbol :=
  [.plus, .minus, .star, .slash, .percent, .starStar, .plusPlus, .minusMinus, .eqEq, .bangEq,
   .less, .greater, .lessEq, .greaterEq, .ampersandAmpersand, .barBar, .bang, .ampersand, .bar,
   .caret, .tilde, .shiftLeft, .shiftRight, .shiftRightSigned, .assign, .plusAssign,
   .minusAssign, .starAssign, .slashAssign, .percentAssign, .barAssign, .ampersandAssign,
   .caretAssign, .shiftLeftAssign, .shiftRightAssign, .shiftRightSignedAssign, .arrow, .question,
   .leftParen, .rightParen, .leftBracket, .rightBracket, .leftBrace, .rightBrace, .comma,
   .semicolon, .colon, .dot]

/-- The spelling in source text. -/
def text : Symbol → String
  | .plus => "+"
  | .minus => "-"
  | .star => "*"
  | .slash => "/"
  | .percent => "%"
  | .starStar => "**"
  | .plusPlus => "++"
  | .minusMinus => "--"
  | .eqEq => "=="
  | .bangEq => "!="
  | .less => "<"
  | .greater => ">"
  | .lessEq => "<="
  | .greaterEq => ">="
  | .ampersandAmpersand => "&&"
  | .barBar => "||"
  | .bang => "!"
  | .ampersand => "&"
  | .bar => "|"
  | .caret => "^"
  | .tilde => "~"
  | .shiftLeft => "<<"
  | .shiftRight => ">>"
  | .shiftRightSigned => ">>>"
  | .assign => "="
  | .plusAssign => "+="
  | .minusAssign => "-="
  | .starAssign => "*="
  | .slashAssign => "/="
  | .percentAssign => "%="
  | .barAssign => "|="
  | .ampersandAssign => "&="
  | .caretAssign => "^="
  | .shiftLeftAssign => "<<="
  | .shiftRightAssign => ">>="
  | .shiftRightSignedAssign => ">>>="
  | .arrow => "=>"
  | .question => "?"
  | .leftParen => "("
  | .rightParen => ")"
  | .leftBracket => "["
  | .rightBracket => "]"
  | .leftBrace => "\x7b"
  | .rightBrace => "\x7d"
  | .comma => ","
  | .semicolon => ";"
  | .colon => ":"
  | .dot => "."

/-- The name in token dumps. -/
def name : Symbol → String
  | .plus => "Plus"
  | .minus => "Minus"
  | .star => "Star"
  | .slash => "Slash"
  | .percent => "Percent"
  | .starStar => "StarStar"
  | .plusPlus => "PlusPlus"
  | .minusMinus => "MinusMinus"
  | .eqEq => "EqEq"
  | .bangEq => "NotEq"
  | .less => "Lt"
  | .greater => "Gt"
  | .lessEq => "LtEq"
  | .greaterEq => "GtEq"
  | .ampersandAmpersand => "AndAnd"
  | .barBar => "OrOr"
  | .bang => "Bang"
  | .ampersand => "Ampersand"
  | .bar => "Or"
  | .caret => "Caret"
  | .tilde => "Tilde"
  | .shiftLeft => "LtLt"
  | .shiftRight => "GtGt"
  | .shiftRightSigned => "GtGtGt"
  | .assign => "Assign"
  | .plusAssign => "PlusAssign"
  | .minusAssign => "MinusAssign"
  | .starAssign => "StarAssign"
  | .slashAssign => "SlashAssign"
  | .percentAssign => "PercentAssign"
  | .barAssign => "OrAssign"
  | .ampersandAssign => "AndAssign"
  | .caretAssign => "CaretAssign"
  | .shiftLeftAssign => "LtLtAssign"
  | .shiftRightAssign => "GtGtAssign"
  | .shiftRightSignedAssign => "GtGtGtAssign"
  | .arrow => "FatArrow"
  | .question => "Question"
  | .leftParen => "LeftParen"
  | .rightParen => "RightParen"
  | .leftBracket => "LeftBracket"
  | .rightBracket => "RightBracket"
  | .leftBrace => "LeftBrace"
  | .rightBrace => "RightBrace"
  | .comma => "Comma"
  | .semicolon => "Semicolon"
  | .colon => "Colon"
  | .dot => "Dot"

theorem mem_all (s : Symbol) : s ∈ all := by cases s <;> decide

end Symbol

end SolidityFrontend
