import SolidityFrontend.Grammar.TypeName

/-!
# The grammar of expressions

From the loosest to the tightest: assignments, the conditional, the tiers of binary operators, the
power, operators in front, and what follows a primary expression. Assignments, conditionals and
powers nest to the right, the rest to the left.
-/

namespace SolidityFrontend.Grammar

open SolidityFrontend.Parser

/-! ### Literals -/

/-- A number and the unit behind it. -/
def numberLiteral (value : String) (kind : NumberKind) : Parser Literal := do
  let start ← here
  advance
  let unit := (← nextWord?).bind NumberUnit.ofWord?
  if unit.isSome then advance
  return .number ⟨value, kind, unit, ← spanFrom start⟩

/-- A string of one kind, if it is next, and where it stands. -/
def stringPart? {α : Type} (part? : Token → Option α) : Parser (Option (α × Span)) := do
  let span ← here
  match (← next?).bind part? with
  | some part =>
    advance
    return some (part, span)
  | none => return none

/-- The bytes of a plain string. -/
def plainPart? : Token → Option (List UInt8)
  | .string bytes => some bytes
  | _ => none

/-- The bytes of a unicode string. -/
def unicodePart? : Token → Option (List UInt8)
  | .unicodeString bytes => some bytes
  | _ => none

/-- The digits of a hex string. -/
def hexPart? : Token → Option String
  | .hexString digits => some digits
  | _ => none

/-- The bytes that pairs of digits denote. -/
def hexBytes : List Char → List UInt8
  | a :: b :: rest => UInt8.ofNat (Text.ofDigits 16 [a, b]) :: hexBytes rest
  | _ => []

/-- Adjacent strings given by their bytes. -/
def byteStrings (part? : Token → Option (List UInt8)) : Parser StringLiteral := do
  let start ← here
  let parts ← many (stringPart? part?)
  let bytes := parts.flatMap Prod.fst
  return ⟨String.ofList (Text.Utf8.decodeLossy bytes), bytes, parts.map Prod.snd, ← spanFrom start⟩

/-- Adjacent strings given by their digits. -/
def hexStrings : Parser StringLiteral := do
  let start ← here
  let parts ← many (stringPart? hexPart?)
  let digits := parts.map Prod.fst
  return ⟨"".intercalate digits, digits.flatMap (hexBytes ·.toList), parts.map Prod.snd,
    ← spanFrom start⟩

/-- The literal that begins with a token, unless nothing of the kind does. -/
def literal? : Token → Option (Parser Literal)
  | .keyword .true_ => some do
    let span ← here
    advance
    return .boolean true span
  | .keyword .false_ => some do
    let span ← here
    advance
    return .boolean false span
  | .decimalNumber digits => some (numberLiteral digits .decimal)
  | .hexNumber digits => some (numberLiteral digits .hex)
  | .string _ => some (.string <$> byteStrings plainPart?)
  | .hexString _ => some (.hexString <$> hexStrings)
  | .unicodeString _ => some (.unicodeString <$> byteStrings unicodePart?)
  | _ => none

section

variable (deeper : Nested)

/-- An expression in which braces may open named fields, whatever stands around it. -/
def inside : Parser Expr := structLiterals true deeper.expression

/-! ### Arguments -/

/-- A name, a colon and a value. -/
def namedArgument : Parser NamedArgument := do
  let name ← identifier
  let _ ← symbol .colon
  let value ← deeper.expression
  return ⟨name, value, ← spanFrom name.span⟩

/-- Named arguments in braces. -/
def namedArguments : Parser (List NamedArgument) := structLiterals true do
  let _ ← symbol .leftBrace
  let arguments ← commaItems .rightBrace (namedArgument deeper)
  let _ ← symbol .rightBrace
  return arguments

/-- After an argument by position: the end of the list, or a comma, which may not be left out. -/
def argumentsContinue : Parser Bool := do
  if ← nextIs (.symbol .rightParen) then return true
  let _ ← symbol .comma
  return true

/-- The arguments of a call. -/
def callArguments : Parser Arguments := do
  let start ← symbol .leftParen
  if ← nextIs (.symbol .leftBrace) then
    let arguments ← namedArguments deeper
    let _ ← symbol .rightParen
    return .named arguments (← spanFrom start)
  let arguments ← itemsUntil .rightParen argumentsContinue (inside deeper)
  let _ ← symbol .rightParen
  return .positional arguments (← spanFrom start)

/-- The arguments of a call, if a parenthesis is next. -/
def callArguments? : Parser (Option Arguments) := do
  if ← nextIs (.symbol .leftParen) then return some (← callArguments deeper) else return none

/-! ### Primary expressions -/

/-- An elementary type, and with parentheses behind it a conversion to it. -/
def elementaryExpr : Parser Expr := do
  let type ← elementaryTypeName false
  if ← accept (.symbol .leftParen) then
    let argument ← inside deeper
    let _ ← symbol .rightParen
    return .cast type argument (← spanFrom type.span)
  else return .elementary type

def payableExpr : Parser Expr := do
  let start ← word "payable"
  let arguments ← callArguments deeper
  return .payable arguments (← spanFrom start)

def metaTypeExpr : Parser Expr := do
  let start ← word "type"
  let _ ← symbol .leftParen
  let type ← deeper.typeName
  let _ ← symbol .rightParen
  return .metaType type (← spanFrom start)

def newExpr : Parser Expr := do
  let start ← keyword .new
  let type ← deeper.typeName
  return .new type (← spanFrom start)

/-- A place of a tuple, which is vacant before a comma or the closing parenthesis. -/
def tuplePlace {α : Type} (item : Parser α) : Parser (Option α) := do
  if ← nextIs (.symbol .comma) then return none
  if ← nextIs (.symbol .rightParen) then return none
  return some (← item)

/-- An expression in parentheses, or a tuple if there is no element or a comma. -/
def parenthesizedOrTuple : Parser Expr := do
  let start ← symbol .leftParen
  if ← accept (.symbol .rightParen) then return .tuple [] (← spanFrom start)
  let elements ← separated (tuplePlace (inside deeper))
  let _ ← symbol .rightParen
  let span ← spanFrom start
  match elements with
  | [some e] => return .parenthesized e span
  | _ => return .tuple elements span

def inlineArray : Parser Expr := do
  let start ← symbol .leftBracket
  let elements ← commaItems .rightBracket (inside deeper)
  let _ ← symbol .rightBracket
  return .inlineArray elements (← spanFrom start)

/-- An expression that begins with an identifier; `payable` and `type` are conversions before a
parenthesis. -/
def identifierExpr (name : String) : Parser Expr := do
  if (← peek? 1) = some (.symbol .leftParen) then
    if name = "payable" then payableExpr deeper
    else if name = "type" then metaTypeExpr deeper
    else return .identifier (← identifier)
  else return .identifier (← identifier)

/-- An expression that is not built from a smaller one on its left. -/
def primaryExpr : Parser Expr := do
  match ← next? with
  | none => unexpected .expression
  | some t =>
    match literal? t with
    | some p => return .literal (← p)
    | none =>
      match t with
      | .identifier name => identifierExpr deeper name
      | .elementaryType _ => elementaryExpr deeper
      | .keyword .new => newExpr deeper
      | .symbol .leftParen => parenthesizedOrTuple deeper
      | .symbol .leftBracket => inlineArray deeper
      | _ => unexpected .expression

/-! ### What follows a primary expression -/

/-- An expression unless one of two symbols is next. -/
def bound? (stop : Symbol) : Parser (Option Expr) := do
  if ← nextIs (.symbol stop) then return none else return some (← inside deeper)

/-- An index or a slice in brackets. -/
def indexOrSlice (base : Expr) : Parser Expr := do
  let _ ← symbol .leftBracket
  if ← accept (.symbol .rightBracket) then return .index base none (← spanFrom base.span)
  let lower ← bound? deeper .colon
  if ← accept (.symbol .colon) then
    let upper ← bound? deeper .rightBracket
    let _ ← symbol .rightBracket
    return .slice base lower upper (← spanFrom base.span)
  let _ ← symbol .rightBracket
  return .index base lower (← spanFrom base.span)

/-- Whether named fields begin here: a brace, a name and a colon. -/
def fieldsBegin : Parser Bool := do
  return (← next?) == some (.symbol .leftBrace) && ((← peek? 1).bind Token.identifier?).isSome
    && (← peek? 2) == some (.symbol .colon)

/-- Named fields behind an expression. Where they are not allowed they are read only as options of a
call, with a parenthesis behind them; else the brace stays. -/
def structFields? (type : Expr) : Parser (Option Expr) := do
  let before ← state
  let fields ← namedArguments deeper
  if (← context).structLiterals || (← nextIs (.symbol .leftParen)) then
    return some (.struct type fields (← spanFrom type.span))
  else
    goTo before
    return none

/-- The larger expression that the next tokens make of an expression. -/
def suffix? (e : Expr) : Parser (Option Expr) := do
  match ← next? with
  | some (.symbol .leftBracket) => return some (← indexOrSlice deeper e)
  | some (.symbol .dot) =>
    advance
    let name ← identifier
    return some (.member e name (← spanFrom e.span))
  | some (.symbol .leftParen) =>
    let arguments ← callArguments deeper
    return some (.call e arguments (← spanFrom e.span))
  | some (.symbol .leftBrace) =>
    if ← fieldsBegin then structFields? deeper e else return none
  | some t =>
    match UpdateOp.ofToken? t with
    | some op =>
      advance
      return some (.update op .after e (← spanFrom e.span))
    | none => return none
  | none => return none

/-- A primary expression and what follows it. -/
def suffixedExpr : Parser Expr := do
  iterate (suffix? deeper) (← primaryExpr deeper)

/-! ### Operators -/

/-- An expression with operators in front of it. -/
def unaryExpr : Parser Expr := do
  let start ← here
  match ← next? with
  | none => suffixedExpr deeper
  | some t =>
    match UnaryOp.ofToken? t, UpdateOp.ofToken? t with
    | some op, _ =>
      advance
      let operand ← deeper.operand
      return .unary op operand (← spanFrom start)
    | none, some op =>
      advance
      let operand ← deeper.operand
      return .update op .before operand (← spanFrom start)
    | none, none => suffixedExpr deeper

/-- Two operands and the operator between them. -/
def binary (left : Expr) (op : BinaryOp) (right : Expr) : Expr :=
  .binary left op right (left.span.through right.span)

/-- An expression and perhaps the power to which it is raised. -/
def powerExpr : Parser Expr := do
  let base ← unaryExpr deeper
  if ← accept (.symbol .starStar) then
    let exponent ← deeper.exponent
    return binary base .pow exponent
  else return base

/-- Operands with operators of one tier between them. -/
def leftAssociative (ops : List BinaryOp) (operand : Parser Expr) : Parser Expr := do
  let step (left : Expr) : Parser (Option Expr) := do
    match (← next?).bind (BinaryOp.ofToken? ops) with
    | some op =>
      advance
      return some (binary left op (← operand))
    | none => return none
  iterate step (← operand)

/-- Operands with operators of the given tiers between them. -/
def binaryExpr : List (List BinaryOp) → Parser Expr
  | [] => powerExpr deeper
  | ops :: tighter => leftAssociative ops (binaryExpr tighter)

/-- A conditional, or an expression of the binary tiers. -/
def conditionalExpr : Parser Expr := do
  let condition ← binaryExpr deeper BinaryOp.tiers
  if ← accept (.symbol .question) then
    let ifTrue ← inside deeper
    let _ ← symbol .colon
    let ifFalse ← deeper.expression
    return .ternary condition ifTrue ifFalse (condition.span.through ifFalse.span)
  else return condition

/-- An expression. -/
def expression : Parser Expr := do
  let left ← conditionalExpr deeper
  match (← next?).bind AssignOp.ofToken? with
  | none => return left
  | some op =>
    advance
    if left.isAssignable then
      let right ← deeper.expression
      return .assignment left op right (left.span.through right.span)
    else violation .assignmentTarget left.span

end

end SolidityFrontend.Grammar
