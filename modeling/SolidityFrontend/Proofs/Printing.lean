import SolidityFrontend.Proofs.Spacing
import SolidityFrontend.Proofs.Writing

/-!
# The tokens of expressions and type names

Syntax is printed as the tokens of its phrase in order, a string literal as one part and without
commas that may be left out. How deep syntax nests is counted as the parser counts it: a part that
is read one level deeper counts one more than what nests in it.

Operator trees are the expressions of names, numbers, operators, members, indices and calls by
position, in which every operand has a tier that its place allows.
-/

namespace SolidityFrontend

/-- Lists of tokens with commas between them. -/
def commas (tss : List (List Token)) : List Token := [Token.symbol .comma].intercalate tss

/-- Tokens in parentheses with commas between them. -/
def inParens (tss : List (List Token)) : List Token :=
  .symbol .leftParen :: commas tss ++ [Token.symbol .rightParen]

/-! ### Tokens -/

def ElementaryType.tokens : ElementaryType → List Token
  | .addressPayable => [.elementaryType "address", .identifier "payable"]
  | type => [.elementaryType type.text]

def Path.tokens (p : Path) : List Token :=
  [Token.symbol .dot].intercalate (p.segments.map fun i => [.identifier i.name])

def FunctionTypeAttribute.tokens : FunctionTypeAttribute → List Token
  | .visibility v _ => [.identifier v.text]
  | .mutability m _ => [.identifier m.text]

def Literal.tokens : Literal → List Token
  | .string l => [.string l.bytes]
  | .hexString l => [.hexString l.value]
  | .unicodeString l => [.unicodeString l.bytes]
  | .number l => l.token :: (l.unit.map fun unit => .identifier unit.text).toList
  | .boolean value _ => [.keyword (if value then .true_ else .false_)]

mutual

def Expr.tokens : Expr → List Token
  | .binary left op right _ => left.tokens ++ .symbol op.symbol :: right.tokens
  | .unary op operand _ => op.token :: operand.tokens
  | .update op .before operand _ => .symbol op.symbol :: operand.tokens
  | .update op .after operand _ => operand.tokens ++ [.symbol op.symbol]
  | .ternary condition ifTrue ifFalse _ =>
    condition.tokens ++ .symbol .question :: (ifTrue.tokens ++ .symbol .colon :: ifFalse.tokens)
  | .assignment left op right _ => left.tokens ++ .symbol op.symbol :: right.tokens
  | .call callee arguments _ => callee.tokens ++ arguments.tokens
  | .member object name _ => object.tokens ++ [.symbol .dot, .identifier name.name]
  | .index base index _ =>
    base.tokens ++ .symbol .leftBracket :: (optionTokens index ++ [.symbol .rightBracket])
  | .slice base lower upper _ => base.tokens ++ .symbol .leftBracket :: (optionTokens lower
    ++ .symbol .colon :: (optionTokens upper ++ [.symbol .rightBracket]))
  | .tuple elements _ => inParens (placeTokens elements)
  | .inlineArray elements _ =>
    .symbol .leftBracket :: commas (exprTokens elements) ++ [.symbol .rightBracket]
  | .struct type fields _ =>
    type.tokens ++ .symbol .leftBrace :: (commas (namedTokens fields) ++ [.symbol .rightBrace])
  | .new type _ => .keyword .new :: type.tokens
  | .cast type argument _ => type.kind.tokens ++ inParens [argument.tokens]
  | .elementary type => type.kind.tokens
  | .metaType type _ => .identifier "type" :: inParens [type.tokens]
  | .payable arguments _ => .identifier "payable" :: arguments.tokens
  | .parenthesized inner _ => inParens [inner.tokens]
  | .literal l => l.tokens
  | .identifier i => [.identifier i.name]

def Arguments.tokens : Arguments → List Token
  | .positional arguments _ => inParens (exprTokens arguments)
  | .named arguments _ => inParens
    [.symbol .leftBrace :: (commas (namedTokens arguments) ++ [.symbol .rightBrace])]

def NamedArgument.tokens : NamedArgument → List Token
  | ⟨name, value, _⟩ => .identifier name.name :: .symbol .colon :: value.tokens

def TypeName.tokens : TypeName → List Token
  | .elementary type => type.kind.tokens
  | .userDefined path => path.tokens
  | .mapping key value _ =>
    .keyword .mapping :: inParens [key.tokens ++ .symbol .arrow :: value.tokens]
  | .array base size _ =>
    base.tokens ++ .symbol .leftBracket :: (optionTokens size ++ [.symbol .rightBracket])
  | .function parameters attributes returns _ =>
    .keyword .function :: (inParens (parameterTokens parameters)
      ++ attributes.flatMap FunctionTypeAttribute.tokens
      ++ if returns.isEmpty then [] else .keyword .returns :: inParens (parameterTokens returns))

def Parameter.tokens : Parameter → List Token
  | ⟨type, location, name, _⟩ => type.tokens
    ++ (location.map fun l => .identifier l.text).toList
    ++ (name.map fun i => .identifier i.name).toList

def optionTokens : Option Expr → List Token
  | none => []
  | some e => e.tokens

def placeTokens : List (Option Expr) → List (List Token)
  | [] => []
  | e :: es => optionTokens e :: placeTokens es

def exprTokens : List Expr → List (List Token)
  | [] => []
  | e :: es => e.tokens :: exprTokens es

def namedTokens : List NamedArgument → List (List Token)
  | [] => []
  | a :: as => a.tokens :: namedTokens as

def parameterTokens : List Parameter → List (List Token)
  | [] => []
  | p :: ps => p.tokens :: parameterTokens ps

end

/-! ### Nesting -/

mutual

/-- How deep an expression nests. -/
def Expr.nesting : Expr → Nat
  | .binary left .pow right _ => max left.nesting (right.nesting + 1)
  | .binary left _ right _ => max left.nesting right.nesting
  | .unary _ operand _ | .update _ .before operand _ => operand.nesting + 1
  | .update _ .after operand _ => operand.nesting
  | .ternary condition ifTrue ifFalse _ =>
    max condition.nesting (max ifTrue.nesting ifFalse.nesting + 1)
  | .assignment left _ right _ => max left.nesting (right.nesting + 1)
  | .call callee arguments _ => max callee.nesting arguments.nesting
  | .member object _ _ => object.nesting
  | .index base index _ => max base.nesting (optionNesting index)
  | .slice base lower upper _ => max base.nesting (max (optionNesting lower) (optionNesting upper))
  | .tuple elements _ => placeNesting elements
  | .inlineArray elements _ => exprNesting elements
  | .struct type fields _ => max type.nesting (namedNesting fields)
  | .new type _ | .metaType type _ => type.nesting + 1
  | .cast _ argument _ => argument.nesting + 1
  | .payable arguments _ => arguments.nesting
  | .parenthesized inner _ => inner.nesting + 1
  | .elementary _ | .literal _ | .identifier _ => 0

def Arguments.nesting : Arguments → Nat
  | .positional arguments _ => exprNesting arguments
  | .named arguments _ => namedNesting arguments

def NamedArgument.nesting : NamedArgument → Nat
  | ⟨_, value, _⟩ => value.nesting + 1

def TypeName.nesting : TypeName → Nat
  | .elementary _ | .userDefined _ => 0
  | .mapping _ value _ => value.nesting + 1
  | .array base size _ => max base.nesting (optionNesting size)
  | .function parameters _ returns _ => max (parameterNesting parameters) (parameterNesting returns)

def Parameter.nesting : Parameter → Nat
  | ⟨type, _, _, _⟩ => type.nesting + 1

/-- How deep an expression nests that may stand one level deeper. -/
def optionNesting : Option Expr → Nat
  | none => 0
  | some e => e.nesting + 1

def placeNesting : List (Option Expr) → Nat
  | [] => 0
  | e :: es => max (optionNesting e) (placeNesting es)

def exprNesting : List Expr → Nat
  | [] => 0
  | e :: es => max (e.nesting + 1) (exprNesting es)

def namedNesting : List NamedArgument → Nat
  | [] => 0
  | a :: as => max a.nesting (namedNesting as)

def parameterNesting : List Parameter → Nat
  | [] => 0
  | p :: ps => max p.nesting (parameterNesting ps)

end

/-! ### Operator trees -/

/-- Names, numbers, parentheses, operators, members, indices and calls by position, put together as
their tiers allow. -/
inductive OperatorTree : Expr → Prop
  | identifier {i : Identifier} (hlexes : (Token.identifier i.name).Lexes)
      (hpayable : i.name ≠ "payable") (htype : i.name ≠ "type") : OperatorTree (.identifier i)
  | number {l : NumberLiteral} (hlexes : l.token.Lexes) : OperatorTree (.literal (.number l))
  | parenthesized {inner : Expr} {span : Span} (h : OperatorTree inner) :
      OperatorTree (.parenthesized inner span)
  | unary {op : UnaryOp} {operand : Expr} {span : Span} (h : OperatorTree operand)
      (htier : (Expr.unary op operand span).Tiered) : OperatorTree (.unary op operand span)
  | update {op : UpdateOp} {fixity : Fixity} {operand : Expr} {span : Span}
      (h : OperatorTree operand) (htier : (Expr.update op fixity operand span).Tiered) :
      OperatorTree (.update op fixity operand span)
  | binary {left right : Expr} {op : BinaryOp} {span : Span} (hleft : OperatorTree left)
      (hright : OperatorTree right) (htier : (Expr.binary left op right span).Tiered) :
      OperatorTree (.binary left op right span)
  | ternary {condition ifTrue ifFalse : Expr} {span : Span} (hcondition : OperatorTree condition)
      (htrue : OperatorTree ifTrue) (hfalse : OperatorTree ifFalse)
      (htier : (Expr.ternary condition ifTrue ifFalse span).Tiered) :
      OperatorTree (.ternary condition ifTrue ifFalse span)
  | assignment {left right : Expr} {op : AssignOp} {span : Span} (hleft : OperatorTree left)
      (hright : OperatorTree right) (hassignable : left.isAssignable)
      (htier : (Expr.assignment left op right span).Tiered) :
      OperatorTree (.assignment left op right span)
  | member {object : Expr} {name : Identifier} {span : Span} (h : OperatorTree object)
      (hlexes : (Token.identifier name.name).Lexes)
      (htier : (Expr.member object name span).Tiered) : OperatorTree (.member object name span)
  | index {base : Expr} {index : Option Expr} {span : Span} (h : OperatorTree base)
      (hindex : ∀ e ∈ index, OperatorTree e) (htier : (Expr.index base index span).Tiered) :
      OperatorTree (.index base index span)
  | call {callee : Expr} {arguments : List Expr} {inner span : Span} (h : OperatorTree callee)
      (harguments : ∀ e ∈ arguments, OperatorTree e)
      (htier : (Expr.call callee (.positional arguments inner) span).Tiered) :
      OperatorTree (.call callee (.positional arguments inner) span)

end SolidityFrontend
