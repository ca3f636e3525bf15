import SolidityFrontend.Grammar.Basic

/-!
# Parsers one level deeper

Nesting is counted where a part of the syntax may contain a part of its own kind: expressions,
operands of operators in front, exponents, type names and statements. The grammar of each level is
written over the parsers of the level below it, which are a `Nested`; on the last level they only
fail.
-/

namespace SolidityFrontend

/-- The parsers for what is nested one level deeper. -/
structure Nested where
  expression : Parser Expr
  /-- The operand of an operator in front. -/
  operand : Parser Expr
  /-- The exponent of a power, which may be a power again. -/
  exponent : Parser Expr
  typeName : Parser TypeName
  statement : Parser Stmt

namespace Nested

/-- Fails at the next token because nothing may be nested deeper. -/
def tooDeep {α : Type} : Parser α := do
  Parser.violation .nestingTooDeep (← Parser.here)

/-- The level below the last one. -/
def none : Nested := ⟨tooDeep, tooDeep, tooDeep, tooDeep, tooDeep⟩

end Nested

end SolidityFrontend
