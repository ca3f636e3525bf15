import SolidityFrontend.Grammar.Decl

/-!
# Levels of nesting

`Nested.ofDepth n` are the parsers that may nest `n` levels: those of one level are the grammar over
those of the level below. The grammar of declarations stands outside all levels.
-/

namespace SolidityFrontend

/-- How deep expressions, type names and statements may nest. -/
def nestingLimit : Nat := 128

namespace Nested

/-- The parsers of a level over those of the level below. -/
def above (deeper : Nested) : Nested where
  expression := Grammar.expression deeper
  operand := Grammar.unaryExpr deeper
  exponent := Grammar.powerExpr deeper
  typeName := Grammar.typeName deeper
  statement := Grammar.statement deeper

/-- The parsers that may nest `n` levels. -/
def ofDepth : Nat → Nested
  | 0 => .none
  | n + 1 => above (ofDepth n)

theorem expression_ofDepth (n : Nat) :
    (ofDepth (n + 1)).expression = Grammar.expression (ofDepth n) := by rw [ofDepth, above]

theorem typeName_ofDepth (n : Nat) : (ofDepth (n + 1)).typeName = Grammar.typeName (ofDepth n) := by
  rw [ofDepth, above]

theorem statement_ofDepth (n : Nat) :
    (ofDepth (n + 1)).statement = Grammar.statement (ofDepth n) := by rw [ofDepth, above]

/-- The parsers outside all nesting. -/
def full : Nested := ofDepth nestingLimit

end Nested

end SolidityFrontend
