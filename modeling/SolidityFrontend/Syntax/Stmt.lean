import SolidityFrontend.Syntax.Expr

/-!
# Statements

A block keeps a mark in place of every statement that could not be read.
-/

namespace SolidityFrontend

/-- The type, storage location and name of a local variable. -/
structure VariableDeclaration where
  type : TypeName
  location : Option StorageLocation
  name : Identifier
  span : Span

/-- What a variable declaration declares. -/
inductive Declarator where
  | single (declaration : VariableDeclaration)
  /-- Variables for the components of a tuple, some of which may be dropped. -/
  | tuple (elements : List (Option VariableDeclaration)) (span : Span)
  /-- The same with inferred types, behind the word `var`. -/
  | varTuple (names : List (Option Identifier)) (span : Span)

mutual

/-- A statement. -/
inductive Stmt where
  | block (b : Block)
  | expression (e : Expr) (span : Span)
  | variables (declarator : Declarator) (value : Option Expr) (span : Span)
  | ifElse (condition : Expr) (thenBranch : Stmt) (elseBranch : Option Stmt) (span : Span)
  | forLoop (init : Option Stmt) (condition update : Option Expr) (body : Stmt) (span : Span)
  | whileLoop (condition : Expr) (body : Stmt) (span : Span)
  | doWhile (body : Stmt) (condition : Expr) (span : Span)
  | continue_ (span : Span)
  | break_ (span : Span)
  | return_ (value : Option Expr) (span : Span)
  | emit (event : Path) (arguments : Arguments) (span : Span)
  | tryCatch (expression : Expr) (returns : List Parameter) (body : Block)
      (clauses : List CatchClause) (span : Span)
  /-- Inline assembly, whose body is only delimited. -/
  | assembly (dialect : Option String) (body : Span) (span : Span)
  | throw (span : Span)
  | error (mark : ErrorMark)

/-- Statements in braces. -/
structure Block where
  statements : List Stmt
  span : Span

/-- What happens when the call of a `try` fails. -/
structure CatchClause where
  name : Option Identifier
  parameters : Option (List Parameter)
  body : Block
  span : Span

end

def Stmt.span : Stmt → Span
  | .block b => b.span
  | .expression _ span | .variables _ _ span | .ifElse _ _ _ span | .forLoop _ _ _ _ span
  | .whileLoop _ _ span | .doWhile _ _ span | .continue_ span | .break_ span | .return_ _ span
  | .emit _ _ span | .tryCatch _ _ _ _ span | .assembly _ _ span | .throw span => span
  | .error mark => mark.span

mutual

/-- The marks in a statement, in the order of the text. -/
def Stmt.errorMarks : Stmt → List ErrorMark
  | .error mark => [mark]
  | .block b => b.errorMarks
  | .ifElse _ thenBranch elseBranch _ => thenBranch.errorMarks ++ optionErrorMarks elseBranch
  | .forLoop init _ _ body _ => optionErrorMarks init ++ body.errorMarks
  | .whileLoop _ body _ => body.errorMarks
  | .doWhile body _ _ => body.errorMarks
  | .tryCatch _ _ body clauses _ => body.errorMarks ++ clausesErrorMarks clauses
  | _ => []

def Block.errorMarks : Block → List ErrorMark
  | ⟨statements, _⟩ => statementsErrorMarks statements

def CatchClause.errorMarks : CatchClause → List ErrorMark
  | ⟨_, _, body, _⟩ => body.errorMarks

def optionErrorMarks : Option Stmt → List ErrorMark
  | none => []
  | some s => s.errorMarks

def statementsErrorMarks : List Stmt → List ErrorMark
  | [] => []
  | s :: ss => s.errorMarks ++ statementsErrorMarks ss

def clausesErrorMarks : List CatchClause → List ErrorMark
  | [] => []
  | c :: cs => c.errorMarks ++ clausesErrorMarks cs

end

end SolidityFrontend
