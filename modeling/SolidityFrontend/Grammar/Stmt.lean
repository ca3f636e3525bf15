import SolidityFrontend.Grammar.Expr
import SolidityFrontend.Grammar.Recovery

/-!
# The grammar of statements

A statement that begins like a type may be a declaration or an expression: it is read as a
declaration if a type and a name stand there, and as an expression otherwise.
-/

namespace SolidityFrontend.Grammar

open SolidityFrontend.Parser

section

variable (deeper : Nested)

/-- Statements in braces. -/
def block : Parser Block := do
  let start ← symbol .leftBrace
  let statements ← body Stmt.error deeper.statement
  return ⟨statements, ← spanFrom start⟩

/-! ### Declarations and expressions -/

/-- A type, perhaps a storage location, and a name. -/
def variableDeclaration : Parser VariableDeclaration := do
  let start ← here
  let type ← deeper.typeName
  let location ← storageLocation?
  let name ← identifier
  return ⟨type, location, name, ← spanFrom start⟩

/-- Variables for the components of a tuple, at least one of them. -/
def tupleDeclarator : Parser Declarator := do
  let start ← symbol .leftParen
  let elements ← separated (tuplePlace (variableDeclaration deeper))
  let _ ← symbol .rightParen
  let span ← spanFrom start
  if elements.all Option.isNone then violation .tupleWithoutVariables span
  else return .tuple elements span

/-- What a declaration declares. -/
def declarator : Parser Declarator := do
  if ← nextIs (.symbol .leftParen) then tupleDeclarator deeper
  else return .single (← variableDeclaration deeper)

/-- Whether a declaration may go without a value. -/
def needsNoValue : Declarator → Bool
  | .single _ => true
  | _ => false

/-- The value and the end of a declaration that began at a span. -/
def declarationEnd (d : Declarator) (start : Span) : Parser Stmt := do
  let value ← if ← accept (.symbol .assign) then some <$> deeper.expression else pure none
  if value.isNone && !needsNoValue d then violation .tupleWithoutValue (← spanFrom start)
  else
    let _ ← symbol .semicolon
    return .variables d value (← spanFrom start)

/-- A name, or a vacant place before a comma or the closing parenthesis. -/
def varPlace : Parser (Option Identifier) := do
  match ← next? with
  | some (.symbol .comma) | some (.symbol .rightParen) => return none
  | _ => return some (← identifier)

/-- The declaration of variables with inferred types. -/
def varTupleDeclaration : Parser Stmt := do
  let start ← here
  advance
  let _ ← symbol .leftParen
  let names ← separated varPlace
  let _ ← symbol .rightParen
  declarationEnd deeper (.varTuple names (← spanFrom start)) start

/-- An expression and a semicolon. -/
def expressionStatement : Parser Stmt := do
  let e ← deeper.expression
  let _ ← symbol .semicolon
  return .expression e (← spanFrom e.span)

/-- Whether a declaration may begin with a token. -/
def mayDeclare : Token → Bool
  | .symbol .leftParen | .elementaryType _ | .identifier _ | .keyword .mapping
  | .keyword .function => true
  | _ => false

/-- Whether the word `var` and a parenthesis are next. -/
def varTupleBegins : Parser Bool := do
  return (← next?) == some (.elementaryType "var") && (← peek? 1) == some (.symbol .leftParen)

/-- A statement that begins like a type. The choice between a declaration and an expression is made
by what the declaration declares; once that is read, errors are those of a declaration. -/
def declarationOrExpression : Parser Stmt := do
  let start ← here
  match ← either .variableDeclaration (Sum.inl <$> declarator deeper)
      (Sum.inr <$> expressionStatement deeper) with
  | .inl d => declarationEnd deeper d start
  | .inr s => return s

/-- A declaration or an expression. -/
def simpleStatement : Parser Stmt := do
  if ← varTupleBegins then varTupleDeclaration deeper
  else if ((← next?).map mayDeclare).getD false then declarationOrExpression deeper
  else expressionStatement deeper

/-! ### Control -/

/-- A condition in parentheses. -/
def condition : Parser Expr := do
  let _ ← symbol .leftParen
  let e ← deeper.expression
  let _ ← symbol .rightParen
  return e

def ifStatement : Parser Stmt := do
  let start ← keyword .if_
  let test ← condition deeper
  let thenBranch ← deeper.statement
  let elseBranch ← if ← accept (.keyword .else_) then some <$> deeper.statement else pure none
  return .ifElse test thenBranch elseBranch (← spanFrom start)

/-- An expression unless a symbol is next. -/
def optional (stop : Symbol) : Parser (Option Expr) := do
  if ← nextIs (.symbol stop) then return none else return some (← deeper.expression)

def forStatement : Parser Stmt := do
  let start ← keyword .for_
  let _ ← symbol .leftParen
  let init ← if ← accept (.symbol .semicolon) then pure none
    else some <$> simpleStatement deeper
  let test ← optional deeper .semicolon
  let _ ← symbol .semicolon
  let update ← optional deeper .rightParen
  let _ ← symbol .rightParen
  let inner ← deeper.statement
  return .forLoop init test update inner (← spanFrom start)

def whileStatement : Parser Stmt := do
  let start ← keyword .while_
  let test ← condition deeper
  let inner ← deeper.statement
  return .whileLoop test inner (← spanFrom start)

def doWhileStatement : Parser Stmt := do
  let start ← keyword .do_
  let inner ← deeper.statement
  let _ ← keyword .while_
  let test ← condition deeper
  let _ ← symbol .semicolon
  return .doWhile inner test (← spanFrom start)

/-- A reserved word that is a statement of its own. -/
def keywordStatement (k : Keyword) (make : Span → Stmt) : Parser Stmt := do
  let start ← keyword k
  let _ ← symbol .semicolon
  return make (← spanFrom start)

def returnStatement : Parser Stmt := do
  let start ← keyword .return_
  let value ← optional deeper .semicolon
  let _ ← symbol .semicolon
  return .return_ value (← spanFrom start)

def emitStatement : Parser Stmt := do
  let start ← keyword .emit
  let event ← path
  let arguments ← callArguments deeper
  let _ ← symbol .semicolon
  return .emit event arguments (← spanFrom start)

/-! ### Failing calls and assembly -/

def catchClause : Parser CatchClause := do
  let start ← keyword .catch_
  let name ← identifier?
  let ps ← if ← nextIs (.symbol .leftParen) then some <$> parameters deeper else pure none
  let inner ← block deeper
  return ⟨name, ps, inner, ← spanFrom start⟩

/-- A call with clauses for its failure. A brace behind the call opens the body. -/
def tryStatement : Parser Stmt := do
  let start ← keyword .try_
  let call ← structLiterals false deeper.expression
  let returns ← returnParameters deeper
  let inner ← block deeper
  let clauses ← many do
    if ← nextIs (.keyword .catch_) then return some (← catchClause deeper) else return none
  if clauses.isEmpty then violation .tryWithoutCatch (← spanFrom start)
  else return .tryCatch call returns inner clauses (← spanFrom start)

/-- Skips to the brace that closes the outermost of `depth` open ones and tells whether there is one.
-/
def skipBraces : Nat → Option Lexeme → List Lexeme → Bool × Option Lexeme × List Lexeme
  | 0, previous, rest => (true, previous, rest)
  | _ + 1, previous, [] => (false, previous, [])
  | depth + 1, _, t :: rest =>
    match t.token with
    | .symbol .leftBrace => skipBraces (depth + 2) (some t) rest
    | .symbol .rightBrace => skipBraces depth (some t) rest
    | _ => skipBraces (depth + 1) (some t) rest

/-- Goes behind the brace that closes the one read last. -/
def closeBrace : Parser Unit := do
  let s ← state
  let (closed, previous, rest) := skipBraces 1 s.previous s.rest
  goTo { s with previous, rest }
  if closed then return () else fail ⟨.missing .rightBrace, (← context).stop⟩

/-- Inline assembly: any tokens in balanced braces. -/
def assemblyStatement : Parser Stmt := do
  let start ← keyword .assembly
  let dialect ← match ← next? with
    | some (.string _) => some <$> Prod.fst <$> stringText
    | _ => pure none
  let opening ← symbol .leftBrace
  closeBrace
  return .assembly dialect (← spanFrom opening) (← spanFrom start)

/-- A statement. -/
def statement : Parser Stmt := do
  match ← next? with
  | some (.symbol .leftBrace) => return .block (← block deeper)
  | some (.keyword .if_) => ifStatement deeper
  | some (.keyword .for_) => forStatement deeper
  | some (.keyword .while_) => whileStatement deeper
  | some (.keyword .do_) => doWhileStatement deeper
  | some (.keyword .continue_) => keywordStatement .continue_ .continue_
  | some (.keyword .break_) => keywordStatement .break_ .break_
  | some (.keyword .throw) => keywordStatement .throw .throw
  | some (.keyword .return_) => returnStatement deeper
  | some (.keyword .emit) => emitStatement deeper
  | some (.keyword .try_) => tryStatement deeper
  | some (.keyword .assembly) => assemblyStatement
  | _ => simpleStatement deeper

end

end SolidityFrontend.Grammar
