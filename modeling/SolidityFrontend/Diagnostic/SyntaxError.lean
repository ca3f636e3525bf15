import SolidityFrontend.Syntax.Decl

/-!
# Syntax errors

A `SyntaxFault` says what is wrong at a place of the token sequence. It has a message for the user
and a short English summary, which also stands in the error marks of the syntax.
-/

namespace SolidityFrontend

/-- What the grammar allows at a place. -/
inductive Expected where
  | symbol (s : Symbol)
  | keyword (k : Keyword)
  | word (w : String)
  | identifier
  | stringLiteral
  | endOfInput
  | typeName
  | elementaryTypeName
  | expression
  | importClause
  | sourceUnit
  | member
  deriving DecidableEq, Repr

def Expected.text : Expected → String
  | .symbol s => "'" ++ s.text ++ "'"
  | .keyword k => "'" ++ k.text ++ "'"
  | .word w => "'" ++ w ++ "'"
  | .identifier => "identifier"
  | .stringLiteral => "string literal"
  | .endOfInput => "end of input"
  | .typeName => "type name"
  | .elementaryTypeName => "elementary type name"
  | .expression => "expression"
  | .importClause => "import path or import clause"
  | .sourceUnit => "pragma, import or declaration"
  | .member => "contract member"

/-- A rule of the language that well placed tokens may still break. -/
inductive Violation where
  | nestingTooDeep
  | unknownElementaryType (word : String)
  | mappingKey
  | assignmentTarget
  | tupleWithoutVariables
  | tupleWithoutValue
  | tryWithoutCatch
  | abstractKind (kind : ContractKind)
  | libraryInherits
  | emptyStruct
  | noVersion
  | version (fault : Version.Fault)
  deriving DecidableEq, Repr

def Violation.message : Violation → String
  | .nestingTooDeep => "nesting too deep"
  | .unknownElementaryType word => "unknown elementary type '" ++ word ++ "'"
  | .mappingKey => "mapping key must be an elementary or user-defined type"
  | .assignmentTarget => "invalid left-hand side of assignment"
  | .tupleWithoutVariables => "tuple declaration without variables"
  | .tupleWithoutValue => "tuple variable declaration requires an initializer"
  | .tryWithoutCatch => "try statement requires at least one catch clause"
  | .abstractKind kind => kind.text ++ " cannot be abstract"
  | .libraryInherits => "library cannot inherit"
  | .emptyStruct => "struct must have at least one member"
  | .noVersion => "expected version requirement"
  | .version fault => fault.message

/-- A way to read tokens that can be read in two ways. -/
inductive Reading where
  | variableDeclaration | stateVariable
  deriving DecidableEq, Repr

def Reading.text : Reading → String
  | .variableDeclaration => "variable declaration"
  | .stateVariable => "state variable"

/-- What is wrong at a place of the token sequence. -/
inductive SyntaxFault where
  | unexpectedToken (expected : Expected) (found : Token)
  | unexpectedEnd (expected : Expected)
  /-- A closing bracket or a semicolon is not there. -/
  | missing (s : Symbol)
  | violation (v : Violation)
  /-- No reading succeeds, and this one, which came farthest, fails in this way. -/
  | ambiguous (reading : Reading) (fault : SyntaxFault)
  deriving DecidableEq, Repr

namespace SyntaxFault

/-- The fault in a few English words. -/
def summary : SyntaxFault → String
  | .unexpectedToken expected found =>
    "expected " ++ expected.text ++ ", found " ++ found.describe
  | .unexpectedEnd expected => "unexpected end of input, expected " ++ expected.text
  | .missing s => "missing '" ++ s.text ++ "'"
  | .violation v => v.message
  | .ambiguous reading fault => "could not parse as " ++ reading.text ++ ": " ++ fault.summary

def message : SyntaxFault → String
  | .unexpectedToken expected found =>
    "予期しないトークン: " ++ expected.text ++ "を期待しましたが、" ++ found.describe
      ++ "が見つかりました"
  | .unexpectedEnd expected => "予期しない入力の終了: " ++ expected.text ++ "を期待していました"
  | .missing s => "'" ++ s.text ++ "'がありません"
  | .violation v => "不正な構文: " ++ v.message
  | .ambiguous reading fault =>
    "曖昧な構文: " ++ reading.text ++ "として解析できませんでした: " ++ fault.summary

/-- What a diagnostic writes at the place of the fault. -/
def label : SyntaxFault → String
  | .missing s => "ここに'" ++ s.text ++ "'が必要です"
  | .ambiguous .. => "この位置の解釈が確定しません"
  | fault => fault.summary

end SyntaxFault

/-- A fault and where it is. -/
structure SyntaxError where
  fault : SyntaxFault
  span : Span
  deriving DecidableEq, Repr

/-- The mark for text that could not be read because of an error. -/
def SyntaxError.mark (e : SyntaxError) (span : Span) : ErrorMark := ⟨e.fault.summary, span⟩

end SolidityFrontend
