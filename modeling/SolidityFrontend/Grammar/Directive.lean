import SolidityFrontend.Grammar.TypeName
import SolidityFrontend.Text.Blank

/-!
# The grammar of directives

The value of a pragma is the text up to its semicolon, not its tokens; that of `pragma solidity` is
read as a version requirement. A requirement that cannot be read stays as text, and its error is
recorded.
-/

namespace SolidityFrontend.Grammar

open SolidityFrontend.Parser SolidityFrontend.Text

/-! ### Pragmas -/

/-- Whether a token ends the value of a pragma: its semicolon, or the next item of a file. -/
def endsPragma : Token → Bool
  | .symbol .semicolon => true
  | .keyword k => [.pragma, .import_, .abstract, .contract, .interface, .library].contains k
  | _ => false

/-- Skips the tokens of the value of a pragma. -/
def skipPragmaValue : Parser Unit := do
  let _ ← many do
    match ← next? with
    | some t =>
      if endsPragma t then return none
      else
        advance
        return some ()
    | none => return none

/-- The span of the bytes from `start` to `stop` of a text that begins at a location. -/
def spanWithin (origin : Location) (text : List Char) (start stop : Nat) : Span :=
  let before := (takeBytes start text).getD []
  let inner := (sliceBytes start stop text).getD []
  ⟨⟨origin.offset + start, origin.position.advanceBy before⟩,
   ⟨origin.offset + stop, (origin.position.advanceBy before).advanceBy inner⟩⟩

/-- The constraint of a version requirement in a text that begins at a location. -/
def placeConstraint (origin : Location) (text : List Char) (k : Version.Constraint) :
    VersionConstraint :=
  ⟨k.operator, k.version, spanWithin origin text k.start k.stop⟩

/-- The span of a text that begins at a location, without the blanks at its ends. -/
def trimmedSpan (origin : Location) (text : List Char) : Span :=
  let leading := byteLength (text.takeWhile isBlank)
  spanWithin origin text leading (max leading (byteLength (trimEnd text)))

/-- The version requirement in the text behind a name, or the fault of that text. -/
def versionValue (origin : Location) (text : List Char) : Except Violation PragmaValue :=
  if (trim text).isEmpty then .error .noVersion
  else match Version.parse text with
    | .ok alternatives => .ok <| .version
        ⟨alternatives.map (·.map (placeConstraint origin text)), trimmedSpan origin text⟩
    | .error fault => .error (.version fault)

/-- The value in the text behind the name of a pragma. -/
def pragmaValue (name : Identifier) (text : List Char) : Parser PragmaValue := do
  let span := trimmedSpan name.span.stop text
  let raw : PragmaValue := .raw (String.ofList (trim text)) span
  if name.name = "solidity" then
    match versionValue name.span.stop text with
    | .ok value => return value
    | .error v =>
      record ⟨.violation v, span⟩
      return raw
  else return raw

def pragmaDirective : Parser PragmaDirective := do
  let start ← keyword .pragma
  let name ← identifier
  skipPragmaValue
  let stop ← if ← nextIs (.symbol .semicolon) then pure (← here).start.offset
    else pure (← previousSpan).stop.offset
  let text := (sliceBytes name.span.stop.offset stop (← context).source).getD []
  let _ ← symbol .semicolon
  let value ← pragmaValue name text
  return ⟨name, value, ← spanFrom start⟩

/-! ### Imports -/

def importPath : Parser ImportPath := do
  let (value, span) ← stringText
  return ⟨value, span⟩

/-- The other name behind `as`, if there is one. -/
def renaming? : Parser (Option Identifier) := do
  if ← acceptWord "as" then return some (← identifier) else return none

/-- A name in braces, perhaps with another name for it. -/
def importAlias : Parser ImportAlias := do
  let name ← identifier
  let renamed ← renaming?
  return ⟨name, renamed, ← spanFrom name.span⟩

/-- A star and the name for the whole file. -/
def wildcardImport : Parser ImportClause := do
  let star ← symbol .star
  let _ ← word "as"
  let name ← identifier
  return .single (.wildcard star) (some name) (← spanFrom star)

/-- Names in braces. -/
def multipleImport : Parser ImportClause := do
  let start ← symbol .leftBrace
  let symbols ← separated importAlias
  let _ ← symbol .rightBrace
  return .multiple symbols (← spanFrom start)

/-- One name, perhaps with another name for it. -/
def namedImport : Parser ImportClause := do
  let name ← identifier
  let renamed ← renaming?
  return .single (.name name) renamed (← spanFrom name.span)

/-- What is imported, and the path of the file behind `from`. -/
def importFrom (clause : Parser ImportClause) : Parser (ImportPath × Option Identifier ×
    Option ImportClause) := do
  let c ← clause
  let _ ← word "from"
  return (← importPath, none, some c)

/-- The path of an import, the name for the whole file, and what is imported. -/
def importTarget : Parser (ImportPath × Option Identifier × Option ImportClause) := do
  match ← next? with
  | some (.string _) =>
    let p ← importPath
    return (p, ← renaming?, none)
  | some (.symbol .star) => importFrom wildcardImport
  | some (.symbol .leftBrace) => importFrom multipleImport
  | some (.identifier _) => importFrom namedImport
  | _ => unexpected .importClause

def importDirective : Parser ImportDirective := do
  let start ← keyword .import_
  let (p, renamed, clause) ← importTarget
  let _ ← symbol .semicolon
  return ⟨p, renamed, clause, ← spanFrom start⟩

/-! ### Using -/

/-- The types that a library is attached to: all, or one. -/
def usingTarget (deeper : Nested) : Parser UsingTarget := do
  let span ← here
  if ← accept (.symbol .star) then return .wildcard span
  else return .type (← deeper.typeName)

def usingDirective (deeper : Nested) : Parser UsingDirective := do
  let start ← keyword .using_
  let library ← path
  let _ ← keyword .for_
  let target ← usingTarget deeper
  let _ ← symbol .semicolon
  return ⟨library, target, ← spanFrom start⟩

end SolidityFrontend.Grammar
