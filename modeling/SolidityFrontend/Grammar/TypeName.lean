import SolidityFrontend.Grammar.Nested

/-!
# The grammar of type names

Elementary types, dotted names, mappings, function types, and arrays of all of them.
-/

namespace SolidityFrontend.Grammar

open SolidityFrontend.Parser

/-- An elementary type; with `allowPayable` it may be `address payable`. -/
def elementaryTypeName (allowPayable : Bool) : Parser ElementaryTypeName := do
  let start ← here
  match ← next? with
  | some (.elementaryType word) =>
    match ElementaryType.ofWord? word with
    | none => violation (.unknownElementaryType word) start
    | some kind =>
      advance
      if kind = .address ∧ allowPayable then
        if ← acceptWord "payable" then return ⟨.addressPayable, ← spanFrom start⟩
      return ⟨kind, ← spanFrom start⟩
  | _ => unexpected .elementaryTypeName

/-- A further segment of a path; a point with no identifier behind it is not part of the path. -/
def pathSegment? : Parser (Option Identifier) := do
  if ← nextIs (.symbol .dot) then
    if ((← peek? 1).bind Token.identifier?).isSome then
      advance
      return some (← identifier)
  return none

/-- Identifiers with points between them. -/
def path : Parser Path := do
  let first ← identifier
  let more ← many pathSegment?
  return ⟨first :: more, ← spanFrom first.span⟩

/-- A storage location, if there is one. -/
def storageLocation? : Parser (Option StorageLocation) := do
  match (← nextWord?).bind StorageLocation.ofWord? with
  | some location =>
    advance
    return some location
  | none => return none

/-- The attribute of a function type that a word spells. Only the visibilities that a value of such
a type can have are read, so that those of a state variable stay for its declaration. -/
def functionTypeAttribute? (word : String) (span : Span) : Option FunctionTypeAttribute :=
  match Visibility.ofWord? word with
  | some .internal => some (.visibility .internal span)
  | some .external => some (.visibility .external span)
  | _ => (Mutability.ofWord? word).map (.mutability · span)

/-- The attributes of a function type. -/
def functionTypeAttributes : Parser (List FunctionTypeAttribute) := many do
  let span ← here
  match (← nextWord?).bind (functionTypeAttribute? · span) with
  | some a =>
    advance
    return some a
  | none => return none

section

variable (deeper : Nested)

/-- A type with perhaps a storage location and a name. -/
def parameter : Parser Parameter := do
  let start ← here
  let type ← deeper.typeName
  let location ← storageLocation?
  let name ← identifier?
  return ⟨type, location, name, ← spanFrom start⟩

/-- Parameters in parentheses. -/
def parameters : Parser (List Parameter) := do
  let _ ← symbol .leftParen
  if ← accept (.symbol .rightParen) then return []
  let items ← separated (parameter deeper)
  let _ ← symbol .rightParen
  return items

/-- The parameters behind `returns`, if that word is there. -/
def returnParameters : Parser (List Parameter) := do
  if ← accept (.keyword .returns) then parameters deeper else return []

/-- The key of a mapping: an elementary type or a name. -/
def mappingKey : Parser TypeName := do
  match ← next? with
  | some (.elementaryType _) => return .elementary (← elementaryTypeName false)
  | some (.identifier _) => return .userDefined (← path)
  | _ => violation .mappingKey (← here)

def mappingType : Parser TypeName := do
  let start ← keyword .mapping
  let _ ← symbol .leftParen
  let key ← mappingKey
  let _ ← symbol .arrow
  let value ← deeper.typeName
  let _ ← symbol .rightParen
  return .mapping key value (← spanFrom start)

def functionType : Parser TypeName := do
  let start ← keyword .function
  let ps ← parameters deeper
  let attributes ← functionTypeAttributes
  let returns ← returnParameters deeper
  return .function ps attributes returns (← spanFrom start)

/-- The array type over a type that the next brackets make. -/
def arraySuffix? (type : TypeName) : Parser (Option TypeName) := do
  if ← accept (.symbol .leftBracket) then
    let size ← if ← nextIs (.symbol .rightBracket) then pure none
      else some <$> deeper.expression
    let _ ← symbol .rightBracket
    return some (.array type size (← spanFrom type.span))
  else return none

/-- A type name without the brackets of arrays. -/
def baseType : Parser TypeName := do
  match ← next? with
  | some (.elementaryType _) => return .elementary (← elementaryTypeName true)
  | some (.keyword .mapping) => mappingType deeper
  | some (.keyword .function) => functionType deeper
  | some (.identifier _) => return .userDefined (← path)
  | _ => unexpected .typeName

/-- A type name; the last brackets make the outermost array. -/
def typeName : Parser TypeName := do
  iterate (arraySuffix? deeper) (← baseType deeper)

end

end SolidityFrontend.Grammar
