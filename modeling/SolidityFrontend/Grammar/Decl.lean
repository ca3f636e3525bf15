import SolidityFrontend.Grammar.Directive
import SolidityFrontend.Grammar.Stmt

/-!
# The grammar of declarations

Members of a contract may stand in any order, and so may the attributes of a function or a variable.
A member that begins with `function (` is a variable of a function type, or else a fallback without
a name.
-/

namespace SolidityFrontend.Grammar

open SolidityFrontend.Parser

/-! ### Attributes -/

/-- The members that an override replaces, if they are named. -/
def overrideSpecifier : Parser OverrideSpecifier := do
  let start ← word "override"
  let overrides ← if ← accept (.symbol .leftParen) then
      let paths ← separated path
      let _ ← symbol .rightParen
      pure paths
    else pure []
  return ⟨overrides, ← spanFrom start⟩

/-- The attribute of a variable that a word alone spells. -/
def variableAttribute? (word : String) (span : Span) : Option VariableAttribute :=
  match Visibility.ofWord? word with
  | some v => some (.visibility v span)
  | none =>
    if word = "constant" then some (.constant span)
    else if word = "immutable" then some (.immutable span)
    else none

/-- The attributes of a state variable. -/
def variableAttributes : Parser (List VariableAttribute) := many do
  let span ← here
  match ← nextWord? with
  | none => return none
  | some w =>
    match variableAttribute? w span with
    | some a =>
      advance
      return some a
    | none =>
      if w = "override" then return some (.override (← overrideSpecifier)) else return none

/-- The attribute of a function that a word alone spells. -/
def functionAttribute? (word : String) (span : Span) : Option FunctionAttribute :=
  match Visibility.ofWord? word, Mutability.ofWord? word with
  | some v, _ => some (.visibility v span)
  | none, some m => some (.mutability m span)
  | none, none => if word = "virtual" then some (.virtual span) else none

section

variable (deeper : Nested)

/-- A modifier and perhaps its arguments. -/
def modifierInvocation : Parser ModifierInvocation := do
  let p ← path
  let arguments ← callArguments? deeper
  return ⟨p, arguments, ← spanFrom p.span⟩

/-- The attributes of a function; a word without a meaning of its own names a modifier. -/
def functionAttributes : Parser (List FunctionAttribute) := many do
  let span ← here
  match ← nextWord? with
  | none => return none
  | some w =>
    match functionAttribute? w span with
    | some a =>
      advance
      return some a
    | none =>
      if w = "override" then return some (.override (← overrideSpecifier))
      else return some (.modifier (← modifierInvocation deeper))

/-! ### Functions -/

/-- A block, or a semicolon in its place. -/
def functionBody : Parser (Option Block) := do
  if ← accept (.symbol .semicolon) then return none else return some (← block deeper)

def functionDefinition : Parser FunctionDefinition := do
  let start ← keyword .function
  let name ← identifier
  let ps ← parameters deeper
  let attributes ← functionAttributes deeper
  let returns ← returnParameters deeper
  let inner ← functionBody deeper
  return ⟨name, ps, attributes, returns, inner, ← spanFrom start⟩

/-- A modifier, whose parameters may be left out. -/
def modifierDefinition : Parser ModifierDefinition := do
  let start ← keyword .modifier
  let name ← identifier
  let ps ← if ← nextIs (.symbol .leftParen) then parameters deeper else pure []
  let attributes ← functionAttributes deeper
  let inner ← functionBody deeper
  return ⟨name, ps, attributes, inner, ← spanFrom start⟩

def constructorDefinition : Parser ConstructorDefinition := do
  let start ← keyword .constructor
  let ps ← parameters deeper
  let attributes ← functionAttributes deeper
  let inner ← functionBody deeper
  return ⟨ps, attributes, inner, ← spanFrom start⟩

/-- What follows the word that begins a function without a name. -/
def fallbackRest (kind : FallbackKind) (start : Span) : Parser FallbackDefinition := do
  let ps ← parameters deeper
  let attributes ← functionAttributes deeper
  let inner ← functionBody deeper
  return ⟨kind, ps, attributes, inner, ← spanFrom start⟩

/-- A fallback that is written as a function without a name. -/
def namelessFallback : Parser FallbackDefinition := do
  let start ← keyword .function
  fallbackRest deeper .fallback start

/-- A fallback that begins with the word for its kind. -/
def fallbackDefinition (kind : FallbackKind) : Parser FallbackDefinition := do
  let start ← word kind.text
  fallbackRest deeper kind start

/-! ### Variables, structs, enumerations and events -/

def stateVariable : Parser StateVariable := do
  let start ← here
  let type ← deeper.typeName
  let attributes ← variableAttributes
  let name ← identifier
  let value ← if ← accept (.symbol .assign) then some <$> deeper.expression else pure none
  let _ ← symbol .semicolon
  return ⟨type, attributes, name, value, ← spanFrom start⟩

def constantDeclaration : Parser ConstantDeclaration := do
  let start ← here
  let type ← deeper.typeName
  let _ ← word "constant"
  let name ← identifier
  let _ ← symbol .assign
  let value ← deeper.expression
  let _ ← symbol .semicolon
  return ⟨type, name, value, ← spanFrom start⟩

def structMember : Parser StructMember := do
  let start ← here
  let type ← deeper.typeName
  let name ← identifier
  let _ ← symbol .semicolon
  return ⟨type, name, ← spanFrom start⟩

/-- A struct. One without members is kept, and its error is recorded. -/
def structDeclaration : Parser StructDeclaration := do
  let start ← keyword .struct
  let name ← identifier
  let _ ← symbol .leftBrace
  let members ← itemsUntil .rightBrace (pure true) (structMember deeper)
  let _ ← symbol .rightBrace
  let span ← spanFrom start
  if members.isEmpty then record ⟨.violation .emptyStruct, span⟩
  return ⟨name, members, span⟩

def enumDeclaration : Parser EnumDeclaration := do
  let start ← keyword .enum
  let name ← identifier
  let _ ← symbol .leftBrace
  let values ← commaItems .rightBrace identifier
  let _ ← symbol .rightBrace
  return ⟨name, values, ← spanFrom start⟩

def eventParameter : Parser EventParameter := do
  let start ← here
  let type ← deeper.typeName
  let isIndexed ← acceptWord "indexed"
  let name ← identifier?
  return ⟨type, isIndexed, name, ← spanFrom start⟩

def eventDefinition : Parser EventDefinition := do
  let start ← keyword .event
  let name ← identifier
  let _ ← symbol .leftParen
  let ps ← if ← nextIs (.symbol .rightParen) then pure [] else separated (eventParameter deeper)
  let _ ← symbol .rightParen
  let isAnonymous ← acceptWord "anonymous"
  let _ ← symbol .semicolon
  return ⟨name, ps, isAnonymous, ← spanFrom start⟩

/-! ### Contracts and files -/

/-- A member that begins with `function (`. -/
def variableOrFallback : Parser Member :=
  either .stateVariable (.stateVariable <$> stateVariable deeper)
    (.fallback <$> namelessFallback deeper)

/-- The kind of fallback that a word before a parenthesis begins. -/
def fallbackKind? (word : String) (next : Option Token) : Option FallbackKind :=
  if next = some (.symbol .leftParen) then
    if word = "fallback" then some .fallback
    else if word = "receive" then some .receive
    else none
  else none

/-- A member of a contract. -/
def member : Parser Member := do
  match ← next? with
  | some (.keyword .function) =>
    if (← peek? 1) = some (.symbol .leftParen) then variableOrFallback deeper
    else return .function (← functionDefinition deeper)
  | some (.keyword .modifier) => return .modifier (← modifierDefinition deeper)
  | some (.keyword .constructor) => return .constructor (← constructorDefinition deeper)
  | some (.keyword .event) => return .event (← eventDefinition deeper)
  | some (.keyword .struct) => return .struct (← structDeclaration deeper)
  | some (.keyword .enum) => return .enum (← enumDeclaration)
  | some (.keyword .using_) => return .using_ (← usingDirective deeper)
  | some (.identifier w) =>
    match fallbackKind? w (← peek? 1) with
    | some kind => return .fallback (← fallbackDefinition deeper kind)
    | none => return .stateVariable (← stateVariable deeper)
  | some (.elementaryType _) | some (.keyword .mapping) =>
    return .stateVariable (← stateVariable deeper)
  | _ => unexpected .member

/-- A base of a contract. -/
def inheritanceSpecifier : Parser InheritanceSpecifier := do
  let ancestor ← path
  let arguments ← callArguments? deeper
  return ⟨ancestor, arguments, ← spanFrom ancestor.span⟩

/-- The kind of a contract; only a contract proper may be abstract. -/
def contractKind (isAbstract : Bool) : Parser ContractKind := do
  match (← next?).bind ContractKind.ofToken? with
  | none => unexpected (.keyword .contract)
  | some kind =>
    if isAbstract && kind != .contract then violation (.abstractKind kind) (← here)
    else
      advance
      return kind

/-- The bases of a contract, which a library does not have. -/
def inheritance (kind : ContractKind) : Parser (List InheritanceSpecifier) := do
  if ← nextIs (.keyword .is_) then
    if kind = .library then violation .libraryInherits (← here)
    else
      advance
      separated (inheritanceSpecifier deeper)
  else return []

def contractDeclaration : Parser ContractDeclaration := do
  let start ← here
  let isAbstract ← accept (.keyword .abstract)
  let kind ← contractKind isAbstract
  let name ← identifier
  let bases ← inheritance deeper kind
  let _ ← symbol .leftBrace
  let members ← body Member.error (member deeper)
  return ⟨kind, isAbstract, name, bases, members, ← spanFrom start⟩

/-- What may stand at the top of a file. -/
def sourceUnit : Parser SourceUnit := do
  match ← next? with
  | some (.keyword .pragma) => return .pragma (← pragmaDirective)
  | some (.keyword .import_) => return .import_ (← importDirective)
  | some (.keyword .abstract) | some (.keyword .contract) | some (.keyword .interface)
  | some (.keyword .library) => return .contract (← contractDeclaration deeper)
  | some (.keyword .struct) => return .struct (← structDeclaration deeper)
  | some (.keyword .enum) => return .enum (← enumDeclaration)
  | some (.keyword .function) => return .function (← functionDefinition deeper)
  | some (.elementaryType _) | some (.identifier _) | some (.keyword .mapping) =>
    return .constant (← constantDeclaration deeper)
  | _ => unexpected .sourceUnit

/-- The items of a file. Each that cannot be read is marked. -/
def sourceUnits : Parser (List SourceUnit) := many do
  if ← atEnd then return none
  return some (← recovering SourceUnit.error (sourceUnit deeper))

/-- The rest of a file, as the syntax of the whole. -/
def sourceFile : Parser SourceFile := do
  let items ← sourceUnits deeper
  return ⟨items, .through .origin (← context).stop⟩

theorem neverFails_sourceUnits : NeverFails (sourceUnits deeper) := by
  refine neverFails_many (neverFails_bind neverFails_atEnd fun ended => ?_)
  cases ended
  · exact neverFails_bind (neverFails_recovering _ _) fun _ => neverFails_pure _
  · exact neverFails_pure _

theorem neverFails_sourceFile : NeverFails (sourceFile deeper) :=
  neverFails_bind (neverFails_sourceUnits deeper) fun _ =>
    neverFails_bind neverFails_context fun _ => neverFails_pure _

end

end SolidityFrontend.Grammar
