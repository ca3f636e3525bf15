import SolidityFrontend.Syntax.Directive
import SolidityFrontend.Syntax.Stmt

/-!
# Declarations and source files

Contracts and their members, and what may stand at the top of a source file. A contract or a file
keeps a mark in place of every part that could not be read.
-/

namespace SolidityFrontend

/-- The members that an override replaces, if they are named. -/
structure OverrideSpecifier where
  overrides : List Path
  span : Span
  deriving DecidableEq, Repr

/-- The use of a modifier, or of the constructor of a base contract. -/
structure ModifierInvocation where
  path : Path
  arguments : Option Arguments
  span : Span

/-- An attribute of a function or of what is like one. -/
inductive FunctionAttribute where
  | visibility (v : Visibility) (span : Span)
  | mutability (m : Mutability) (span : Span)
  | virtual (span : Span)
  | override (o : OverrideSpecifier)
  | modifier (m : ModifierInvocation)

namespace FunctionAttribute

def span : FunctionAttribute → Span
  | .visibility _ span | .mutability _ span | .virtual span => span
  | .override o => o.span
  | .modifier m => m.span

def visibility? : FunctionAttribute → Option Visibility
  | .visibility v _ => some v
  | _ => none

def mutability? : FunctionAttribute → Option Mutability
  | .mutability m _ => some m
  | _ => none

def isVirtual : FunctionAttribute → Bool
  | .virtual _ => true
  | _ => false

def override? : FunctionAttribute → Option OverrideSpecifier
  | .override o => some o
  | _ => none

def modifier? : FunctionAttribute → Option ModifierInvocation
  | .modifier m => some m
  | _ => none

/-- The first visibility among attributes. -/
def visibilityOf (attributes : List FunctionAttribute) : Option Visibility :=
  attributes.findSome? visibility?

/-- The first mutability among attributes. -/
def mutabilityOf (attributes : List FunctionAttribute) : Option Mutability :=
  attributes.findSome? mutability?

/-- The first override among attributes. -/
def overrideOf (attributes : List FunctionAttribute) : Option OverrideSpecifier :=
  attributes.findSome? override?

/-- The modifiers among attributes. -/
def modifiersOf (attributes : List FunctionAttribute) : List ModifierInvocation :=
  attributes.filterMap modifier?

end FunctionAttribute

structure FunctionDefinition where
  name : Identifier
  parameters : List Parameter
  attributes : List FunctionAttribute
  returns : List Parameter
  body : Option Block
  span : Span

structure ModifierDefinition where
  name : Identifier
  parameters : List Parameter
  attributes : List FunctionAttribute
  body : Option Block
  span : Span

structure ConstructorDefinition where
  parameters : List Parameter
  attributes : List FunctionAttribute
  body : Option Block
  span : Span

inductive FallbackKind where
  | fallback | receive
  deriving DecidableEq, Repr

def FallbackKind.text : FallbackKind → String
  | .fallback => "fallback"
  | .receive => "receive"

/-- A function without a name, which takes calls that fit no other. -/
structure FallbackDefinition where
  kind : FallbackKind
  parameters : List Parameter
  attributes : List FunctionAttribute
  body : Option Block
  span : Span

inductive VariableAttribute where
  | visibility (v : Visibility) (span : Span)
  | constant (span : Span)
  | immutable (span : Span)
  | override (o : OverrideSpecifier)
  deriving DecidableEq, Repr

namespace VariableAttribute

def span : VariableAttribute → Span
  | .visibility _ span | .constant span | .immutable span => span
  | .override o => o.span

def visibility? : VariableAttribute → Option Visibility
  | .visibility v _ => some v
  | _ => none

def isConstant : VariableAttribute → Bool
  | .constant _ => true
  | _ => false

def isImmutable : VariableAttribute → Bool
  | .immutable _ => true
  | _ => false

end VariableAttribute

structure StateVariable where
  type : TypeName
  attributes : List VariableAttribute
  name : Identifier
  value : Option Expr
  span : Span

namespace StateVariable

/-- The first visibility among the attributes. -/
def visibility? (v : StateVariable) : Option Visibility :=
  v.attributes.findSome? VariableAttribute.visibility?

def isConstant (v : StateVariable) : Bool := v.attributes.any VariableAttribute.isConstant

def isImmutable (v : StateVariable) : Bool := v.attributes.any VariableAttribute.isImmutable

end StateVariable

/-- A constant outside of contracts. -/
structure ConstantDeclaration where
  type : TypeName
  name : Identifier
  value : Expr
  span : Span

structure StructMember where
  type : TypeName
  name : Identifier
  span : Span

structure StructDeclaration where
  name : Identifier
  members : List StructMember
  span : Span

structure EnumDeclaration where
  name : Identifier
  values : List Identifier
  span : Span
  deriving DecidableEq, Repr

structure EventParameter where
  type : TypeName
  isIndexed : Bool
  name : Option Identifier
  span : Span

structure EventDefinition where
  name : Identifier
  parameters : List EventParameter
  isAnonymous : Bool
  span : Span

/-- A member of a contract. -/
inductive Member where
  | function (d : FunctionDefinition)
  | modifier (d : ModifierDefinition)
  | constructor (d : ConstructorDefinition)
  | fallback (d : FallbackDefinition)
  | stateVariable (d : StateVariable)
  | struct (d : StructDeclaration)
  | enum (d : EnumDeclaration)
  | event (d : EventDefinition)
  | using_ (d : UsingDirective)
  | error (mark : ErrorMark)

namespace Member

def span : Member → Span
  | .function d => d.span
  | .modifier d => d.span
  | .constructor d => d.span
  | .fallback d => d.span
  | .stateVariable d => d.span
  | .struct d => d.span
  | .enum d => d.span
  | .event d => d.span
  | .using_ d => d.span
  | .error mark => mark.span

/-- The body of a member that has one. -/
def body? : Member → Option Block
  | .function d => d.body
  | .modifier d => d.body
  | .constructor d => d.body
  | .fallback d => d.body
  | _ => none

/-- The marks in a member, in the order of the text. -/
def errorMarks : Member → List ErrorMark
  | .error mark => [mark]
  | m => m.body?.elim [] Block.errorMarks

def function? : Member → Option FunctionDefinition
  | .function d => some d
  | _ => none

def stateVariable? : Member → Option StateVariable
  | .stateVariable d => some d
  | _ => none

end Member

inductive ContractKind where
  | contract | interface | library
  deriving DecidableEq, Repr

namespace ContractKind

def keyword : ContractKind → Keyword
  | .contract => .contract
  | .interface => .interface
  | .library => .library

def text (k : ContractKind) : String := k.keyword.text

/-- The kind that a token begins. -/
def ofToken? : Token → Option ContractKind
  | .keyword .contract => some .contract
  | .keyword .interface => some .interface
  | .keyword .library => some .library
  | _ => none

end ContractKind

/-- A base of a contract, perhaps with arguments for its constructor. -/
structure InheritanceSpecifier where
  ancestor : Path
  arguments : Option Arguments
  span : Span

structure ContractDeclaration where
  kind : ContractKind
  isAbstract : Bool
  name : Identifier
  inheritance : List InheritanceSpecifier
  members : List Member
  span : Span

namespace ContractDeclaration

def functions (c : ContractDeclaration) : List FunctionDefinition :=
  c.members.filterMap Member.function?

def stateVariables (c : ContractDeclaration) : List StateVariable :=
  c.members.filterMap Member.stateVariable?

end ContractDeclaration

/-- What stands at the top of a source file. -/
inductive SourceUnit where
  | pragma (d : PragmaDirective)
  | import_ (d : ImportDirective)
  | contract (d : ContractDeclaration)
  | struct (d : StructDeclaration)
  | enum (d : EnumDeclaration)
  | function (d : FunctionDefinition)
  | constant (d : ConstantDeclaration)
  | error (mark : ErrorMark)

namespace SourceUnit

def span : SourceUnit → Span
  | .pragma d => d.span
  | .import_ d => d.span
  | .contract d => d.span
  | .struct d => d.span
  | .enum d => d.span
  | .function d => d.span
  | .constant d => d.span
  | .error mark => mark.span

/-- The marks in a top-level item, in the order of the text. -/
def errorMarks : SourceUnit → List ErrorMark
  | .error mark => [mark]
  | .contract d => d.members.flatMap Member.errorMarks
  | .function d => d.body.elim [] Block.errorMarks
  | _ => []

def contract? : SourceUnit → Option ContractDeclaration
  | .contract d => some d
  | _ => none

def pragma? : SourceUnit → Option PragmaDirective
  | .pragma d => some d
  | _ => none

def import? : SourceUnit → Option ImportDirective
  | .import_ d => some d
  | _ => none

end SourceUnit

/-- A whole source file. -/
structure SourceFile where
  items : List SourceUnit
  span : Span

namespace SourceFile

def contracts (f : SourceFile) : List ContractDeclaration := f.items.filterMap SourceUnit.contract?

def pragmas (f : SourceFile) : List PragmaDirective := f.items.filterMap SourceUnit.pragma?

def imports (f : SourceFile) : List ImportDirective := f.items.filterMap SourceUnit.import?

/-- The marks in a file, in the order of the text. -/
def errorMarks (f : SourceFile) : List ErrorMark := f.items.flatMap SourceUnit.errorMarks

end SourceFile

end SolidityFrontend
