import SolidityFrontend.Json.Basic
import SolidityFrontend.Syntax.Decl
import SolidityFrontend.Tree.Node

/-!
# The JSON form of the syntax

A record is an object with all its fields, an absent part is `null`, and a part with several variants
is an object with the name of the variant as its only field, or that name alone if the variant
carries nothing.
-/

namespace SolidityFrontend

open Json (ofOption tagged)

/-! ### Places, names and words -/

def Position.toJson (p : Position) : Json :=
  .object [("line", .number p.line), ("column", .number p.column)]

def Span.toJson (s : Span) : Json :=
  .object [("start", .number s.start.offset), ("end", .number s.stop.offset),
    ("start_position", s.start.position.toJson), ("end_position", s.stop.position.toJson)]

/-- An object that ends with a span. -/
def spanned (fields : List (String × Json)) (span : Span) : Json :=
  .object (fields ++ [("span", span.toJson)])

/-- A variant whose fields end with a span. -/
def variant (name : String) (fields : List (String × Json)) (span : Span) : Json :=
  tagged name (spanned fields span)

/-- The name of a variant that is spelled like a word. -/
def wordVariant (word : String) : Json := .string word.capitalize

def Identifier.toJson (i : Identifier) : Json := spanned [("name", .string i.name)] i.span

def Path.toJson (p : Path) : Json :=
  spanned [("segments", .ofList Identifier.toJson p.segments)] p.span

def ErrorMark.toJson (m : ErrorMark) : Json := spanned [("message", .string m.message)] m.span

def Visibility.toJson (v : Visibility) : Json := wordVariant v.text

def Mutability.toJson (m : Mutability) : Json := wordVariant m.text

def StorageLocation.toJson (l : StorageLocation) : Json := wordVariant l.text

def NumberUnit.toJson (u : NumberUnit) : Json := wordVariant u.text

/-- The two widths of a fixed point number. -/
def widthsJson (widths : Option (Nat × Nat)) : Json :=
  ofOption (fun (total, decimals) => .array [.number total, .number decimals]) widths

def ElementaryType.toJson : ElementaryType → Json
  | .address => .string "Address"
  | .addressPayable => .string "AddressPayable"
  | .bool => .string "Bool"
  | .string => .string "String"
  | .var => .string "Var"
  | .byte => .string "Byte"
  | .bytes => .string "Bytes"
  | .fixedBytes size => tagged "FixedBytes" (.number size)
  | .int bits => tagged "Int" (.number bits)
  | .uint bits => tagged "Uint" (.number bits)
  | .fixed widths => tagged "Fixed" (widthsJson widths)
  | .ufixed widths => tagged "Ufixed" (widthsJson widths)

def ElementaryTypeName.toJson (t : ElementaryTypeName) : Json :=
  spanned [("kind", t.kind.toJson)] t.span

/-! ### Operators and literals -/

/-- The name of a binary operator. -/
def BinaryOp.name : BinaryOp → String
  | .or => "Or"
  | .and => "And"
  | .eq => "Eq"
  | .ne => "Ne"
  | .lt => "Lt"
  | .gt => "Gt"
  | .le => "Le"
  | .ge => "Ge"
  | .bitOr => "BitOr"
  | .bitXor => "BitXor"
  | .bitAnd => "BitAnd"
  | .shl => "Shl"
  | .shr => "Shr"
  | .sar => "Sar"
  | .add => "Add"
  | .sub => "Sub"
  | .mul => "Mul"
  | .div => "Div"
  | .mod => "Mod"
  | .pow => "Pow"

def UnaryOp.name : UnaryOp → String
  | .not => "Not"
  | .bitNot => "BitNot"
  | .neg => "Neg"
  | .plus => "Plus"
  | .delete => "Delete"

def UpdateOp.name : UpdateOp → String
  | .increment => "Increment"
  | .decrement => "Decrement"

def AssignOp.name : AssignOp → String
  | .assign => "Assign"
  | .or => "OrAssign"
  | .xor => "XorAssign"
  | .and => "AndAssign"
  | .shl => "ShlAssign"
  | .shr => "ShrAssign"
  | .sar => "SarAssign"
  | .add => "AddAssign"
  | .sub => "SubAssign"
  | .mul => "MulAssign"
  | .div => "DivAssign"
  | .mod => "ModAssign"

def StringLiteral.toJson (l : StringLiteral) : Json :=
  spanned [("value", .string l.value), ("bytes", .ofList (fun b => .number b.toNat) l.bytes),
    ("parts", .ofList Span.toJson l.parts)] l.span

def NumberKind.toJson : NumberKind → Json
  | .decimal => .string "Decimal"
  | .hex => .string "Hex"

def NumberLiteral.toJson (l : NumberLiteral) : Json :=
  spanned [("value", .string l.value), ("kind", l.kind.toJson),
    ("unit", ofOption NumberUnit.toJson l.unit)] l.span

def Literal.toJson : Literal → Json
  | .string l => tagged "String" l.toJson
  | .hexString l => tagged "HexString" l.toJson
  | .unicodeString l => tagged "UnicodeString" l.toJson
  | .number l => tagged "Number" l.toJson
  | .boolean value span => variant "Boolean" [("value", .bool value)] span

/-! ### Expressions and type names -/

def FunctionTypeAttribute.toJson : FunctionTypeAttribute → Json
  | .visibility v span => variant "Visibility" [("visibility", v.toJson)] span
  | .mutability m span => variant "Mutability" [("mutability", m.toJson)] span

mutual

def Expr.toJson : Expr → Json
  | .binary left op right span =>
    variant "Binary" [("left", left.toJson), ("operator", .string op.name),
      ("right", right.toJson)] span
  | .unary op operand span =>
    variant "Unary" [("operator", .string op.name), ("operand", operand.toJson)] span
  | .update op fixity operand span =>
    variant "Update" [("operator", .string op.name), ("is_prefix", .bool (fixity == .before)),
      ("operand", operand.toJson)] span
  | .ternary condition ifTrue ifFalse span =>
    variant "Ternary" [("condition", condition.toJson), ("if_true", ifTrue.toJson),
      ("if_false", ifFalse.toJson)] span
  | .assignment left op right span =>
    variant "Assignment" [("left", left.toJson), ("operator", .string op.name),
      ("right", right.toJson)] span
  | .call callee arguments span =>
    variant "Call" [("callee", callee.toJson), ("arguments", arguments.toJson)] span
  | .member object name span =>
    variant "Member" [("object", object.toJson), ("member", name.toJson)] span
  | .index base index span =>
    variant "Index" [("base", base.toJson), ("index", optionJson index)] span
  | .slice base lower upper span =>
    variant "Slice" [("base", base.toJson), ("from", optionJson lower),
      ("to", optionJson upper)] span
  | .tuple elements span => variant "Tuple" [("elements", .array (placesJson elements))] span
  | .inlineArray elements span =>
    variant "InlineArray" [("elements", .array (exprsJson elements))] span
  | .struct type fields span =>
    variant "Struct" [("type_expression", type.toJson), ("fields", .array (namedJson fields))] span
  | .new type span => variant "New" [("type_name", type.toJson)] span
  | .cast type argument span =>
    variant "TypeCast" [("type_name", type.toJson), ("argument", argument.toJson)] span
  | .elementary type => tagged "ElementaryType" type.toJson
  | .metaType type span => variant "MetaType" [("type_name", type.toJson)] span
  | .payable arguments span => variant "PayableConversion" [("arguments", arguments.toJson)] span
  | .parenthesized inner span => variant "Parenthesized" [("expression", inner.toJson)] span
  | .literal l => tagged "Literal" l.toJson
  | .identifier i => tagged "Identifier" i.toJson

def Arguments.toJson : Arguments → Json
  | .positional arguments span =>
    variant "Positional" [("arguments", .array (exprsJson arguments))] span
  | .named arguments span => variant "Named" [("arguments", .array (namedJson arguments))] span

def NamedArgument.toJson : NamedArgument → Json
  | ⟨name, value, span⟩ => spanned [("name", name.toJson), ("value", value.toJson)] span

def TypeName.toJson : TypeName → Json
  | .elementary type => tagged "Elementary" type.toJson
  | .userDefined path => tagged "UserDefined" path.toJson
  | .mapping key value span =>
    variant "Mapping" [("key", key.toJson), ("value", value.toJson)] span
  | .array base size span =>
    variant "Array" [("base", base.toJson), ("size", optionJson size)] span
  | .function parameters attributes returns span =>
    variant "Function" [("parameters", .array (parametersJson parameters)),
      ("attributes", .ofList FunctionTypeAttribute.toJson attributes),
      ("returns", .array (parametersJson returns))] span

def Parameter.toJson : Parameter → Json
  | ⟨type, location, name, span⟩ =>
    spanned [("type_name", type.toJson), ("location", ofOption StorageLocation.toJson location),
      ("name", ofOption Identifier.toJson name)] span

def optionJson : Option Expr → Json
  | none => .null
  | some e => e.toJson

def placesJson : List (Option Expr) → List Json
  | [] => []
  | e :: es => optionJson e :: placesJson es

def exprsJson : List Expr → List Json
  | [] => []
  | e :: es => e.toJson :: exprsJson es

def namedJson : List NamedArgument → List Json
  | [] => []
  | a :: as => a.toJson :: namedJson as

def parametersJson : List Parameter → List Json
  | [] => []
  | p :: ps => p.toJson :: parametersJson ps

end

/-! ### Statements -/

def VariableDeclaration.toJson (d : VariableDeclaration) : Json :=
  spanned [("type_name", d.type.toJson), ("location", ofOption StorageLocation.toJson d.location),
    ("name", d.name.toJson)] d.span

def Declarator.toJson : Declarator → Json
  | .single d => tagged "Single" d.toJson
  | .tuple elements span =>
    variant "Tuple" [("elements", .ofList (ofOption VariableDeclaration.toJson) elements)] span
  | .varTuple names span =>
    variant "VarTuple" [("names", .ofList (ofOption Identifier.toJson) names)] span

mutual

def Stmt.toJson : Stmt → Json
  | .block b => tagged "Block" b.toJson
  | .expression e span => variant "Expression" [("expression", e.toJson)] span
  | .variables declarator value span =>
    variant "VariableDeclaration" [("declaration", declarator.toJson),
      ("initializer", ofOption Expr.toJson value)] span
  | .ifElse condition thenBranch elseBranch span =>
    variant "If" [("condition", condition.toJson), ("then_branch", thenBranch.toJson),
      ("else_branch", optionStmtJson elseBranch)] span
  | .forLoop init condition update body span =>
    variant "For" [("init", optionStmtJson init), ("condition", ofOption Expr.toJson condition),
      ("update", ofOption Expr.toJson update), ("body", body.toJson)] span
  | .whileLoop condition body span =>
    variant "While" [("condition", condition.toJson), ("body", body.toJson)] span
  | .doWhile body condition span =>
    variant "DoWhile" [("body", body.toJson), ("condition", condition.toJson)] span
  | .continue_ span => tagged "Continue" span.toJson
  | .break_ span => tagged "Break" span.toJson
  | .throw span => tagged "Throw" span.toJson
  | .return_ value span => variant "Return" [("value", ofOption Expr.toJson value)] span
  | .emit event arguments span =>
    variant "Emit" [("event", event.toJson), ("arguments", arguments.toJson)] span
  | .tryCatch expression returns body clauses span =>
    variant "Try" [("expression", expression.toJson), ("returns", .ofList Parameter.toJson returns),
      ("body", body.toJson), ("catch_clauses", .array (clausesJson clauses))] span
  | .assembly dialect body span =>
    variant "Assembly" [("dialect", ofOption .string dialect), ("body", body.toJson)] span
  | .error mark => tagged "Error" mark.toJson

def Block.toJson : Block → Json
  | ⟨statements, span⟩ => spanned [("statements", .array (stmtsJson statements))] span

def CatchClause.toJson : CatchClause → Json
  | ⟨name, parameters, body, span⟩ =>
    spanned [("error", ofOption Identifier.toJson name),
      ("parameters", ofOption (.ofList Parameter.toJson) parameters), ("body", body.toJson)] span

def optionStmtJson : Option Stmt → Json
  | none => .null
  | some s => s.toJson

def stmtsJson : List Stmt → List Json
  | [] => []
  | s :: ss => s.toJson :: stmtsJson ss

def clausesJson : List CatchClause → List Json
  | [] => []
  | c :: cs => c.toJson :: clausesJson cs

end

/-! ### Directives -/

/-- The name of a version operator. -/
def VersionOperator.name : VersionOperator → String
  | .caret => "Caret"
  | .tilde => "Tilde"
  | .eq => "Eq"
  | .gt => "Gt"
  | .ge => "Ge"
  | .lt => "Lt"
  | .le => "Le"

def VersionConstraint.toJson (k : VersionConstraint) : Json :=
  spanned [("operator", ofOption (fun op => .string op.name) k.operator),
    ("version", .string k.version)] k.span

def PragmaValue.toJson : PragmaValue → Json
  | .version requirement =>
    variant "Version" [("alternatives",
      .ofList (.ofList VersionConstraint.toJson) requirement.alternatives)] requirement.span
  | .raw text span => variant "Raw" [("text", .string text)] span

def PragmaDirective.toJson (d : PragmaDirective) : Json :=
  spanned [("name", d.name.toJson), ("value", d.value.toJson)] d.span

def ImportSymbol.toJson : ImportSymbol → Json
  | .wildcard span => tagged "Wildcard" span.toJson
  | .name i => tagged "Name" i.toJson

def ImportAlias.toJson (a : ImportAlias) : Json :=
  spanned [("name", a.name.toJson), ("alias", ofOption Identifier.toJson a.renamed)] a.span

def ImportClause.toJson : ImportClause → Json
  | .single symbol renamed span =>
    variant "Single" [("symbol", symbol.toJson), ("alias", ofOption Identifier.toJson renamed)] span
  | .multiple symbols span =>
    variant "Multiple" [("symbols", .ofList ImportAlias.toJson symbols)] span

def ImportDirective.toJson (d : ImportDirective) : Json :=
  spanned [("path", spanned [("value", .string d.path.value)] d.path.span),
    ("alias", ofOption Identifier.toJson d.renamed),
    ("clause", ofOption ImportClause.toJson d.clause)] d.span

def UsingTarget.toJson : UsingTarget → Json
  | .wildcard span => tagged "Wildcard" span.toJson
  | .type t => tagged "Type" t.toJson

def UsingDirective.toJson (d : UsingDirective) : Json :=
  spanned [("library", d.library.toJson), ("target", d.target.toJson)] d.span

/-! ### Declarations -/

def OverrideSpecifier.toJson (o : OverrideSpecifier) : Json :=
  spanned [("overrides", .ofList Path.toJson o.overrides)] o.span

def ModifierInvocation.toJson (m : ModifierInvocation) : Json :=
  spanned [("path", m.path.toJson), ("arguments", ofOption Arguments.toJson m.arguments)] m.span

def FunctionAttribute.toJson : FunctionAttribute → Json
  | .visibility v span => variant "Visibility" [("visibility", v.toJson)] span
  | .mutability m span => variant "Mutability" [("mutability", m.toJson)] span
  | .virtual span => variant "Virtual" [] span
  | .override o => tagged "Override" o.toJson
  | .modifier m => tagged "Modifier" m.toJson

/-- The fields that functions with and without names share. -/
def signatureJson (parameters : List Parameter) (attributes : List FunctionAttribute) :
    List (String × Json) :=
  [("parameters", .ofList Parameter.toJson parameters),
   ("attributes", .ofList FunctionAttribute.toJson attributes)]

/-- The field of a body that may be absent. -/
def bodyJson (body : Option Block) : List (String × Json) := [("body", ofOption Block.toJson body)]

def FunctionDefinition.toJson (d : FunctionDefinition) : Json :=
  spanned ([("name", d.name.toJson)] ++ signatureJson d.parameters d.attributes
    ++ [("returns", Json.ofList Parameter.toJson d.returns)] ++ bodyJson d.body) d.span

def ModifierDefinition.toJson (d : ModifierDefinition) : Json :=
  spanned ([("name", d.name.toJson)] ++ signatureJson d.parameters d.attributes
    ++ bodyJson d.body) d.span

def ConstructorDefinition.toJson (d : ConstructorDefinition) : Json :=
  spanned (signatureJson d.parameters d.attributes ++ bodyJson d.body) d.span

def FallbackDefinition.toJson (d : FallbackDefinition) : Json :=
  spanned ([("kind", wordVariant d.kind.text)] ++ signatureJson d.parameters d.attributes
    ++ bodyJson d.body) d.span

def VariableAttribute.toJson : VariableAttribute → Json
  | .visibility v span => variant "Visibility" [("visibility", v.toJson)] span
  | .constant span => variant "Constant" [] span
  | .immutable span => variant "Immutable" [] span
  | .override o => tagged "Override" o.toJson

def StateVariable.toJson (d : StateVariable) : Json :=
  spanned [("type_name", d.type.toJson),
    ("attributes", .ofList VariableAttribute.toJson d.attributes), ("name", d.name.toJson),
    ("initializer", ofOption Expr.toJson d.value)] d.span

def ConstantDeclaration.toJson (d : ConstantDeclaration) : Json :=
  spanned [("type_name", d.type.toJson), ("name", d.name.toJson), ("value", d.value.toJson)] d.span

def StructMember.toJson (m : StructMember) : Json :=
  spanned [("type_name", m.type.toJson), ("name", m.name.toJson)] m.span

def StructDeclaration.toJson (d : StructDeclaration) : Json :=
  spanned [("name", d.name.toJson), ("members", .ofList StructMember.toJson d.members)] d.span

def EnumDeclaration.toJson (d : EnumDeclaration) : Json :=
  spanned [("name", d.name.toJson), ("values", .ofList Identifier.toJson d.values)] d.span

def EventParameter.toJson (p : EventParameter) : Json :=
  spanned [("type_name", p.type.toJson), ("is_indexed", .bool p.isIndexed),
    ("name", ofOption Identifier.toJson p.name)] p.span

def EventDefinition.toJson (d : EventDefinition) : Json :=
  spanned [("name", d.name.toJson), ("parameters", .ofList EventParameter.toJson d.parameters),
    ("is_anonymous", .bool d.isAnonymous)] d.span

def Member.toJson : Member → Json
  | .function d => tagged "Function" d.toJson
  | .modifier d => tagged "Modifier" d.toJson
  | .constructor d => tagged "Constructor" d.toJson
  | .fallback d => tagged "FallbackReceive" d.toJson
  | .stateVariable d => tagged "StateVariable" d.toJson
  | .struct d => tagged "Struct" d.toJson
  | .enum d => tagged "Enum" d.toJson
  | .event d => tagged "Event" d.toJson
  | .using_ d => tagged "Using" d.toJson
  | .error mark => tagged "Error" mark.toJson

def InheritanceSpecifier.toJson (i : InheritanceSpecifier) : Json :=
  spanned [("ancestor", i.ancestor.toJson),
    ("arguments", ofOption Arguments.toJson i.arguments)] i.span

def ContractDeclaration.toJson (d : ContractDeclaration) : Json :=
  spanned [("kind", wordVariant d.kind.text), ("is_abstract", .bool d.isAbstract),
    ("name", d.name.toJson), ("inheritance", .ofList InheritanceSpecifier.toJson d.inheritance),
    ("members", .ofList Member.toJson d.members)] d.span

def SourceUnit.toJson : SourceUnit → Json
  | .pragma d => tagged "Pragma" d.toJson
  | .import_ d => tagged "Import" d.toJson
  | .contract d => tagged "Contract" d.toJson
  | .struct d => tagged "Struct" d.toJson
  | .enum d => tagged "Enum" d.toJson
  | .function d => tagged "Function" d.toJson
  | .constant d => tagged "Constant" d.toJson
  | .error mark => tagged "Error" mark.toJson

def SourceFile.toJson (f : SourceFile) : Json :=
  spanned [("items", .ofList SourceUnit.toJson f.items)] f.span

/-! ### Generic trees -/

mutual

/-- The JSON form of a tree; the value and the fields are left out where there are none. -/
def Node.toJson : Node → Json
  | ⟨kind, span, value, children⟩ => .object <|
    [("kind", .string kind), ("span", span.toJson)]
      ++ value.elim [] (fun v => [("value", .string v)])
      ++ if children.isEmpty then []
        else [("fields", .object ((gatherJson children).map fun (f, ns) => (f, .array ns)))]

/-- The JSON forms of children, gathered by their fields. -/
def gatherJson : List (String × Node) → List (String × List Json)
  | [] => []
  | (f, n) :: rest =>
    match gatherJson rest with
    | (g, ns) :: fields =>
      if f == g then (f, n.toJson :: ns) :: fields else (f, [n.toJson]) :: (g, ns) :: fields
    | [] => [(f, [n.toJson])]

end

end SolidityFrontend
