import SolidityFrontend.Syntax.Decl
import SolidityFrontend.Tree.Node

/-!
# The generic tree of the syntax

Every part of the syntax becomes a node whose kind names it; its children follow the order of the
source. Names, literals, operators and words are the values of nodes.
-/

namespace SolidityFrontend

namespace Node

/-- One child in a field. -/
def one (field : String) (n : Node) : List (String × Node) := [(field, n)]

/-- A child in a field, if there is one. -/
def maybe (field : String) : Option Node → List (String × Node)
  | none => []
  | some n => [(field, n)]

/-- The children of a field. -/
def several (field : String) (nodes : List Node) : List (String × Node) := nodes.map (field, ·)

/-- A field whose places may be vacant, in a node with a span. -/
def slots (field : String) (span : Span) (nodes : List (Option Node)) : List (String × Node) :=
  several field (places (.point span.start) nodes)

end Node

open Node

/-! ### Names, words and literals -/

def Identifier.toNode (i : Identifier) : Node := leaf "identifier" i.span (some i.name)

def Path.toNode (p : Path) : Node :=
  ⟨"identifier_path", p.span, some p.text, several "segments" (p.segments.map Identifier.toNode)⟩

def ErrorMark.toNode (m : ErrorMark) : Node := leaf "error" m.span (some m.message)

def Visibility.toNode (v : Visibility) (span : Span) : Node := leaf "visibility" span (some v.text)

def Mutability.toNode (m : Mutability) (span : Span) : Node :=
  leaf "state_mutability" span (some m.text)

def ElementaryTypeName.toNode (t : ElementaryTypeName) : Node :=
  leaf "primitive_type" t.span (some t.kind.text)

def FunctionTypeAttribute.toNode : FunctionTypeAttribute → Node
  | .visibility v span => v.toNode span
  | .mutability m span => m.toNode span

/-- A number with its unit. -/
def NumberLiteral.text (l : NumberLiteral) : String :=
  l.value ++ l.unit.elim "" fun unit => " " ++ unit.text

def Literal.toNode : Literal → Node
  | .string l => leaf "string_literal" l.span (some l.value)
  | .hexString l => leaf "hex_string_literal" l.span (some l.value)
  | .unicodeString l => leaf "unicode_string_literal" l.span (some l.value)
  | .number l => leaf "number_literal" l.span (some l.text)
  | .boolean value span => leaf "boolean_literal" span (some (if value then "true" else "false"))

/-- A step by one and the side on which it stands. -/
def UpdateOp.textAt (op : UpdateOp) : Fixity → String
  | .before => "prefix " ++ op.text
  | .after => "postfix " ++ op.text

/-! ### Expressions and type names -/

mutual

def Expr.toNode : Expr → Node
  | .binary left op right span =>
    ⟨"binary_expression", span, some op.text, one "left" left.toNode ++ one "right" right.toNode⟩
  | .unary op operand span =>
    ⟨"unary_expression", span, some op.text, one "operand" operand.toNode⟩
  | .update op fixity operand span =>
    ⟨"update_expression", span, some (op.textAt fixity), one "operand" operand.toNode⟩
  | .ternary condition ifTrue ifFalse span =>
    ⟨"ternary_expression", span, none, one "condition" condition.toNode
      ++ one "consequence" ifTrue.toNode ++ one "alternative" ifFalse.toNode⟩
  | .assignment left op right span =>
    ⟨"assignment_expression", span, some op.text,
      one "left" left.toNode ++ one "right" right.toNode⟩
  | .call callee arguments span =>
    ⟨"call_expression", span, none,
      one "function" callee.toNode ++ one "arguments" arguments.toNode⟩
  | .member object name span =>
    ⟨"member_expression", span, none, one "object" object.toNode ++ one "property" name.toNode⟩
  | .index base index span =>
    ⟨"array_access", span, none, one "base" base.toNode ++ maybe "index" (optionNode index)⟩
  | .slice base lower upper span =>
    ⟨"slice_access", span, none, one "base" base.toNode ++ maybe "from" (optionNode lower)
      ++ maybe "to" (optionNode upper)⟩
  | .tuple elements span =>
    ⟨"tuple_expression", span, none, slots "elements" span (placeNodes elements)⟩
  | .inlineArray elements span =>
    ⟨"inline_array_expression", span, none, several "elements" (exprNodes elements)⟩
  | .struct type fields span =>
    ⟨"struct_expression", span, none,
      one "type" type.toNode ++ several "fields" (namedNodes fields)⟩
  | .new type span => ⟨"new_expression", span, none, one "type" type.toNode⟩
  | .cast type argument span =>
    ⟨"type_cast_expression", span, none,
      one "type" type.toNode ++ one "argument" argument.toNode⟩
  | .elementary type => type.toNode
  | .metaType type span => ⟨"meta_type_expression", span, none, one "type" type.toNode⟩
  | .payable arguments span =>
    ⟨"payable_conversion_expression", span, none, one "arguments" arguments.toNode⟩
  | .parenthesized inner span =>
    ⟨"parenthesized_expression", span, none, one "expression" inner.toNode⟩
  | .literal l => l.toNode
  | .identifier i => i.toNode

def Arguments.toNode : Arguments → Node
  | .positional arguments span =>
    ⟨"call_arguments", span, none, several "arguments" (exprNodes arguments)⟩
  | .named arguments span =>
    ⟨"named_arguments", span, none, several "arguments" (namedNodes arguments)⟩

def NamedArgument.toNode : NamedArgument → Node
  | ⟨name, value, span⟩ =>
    ⟨"named_argument", span, none, one "name" name.toNode ++ one "value" value.toNode⟩

def TypeName.toNode : TypeName → Node
  | .elementary type => type.toNode
  | .userDefined path => ⟨"user_defined_type", path.span, none, one "path" path.toNode⟩
  | .mapping key value span =>
    ⟨"mapping_type", span, none, one "key" key.toNode ++ one "value" value.toNode⟩
  | .array base size span =>
    ⟨"array_type", span, none, one "base" base.toNode ++ maybe "size" (optionNode size)⟩
  | .function parameters attributes returns span =>
    ⟨"function_type", span, none, several "parameters" (parameterNodes parameters)
      ++ several "attributes" (attributes.map FunctionTypeAttribute.toNode)
      ++ several "returns" (parameterNodes returns)⟩

def Parameter.toNode : Parameter → Node
  | ⟨type, location, name, span⟩ =>
    ⟨"parameter", span, location.map StorageLocation.text,
      one "type" type.toNode ++ maybe "name" (name.map Identifier.toNode)⟩

def optionNode : Option Expr → Option Node
  | none => none
  | some e => some e.toNode

def placeNodes : List (Option Expr) → List (Option Node)
  | [] => []
  | e :: es => optionNode e :: placeNodes es

def exprNodes : List Expr → List Node
  | [] => []
  | e :: es => e.toNode :: exprNodes es

def namedNodes : List NamedArgument → List Node
  | [] => []
  | a :: as => a.toNode :: namedNodes as

def parameterNodes : List Parameter → List Node
  | [] => []
  | p :: ps => p.toNode :: parameterNodes ps

end

/-! ### Statements -/

def VariableDeclaration.toNode (d : VariableDeclaration) : Node :=
  ⟨"variable_declaration", d.span, d.location.map StorageLocation.text,
    one "type" d.type.toNode ++ one "name" d.name.toNode⟩

def Declarator.toNode : Declarator → Node
  | .single d => d.toNode
  | .tuple elements span =>
    ⟨"variable_declaration_tuple", span, none,
      slots "elements" span (elements.map (·.map VariableDeclaration.toNode))⟩
  | .varTuple names span =>
    ⟨"variable_declaration_tuple", span, some "var",
      slots "elements" span (names.map (·.map Identifier.toNode))⟩

mutual

def Stmt.toNode : Stmt → Node
  | .block b => b.toNode
  | .expression e span => ⟨"expression_statement", span, none, one "expression" e.toNode⟩
  | .variables declarator value span =>
    ⟨"variable_declaration_statement", span, none, one "declaration" declarator.toNode
      ++ maybe "value" (value.map Expr.toNode)⟩
  | .ifElse condition thenBranch elseBranch span =>
    ⟨"if_statement", span, none, one "condition" condition.toNode ++ one "then" thenBranch.toNode
      ++ maybe "else" (optionStmtNode elseBranch)⟩
  | .forLoop init condition update body span =>
    ⟨"for_statement", span, none, maybe "init" (optionStmtNode init)
      ++ maybe "condition" (condition.map Expr.toNode) ++ maybe "update" (update.map Expr.toNode)
      ++ one "body" body.toNode⟩
  | .whileLoop condition body span =>
    ⟨"while_statement", span, none, one "condition" condition.toNode ++ one "body" body.toNode⟩
  | .doWhile body condition span =>
    ⟨"do_while_statement", span, none, one "body" body.toNode ++ one "condition" condition.toNode⟩
  | .continue_ span => leaf "continue_statement" span none
  | .break_ span => leaf "break_statement" span none
  | .throw span => leaf "throw_statement" span none
  | .return_ value span =>
    ⟨"return_statement", span, none, maybe "value" (value.map Expr.toNode)⟩
  | .emit event arguments span =>
    ⟨"emit_statement", span, none, one "event" event.toNode ++ one "arguments" arguments.toNode⟩
  | .tryCatch expression returns body clauses span =>
    ⟨"try_statement", span, none, one "expression" expression.toNode
      ++ several "returns" (returns.map Parameter.toNode) ++ one "body" body.toNode
      ++ several "catch_clauses" (clauseNodes clauses)⟩
  | .assembly dialect body span =>
    ⟨"assembly_statement", span, dialect, one "body" (leaf "assembly_block" body none)⟩
  | .error mark => mark.toNode

def Block.toNode : Block → Node
  | ⟨statements, span⟩ => ⟨"block", span, none, several "statements" (stmtNodes statements)⟩

def CatchClause.toNode : CatchClause → Node
  | ⟨name, parameters, body, span⟩ =>
    ⟨"catch_clause", span, none, maybe "error" (name.map Identifier.toNode)
      ++ several "parameters" ((parameters.getD []).map Parameter.toNode)
      ++ one "body" body.toNode⟩

def optionStmtNode : Option Stmt → Option Node
  | none => none
  | some s => some s.toNode

def stmtNodes : List Stmt → List Node
  | [] => []
  | s :: ss => s.toNode :: stmtNodes ss

def clauseNodes : List CatchClause → List Node
  | [] => []
  | c :: cs => c.toNode :: clauseNodes cs

end

/-! ### Directives -/

def VersionConstraint.toNode (k : VersionConstraint) : Node :=
  leaf "version_constraint" k.span (some (k.operator.elim "" VersionOperator.text ++ k.version))

/-- The node of the constraints that have to hold together; none for no constraints. -/
def alternativeNode? (ks : List VersionConstraint) : Option Node :=
  match ks.head?, ks.getLast? with
  | some first, some last =>
    some ⟨"version_alternative", first.span.through last.span, none,
      several "constraints" (ks.map VersionConstraint.toNode)⟩
  | _, _ => none

def VersionRequirement.toNode (r : VersionRequirement) : Node :=
  ⟨"version_requirement", r.span, none,
    several "alternatives" (r.alternatives.filterMap alternativeNode?)⟩

def PragmaValue.toNode : PragmaValue → Node
  | .version requirement => requirement.toNode
  | .raw text span => leaf "pragma_value" span (some text)

def PragmaDirective.toNode (d : PragmaDirective) : Node :=
  ⟨"pragma_directive", d.span, none, one "name" d.name.toNode ++ one "value" d.value.toNode⟩

/-- The star that stands for everything. -/
def wildcardNode (span : Span) : Node := leaf "wildcard" span (some "*")

def ImportSymbol.toNode : ImportSymbol → Node
  | .wildcard span => wildcardNode span
  | .name i => i.toNode

def ImportAlias.toNode (a : ImportAlias) : Node :=
  ⟨"import_alias", a.span, none,
    one "name" a.name.toNode ++ maybe "alias" (a.renamed.map Identifier.toNode)⟩

def ImportClause.toNode : ImportClause → Node
  | .single symbol renamed span =>
    ⟨"single_import", span, none,
      one "symbol" symbol.toNode ++ maybe "alias" (renamed.map Identifier.toNode)⟩
  | .multiple symbols span =>
    ⟨"multiple_import", span, none, several "symbols" (symbols.map ImportAlias.toNode)⟩

def ImportDirective.toNode (d : ImportDirective) : Node :=
  ⟨"import_directive", d.span, none, maybe "clause" (d.clause.map ImportClause.toNode)
    ++ one "path" (leaf "string_literal" d.path.span (some d.path.value))
    ++ maybe "alias" (d.renamed.map Identifier.toNode)⟩

def UsingTarget.toNode : UsingTarget → Node
  | .wildcard span => wildcardNode span
  | .type t => t.toNode

def UsingDirective.toNode (d : UsingDirective) : Node :=
  ⟨"using_directive", d.span, none,
    one "library" d.library.toNode ++ one "target" d.target.toNode⟩

/-! ### Declarations -/

def OverrideSpecifier.toNode (o : OverrideSpecifier) : Node :=
  ⟨"override_specifier", o.span, none, several "overrides" (o.overrides.map Path.toNode)⟩

def ModifierInvocation.toNode (m : ModifierInvocation) : Node :=
  ⟨"modifier_invocation", m.span, none,
    one "path" m.path.toNode ++ maybe "arguments" (m.arguments.map Arguments.toNode)⟩

def FunctionAttribute.toNode : FunctionAttribute → Node
  | .visibility v span => v.toNode span
  | .mutability m span => m.toNode span
  | .virtual span => leaf "virtual" span (some "virtual")
  | .override o => o.toNode
  | .modifier m => m.toNode

/-- The children that functions with and without names share. -/
def signatureNodes (parameters : List Parameter) (attributes : List FunctionAttribute) :
    List (String × Node) :=
  several "parameters" (parameters.map Parameter.toNode)
    ++ several "attributes" (attributes.map FunctionAttribute.toNode)

def FunctionDefinition.toNode (d : FunctionDefinition) : Node :=
  ⟨"function_definition", d.span, none, one "name" d.name.toNode
    ++ signatureNodes d.parameters d.attributes ++ several "returns" (d.returns.map Parameter.toNode)
    ++ maybe "body" (d.body.map Block.toNode)⟩

def ModifierDefinition.toNode (d : ModifierDefinition) : Node :=
  ⟨"modifier_definition", d.span, none, one "name" d.name.toNode
    ++ signatureNodes d.parameters d.attributes ++ maybe "body" (d.body.map Block.toNode)⟩

def ConstructorDefinition.toNode (d : ConstructorDefinition) : Node :=
  ⟨"constructor_definition", d.span, none,
    signatureNodes d.parameters d.attributes ++ maybe "body" (d.body.map Block.toNode)⟩

def FallbackDefinition.toNode (d : FallbackDefinition) : Node :=
  ⟨"fallback_receive_definition", d.span, some d.kind.text,
    signatureNodes d.parameters d.attributes ++ maybe "body" (d.body.map Block.toNode)⟩

def VariableAttribute.toNode : VariableAttribute → Node
  | .visibility v span => v.toNode span
  | .constant span => leaf "constant" span (some "constant")
  | .immutable span => leaf "immutable" span (some "immutable")
  | .override o => o.toNode

def StateVariable.toNode (d : StateVariable) : Node :=
  ⟨"state_variable_declaration", d.span, none, one "type" d.type.toNode
    ++ several "attributes" (d.attributes.map VariableAttribute.toNode) ++ one "name" d.name.toNode
    ++ maybe "value" (d.value.map Expr.toNode)⟩

def ConstantDeclaration.toNode (d : ConstantDeclaration) : Node :=
  ⟨"constant_variable_declaration", d.span, none,
    one "type" d.type.toNode ++ one "name" d.name.toNode ++ one "value" d.value.toNode⟩

def StructMember.toNode (m : StructMember) : Node :=
  ⟨"struct_member", m.span, none, one "type" m.type.toNode ++ one "name" m.name.toNode⟩

def StructDeclaration.toNode (d : StructDeclaration) : Node :=
  ⟨"struct_declaration", d.span, none,
    one "name" d.name.toNode ++ several "members" (d.members.map StructMember.toNode)⟩

def EnumDeclaration.toNode (d : EnumDeclaration) : Node :=
  ⟨"enum_declaration", d.span, none,
    one "name" d.name.toNode ++ several "values" (d.values.map Identifier.toNode)⟩

def EventParameter.toNode (p : EventParameter) : Node :=
  ⟨"event_parameter", p.span, if p.isIndexed then some "indexed" else none,
    one "type" p.type.toNode ++ maybe "name" (p.name.map Identifier.toNode)⟩

def EventDefinition.toNode (d : EventDefinition) : Node :=
  ⟨"event_definition", d.span, if d.isAnonymous then some "anonymous" else none,
    one "name" d.name.toNode ++ several "parameters" (d.parameters.map EventParameter.toNode)⟩

def Member.toNode : Member → Node
  | .function d => d.toNode
  | .modifier d => d.toNode
  | .constructor d => d.toNode
  | .fallback d => d.toNode
  | .stateVariable d => d.toNode
  | .struct d => d.toNode
  | .enum d => d.toNode
  | .event d => d.toNode
  | .using_ d => d.toNode
  | .error mark => mark.toNode

def InheritanceSpecifier.toNode (i : InheritanceSpecifier) : Node :=
  ⟨"inheritance_specifier", i.span, none,
    one "ancestor" i.ancestor.toNode ++ maybe "arguments" (i.arguments.map Arguments.toNode)⟩

/-- The words that begin a contract. -/
def ContractDeclaration.keywordText (d : ContractDeclaration) : String :=
  (if d.isAbstract then "abstract " else "") ++ d.kind.text

def ContractDeclaration.toNode (d : ContractDeclaration) : Node :=
  ⟨"contract_declaration", d.span, some d.keywordText, one "name" d.name.toNode
    ++ several "inheritance" (d.inheritance.map InheritanceSpecifier.toNode)
    ++ several "members" (d.members.map Member.toNode)⟩

def SourceUnit.toNode : SourceUnit → Node
  | .pragma d => d.toNode
  | .import_ d => d.toNode
  | .contract d => d.toNode
  | .struct d => d.toNode
  | .enum d => d.toNode
  | .function d => d.toNode
  | .constant d => d.toNode
  | .error mark => mark.toNode

def SourceFile.toNode (f : SourceFile) : Node :=
  ⟨"source_file", f.span, none, several "items" (f.items.map SourceUnit.toNode)⟩

end SolidityFrontend
