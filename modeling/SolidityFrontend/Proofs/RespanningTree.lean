import SolidityFrontend.Proofs.Drawing
import SolidityFrontend.Proofs.RespanningDecl

/-!
# Trees with other spans

Where every location of a piece of syntax is replaced by another, each location of its tree is
replaced by the same: the spans of nodes are made of the locations in the syntax and of no others.
-/

namespace SolidityFrontend

/-- The span from one location to another, each of them replaced. -/
def Span.map (g : Location → Location) (s : Span) : Span := ⟨g s.start, g s.stop⟩

/-! ### Nodes -/

namespace Node

mutual

def respan (f : Span → Span) : Node → Node
  | ⟨kind, span, value, children⟩ => ⟨kind, f span, value, respanChildren f children⟩

def respanChildren (f : Span → Span) : List (String × Node) → List (String × Node)
  | [] => []
  | (field, n) :: rest => (field, n.respan f) :: respanChildren f rest

end

instance : Placed Node := ⟨Node.respan⟩

variable {f : Span → Span} {g : Location → Location}

theorem respanChildren_eq (f : Span → Span) (children : List (String × Node)) :
    respanChildren f children = Placed.respan f children := by
  induction children with
  | nil => rfl
  | cons x children ih => rw [respanChildren, ih, respan_cons]; rfl

@[simp]
theorem respan_node (kind : String) (span : Span) (value : Option String)
    (children : List (String × Node)) : Placed.respan f (Node.mk kind span value children)
      = ⟨kind, f span, value, Placed.respan f children⟩ := by
  rw [← respanChildren_eq]
  rfl

@[simp]
theorem respan_leaf (kind : String) (span : Span) (value : Option String) :
    Placed.respan f (leaf kind span value) = leaf kind (f span) value := rfl

@[simp]
theorem respan_one (field : String) (n : Node) :
    Placed.respan f (one field n) = one field (Placed.respan f n) := rfl

@[simp]
theorem respan_maybe (field : String) (n : Option Node) :
    Placed.respan f (maybe field n) = maybe field (Placed.respan f n) := by
  cases n <;> rfl

@[simp]
theorem respan_several (field : String) (nodes : List Node) :
    Placed.respan f (several field nodes) = several field (Placed.respan f nodes) := by
  rw [several, several, respan_list, respan_list, List.map_map, List.map_map]
  rfl

theorem span_respan (n : Node) : (Placed.respan f n).span = f n.span := by
  obtain ⟨kind, span, value, children⟩ := n
  rw [respan_node]

/-- A vacant place stands behind the place before it. -/
theorem respan_places (here : Span) (slots : List (Option Node)) :
    Placed.respan (Span.map g) (places here slots)
      = places (here.map g) (Placed.respan (Span.map g) slots) := by
  induction slots generalizing here with
  | nil => rfl
  | cons place rest ih =>
    have hplace : Placed.respan (Span.map g) (place.getD (leaf "empty" here none))
        = (Placed.respan (Span.map g) place).getD (leaf "empty" (here.map g) none) := by
      cases place <;> rfl
    rw [places, respan_cons, ih, hplace, respan_cons, places, ← hplace, span_respan]
    rfl

@[simp]
theorem respan_slots (field : String) (span : Span) (nodes : List (Option Node)) :
    Placed.respan (Span.map g) (slots field span nodes)
      = slots field (span.map g) (Placed.respan (Span.map g) nodes) := by
  rw [slots, respan_several, respan_places]
  rfl

mutual

/-- A walk meets the same nodes with other spans. -/
theorem walk_respan : ∀ n : Node, (Placed.respan f n).walk = Placed.respan f n.walk
  | ⟨kind, span, value, children⟩ => by
      rw [respan_node, walk, walkChildren_respan children, walk, respan_cons, respan_node]

theorem walkChildren_respan : ∀ children : List (String × Node),
    walkChildren (Placed.respan f children) = Placed.respan f (walkChildren children)
  | [] => rfl
  | (field, n) :: rest => by
      rw [respan_cons, respan_pair, walkChildren, walk_respan n, walkChildren_respan rest,
        walkChildren, respan_append]

end

end Node

/-! ### Syntax -/

/-- Replacing the locations of a piece of syntax replaces those of its tree. -/
def Mapped {α : Type} [Placed α] (toNode : α → Node) : Prop :=
  ∀ (g : Location → Location) (x : α),
    toNode (respan (Span.map g) x) = respan (Span.map g) (toNode x)

section

variable {α : Type} [Placed α] {toNode : α → Node} {g : Location → Location}

theorem Mapped.option (h : Mapped toNode) (o : Option α) :
    (respan (Span.map g) o).map toNode = respan (Span.map g) (o.map toNode) := by
  cases o with
  | none => rfl
  | some x => exact congrArg some (h g x)

theorem Mapped.list (h : Mapped toNode) (xs : List α) :
    (respan (Span.map g) xs).map toNode = respan (Span.map g) (xs.map toNode) := by
  rw [respan_list, respan_list, List.map_map, List.map_map]
  exact List.map_congr_left fun x _ => h g x

theorem Mapped.places (h : Mapped toNode) (xs : List (Option α)) :
    (respan (Span.map g) xs).map (·.map toNode)
      = respan (Span.map g) (xs.map (·.map toNode)) := by
  rw [respan_list, respan_list, List.map_map, List.map_map]
  exact List.map_congr_left fun x _ => h.option x

end

open Node

/-! ### Names and literals -/

theorem Identifier.mapped : Mapped Identifier.toNode := fun _ _ => rfl

theorem Path.mapped : Mapped Path.toNode := fun g p => by
  obtain ⟨segments, span⟩ := p
  have htext : Path.text ⟨respan (Span.map g) segments, span.map g⟩ = Path.text ⟨segments, span⟩ := by
    rw [Path.text, respan_list, List.map_map]
    rfl
  simp only [Path.toNode, respan_path, respan_node, respan_several, Identifier.mapped.list, htext]

theorem ErrorMark.mapped : Mapped ErrorMark.toNode := fun _ _ => rfl

theorem ElementaryTypeName.mapped : Mapped ElementaryTypeName.toNode := fun _ _ => rfl

theorem FunctionTypeAttribute.mapped : Mapped FunctionTypeAttribute.toNode := fun _ a => by
  cases a <;> rfl

theorem Literal.mapped : Mapped Literal.toNode := fun _ l => by cases l <;> rfl

/-! ### Expressions and type names -/

section

variable (g : Location → Location)

mutual

theorem Expr.toNode_map : ∀ e : Expr,
    (respan (Span.map g) e).toNode = respan (Span.map g) e.toNode
  | .binary left _ right _ => by
    simp [Expr.toNode, Expr.toNode_map left, Expr.toNode_map right]
  | .unary _ operand _ => by simp [Expr.toNode, Expr.toNode_map operand]
  | .update _ _ operand _ => by simp [Expr.toNode, Expr.toNode_map operand]
  | .ternary condition ifTrue ifFalse _ => by
    simp [Expr.toNode, Expr.toNode_map condition, Expr.toNode_map ifTrue, Expr.toNode_map ifFalse]
  | .assignment left _ right _ => by
    simp [Expr.toNode, Expr.toNode_map left, Expr.toNode_map right]
  | .call callee arguments _ => by
    simp [Expr.toNode, Expr.toNode_map callee, Arguments.toNode_map arguments]
  | .member object name _ => by
    simp [Expr.toNode, Expr.toNode_map object, Identifier.mapped g name]
  | .index base index _ => by
    simp [Expr.toNode, Expr.toNode_map base, optionNode_map index]
  | .slice base lower upper _ => by
    simp [Expr.toNode, Expr.toNode_map base, optionNode_map lower, optionNode_map upper]
  | .tuple elements _ => by simp [Expr.toNode, placeNodes_map elements]
  | .inlineArray elements _ => by simp [Expr.toNode, exprNodes_map elements]
  | .struct type fields _ => by
    simp [Expr.toNode, Expr.toNode_map type, namedNodes_map fields]
  | .new type _ => by simp [Expr.toNode, TypeName.toNode_map type]
  | .cast type argument _ => by
    simp [Expr.toNode, ElementaryTypeName.mapped g type, Expr.toNode_map argument]
  | .elementary type => by simp [Expr.toNode, ElementaryTypeName.mapped g type]
  | .metaType type _ => by simp [Expr.toNode, TypeName.toNode_map type]
  | .payable arguments _ => by simp [Expr.toNode, Arguments.toNode_map arguments]
  | .parenthesized inner _ => by simp [Expr.toNode, Expr.toNode_map inner]
  | .literal l => by simp [Expr.toNode, Literal.mapped g l]
  | .identifier i => by simp [Expr.toNode, Identifier.mapped g i]

theorem Arguments.toNode_map : ∀ a : Arguments,
    (respan (Span.map g) a).toNode = respan (Span.map g) a.toNode
  | .positional arguments _ => by simp [Arguments.toNode, exprNodes_map arguments]
  | .named arguments _ => by simp [Arguments.toNode, namedNodes_map arguments]

theorem NamedArgument.toNode_map : ∀ a : NamedArgument,
    (respan (Span.map g) a).toNode = respan (Span.map g) a.toNode
  | ⟨name, value, _⟩ => by
    simp [NamedArgument.toNode, Identifier.mapped g name, Expr.toNode_map value]

theorem TypeName.toNode_map : ∀ t : TypeName,
    (respan (Span.map g) t).toNode = respan (Span.map g) t.toNode
  | .elementary type => by simp [TypeName.toNode, ElementaryTypeName.mapped g type]
  | .userDefined path => by
    obtain ⟨segments, span⟩ := path
    have hpath := Path.mapped g ⟨segments, span⟩
    rw [respan_path] at hpath
    simp [TypeName.toNode, hpath]
  | .mapping key value _ => by
    simp [TypeName.toNode, TypeName.toNode_map key, TypeName.toNode_map value]
  | .array base size _ => by
    simp [TypeName.toNode, TypeName.toNode_map base, optionNode_map size]
  | .function parameters attributes returns _ => by
    simp [TypeName.toNode, parameterNodes_map parameters, parameterNodes_map returns,
      FunctionTypeAttribute.mapped.list]

theorem Parameter.toNode_map : ∀ p : Parameter,
    (respan (Span.map g) p).toNode = respan (Span.map g) p.toNode
  | ⟨type, _, name, _⟩ => by
    simp [Parameter.toNode, TypeName.toNode_map type, Identifier.mapped.option]

theorem optionNode_map : ∀ e : Option Expr,
    optionNode (respan (Span.map g) e) = respan (Span.map g) (optionNode e)
  | none => rfl
  | some e => congrArg some (Expr.toNode_map e)

theorem placeNodes_map : ∀ es : List (Option Expr),
    placeNodes (respan (Span.map g) es) = respan (Span.map g) (placeNodes es)
  | [] => rfl
  | e :: es => congrArg₂ List.cons (optionNode_map e) (placeNodes_map es)

theorem exprNodes_map : ∀ es : List Expr,
    exprNodes (respan (Span.map g) es) = respan (Span.map g) (exprNodes es)
  | [] => rfl
  | e :: es => congrArg₂ List.cons (Expr.toNode_map e) (exprNodes_map es)

theorem namedNodes_map : ∀ as : List NamedArgument,
    namedNodes (respan (Span.map g) as) = respan (Span.map g) (namedNodes as)
  | [] => rfl
  | a :: as => congrArg₂ List.cons (NamedArgument.toNode_map a) (namedNodes_map as)

theorem parameterNodes_map : ∀ ps : List Parameter,
    parameterNodes (respan (Span.map g) ps) = respan (Span.map g) (parameterNodes ps)
  | [] => rfl
  | p :: ps => congrArg₂ List.cons (Parameter.toNode_map p) (parameterNodes_map ps)

end

end

theorem Expr.mapped : Mapped Expr.toNode := Expr.toNode_map

theorem Arguments.mapped : Mapped Arguments.toNode := Arguments.toNode_map

theorem TypeName.mapped : Mapped TypeName.toNode := TypeName.toNode_map

theorem Parameter.mapped : Mapped Parameter.toNode := Parameter.toNode_map

/-! ### Statements -/

theorem VariableDeclaration.mapped : Mapped VariableDeclaration.toNode := fun g d => by
  obtain ⟨type, location, name, span⟩ := d
  simp [VariableDeclaration.toNode, TypeName.mapped g type, Identifier.mapped g name]

theorem Declarator.mapped : Mapped Declarator.toNode := fun g d => by
  cases d with
  | single d => exact VariableDeclaration.mapped g d
  | tuple elements span => simp [Declarator.toNode, VariableDeclaration.mapped.places]
  | varTuple names span => simp [Declarator.toNode, Identifier.mapped.places]

section

variable (g : Location → Location)

mutual

theorem Stmt.toNode_map : ∀ s : Stmt,
    (respan (Span.map g) s).toNode = respan (Span.map g) s.toNode
  | .block b => Block.toNode_map b
  | .expression e _ => by simp [Stmt.toNode, Expr.mapped g e]
  | .variables declarator value _ => by
    simp [Stmt.toNode, Declarator.mapped g declarator, Expr.mapped.option]
  | .ifElse condition thenBranch elseBranch _ => by
    simp [Stmt.toNode, Expr.mapped g condition, Stmt.toNode_map thenBranch,
      optionStmtNode_map elseBranch]
  | .forLoop init condition update body _ => by
    simp [Stmt.toNode, optionStmtNode_map init, Expr.mapped.option, Stmt.toNode_map body]
  | .whileLoop condition body _ => by
    simp [Stmt.toNode, Expr.mapped g condition, Stmt.toNode_map body]
  | .doWhile body condition _ => by
    simp [Stmt.toNode, Stmt.toNode_map body, Expr.mapped g condition]
  | .continue_ _ => rfl
  | .break_ _ => rfl
  | .throw _ => rfl
  | .return_ value _ => by simp [Stmt.toNode, Expr.mapped.option]
  | .emit event arguments _ => by
    simp [Stmt.toNode, Path.mapped g event, Arguments.mapped g arguments]
  | .tryCatch call returns body clauses _ => by
    simp [Stmt.toNode, Expr.mapped g call, Parameter.mapped.list, Block.toNode_map body,
      clauseNodes_map clauses]
  | .assembly _ _ _ => rfl
  | .error mark => ErrorMark.mapped g mark

theorem Block.toNode_map : ∀ b : Block,
    (respan (Span.map g) b).toNode = respan (Span.map g) b.toNode
  | ⟨statements, _⟩ => by simp [Block.toNode, stmtNodes_map statements]

theorem CatchClause.toNode_map : ∀ c : CatchClause,
    (respan (Span.map g) c).toNode = respan (Span.map g) c.toNode
  | ⟨name, parameters, body, _⟩ => by
    have hparameters : (respan (Span.map g) parameters).getD []
        = respan (Span.map g) (parameters.getD []) := by cases parameters <;> rfl
    simp [CatchClause.toNode, Identifier.mapped.option, hparameters, Parameter.mapped.list,
      Block.toNode_map body]

theorem optionStmtNode_map : ∀ s : Option Stmt,
    optionStmtNode (respan (Span.map g) s) = respan (Span.map g) (optionStmtNode s)
  | none => rfl
  | some s => congrArg some (Stmt.toNode_map s)

theorem stmtNodes_map : ∀ ss : List Stmt,
    stmtNodes (respan (Span.map g) ss) = respan (Span.map g) (stmtNodes ss)
  | [] => rfl
  | s :: ss => congrArg₂ List.cons (Stmt.toNode_map s) (stmtNodes_map ss)

theorem clauseNodes_map : ∀ cs : List CatchClause,
    clauseNodes (respan (Span.map g) cs) = respan (Span.map g) (clauseNodes cs)
  | [] => rfl
  | c :: cs => congrArg₂ List.cons (CatchClause.toNode_map c) (clauseNodes_map cs)

end

end

theorem Stmt.mapped : Mapped Stmt.toNode := Stmt.toNode_map

theorem Block.mapped : Mapped Block.toNode := Block.toNode_map

/-! ### Directives -/

theorem VersionConstraint.mapped : Mapped VersionConstraint.toNode := fun _ _ => rfl

theorem alternativeNode?_map (g : Location → Location) (ks : List VersionConstraint) :
    alternativeNode? (respan (Span.map g) ks) = respan (Span.map g) (alternativeNode? ks) := by
  have hnodes := VersionConstraint.mapped.list (g := g) ks
  unfold alternativeNode?
  rw [respan_list, List.head?_map, List.getLast?_map, ← respan_list, hnodes]
  cases ks.head? <;> cases ks.getLast? <;> simp [Span.map, Span.through]
  exact ⟨rfl, rfl⟩

theorem VersionRequirement.mapped : Mapped VersionRequirement.toNode := fun g r => by
  obtain ⟨alternatives, span⟩ := r
  have hnodes : (respan (Span.map g) alternatives).filterMap alternativeNode?
      = respan (Span.map g) (alternatives.filterMap alternativeNode?) := by
    rw [respan_list, respan_list, List.filterMap_map, List.map_filterMap]
    exact List.filterMap_congr fun ks _ => alternativeNode?_map g ks
  simp [VersionRequirement.toNode, hnodes]

theorem PragmaValue.mapped : Mapped PragmaValue.toNode := fun g v => by
  cases v with
  | version requirement => exact VersionRequirement.mapped g requirement
  | raw text span => rfl

theorem PragmaDirective.mapped : Mapped PragmaDirective.toNode := fun g d => by
  obtain ⟨name, value, span⟩ := d
  simp [PragmaDirective.toNode, Identifier.mapped g name, PragmaValue.mapped g value]

theorem ImportSymbol.mapped : Mapped ImportSymbol.toNode := fun _ s => by cases s <;> rfl

theorem ImportAlias.mapped : Mapped ImportAlias.toNode := fun g a => by
  obtain ⟨name, renamed, span⟩ := a
  simp [ImportAlias.toNode, Identifier.mapped g name, Identifier.mapped.option]

theorem ImportClause.mapped : Mapped ImportClause.toNode := fun g c => by
  cases c with
  | single symbol renamed span =>
    simp [ImportClause.toNode, ImportSymbol.mapped g symbol, Identifier.mapped.option]
  | multiple symbols span => simp [ImportClause.toNode, ImportAlias.mapped.list]

theorem ImportDirective.mapped : Mapped ImportDirective.toNode := fun g d => by
  obtain ⟨path, renamed, clause, span⟩ := d
  simp [ImportDirective.toNode, ImportClause.mapped.option, Identifier.mapped.option]
  rfl

theorem UsingTarget.mapped : Mapped UsingTarget.toNode := fun g t => by
  cases t with
  | wildcard span => rfl
  | type t => exact TypeName.mapped g t

theorem UsingDirective.mapped : Mapped UsingDirective.toNode := fun g d => by
  obtain ⟨library, target, span⟩ := d
  simp [UsingDirective.toNode, Path.mapped g library, UsingTarget.mapped g target]

/-! ### Declarations -/

theorem OverrideSpecifier.mapped : Mapped OverrideSpecifier.toNode := fun g o => by
  obtain ⟨overrides, span⟩ := o
  simp [OverrideSpecifier.toNode, Path.mapped.list]

theorem ModifierInvocation.mapped : Mapped ModifierInvocation.toNode := fun g m => by
  obtain ⟨path, arguments, span⟩ := m
  simp [ModifierInvocation.toNode, Path.mapped g path, Arguments.mapped.option]

theorem FunctionAttribute.mapped : Mapped FunctionAttribute.toNode := fun g a => by
  cases a with
  | override o => exact OverrideSpecifier.mapped g o
  | modifier m => exact ModifierInvocation.mapped g m
  | visibility v span => rfl
  | mutability m span => rfl
  | virtual span => rfl

theorem VariableAttribute.mapped : Mapped VariableAttribute.toNode := fun g a => by
  cases a with
  | override o => exact OverrideSpecifier.mapped g o
  | visibility v span => rfl
  | constant span => rfl
  | immutable span => rfl

theorem signatureNodes_map (g : Location → Location) (ps : List Parameter)
    (as : List FunctionAttribute) :
    signatureNodes (respan (Span.map g) ps) (respan (Span.map g) as)
      = respan (Span.map g) (signatureNodes ps as) := by
  simp [signatureNodes, Parameter.mapped.list, FunctionAttribute.mapped.list]

theorem FunctionDefinition.mapped : Mapped FunctionDefinition.toNode := fun g d => by
  obtain ⟨name, parameters, attributes, returns, body, span⟩ := d
  simp [FunctionDefinition.toNode, Identifier.mapped g name, signatureNodes_map,
    Parameter.mapped.list, Block.mapped.option]

theorem ModifierDefinition.mapped : Mapped ModifierDefinition.toNode := fun g d => by
  obtain ⟨name, parameters, attributes, body, span⟩ := d
  simp [ModifierDefinition.toNode, Identifier.mapped g name, signatureNodes_map,
    Block.mapped.option]

theorem ConstructorDefinition.mapped : Mapped ConstructorDefinition.toNode := fun g d => by
  obtain ⟨parameters, attributes, body, span⟩ := d
  simp [ConstructorDefinition.toNode, signatureNodes_map, Block.mapped.option]

theorem FallbackDefinition.mapped : Mapped FallbackDefinition.toNode := fun g d => by
  obtain ⟨kind, parameters, attributes, body, span⟩ := d
  simp [FallbackDefinition.toNode, signatureNodes_map, Block.mapped.option]

theorem StateVariable.mapped : Mapped StateVariable.toNode := fun g d => by
  obtain ⟨type, attributes, name, value, span⟩ := d
  simp [StateVariable.toNode, TypeName.mapped g type, VariableAttribute.mapped.list,
    Identifier.mapped g name, Expr.mapped.option]

theorem ConstantDeclaration.mapped : Mapped ConstantDeclaration.toNode := fun g d => by
  obtain ⟨type, name, value, span⟩ := d
  simp [ConstantDeclaration.toNode, TypeName.mapped g type, Identifier.mapped g name,
    Expr.mapped g value]

theorem StructMember.mapped : Mapped StructMember.toNode := fun g m => by
  obtain ⟨type, name, span⟩ := m
  simp [StructMember.toNode, TypeName.mapped g type, Identifier.mapped g name]

theorem StructDeclaration.mapped : Mapped StructDeclaration.toNode := fun g d => by
  obtain ⟨name, members, span⟩ := d
  simp [StructDeclaration.toNode, Identifier.mapped g name, StructMember.mapped.list]

theorem EnumDeclaration.mapped : Mapped EnumDeclaration.toNode := fun g d => by
  obtain ⟨name, values, span⟩ := d
  simp [EnumDeclaration.toNode, Identifier.mapped g name, Identifier.mapped.list]

theorem EventParameter.mapped : Mapped EventParameter.toNode := fun g p => by
  obtain ⟨type, isIndexed, name, span⟩ := p
  simp [EventParameter.toNode, TypeName.mapped g type, Identifier.mapped.option]

theorem EventDefinition.mapped : Mapped EventDefinition.toNode := fun g d => by
  obtain ⟨name, parameters, isAnonymous, span⟩ := d
  simp [EventDefinition.toNode, Identifier.mapped g name, EventParameter.mapped.list]

theorem Member.mapped : Mapped Member.toNode := fun g m => by
  cases m with
  | function d => exact FunctionDefinition.mapped g d
  | modifier d => exact ModifierDefinition.mapped g d
  | constructor d => exact ConstructorDefinition.mapped g d
  | fallback d => exact FallbackDefinition.mapped g d
  | stateVariable d => exact StateVariable.mapped g d
  | struct d => exact StructDeclaration.mapped g d
  | enum d => exact EnumDeclaration.mapped g d
  | event d => exact EventDefinition.mapped g d
  | using_ d => exact UsingDirective.mapped g d
  | error mark => exact ErrorMark.mapped g mark

theorem InheritanceSpecifier.mapped : Mapped InheritanceSpecifier.toNode := fun g i => by
  obtain ⟨ancestor, arguments, span⟩ := i
  simp [InheritanceSpecifier.toNode, Path.mapped g ancestor, Arguments.mapped.option]

theorem ContractDeclaration.mapped : Mapped ContractDeclaration.toNode := fun g d => by
  obtain ⟨kind, isAbstract, name, inheritance, members, span⟩ := d
  simp [ContractDeclaration.toNode, ContractDeclaration.keywordText, Identifier.mapped g name,
    InheritanceSpecifier.mapped.list, Member.mapped.list]

theorem SourceUnit.mapped : Mapped SourceUnit.toNode := fun g u => by
  cases u with
  | pragma d => exact PragmaDirective.mapped g d
  | import_ d => exact ImportDirective.mapped g d
  | contract d => exact ContractDeclaration.mapped g d
  | struct d => exact StructDeclaration.mapped g d
  | enum d => exact EnumDeclaration.mapped g d
  | function d => exact FunctionDefinition.mapped g d
  | constant d => exact ConstantDeclaration.mapped g d
  | error mark => exact ErrorMark.mapped g mark

theorem SourceFile.mapped : Mapped SourceFile.toNode := fun g f => by
  obtain ⟨items, span⟩ := f
  simp [SourceFile.toNode, SourceUnit.mapped.list]

end SolidityFrontend
