import SolidityFrontend.Proofs.Respanning

/-!
# Statements and declarations with other spans

Changing every span of statements, directives, declarations and files.
-/

namespace SolidityFrontend

variable {f : Span → Span}

/-! ### Statements -/

instance : Placed VariableDeclaration :=
  ⟨fun f d => ⟨respan f d.type, d.location, respan f d.name, f d.span⟩⟩

instance : Placed Declarator where
  respan f
    | .single d => .single (respan f d)
    | .tuple elements span => .tuple (respan f elements) (f span)
    | .varTuple names span => .varTuple (respan f names) (f span)

mutual

def Stmt.respan (f : Span → Span) : Stmt → Stmt
  | .block b => .block (b.respan f)
  | .expression e span => .expression (SolidityFrontend.respan f e) (f span)
  | .variables declarator value span =>
    .variables (SolidityFrontend.respan f declarator) (SolidityFrontend.respan f value) (f span)
  | .ifElse condition thenBranch elseBranch span =>
    .ifElse (SolidityFrontend.respan f condition) (thenBranch.respan f)
      (respanBranch f elseBranch) (f span)
  | .forLoop init condition update body span =>
    .forLoop (respanBranch f init) (SolidityFrontend.respan f condition)
      (SolidityFrontend.respan f update) (body.respan f) (f span)
  | .whileLoop condition body span =>
    .whileLoop (SolidityFrontend.respan f condition) (body.respan f) (f span)
  | .doWhile body condition span =>
    .doWhile (body.respan f) (SolidityFrontend.respan f condition) (f span)
  | .continue_ span => .continue_ (f span)
  | .break_ span => .break_ (f span)
  | .return_ value span => .return_ (SolidityFrontend.respan f value) (f span)
  | .emit event arguments span =>
    .emit (SolidityFrontend.respan f event) (SolidityFrontend.respan f arguments) (f span)
  | .tryCatch expression returns body clauses span =>
    .tryCatch (SolidityFrontend.respan f expression) (SolidityFrontend.respan f returns)
      (body.respan f) (respanClauses f clauses) (f span)
  | .assembly dialect body span => .assembly dialect (f body) (f span)
  | .throw span => .throw (f span)
  | .error mark => .error (SolidityFrontend.respan f mark)

def Block.respan (f : Span → Span) : Block → Block
  | ⟨statements, span⟩ => ⟨respanStmts f statements, f span⟩

def CatchClause.respan (f : Span → Span) : CatchClause → CatchClause
  | ⟨name, parameters, body, span⟩ => ⟨SolidityFrontend.respan f name,
    SolidityFrontend.respan f parameters, body.respan f, f span⟩

def respanBranch (f : Span → Span) : Option Stmt → Option Stmt
  | none => none
  | some s => some (s.respan f)

def respanStmts (f : Span → Span) : List Stmt → List Stmt
  | [] => []
  | s :: ss => s.respan f :: respanStmts f ss

def respanClauses (f : Span → Span) : List CatchClause → List CatchClause
  | [] => []
  | c :: cs => c.respan f :: respanClauses f cs

end

instance : Placed Stmt := ⟨Stmt.respan⟩

instance : Placed Block := ⟨Block.respan⟩

instance : Placed CatchClause := ⟨CatchClause.respan⟩

theorem respanBranch_eq (f : Span → Span) (s : Option Stmt) : respanBranch f s = respan f s := by
  cases s <;> rfl

theorem respanStmts_eq (f : Span → Span) (ss : List Stmt) : respanStmts f ss = respan f ss := by
  induction ss with
  | nil => rfl
  | cons s ss ih => rw [respanStmts, ih, respan_cons]; rfl

theorem respanClauses_eq (f : Span → Span) (cs : List CatchClause) :
    respanClauses f cs = respan f cs := by
  induction cs with
  | nil => rfl
  | cons c cs ih => rw [respanClauses, ih, respan_cons]; rfl

@[simp]
theorem respan_variableDeclaration (type : TypeName) (location : Option StorageLocation)
    (name : Identifier) (span : Span) :
    respan f (VariableDeclaration.mk type location name span)
      = ⟨respan f type, location, respan f name, f span⟩ := rfl

@[simp]
theorem respan_single (d : VariableDeclaration) :
    respan f (Declarator.single d) = .single (respan f d) := rfl

@[simp]
theorem respan_tupleDeclarator (elements : List (Option VariableDeclaration)) (span : Span) :
    respan f (Declarator.tuple elements span) = .tuple (respan f elements) (f span) := rfl

@[simp]
theorem respan_varTuple (names : List (Option Identifier)) (span : Span) :
    respan f (Declarator.varTuple names span) = .varTuple (respan f names) (f span) := rfl

@[simp]
theorem respan_blockStmt (b : Block) : respan f (Stmt.block b) = .block (respan f b) := rfl

@[simp]
theorem respan_expressionStmt (e : Expr) (span : Span) :
    respan f (Stmt.expression e span) = .expression (respan f e) (f span) := rfl

@[simp]
theorem respan_variables (d : Declarator) (value : Option Expr) (span : Span) :
    respan f (Stmt.variables d value span) = .variables (respan f d) (respan f value) (f span) := rfl

@[simp]
theorem respan_ifElse (condition : Expr) (thenBranch : Stmt) (elseBranch : Option Stmt)
    (span : Span) : respan f (Stmt.ifElse condition thenBranch elseBranch span)
      = .ifElse (respan f condition) (respan f thenBranch) (respan f elseBranch) (f span) := by
  rw [← respanBranch_eq]
  rfl

@[simp]
theorem respan_forLoop (init : Option Stmt) (condition update : Option Expr) (body : Stmt)
    (span : Span) : respan f (Stmt.forLoop init condition update body span)
      = .forLoop (respan f init) (respan f condition) (respan f update) (respan f body) (f span) := by
  rw [← respanBranch_eq]
  rfl

@[simp]
theorem respan_whileLoop (condition : Expr) (body : Stmt) (span : Span) :
    respan f (Stmt.whileLoop condition body span)
      = .whileLoop (respan f condition) (respan f body) (f span) := rfl

@[simp]
theorem respan_doWhile (body : Stmt) (condition : Expr) (span : Span) :
    respan f (Stmt.doWhile body condition span)
      = .doWhile (respan f body) (respan f condition) (f span) := rfl

@[simp]
theorem respan_continue (span : Span) : respan f (Stmt.continue_ span) = .continue_ (f span) := rfl

@[simp]
theorem respan_break (span : Span) : respan f (Stmt.break_ span) = .break_ (f span) := rfl

@[simp]
theorem respan_throw (span : Span) : respan f (Stmt.throw span) = .throw (f span) := rfl

@[simp]
theorem respan_return (value : Option Expr) (span : Span) :
    respan f (Stmt.return_ value span) = .return_ (respan f value) (f span) := rfl

@[simp]
theorem respan_emit (event : Path) (arguments : Arguments) (span : Span) :
    respan f (Stmt.emit event arguments span)
      = .emit (respan f event) (respan f arguments) (f span) := rfl

@[simp]
theorem respan_tryCatch (call : Expr) (returns : List Parameter) (body : Block)
    (clauses : List CatchClause) (span : Span) :
    respan f (Stmt.tryCatch call returns body clauses span)
      = .tryCatch (respan f call) (respan f returns) (respan f body) (respan f clauses) (f span) := by
  rw [← respanClauses_eq]
  rfl

@[simp]
theorem respan_assembly (dialect : Option String) (body span : Span) :
    respan f (Stmt.assembly dialect body span) = .assembly dialect (f body) (f span) := rfl

@[simp]
theorem respan_errorStmt (mark : ErrorMark) :
    respan f (Stmt.error mark) = .error (respan f mark) := rfl

@[simp]
theorem respan_block (statements : List Stmt) (span : Span) :
    respan f (Block.mk statements span) = ⟨respan f statements, f span⟩ := by
  rw [← respanStmts_eq]
  rfl

@[simp]
theorem respan_catchClause (name : Option Identifier) (parameters : Option (List Parameter))
    (body : Block) (span : Span) :
    respan f (CatchClause.mk name parameters body span)
      = ⟨respan f name, respan f parameters, respan f body, f span⟩ := rfl

/-! ### Directives -/

instance : Placed VersionConstraint := ⟨fun f k => { k with span := f k.span }⟩

instance : Placed VersionRequirement := ⟨fun f r => ⟨respan f r.alternatives, f r.span⟩⟩

instance : Placed PragmaValue where
  respan f
    | .version requirement => .version (respan f requirement)
    | .raw text span => .raw text (f span)

instance : Placed PragmaDirective := ⟨fun f d => ⟨respan f d.name, respan f d.value, f d.span⟩⟩

instance : Placed ImportPath := ⟨fun f p => { p with span := f p.span }⟩

instance : Placed ImportSymbol where
  respan f
    | .wildcard span => .wildcard (f span)
    | .name i => .name (respan f i)

instance : Placed ImportAlias := ⟨fun f a => ⟨respan f a.name, respan f a.renamed, f a.span⟩⟩

instance : Placed ImportClause where
  respan f
    | .single symbol renamed span => .single (respan f symbol) (respan f renamed) (f span)
    | .multiple symbols span => .multiple (respan f symbols) (f span)

instance : Placed ImportDirective :=
  ⟨fun f d => ⟨respan f d.path, respan f d.renamed, respan f d.clause, f d.span⟩⟩

instance : Placed UsingTarget where
  respan f
    | .wildcard span => .wildcard (f span)
    | .type t => .type (respan f t)

instance : Placed UsingDirective :=
  ⟨fun f d => ⟨respan f d.library, respan f d.target, f d.span⟩⟩

@[simp]
theorem respan_versionConstraint (operator : Option VersionOperator) (version : String)
    (span : Span) : respan f (VersionConstraint.mk operator version span)
      = ⟨operator, version, f span⟩ := rfl

@[simp]
theorem respan_versionRequirement (alternatives : List (List VersionConstraint)) (span : Span) :
    respan f (VersionRequirement.mk alternatives span) = ⟨respan f alternatives, f span⟩ := rfl

@[simp]
theorem respan_versionValue (requirement : VersionRequirement) :
    respan f (PragmaValue.version requirement) = .version (respan f requirement) := rfl

@[simp]
theorem respan_rawValue (text : String) (span : Span) :
    respan f (PragmaValue.raw text span) = .raw text (f span) := rfl

@[simp]
theorem respan_pragmaDirective (name : Identifier) (value : PragmaValue) (span : Span) :
    respan f (PragmaDirective.mk name value span) = ⟨respan f name, respan f value, f span⟩ := rfl

@[simp]
theorem respan_importPath (value : String) (span : Span) :
    respan f (ImportPath.mk value span) = ⟨value, f span⟩ := rfl

@[simp]
theorem respan_wildcardSymbol (span : Span) :
    respan f (ImportSymbol.wildcard span) = .wildcard (f span) := rfl

@[simp]
theorem respan_nameSymbol (i : Identifier) :
    respan f (ImportSymbol.name i) = .name (respan f i) := rfl

@[simp]
theorem respan_importAlias (name : Identifier) (renamed : Option Identifier) (span : Span) :
    respan f (ImportAlias.mk name renamed span) = ⟨respan f name, respan f renamed, f span⟩ := rfl

@[simp]
theorem respan_singleImport (symbol : ImportSymbol) (renamed : Option Identifier) (span : Span) :
    respan f (ImportClause.single symbol renamed span)
      = .single (respan f symbol) (respan f renamed) (f span) := rfl

@[simp]
theorem respan_multipleImport (symbols : List ImportAlias) (span : Span) :
    respan f (ImportClause.multiple symbols span) = .multiple (respan f symbols) (f span) := rfl

@[simp]
theorem respan_importDirective (path : ImportPath) (renamed : Option Identifier)
    (clause : Option ImportClause) (span : Span) :
    respan f (ImportDirective.mk path renamed clause span)
      = ⟨respan f path, respan f renamed, respan f clause, f span⟩ := rfl

@[simp]
theorem respan_wildcardTarget (span : Span) :
    respan f (UsingTarget.wildcard span) = .wildcard (f span) := rfl

@[simp]
theorem respan_typeTarget (t : TypeName) :
    respan f (UsingTarget.type t) = .type (respan f t) := rfl

@[simp]
theorem respan_usingDirective (library : Path) (target : UsingTarget) (span : Span) :
    respan f (UsingDirective.mk library target span)
      = ⟨respan f library, respan f target, f span⟩ := rfl

/-! ### Declarations -/

instance : Placed OverrideSpecifier := ⟨fun f o => ⟨respan f o.overrides, f o.span⟩⟩

instance : Placed ModifierInvocation :=
  ⟨fun f m => ⟨respan f m.path, respan f m.arguments, f m.span⟩⟩

instance : Placed FunctionAttribute where
  respan f
    | .visibility v span => .visibility v (f span)
    | .mutability m span => .mutability m (f span)
    | .virtual span => .virtual (f span)
    | .override o => .override (respan f o)
    | .modifier m => .modifier (respan f m)

instance : Placed VariableAttribute where
  respan f
    | .visibility v span => .visibility v (f span)
    | .constant span => .constant (f span)
    | .immutable span => .immutable (f span)
    | .override o => .override (respan f o)

instance : Placed FunctionDefinition := ⟨fun f d => ⟨respan f d.name, respan f d.parameters,
  respan f d.attributes, respan f d.returns, respan f d.body, f d.span⟩⟩

instance : Placed ModifierDefinition := ⟨fun f d => ⟨respan f d.name, respan f d.parameters,
  respan f d.attributes, respan f d.body, f d.span⟩⟩

instance : Placed ConstructorDefinition := ⟨fun f d => ⟨respan f d.parameters,
  respan f d.attributes, respan f d.body, f d.span⟩⟩

instance : Placed FallbackDefinition := ⟨fun f d => ⟨d.kind, respan f d.parameters,
  respan f d.attributes, respan f d.body, f d.span⟩⟩

instance : Placed StateVariable := ⟨fun f d => ⟨respan f d.type, respan f d.attributes,
  respan f d.name, respan f d.value, f d.span⟩⟩

instance : Placed ConstantDeclaration :=
  ⟨fun f d => ⟨respan f d.type, respan f d.name, respan f d.value, f d.span⟩⟩

instance : Placed StructMember := ⟨fun f m => ⟨respan f m.type, respan f m.name, f m.span⟩⟩

instance : Placed StructDeclaration :=
  ⟨fun f d => ⟨respan f d.name, respan f d.members, f d.span⟩⟩

instance : Placed EnumDeclaration := ⟨fun f d => ⟨respan f d.name, respan f d.values, f d.span⟩⟩

instance : Placed EventParameter :=
  ⟨fun f p => ⟨respan f p.type, p.isIndexed, respan f p.name, f p.span⟩⟩

instance : Placed EventDefinition :=
  ⟨fun f d => ⟨respan f d.name, respan f d.parameters, d.isAnonymous, f d.span⟩⟩

instance : Placed Member where
  respan f
    | .function d => .function (respan f d)
    | .modifier d => .modifier (respan f d)
    | .constructor d => .constructor (respan f d)
    | .fallback d => .fallback (respan f d)
    | .stateVariable d => .stateVariable (respan f d)
    | .struct d => .struct (respan f d)
    | .enum d => .enum (respan f d)
    | .event d => .event (respan f d)
    | .using_ d => .using_ (respan f d)
    | .error mark => .error (respan f mark)

instance : Placed InheritanceSpecifier :=
  ⟨fun f i => ⟨respan f i.ancestor, respan f i.arguments, f i.span⟩⟩

instance : Placed ContractDeclaration := ⟨fun f d => ⟨d.kind, d.isAbstract, respan f d.name,
  respan f d.inheritance, respan f d.members, f d.span⟩⟩

instance : Placed SourceUnit where
  respan f
    | .pragma d => .pragma (respan f d)
    | .import_ d => .import_ (respan f d)
    | .contract d => .contract (respan f d)
    | .struct d => .struct (respan f d)
    | .enum d => .enum (respan f d)
    | .function d => .function (respan f d)
    | .constant d => .constant (respan f d)
    | .error mark => .error (respan f mark)

instance : Placed SourceFile := ⟨fun f file => ⟨respan f file.items, f file.span⟩⟩

@[simp]
theorem respan_overrideSpecifier (overrides : List Path) (span : Span) :
    respan f (OverrideSpecifier.mk overrides span) = ⟨respan f overrides, f span⟩ := rfl

@[simp]
theorem respan_modifierInvocation (path : Path) (arguments : Option Arguments) (span : Span) :
    respan f (ModifierInvocation.mk path arguments span)
      = ⟨respan f path, respan f arguments, f span⟩ := rfl

@[simp]
theorem respan_functionVisibility (v : Visibility) (span : Span) :
    respan f (FunctionAttribute.visibility v span) = .visibility v (f span) := rfl

@[simp]
theorem respan_functionMutability (m : Mutability) (span : Span) :
    respan f (FunctionAttribute.mutability m span) = .mutability m (f span) := rfl

@[simp]
theorem respan_virtual (span : Span) :
    respan f (FunctionAttribute.virtual span) = .virtual (f span) := rfl

@[simp]
theorem respan_functionOverride (o : OverrideSpecifier) :
    respan f (FunctionAttribute.override o) = .override (respan f o) := rfl

@[simp]
theorem respan_functionModifier (m : ModifierInvocation) :
    respan f (FunctionAttribute.modifier m) = .modifier (respan f m) := rfl

@[simp]
theorem respan_variableVisibility (v : Visibility) (span : Span) :
    respan f (VariableAttribute.visibility v span) = .visibility v (f span) := rfl

@[simp]
theorem respan_constantAttribute (span : Span) :
    respan f (VariableAttribute.constant span) = .constant (f span) := rfl

@[simp]
theorem respan_immutable (span : Span) :
    respan f (VariableAttribute.immutable span) = .immutable (f span) := rfl

@[simp]
theorem respan_variableOverride (o : OverrideSpecifier) :
    respan f (VariableAttribute.override o) = .override (respan f o) := rfl

@[simp]
theorem respan_functionDefinition (name : Identifier) (parameters : List Parameter)
    (attributes : List FunctionAttribute) (returns : List Parameter) (body : Option Block)
    (span : Span) : respan f (FunctionDefinition.mk name parameters attributes returns body span)
      = ⟨respan f name, respan f parameters, respan f attributes, respan f returns, respan f body,
        f span⟩ := rfl

@[simp]
theorem respan_modifierDefinition (name : Identifier) (parameters : List Parameter)
    (attributes : List FunctionAttribute) (body : Option Block) (span : Span) :
    respan f (ModifierDefinition.mk name parameters attributes body span)
      = ⟨respan f name, respan f parameters, respan f attributes, respan f body, f span⟩ := rfl

@[simp]
theorem respan_constructorDefinition (parameters : List Parameter)
    (attributes : List FunctionAttribute) (body : Option Block) (span : Span) :
    respan f (ConstructorDefinition.mk parameters attributes body span)
      = ⟨respan f parameters, respan f attributes, respan f body, f span⟩ := rfl

@[simp]
theorem respan_fallbackDefinition (kind : FallbackKind) (parameters : List Parameter)
    (attributes : List FunctionAttribute) (body : Option Block) (span : Span) :
    respan f (FallbackDefinition.mk kind parameters attributes body span)
      = ⟨kind, respan f parameters, respan f attributes, respan f body, f span⟩ := rfl

@[simp]
theorem respan_stateVariable (type : TypeName) (attributes : List VariableAttribute)
    (name : Identifier) (value : Option Expr) (span : Span) :
    respan f (StateVariable.mk type attributes name value span)
      = ⟨respan f type, respan f attributes, respan f name, respan f value, f span⟩ := rfl

@[simp]
theorem respan_constantDeclaration (type : TypeName) (name : Identifier) (value : Expr)
    (span : Span) : respan f (ConstantDeclaration.mk type name value span)
      = ⟨respan f type, respan f name, respan f value, f span⟩ := rfl

@[simp]
theorem respan_structMember (type : TypeName) (name : Identifier) (span : Span) :
    respan f (StructMember.mk type name span) = ⟨respan f type, respan f name, f span⟩ := rfl

@[simp]
theorem respan_structDeclaration (name : Identifier) (members : List StructMember) (span : Span) :
    respan f (StructDeclaration.mk name members span)
      = ⟨respan f name, respan f members, f span⟩ := rfl

@[simp]
theorem respan_enumDeclaration (name : Identifier) (values : List Identifier) (span : Span) :
    respan f (EnumDeclaration.mk name values span) = ⟨respan f name, respan f values, f span⟩ := rfl

@[simp]
theorem respan_eventParameter (type : TypeName) (isIndexed : Bool) (name : Option Identifier)
    (span : Span) : respan f (EventParameter.mk type isIndexed name span)
      = ⟨respan f type, isIndexed, respan f name, f span⟩ := rfl

@[simp]
theorem respan_eventDefinition (name : Identifier) (parameters : List EventParameter)
    (isAnonymous : Bool) (span : Span) :
    respan f (EventDefinition.mk name parameters isAnonymous span)
      = ⟨respan f name, respan f parameters, isAnonymous, f span⟩ := rfl

@[simp]
theorem respan_functionMember (d : FunctionDefinition) :
    respan f (Member.function d) = .function (respan f d) := rfl

@[simp]
theorem respan_modifierMember (d : ModifierDefinition) :
    respan f (Member.modifier d) = .modifier (respan f d) := rfl

@[simp]
theorem respan_constructorMember (d : ConstructorDefinition) :
    respan f (Member.constructor d) = .constructor (respan f d) := rfl

@[simp]
theorem respan_fallbackMember (d : FallbackDefinition) :
    respan f (Member.fallback d) = .fallback (respan f d) := rfl

@[simp]
theorem respan_stateVariableMember (d : StateVariable) :
    respan f (Member.stateVariable d) = .stateVariable (respan f d) := rfl

@[simp]
theorem respan_structOfMember (d : StructDeclaration) :
    respan f (Member.struct d) = .struct (respan f d) := rfl

@[simp]
theorem respan_enumMember (d : EnumDeclaration) :
    respan f (Member.enum d) = .enum (respan f d) := rfl

@[simp]
theorem respan_eventMember (d : EventDefinition) :
    respan f (Member.event d) = .event (respan f d) := rfl

@[simp]
theorem respan_usingMember (d : UsingDirective) :
    respan f (Member.using_ d) = .using_ (respan f d) := rfl

@[simp]
theorem respan_errorMember (mark : ErrorMark) :
    respan f (Member.error mark) = .error (respan f mark) := rfl

@[simp]
theorem respan_inheritanceSpecifier (ancestor : Path) (arguments : Option Arguments)
    (span : Span) : respan f (InheritanceSpecifier.mk ancestor arguments span)
      = ⟨respan f ancestor, respan f arguments, f span⟩ := rfl

@[simp]
theorem respan_contractDeclaration (kind : ContractKind) (isAbstract : Bool) (name : Identifier)
    (bases : List InheritanceSpecifier) (members : List Member) (span : Span) :
    respan f (ContractDeclaration.mk kind isAbstract name bases members span)
      = ⟨kind, isAbstract, respan f name, respan f bases, respan f members, f span⟩ := rfl

@[simp]
theorem respan_pragmaUnit (d : PragmaDirective) :
    respan f (SourceUnit.pragma d) = .pragma (respan f d) := rfl

@[simp]
theorem respan_importUnit (d : ImportDirective) :
    respan f (SourceUnit.import_ d) = .import_ (respan f d) := rfl

@[simp]
theorem respan_contractUnit (d : ContractDeclaration) :
    respan f (SourceUnit.contract d) = .contract (respan f d) := rfl

@[simp]
theorem respan_structUnit (d : StructDeclaration) :
    respan f (SourceUnit.struct d) = .struct (respan f d) := rfl

@[simp]
theorem respan_enumUnit (d : EnumDeclaration) :
    respan f (SourceUnit.enum d) = .enum (respan f d) := rfl

@[simp]
theorem respan_functionUnit (d : FunctionDefinition) :
    respan f (SourceUnit.function d) = .function (respan f d) := rfl

@[simp]
theorem respan_constantUnit (d : ConstantDeclaration) :
    respan f (SourceUnit.constant d) = .constant (respan f d) := rfl

@[simp]
theorem respan_errorUnit (mark : ErrorMark) :
    respan f (SourceUnit.error mark) = .error (respan f mark) := rfl

@[simp]
theorem respan_sourceFile (items : List SourceUnit) (span : Span) :
    respan f (SourceFile.mk items span) = ⟨respan f items, f span⟩ := rfl

end SolidityFrontend
