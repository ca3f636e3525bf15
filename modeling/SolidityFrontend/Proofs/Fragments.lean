import SolidityFrontend.Syntax.Decl

/-!
# The fragments of a piece of syntax

All expressions, type names and statements in a piece of syntax, each with those inside it behind it.
These are the kinds of syntax that can also be read on their own.
-/

namespace SolidityFrontend

/-- An expression, a type name or a statement in a piece of syntax. -/
inductive Fragment where
  | expr (e : Expr)
  | typeName (t : TypeName)
  | stmt (s : Stmt)

def Fragment.span : Fragment → Span
  | .expr e => e.span
  | .typeName t => t.span
  | .stmt s => s.span

/-! ### Expressions and type names -/

mutual

def Expr.fragments : Expr → List Fragment
  | e@(.binary left _ right _) | e@(.assignment left _ right _) =>
      .expr e :: (left.fragments ++ right.fragments)
  | e@(.unary _ operand _) | e@(.update _ _ operand _) => .expr e :: operand.fragments
  | e@(.ternary condition ifTrue ifFalse _) =>
      .expr e :: (condition.fragments ++ ifTrue.fragments ++ ifFalse.fragments)
  | e@(.call callee arguments _) => .expr e :: (callee.fragments ++ arguments.fragments)
  | e@(.member object _ _) => .expr e :: object.fragments
  | e@(.index base index _) => .expr e :: (base.fragments ++ optionFragments index)
  | e@(.slice base lower upper _) =>
      .expr e :: (base.fragments ++ optionFragments lower ++ optionFragments upper)
  | e@(.tuple elements _) => .expr e :: placeFragments elements
  | e@(.inlineArray elements _) => .expr e :: exprFragments elements
  | e@(.struct type fields _) => .expr e :: (type.fragments ++ namedFragments fields)
  | e@(.new type _) | e@(.metaType type _) => .expr e :: type.fragments
  | e@(.cast _ argument _) => .expr e :: argument.fragments
  | e@(.payable arguments _) => .expr e :: arguments.fragments
  | e@(.parenthesized inner _) => .expr e :: inner.fragments
  | e@(.elementary _) | e@(.literal _) | e@(.identifier _) => [.expr e]

def Arguments.fragments : Arguments → List Fragment
  | .positional arguments _ => exprFragments arguments
  | .named arguments _ => namedFragments arguments

def NamedArgument.fragments : NamedArgument → List Fragment
  | ⟨_, value, _⟩ => value.fragments

def TypeName.fragments : TypeName → List Fragment
  | t@(.elementary _) | t@(.userDefined _) => [.typeName t]
  | t@(.mapping key value _) => .typeName t :: (key.fragments ++ value.fragments)
  | t@(.array base size _) => .typeName t :: (base.fragments ++ optionFragments size)
  | t@(.function parameters _ returns _) =>
      .typeName t :: (parameterFragments parameters ++ parameterFragments returns)

def Parameter.fragments : Parameter → List Fragment
  | ⟨type, _, _, _⟩ => type.fragments

def optionFragments : Option Expr → List Fragment
  | none => []
  | some e => e.fragments

def placeFragments : List (Option Expr) → List Fragment
  | [] => []
  | e :: es => optionFragments e ++ placeFragments es

def exprFragments : List Expr → List Fragment
  | [] => []
  | e :: es => e.fragments ++ exprFragments es

def namedFragments : List NamedArgument → List Fragment
  | [] => []
  | a :: as => a.fragments ++ namedFragments as

def parameterFragments : List Parameter → List Fragment
  | [] => []
  | p :: ps => p.fragments ++ parameterFragments ps

end

example (p : Path) (span : Span) :
    (Expr.payable (.positional [.new (.userDefined p) span] span) span).fragments.length = 3 := by
  simp [Expr.fragments, Arguments.fragments, exprFragments, TypeName.fragments]

/-! ### Statements -/

def VariableDeclaration.fragments (d : VariableDeclaration) : List Fragment := d.type.fragments

def Declarator.fragments : Declarator → List Fragment
  | .single d => d.fragments
  | .tuple elements _ => elements.flatMap fun d => d.elim [] VariableDeclaration.fragments
  | .varTuple .. => []

mutual

def Stmt.fragments : Stmt → List Fragment
  | s@(.block b) => .stmt s :: b.fragments
  | s@(.expression e _) => .stmt s :: e.fragments
  | s@(.variables declarator value _) =>
      .stmt s :: (declarator.fragments ++ optionFragments value)
  | s@(.ifElse condition thenBranch elseBranch _) =>
      .stmt s :: (condition.fragments ++ thenBranch.fragments ++ branchFragments elseBranch)
  | s@(.forLoop init condition update body _) =>
      .stmt s :: (branchFragments init ++ optionFragments condition ++ optionFragments update
        ++ body.fragments)
  | s@(.whileLoop condition body _) => .stmt s :: (condition.fragments ++ body.fragments)
  | s@(.doWhile body condition _) => .stmt s :: (body.fragments ++ condition.fragments)
  | s@(.return_ value _) => .stmt s :: optionFragments value
  | s@(.emit _ arguments _) => .stmt s :: arguments.fragments
  | s@(.tryCatch expression returns body clauses _) =>
      .stmt s :: (expression.fragments ++ parameterFragments returns ++ body.fragments
        ++ clauseFragments clauses)
  | s@(.continue_ _) | s@(.break_ _) | s@(.throw _) | s@(.assembly ..) | s@(.error _) => [.stmt s]

def Block.fragments : Block → List Fragment
  | ⟨statements, _⟩ => stmtFragments statements

def CatchClause.fragments : CatchClause → List Fragment
  | ⟨_, parameters, body, _⟩ => parameters.elim [] parameterFragments ++ body.fragments

def branchFragments : Option Stmt → List Fragment
  | none => []
  | some s => s.fragments

def stmtFragments : List Stmt → List Fragment
  | [] => []
  | s :: ss => s.fragments ++ stmtFragments ss

def clauseFragments : List CatchClause → List Fragment
  | [] => []
  | c :: cs => c.fragments ++ clauseFragments cs

end

example (e : Expr) (span : Span) :
    (Stmt.block ⟨[.expression e span], span⟩).fragments.length = e.fragments.length + 2 := by
  simp [Stmt.fragments, Block.fragments, stmtFragments]

/-! ### Declarations -/

def UsingDirective.fragments (d : UsingDirective) : List Fragment :=
  match d.target with
  | .wildcard _ => []
  | .type t => t.fragments

def ModifierInvocation.fragments (m : ModifierInvocation) : List Fragment :=
  m.arguments.elim [] Arguments.fragments

def FunctionAttribute.fragments : FunctionAttribute → List Fragment
  | .modifier m => m.fragments
  | .visibility .. | .mutability .. | .virtual _ | .override _ => []

/-- The fragments of what stands between the name of a function and its body. -/
def signatureFragments (parameters : List Parameter) (attributes : List FunctionAttribute) :
    List Fragment := parameterFragments parameters ++ attributes.flatMap FunctionAttribute.fragments

def bodyFragments (body : Option Block) : List Fragment := body.elim [] Block.fragments

def FunctionDefinition.fragments (d : FunctionDefinition) : List Fragment :=
  signatureFragments d.parameters d.attributes ++ parameterFragments d.returns
    ++ bodyFragments d.body

def ModifierDefinition.fragments (d : ModifierDefinition) : List Fragment :=
  signatureFragments d.parameters d.attributes ++ bodyFragments d.body

def ConstructorDefinition.fragments (d : ConstructorDefinition) : List Fragment :=
  signatureFragments d.parameters d.attributes ++ bodyFragments d.body

def FallbackDefinition.fragments (d : FallbackDefinition) : List Fragment :=
  signatureFragments d.parameters d.attributes ++ bodyFragments d.body

def StateVariable.fragments (d : StateVariable) : List Fragment :=
  d.type.fragments ++ optionFragments d.value

def ConstantDeclaration.fragments (d : ConstantDeclaration) : List Fragment :=
  d.type.fragments ++ d.value.fragments

def StructDeclaration.fragments (d : StructDeclaration) : List Fragment :=
  d.members.flatMap fun m => m.type.fragments

def EventDefinition.fragments (d : EventDefinition) : List Fragment :=
  d.parameters.flatMap fun p => p.type.fragments

def Member.fragments : Member → List Fragment
  | .function d => d.fragments
  | .modifier d => d.fragments
  | .constructor d => d.fragments
  | .fallback d => d.fragments
  | .stateVariable d => d.fragments
  | .struct d => d.fragments
  | .event d => d.fragments
  | .using_ d => d.fragments
  | .enum _ | .error _ => []

def InheritanceSpecifier.fragments (i : InheritanceSpecifier) : List Fragment :=
  i.arguments.elim [] Arguments.fragments

def ContractDeclaration.fragments (d : ContractDeclaration) : List Fragment :=
  d.inheritance.flatMap InheritanceSpecifier.fragments ++ d.members.flatMap Member.fragments

def SourceUnit.fragments : SourceUnit → List Fragment
  | .contract d => d.fragments
  | .struct d => d.fragments
  | .function d => d.fragments
  | .constant d => d.fragments
  | .pragma _ | .import_ _ | .enum _ | .error _ => []

def SourceFile.fragments (f : SourceFile) : List Fragment := f.items.flatMap SourceUnit.fragments

/-! ### What holds of all fragments -/

section

variable {P : Fragment → Prop}

@[simp]
theorem forall_optionFragments {e : Option Expr} :
    (∀ f ∈ optionFragments e, P f) ↔ ∀ x ∈ e, ∀ f ∈ x.fragments, P f := by
  cases e <;> simp [optionFragments]

@[simp]
theorem forall_placeFragments {es : List (Option Expr)} :
    (∀ f ∈ placeFragments es, P f) ↔ ∀ e ∈ es, ∀ x ∈ e, ∀ f ∈ x.fragments, P f := by
  induction es with
  | nil => simp [placeFragments]
  | cons e es ih =>
    rw [placeFragments, List.forall_mem_append, ih, forall_optionFragments, List.forall_mem_cons]

@[simp]
theorem forall_exprFragments {es : List Expr} :
    (∀ f ∈ exprFragments es, P f) ↔ ∀ e ∈ es, ∀ f ∈ e.fragments, P f := by
  induction es with
  | nil => simp [exprFragments]
  | cons e es ih => rw [exprFragments, List.forall_mem_append, ih, List.forall_mem_cons]

@[simp]
theorem forall_namedFragments {as : List NamedArgument} :
    (∀ f ∈ namedFragments as, P f) ↔ ∀ a ∈ as, ∀ f ∈ a.value.fragments, P f := by
  induction as with
  | nil => simp [namedFragments]
  | cons a as ih =>
    cases a
    rw [namedFragments, List.forall_mem_append, ih, List.forall_mem_cons, NamedArgument.fragments]

@[simp]
theorem forall_parameterFragments {ps : List Parameter} :
    (∀ f ∈ parameterFragments ps, P f) ↔ ∀ p ∈ ps, ∀ f ∈ p.type.fragments, P f := by
  induction ps with
  | nil => simp [parameterFragments]
  | cons p ps ih =>
    cases p
    rw [parameterFragments, List.forall_mem_append, ih, List.forall_mem_cons, Parameter.fragments]

@[simp]
theorem forall_branchFragments {s : Option Stmt} :
    (∀ f ∈ branchFragments s, P f) ↔ ∀ x ∈ s, ∀ f ∈ x.fragments, P f := by
  cases s <;> simp [branchFragments]

@[simp]
theorem forall_stmtFragments {ss : List Stmt} :
    (∀ f ∈ stmtFragments ss, P f) ↔ ∀ s ∈ ss, ∀ f ∈ s.fragments, P f := by
  induction ss with
  | nil => simp [stmtFragments]
  | cons s ss ih => rw [stmtFragments, List.forall_mem_append, ih, List.forall_mem_cons]

@[simp]
theorem forall_clauseFragments {cs : List CatchClause} :
    (∀ f ∈ clauseFragments cs, P f) ↔ ∀ c ∈ cs, ∀ f ∈ c.fragments, P f := by
  induction cs with
  | nil => simp [clauseFragments]
  | cons c cs ih => rw [clauseFragments, List.forall_mem_append, ih, List.forall_mem_cons]

end

end SolidityFrontend
