import SolidityFrontend.Proofs.Drawing
import SolidityFrontend.Proofs.Reporting

/-!
# Marks in the tree

What could not be read is marked in the syntax and in its tree. A walk over the tree of a file meets
the marks of the syntax and no other nodes of their kind, in the same order
(`SourceFile.errorMarks_eq_findAll`): expressions, type names and directives have none, and the tree
of everything else has its marks where the marks of its parts are.
-/

namespace SolidityFrontend

open Node

/-- A mark as its node shows it. -/
def ErrorMark.shown (m : ErrorMark) : Option String × Span := (some m.message, m.span)

namespace Node

/-- The marks that a walk over a tree meets. -/
def marks (n : Node) : List (Option String × Span) :=
  (n.findAll "error").map fun m => (m.value, m.span)

/-- The marks that walks over children meet. -/
def marksOver (children : List (String × Node)) : List (Option String × Span) :=
  children.flatMap fun c => c.2.marks

variable {field kind : String} {span : Span} {value : Option String} {n : Node}
  {children ys : List (String × Node)}

theorem walkChildren_eq (children : List (String × Node)) :
    walkChildren children = children.flatMap fun c => c.2.walk := by
  induction children with
  | nil => rfl
  | cons c rest ih => rw [walkChildren, ih, List.flatMap_cons]

theorem marks_node : marks ⟨kind, span, value, children⟩
    = (if kind == "error" then [(value, span)] else []) ++ marksOver children := by
  rw [marks, findAll, walk, walkChildren_eq, List.filter_cons, marksOver, List.filter_flatMap]
  split
  · rw [List.map_cons, List.map_flatMap, List.singleton_append]
    rfl
  · rw [List.map_flatMap, List.nil_append]
    rfl

/-- A node of another kind has the marks of its children. -/
theorem marks_of_ne (h : (kind == "error") = false) :
    marks ⟨kind, span, value, children⟩ = marksOver children := by
  rw [marks_node, h]
  rfl

theorem marks_leaf (h : (kind == "error") = false) : (leaf kind span value).marks = [] :=
  marks_of_ne h

@[simp] theorem marksOver_nil : marksOver [] = [] := rfl

@[simp] theorem marksOver_append :
    marksOver (children ++ ys) = marksOver children ++ marksOver ys := List.flatMap_append

@[simp] theorem marksOver_one : marksOver (one field n) = n.marks := by simp [one, marksOver]

@[simp] theorem marksOver_maybe (o : Option Node) :
    marksOver (maybe field o) = o.elim [] marks := by
  cases o <;> simp [maybe, marksOver]

@[simp] theorem marksOver_several (ns : List Node) :
    marksOver (several field ns) = ns.flatMap marks := by
  rw [several, marksOver, List.flatMap_map]

/-- Empty nodes in vacant places are no marks. -/
theorem marksOver_slots (os : List (Option Node)) :
    marksOver (slots field span os) = os.flatMap fun o => o.elim [] marks := by
  rw [slots, marksOver_several]
  generalize Span.point span.start = here
  induction os generalizing here with
  | nil => rfl
  | cons o os ih =>
    rw [places, List.flatMap_cons, List.flatMap_cons, ih]
    cases o with
    | none => rw [Option.getD_none, marks_leaf rfl]; rfl
    | some n => rfl

end Node

/-! ### Syntax without marks -/

theorem Identifier.marks_eq_nil (i : Identifier) : i.toNode.marks = [] := marks_leaf rfl

theorem Path.marks_eq_nil (p : Path) : p.toNode.marks = [] := by
  rw [Path.toNode, marks_of_ne rfl, marksOver_several, List.flatMap_map]
  simp [Identifier.marks_eq_nil]

theorem ElementaryTypeName.marks_eq_nil (t : ElementaryTypeName) : t.toNode.marks = [] :=
  marks_leaf rfl

theorem FunctionTypeAttribute.marks_eq_nil (a : FunctionTypeAttribute) : a.toNode.marks = [] := by
  cases a <;> exact marks_leaf rfl

theorem Literal.marks_eq_nil (l : Literal) : l.toNode.marks = [] := by
  cases l <;> exact marks_leaf rfl

mutual

theorem Expr.marks_eq_nil : ∀ e : Expr, e.toNode.marks = []
  | .binary l op r span => by
      rw [Expr.toNode, marks_of_ne rfl]
      simp [l.marks_eq_nil, r.marks_eq_nil]
  | .unary op e span => by
      rw [Expr.toNode, marks_of_ne rfl]
      simp [e.marks_eq_nil]
  | .update op fixity e span => by
      rw [Expr.toNode, marks_of_ne rfl]
      simp [e.marks_eq_nil]
  | .ternary c a b span => by
      rw [Expr.toNode, marks_of_ne rfl]
      simp [c.marks_eq_nil, a.marks_eq_nil, b.marks_eq_nil]
  | .assignment l op r span => by
      rw [Expr.toNode, marks_of_ne rfl]
      simp [l.marks_eq_nil, r.marks_eq_nil]
  | .call e a span => by
      rw [Expr.toNode, marks_of_ne rfl]
      simp [e.marks_eq_nil, a.marks_eq_nil]
  | .member e i span => by
      rw [Expr.toNode, marks_of_ne rfl]
      simp [e.marks_eq_nil, i.marks_eq_nil]
  | .index b i span => by
      rw [Expr.toNode, marks_of_ne rfl]
      simp [b.marks_eq_nil, option_marks i]
  | .slice b l u span => by
      rw [Expr.toNode, marks_of_ne rfl]
      simp [b.marks_eq_nil, option_marks l, option_marks u]
  | .tuple es span => by
      rw [Expr.toNode, marks_of_ne rfl, marksOver_slots, places_marks es]
  | .inlineArray es span => by
      rw [Expr.toNode, marks_of_ne rfl, marksOver_several, exprs_marks es]
  | .struct e as span => by
      rw [Expr.toNode, marks_of_ne rfl]
      simp [e.marks_eq_nil, named_marks as]
  | .new t span => by
      rw [Expr.toNode, marks_of_ne rfl]
      simp [t.marks_eq_nil]
  | .cast t e span => by
      rw [Expr.toNode, marks_of_ne rfl]
      simp [t.marks_eq_nil, e.marks_eq_nil]
  | .elementary t => by rw [Expr.toNode, t.marks_eq_nil]
  | .metaType t span => by
      rw [Expr.toNode, marks_of_ne rfl]
      simp [t.marks_eq_nil]
  | .payable a span => by
      rw [Expr.toNode, marks_of_ne rfl]
      simp [a.marks_eq_nil]
  | .parenthesized e span => by
      rw [Expr.toNode, marks_of_ne rfl]
      simp [e.marks_eq_nil]
  | .literal l => by rw [Expr.toNode, l.marks_eq_nil]
  | .identifier i => by rw [Expr.toNode, i.marks_eq_nil]

theorem Arguments.marks_eq_nil : ∀ a : Arguments, a.toNode.marks = []
  | .positional es span => by
      rw [Arguments.toNode, marks_of_ne rfl, marksOver_several, exprs_marks es]
  | .named as span => by
      rw [Arguments.toNode, marks_of_ne rfl, marksOver_several, named_marks as]

theorem NamedArgument.marks_eq_nil : ∀ a : NamedArgument, a.toNode.marks = []
  | ⟨i, e, span⟩ => by
      rw [NamedArgument.toNode, marks_of_ne rfl]
      simp [i.marks_eq_nil, e.marks_eq_nil]

theorem TypeName.marks_eq_nil : ∀ t : TypeName, t.toNode.marks = []
  | .elementary t => by rw [TypeName.toNode, t.marks_eq_nil]
  | .userDefined p => by
      rw [TypeName.toNode, marks_of_ne rfl]
      simp [p.marks_eq_nil]
  | .mapping k v span => by
      rw [TypeName.toNode, marks_of_ne rfl]
      simp [k.marks_eq_nil, v.marks_eq_nil]
  | .array t size span => by
      rw [TypeName.toNode, marks_of_ne rfl]
      simp [t.marks_eq_nil, option_marks size]
  | .function ps as rs span => by
      rw [TypeName.toNode, marks_of_ne rfl]
      simp [parameters_marks ps, parameters_marks rs, List.flatMap_map,
        FunctionTypeAttribute.marks_eq_nil]

theorem Parameter.marks_eq_nil : ∀ p : Parameter, p.toNode.marks = []
  | ⟨t, location, name, span⟩ => by
      rw [Parameter.toNode, marks_of_ne rfl]
      cases name <;> simp [t.marks_eq_nil, Identifier.marks_eq_nil]

theorem option_marks : ∀ o : Option Expr, (optionNode o).elim [] marks = []
  | none => rfl
  | some e => e.marks_eq_nil

theorem places_marks : ∀ es : List (Option Expr),
    ((placeNodes es).flatMap fun o => o.elim [] marks) = []
  | [] => rfl
  | e :: es => by rw [placeNodes, List.flatMap_cons, option_marks e, places_marks es]; rfl

theorem exprs_marks : ∀ es : List Expr, (exprNodes es).flatMap marks = []
  | [] => rfl
  | e :: es => by rw [exprNodes, List.flatMap_cons, e.marks_eq_nil, exprs_marks es]; rfl

theorem named_marks : ∀ as : List NamedArgument, (namedNodes as).flatMap marks = []
  | [] => rfl
  | a :: as => by rw [namedNodes, List.flatMap_cons, a.marks_eq_nil, named_marks as]; rfl

theorem parameters_marks : ∀ ps : List Parameter, (parameterNodes ps).flatMap marks = []
  | [] => rfl
  | p :: ps => by rw [parameterNodes, List.flatMap_cons, p.marks_eq_nil, parameters_marks ps]; rfl

end

theorem VariableDeclaration.marks_eq_nil (d : VariableDeclaration) : d.toNode.marks = [] := by
  rw [VariableDeclaration.toNode, marks_of_ne rfl]
  simp [TypeName.marks_eq_nil, Identifier.marks_eq_nil]

theorem Declarator.marks_eq_nil (d : Declarator) : d.toNode.marks = [] := by
  cases d with
  | single d => exact d.marks_eq_nil
  | tuple elements span =>
    rw [Declarator.toNode, marks_of_ne rfl, marksOver_slots, List.flatMap_map,
      List.flatMap_eq_nil_iff]
    intro o _
    cases o with
    | none => rfl
    | some d => exact d.marks_eq_nil
  | varTuple names span =>
    rw [Declarator.toNode, marks_of_ne rfl, marksOver_slots, List.flatMap_map,
      List.flatMap_eq_nil_iff]
    intro o _
    cases o with
    | none => rfl
    | some i => exact i.marks_eq_nil

theorem elim_marks {α : Type} {f : α → Node} (h : ∀ x, (f x).marks = []) (o : Option α) :
    o.elim [] (marks ∘ f) = [] := by
  cases o with
  | none => rfl
  | some x => exact h x

theorem marks_parameters (ps : List Parameter) : (ps.map Parameter.toNode).flatMap marks = [] := by
  simp [List.flatMap_map, Parameter.marks_eq_nil]

/-! ### Statements -/

theorem ErrorMark.marks_toNode (m : ErrorMark) : m.toNode.marks = [m.shown] := rfl

mutual

theorem Stmt.marks_toNode : ∀ s : Stmt, s.toNode.marks = s.errorMarks.map ErrorMark.shown
  | .block b => by rw [Stmt.toNode, Stmt.errorMarks, b.marks_toNode]
  | .expression e span => by
      rw [Stmt.toNode, marks_of_ne rfl, marksOver_one, e.marks_eq_nil, Stmt.errorMarks] <;> simp
  | .variables d value span => by
      rw [Stmt.toNode, marks_of_ne rfl, marksOver_append, marksOver_one, marksOver_maybe,
        d.marks_eq_nil, Stmt.errorMarks] <;> simp [elim_marks Expr.marks_eq_nil]
  | .ifElse c a b span => by
      rw [Stmt.toNode, marks_of_ne rfl, Stmt.errorMarks]
      simp [c.marks_eq_nil, a.marks_toNode, branch_marks b]
  | .forLoop init c u body span => by
      rw [Stmt.toNode, marks_of_ne rfl, Stmt.errorMarks]
      simp [elim_marks Expr.marks_eq_nil, body.marks_toNode, branch_marks init]
  | .whileLoop c body span => by
      rw [Stmt.toNode, marks_of_ne rfl, Stmt.errorMarks]
      simp [c.marks_eq_nil, body.marks_toNode]
  | .doWhile body c span => by
      rw [Stmt.toNode, marks_of_ne rfl, Stmt.errorMarks]
      simp [c.marks_eq_nil, body.marks_toNode]
  | .continue_ span => by rw [Stmt.toNode, marks_leaf rfl, Stmt.errorMarks] <;> simp
  | .break_ span => by rw [Stmt.toNode, marks_leaf rfl, Stmt.errorMarks] <;> simp
  | .throw span => by rw [Stmt.toNode, marks_leaf rfl, Stmt.errorMarks] <;> simp
  | .return_ value span => by
      rw [Stmt.toNode, marks_of_ne rfl, marksOver_maybe, Stmt.errorMarks] <;>
        simp [elim_marks Expr.marks_eq_nil]
  | .emit p a span => by
      rw [Stmt.toNode, marks_of_ne rfl, marksOver_append, marksOver_one, marksOver_one,
        p.marks_eq_nil, a.marks_eq_nil, Stmt.errorMarks] <;> simp
  | .tryCatch e rs body clauses span => by
      rw [Stmt.toNode, marks_of_ne rfl, Stmt.errorMarks]
      simp [e.marks_eq_nil, marks_parameters, body.marks_toNode, clauses_marks clauses]
  | .assembly dialect body span => by
      rw [Stmt.toNode, marks_of_ne rfl, marksOver_one, marks_leaf rfl, Stmt.errorMarks] <;> simp
  | .error mark => by rw [Stmt.toNode, mark.marks_toNode, Stmt.errorMarks]; rfl

theorem Block.marks_toNode : ∀ b : Block, b.toNode.marks = b.errorMarks.map ErrorMark.shown
  | ⟨ss, span⟩ => by
      rw [Block.toNode, marks_of_ne rfl, marksOver_several, Block.errorMarks, stmts_marks ss]

theorem CatchClause.marks_toNode : ∀ c : CatchClause,
    c.toNode.marks = c.errorMarks.map ErrorMark.shown
  | ⟨name, ps, body, span⟩ => by
      rw [CatchClause.toNode, marks_of_ne rfl, CatchClause.errorMarks]
      simp [elim_marks Identifier.marks_eq_nil, marks_parameters, body.marks_toNode]

theorem branch_marks : ∀ o : Option Stmt,
    (optionStmtNode o).elim [] marks = (optionErrorMarks o).map ErrorMark.shown
  | none => by simp [optionStmtNode, optionErrorMarks]
  | some s => by rw [optionStmtNode, optionErrorMarks, Option.elim_some, s.marks_toNode]

theorem stmts_marks : ∀ ss : List Stmt,
    (stmtNodes ss).flatMap marks = (statementsErrorMarks ss).map ErrorMark.shown
  | [] => by simp [stmtNodes, statementsErrorMarks]
  | s :: ss => by
      rw [stmtNodes, List.flatMap_cons, s.marks_toNode, stmts_marks ss, statementsErrorMarks,
        List.map_append]

theorem clauses_marks : ∀ cs : List CatchClause,
    (clauseNodes cs).flatMap marks = (clausesErrorMarks cs).map ErrorMark.shown
  | [] => by simp [clauseNodes, clausesErrorMarks]
  | c :: cs => by
      rw [clauseNodes, List.flatMap_cons, c.marks_toNode, clauses_marks cs, clausesErrorMarks,
        List.map_append]

end

theorem elim_marks_block (o : Option Block) : o.elim [] (marks ∘ Block.toNode)
    = (o.elim [] Block.errorMarks).map ErrorMark.shown := by
  cases o with
  | none => rfl
  | some b => exact b.marks_toNode

/-! ### Directives and declarations -/

theorem VersionRequirement.marks_eq_nil (r : VersionRequirement) : r.toNode.marks = [] := by
  have halternative (ks : List VersionConstraint) :
      ∀ n ∈ alternativeNode? ks, n.marks = [] := by
    intro n hn
    rw [alternativeNode?] at hn
    split at hn
    · obtain rfl := Option.some.inj hn
      rw [marks_of_ne rfl, marksOver_several, List.flatMap_map, List.flatMap_eq_nil_iff]
      exact fun k _ => marks_leaf rfl
    · cases hn
  rw [VersionRequirement.toNode, marks_of_ne rfl, marksOver_several, List.flatMap_eq_nil_iff]
  intro n hn
  obtain ⟨ks, -, hks⟩ := List.mem_filterMap.1 hn
  exact halternative ks n hks

theorem PragmaDirective.marks_eq_nil (d : PragmaDirective) : d.toNode.marks = [] := by
  have hvalue : d.value.toNode.marks = [] := by
    cases d.value with
    | version r => exact r.marks_eq_nil
    | raw text span => exact marks_leaf rfl
  rw [PragmaDirective.toNode, marks_of_ne rfl]
  simp [d.name.marks_eq_nil, hvalue]

theorem ImportClause.marks_eq_nil (c : ImportClause) : c.toNode.marks = [] := by
  cases c with
  | single symbol renamed span =>
    have hsymbol : symbol.toNode.marks = [] := by
      cases symbol with
      | wildcard span => exact marks_leaf rfl
      | name i => exact i.marks_eq_nil
    rw [ImportClause.toNode, marks_of_ne rfl]
    simp [hsymbol, elim_marks Identifier.marks_eq_nil]
  | multiple symbols span =>
    have hsymbol (a : ImportAlias) : a.toNode.marks = [] := by
      rw [ImportAlias.toNode, marks_of_ne rfl]
      simp [Identifier.marks_eq_nil, elim_marks Identifier.marks_eq_nil]
    rw [ImportClause.toNode, marks_of_ne rfl]
    simp [List.flatMap_map, hsymbol]

theorem ImportDirective.marks_eq_nil (d : ImportDirective) : d.toNode.marks = [] := by
  rw [ImportDirective.toNode, marks_of_ne rfl]
  simp [elim_marks ImportClause.marks_eq_nil, elim_marks Identifier.marks_eq_nil, marks_leaf]

theorem UsingDirective.marks_eq_nil (d : UsingDirective) : d.toNode.marks = [] := by
  have htarget : d.target.toNode.marks = [] := by
    cases d.target with
    | wildcard span => exact marks_leaf rfl
    | type t => exact t.marks_eq_nil
  rw [UsingDirective.toNode, marks_of_ne rfl]
  simp [d.library.marks_eq_nil, htarget]

theorem OverrideSpecifier.marks_eq_nil (o : OverrideSpecifier) : o.toNode.marks = [] := by
  rw [OverrideSpecifier.toNode, marks_of_ne rfl]
  simp [List.flatMap_map, Path.marks_eq_nil]

theorem FunctionAttribute.marks_eq_nil (a : FunctionAttribute) : a.toNode.marks = [] := by
  cases a with
  | visibility v span => exact marks_leaf rfl
  | mutability m span => exact marks_leaf rfl
  | virtual span => exact marks_leaf rfl
  | override o => exact o.marks_eq_nil
  | modifier m =>
    rw [FunctionAttribute.toNode, ModifierInvocation.toNode, marks_of_ne rfl]
    simp [m.path.marks_eq_nil, elim_marks Arguments.marks_eq_nil]

theorem VariableAttribute.marks_eq_nil (a : VariableAttribute) : a.toNode.marks = [] := by
  cases a with
  | override o => exact o.marks_eq_nil
  | _ => exact marks_leaf rfl

theorem marksOver_signatureNodes (ps : List Parameter) (as : List FunctionAttribute) :
    marksOver (signatureNodes ps as) = [] := by
  simp [signatureNodes, List.flatMap_map, Parameter.marks_eq_nil, FunctionAttribute.marks_eq_nil]

theorem FunctionDefinition.marks_toNode (d : FunctionDefinition) :
    d.toNode.marks = (d.body.elim [] Block.errorMarks).map ErrorMark.shown := by
  rw [FunctionDefinition.toNode, marks_of_ne rfl]
  simp [d.name.marks_eq_nil, marksOver_signatureNodes, marks_parameters, elim_marks_block]

theorem ModifierDefinition.marks_toNode (d : ModifierDefinition) :
    d.toNode.marks = (d.body.elim [] Block.errorMarks).map ErrorMark.shown := by
  rw [ModifierDefinition.toNode, marks_of_ne rfl]
  simp [d.name.marks_eq_nil, marksOver_signatureNodes, elim_marks_block]

theorem ConstructorDefinition.marks_toNode (d : ConstructorDefinition) :
    d.toNode.marks = (d.body.elim [] Block.errorMarks).map ErrorMark.shown := by
  rw [ConstructorDefinition.toNode, marks_of_ne rfl]
  simp [marksOver_signatureNodes, elim_marks_block]

theorem FallbackDefinition.marks_toNode (d : FallbackDefinition) :
    d.toNode.marks = (d.body.elim [] Block.errorMarks).map ErrorMark.shown := by
  rw [FallbackDefinition.toNode, marks_of_ne rfl]
  simp [marksOver_signatureNodes, elim_marks_block]

theorem StateVariable.marks_eq_nil (d : StateVariable) : d.toNode.marks = [] := by
  rw [StateVariable.toNode, marks_of_ne rfl]
  simp [d.type.marks_eq_nil, d.name.marks_eq_nil, elim_marks Expr.marks_eq_nil, List.flatMap_map,
    VariableAttribute.marks_eq_nil]

theorem ConstantDeclaration.marks_eq_nil (d : ConstantDeclaration) : d.toNode.marks = [] := by
  rw [ConstantDeclaration.toNode, marks_of_ne rfl]
  simp [d.type.marks_eq_nil, d.name.marks_eq_nil, d.value.marks_eq_nil]

theorem StructDeclaration.marks_eq_nil (d : StructDeclaration) : d.toNode.marks = [] := by
  have hmember (m : StructMember) : m.toNode.marks = [] := by
    rw [StructMember.toNode, marks_of_ne rfl]
    simp [m.type.marks_eq_nil, m.name.marks_eq_nil]
  rw [StructDeclaration.toNode, marks_of_ne rfl]
  simp [d.name.marks_eq_nil, List.flatMap_map, hmember]

theorem EnumDeclaration.marks_eq_nil (d : EnumDeclaration) : d.toNode.marks = [] := by
  rw [EnumDeclaration.toNode, marks_of_ne rfl]
  simp [List.flatMap_map, Identifier.marks_eq_nil]

theorem EventDefinition.marks_eq_nil (d : EventDefinition) : d.toNode.marks = [] := by
  have hparameter (p : EventParameter) : p.toNode.marks = [] := by
    rw [EventParameter.toNode, marks_of_ne rfl]
    simp [p.type.marks_eq_nil, elim_marks Identifier.marks_eq_nil]
  rw [EventDefinition.toNode, marks_of_ne rfl]
  simp [d.name.marks_eq_nil, List.flatMap_map, hparameter]

theorem Member.marks_toNode (m : Member) :
    m.toNode.marks = m.errorMarks.map ErrorMark.shown := by
  cases m with
  | function d => exact d.marks_toNode
  | modifier d => exact d.marks_toNode
  | constructor d => exact d.marks_toNode
  | fallback d => exact d.marks_toNode
  | stateVariable d => exact d.marks_eq_nil
  | struct d => exact d.marks_eq_nil
  | enum d => exact d.marks_eq_nil
  | event d => exact d.marks_eq_nil
  | using_ d => exact d.marks_eq_nil
  | error mark => exact mark.marks_toNode

theorem ContractDeclaration.marks_toNode (d : ContractDeclaration) :
    d.toNode.marks = (d.members.flatMap Member.errorMarks).map ErrorMark.shown := by
  have hbase (i : InheritanceSpecifier) : i.toNode.marks = [] := by
    rw [InheritanceSpecifier.toNode, marks_of_ne rfl]
    simp [i.ancestor.marks_eq_nil, elim_marks Arguments.marks_eq_nil]
  rw [ContractDeclaration.toNode, marks_of_ne rfl]
  simp [d.name.marks_eq_nil, List.flatMap_map, hbase, Member.marks_toNode, List.map_flatMap]

theorem SourceUnit.marks_toNode (u : SourceUnit) :
    u.toNode.marks = u.errorMarks.map ErrorMark.shown := by
  cases u with
  | pragma d => exact d.marks_eq_nil
  | import_ d => exact d.marks_eq_nil
  | contract d => exact d.marks_toNode
  | struct d => exact d.marks_eq_nil
  | enum d => exact d.marks_eq_nil
  | function d => exact d.marks_toNode
  | constant d => exact d.marks_eq_nil
  | error mark => exact mark.marks_toNode

/-- The marks of a file, each with its message and its span, are the marks that are found in its
tree. -/
theorem SourceFile.errorMarks_eq_findAll (f : SourceFile) :
    (f.errorMarks.map fun m => (some m.message, m.span))
      = (f.toNode.findAll "error").map fun n => (n.value, n.span) := by
  have hunits : f.toNode.marks = (f.items.map SourceUnit.toNode).flatMap marks := by
    rw [SourceFile.toNode, marks_of_ne rfl, marksOver_several]
  calc f.errorMarks.map ErrorMark.shown
      = f.items.flatMap fun u => u.errorMarks.map ErrorMark.shown := by
        rw [SourceFile.errorMarks, List.map_flatMap]
    _ = (f.items.map SourceUnit.toNode).flatMap marks := by
        simp only [List.flatMap_map, SourceUnit.marks_toNode]
    _ = f.toNode.marks := hunits.symm

end SolidityFrontend
