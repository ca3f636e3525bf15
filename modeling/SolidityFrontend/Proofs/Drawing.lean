import SolidityFrontend.Proofs.Laying

/-!
# Every kind of syntax draws its node

The node of a piece of syntax stands, nested and in the order of the source, where the tokens of the
piece do. Proofs follow the phrase of each kind: the parts of the phrase lay the children.
-/

namespace SolidityFrontend

open Phrase Node

/-! ### Names, words and literals -/

theorem Identifier.draws_phrase (i : Identifier) : i.phrase.Draws i.toNode :=
  draws_leaf tokenAt_le_covered

theorem Path.draws_phrase (p : Path) : p.phrase.Draws p.toNode := by
  refine draws_covered ?_
  rcases p.segments with _ | ⟨i, is⟩
  · exact lays_nil _
  · rw [List.map_cons]
    exact Lays.mul (i.draws_phrase "segments") (lays_prod "segments" fun i _ => i.draws_phrase.right)

theorem ElementaryTypeName.draws_phrase (t : ElementaryTypeName) : t.phrase.Draws t.toNode :=
  draws_leaf (covered_mono le_top)

theorem FunctionTypeAttribute.draws_phrase (a : FunctionTypeAttribute) :
    a.phrase.Draws a.toNode := by
  cases a with
  | visibility v span => exact draws_leaf (such_le.trans tokenAt_le_covered)
  | mutability m span => exact draws_leaf tokenAt_le_covered

theorem Literal.draws_phrase (l : Literal) : l.phrase.Draws l.toNode := by
  cases l with
  | boolean value span => exact draws_leaf tokenAt_le_covered
  | _ => exact draws_leaf (covered_mono le_top)

/-! ### Children in their fields -/

namespace Node

variable {n : Node} {field : String} {span : Span} {children ys : List (String × Node)}
  {P : String → Node → Prop}

/-- The children have a property in their fields. -/
def Over (P : String → Node → Prop) (children : List (String × Node)) : Prop :=
  ∀ c ∈ children, P c.1 c.2

@[simp] theorem over_nil : Over P [] := by simp [Over]

@[simp] theorem over_cons : Over P ((field, n) :: children) ↔ P field n ∧ Over P children := by
  simp [Over]

@[simp] theorem over_append : Over P (children ++ ys) ↔ Over P children ∧ Over P ys :=
  List.forall_mem_append

@[simp] theorem over_one : Over P (one field n) ↔ P field n := by simp [one]

@[simp] theorem over_maybe {o : Option Node} : Over P (maybe field o) ↔ ∀ n ∈ o, P field n := by
  cases o <;> simp [maybe]

@[simp] theorem over_several {ns : List Node} :
    Over P (several field ns) ↔ ∀ n ∈ ns, P field n := by
  simp [Over, several]

/-- The nodes of places are those that are there, and empty ones. -/
theorem over_slots {os : List (Option Node)} (hempty : ∀ span, P field (leaf "empty" span none))
    (h : ∀ o ∈ os, ∀ n ∈ o, P field n) : Over P (slots field span os) := by
  rw [slots, over_several]
  generalize Span.point span.start = here
  induction os generalizing here with
  | nil => simp [places]
  | cons o os ih =>
    rw [List.forall_mem_cons] at h
    refine List.forall_mem_cons.2 ⟨?_, ih h.2 _⟩
    cases o with
    | none => exact hempty here
    | some n => exact h.1 n rfl

end Node

/-! ### Expressions and type names -/

theorem optionNode_eq (e : Option Expr) : optionNode e = e.map Expr.toNode := by
  cases e <;> simp [optionNode]

theorem placeNodes_eq (es : List (Option Expr)) : placeNodes es = es.map (·.map Expr.toNode) := by
  induction es with
  | nil => simp [placeNodes]
  | cons e es ih => simp [placeNodes, optionNode_eq, ih]

theorem exprNodes_eq (es : List Expr) : exprNodes es = es.map Expr.toNode := by
  induction es with
  | nil => simp [exprNodes]
  | cons e es ih => simp [exprNodes, ih]

theorem namedNodes_eq (as : List NamedArgument) :
    namedNodes as = as.map NamedArgument.toNode := by
  induction as with
  | nil => simp [namedNodes]
  | cons a as ih => simp [namedNodes, ih]

theorem parameterNodes_eq (ps : List Parameter) :
    parameterNodes ps = ps.map Parameter.toNode := by
  induction ps with
  | nil => simp [parameterNodes]
  | cons p ps ih => simp [parameterNodes, ih]

mutual

theorem Expr.draws_phrase : ∀ e : Expr, e.phrase.Draws e.toNode
  | .binary left op right span | .assignment left op right span => by
      have hleft := left.draws_phrase "left"
      have hright := right.draws_phrase "right"
      rw [Expr.phrase, Expr.toNode]
      exact Draws.such fun _ => draws_covered (Lays.mul hleft.left hright)
  | .unary op operand span => by
      have hoperand := operand.draws_phrase "operand"
      rw [Expr.phrase, Expr.toNode]
      exact Draws.such fun _ => draws_covered hoperand.right
  | .update op .before operand span => by
      have hoperand := operand.draws_phrase "operand"
      rw [Expr.phrase, Expr.toNode]
      exact Draws.such fun _ => draws_covered hoperand.right
  | .update op .after operand span => by
      have hoperand := operand.draws_phrase "operand"
      rw [Expr.phrase, Expr.toNode]
      exact Draws.such fun _ => draws_covered hoperand.left
  | .ternary condition ifTrue ifFalse span => by
      have hcondition := condition.draws_phrase "condition"
      have htrue := ifTrue.draws_phrase "consequence"
      have hfalse := ifFalse.draws_phrase "alternative"
      rw [Expr.phrase, Expr.toNode]
      exact Draws.such fun _ =>
        draws_covered (Lays.mul (Lays.mul hcondition.left htrue).left hfalse)
  | .call callee arguments span => by
      have hcallee := callee.draws_phrase "function"
      have harguments := arguments.draws_phrase "arguments"
      rw [Expr.phrase, Expr.toNode]
      exact Draws.such fun _ => draws_covered (Lays.mul hcallee harguments)
  | .member object name span => by
      have hobject := object.draws_phrase "object"
      have hname := name.draws_phrase "property"
      rw [Expr.phrase, Expr.toNode]
      exact Draws.such fun _ => draws_covered (Lays.mul hobject.left hname)
  | .index base index span => by
      have hbase := base.draws_phrase "base"
      have hindex := lays_maybe "index" (option_draws index)
      rw [Expr.phrase, Expr.toNode, optionPhrase_eq, optionNode_eq]
      exact Draws.such fun _ => draws_covered (Lays.mul hbase.left hindex).left
  | .slice base lower upper span => by
      have hbase := base.draws_phrase "base"
      have hlower := lays_maybe "from" (option_draws lower)
      have hupper := lays_maybe "to" (option_draws upper)
      rw [Expr.phrase, Expr.toNode, optionPhrase_eq, optionPhrase_eq, optionNode_eq, optionNode_eq]
      exact Draws.such fun _ =>
        draws_covered (Lays.mul (Lays.mul hbase.left hlower).left hupper).left
  | .tuple elements span => by
      have helements := places_draw elements
      rw [Expr.phrase, Expr.toNode, placePhrases_eq, placeNodes_eq,
        ← one_mul (parenthesized _)]
      exact Draws.such fun _ => draws_slots helements
  | .inlineArray elements span => by
      have helements := exprs_draw elements
      rw [Expr.phrase, Expr.toNode, exprPhrases_eq, exprNodes_eq]
      exact draws_covered (lays_trailed "elements" helements).right.left
  | .struct type fields span => by
      have htype := type.draws_phrase "type"
      have hfields := named_draw fields
      rw [Expr.phrase, Expr.toNode, namedPhrases_eq, namedNodes_eq]
      exact Draws.such fun _ => draws_covered (Lays.mul htype.left (lays_trailed "fields" hfields)).left
  | .new type span => by
      have htype := type.draws_phrase "type"
      rw [Expr.phrase, Expr.toNode]
      exact draws_covered htype.right
  | .cast type argument span => by
      have htype := type.draws_phrase "type"
      have hargument := argument.draws_phrase "argument"
      rw [Expr.phrase, Expr.toNode]
      exact Draws.such fun _ => draws_covered (Lays.mul htype.left hargument).left
  | .elementary type => by
      rw [Expr.phrase, Expr.toNode]
      exact Draws.such fun _ => type.draws_phrase
  | .metaType type span => by
      have htype := type.draws_phrase "type"
      rw [Expr.phrase, Expr.toNode]
      exact draws_covered htype.right.left
  | .payable arguments span => by
      have harguments := arguments.draws_phrase "arguments"
      rw [Expr.phrase, Expr.toNode]
      exact draws_covered harguments.right
  | .parenthesized inner span => by
      have hinner := inner.draws_phrase "expression"
      rw [Expr.phrase, Expr.toNode]
      exact draws_covered hinner.right.left
  | .literal l => by
      rw [Expr.phrase, Expr.toNode]
      exact l.draws_phrase
  | .identifier i => by
      rw [Expr.phrase, Expr.toNode]
      exact i.draws_phrase

theorem Arguments.draws_phrase : ∀ a : Arguments, a.phrase.Draws a.toNode
  | .positional arguments span => by
      have harguments := exprs_draw arguments
      rw [Arguments.phrase, Arguments.toNode, exprPhrases_eq, exprNodes_eq]
      exact draws_covered (lays_trailed "arguments" harguments).right.left
  | .named arguments span => by
      have harguments := named_draw arguments
      rw [Arguments.phrase, Arguments.toNode, namedPhrases_eq, namedNodes_eq]
      exact draws_covered (lays_trailed "arguments" harguments).right.left.right.left

theorem NamedArgument.draws_phrase : ∀ a : NamedArgument, a.phrase.Draws a.toNode
  | ⟨name, value, span⟩ => by
      have hname := name.draws_phrase "name"
      have hvalue := value.draws_phrase "value"
      rw [NamedArgument.phrase, NamedArgument.toNode]
      exact draws_covered (Lays.mul hname.left hvalue)

theorem TypeName.draws_phrase : ∀ t : TypeName, t.phrase.Draws t.toNode
  | .elementary type => by
      rw [TypeName.phrase, TypeName.toNode]
      exact type.draws_phrase
  | .userDefined path => by
      rw [TypeName.phrase, TypeName.toNode]
      exact Lays.draws (covered_mono le_top) (path.draws_phrase "path")
  | .mapping key value span => by
      have hkey := key.draws_phrase "key"
      have hvalue := value.draws_phrase "value"
      rw [TypeName.phrase, TypeName.toNode]
      exact Draws.such fun _ => draws_covered (Lays.mul hkey.right.left hvalue).left
  | .array base size span => by
      have hbase := base.draws_phrase "base"
      have hsize := lays_maybe "size" (option_draws size)
      rw [TypeName.phrase, TypeName.toNode, optionPhrase_eq, optionNode_eq]
      exact draws_covered (Lays.mul hbase.left hsize).left
  | .function parameters attributes returns span => by
      have hparameters := lays_parenthesized "parameters" (parameters_draw parameters)
      have hattributes := lays_prod "attributes" fun (a : FunctionTypeAttribute)
        (_ : a ∈ attributes) => a.draws_phrase
      have hreturns := lays_returned "returns" (parameters_draw returns)
      rw [TypeName.phrase, TypeName.toNode, parameterPhrases_eq, parameterPhrases_eq,
        parameterNodes_eq, parameterNodes_eq]
      exact draws_covered (Lays.mul (Lays.mul hparameters.right hattributes) hreturns)

theorem Parameter.draws_phrase : ∀ p : Parameter, p.phrase.Draws p.toNode
  | ⟨type, location, name, span⟩ => by
      have htype := type.draws_phrase "type"
      have hname := lays_maybe "name" fun (i : Identifier) (_ : i ∈ name) => i.draws_phrase
      rw [Parameter.phrase, Parameter.toNode]
      exact draws_covered (Lays.mul htype.left hname)

theorem option_draws : ∀ o : Option Expr, ∀ e ∈ o, e.phrase.Draws e.toNode
  | none => by simp
  | some e => by
      have he := e.draws_phrase
      simpa using he

theorem places_draw : ∀ es : List (Option Expr), ∀ o ∈ es, ∀ e ∈ o, e.phrase.Draws e.toNode
  | [] => by simp
  | e :: es => by
      have he := option_draws e
      have hes := places_draw es
      rw [List.forall_mem_cons]
      exact ⟨he, hes⟩

theorem exprs_draw : ∀ es : List Expr, ∀ e ∈ es, e.phrase.Draws e.toNode
  | [] => by simp
  | e :: es => by
      have he := e.draws_phrase
      have hes := exprs_draw es
      rw [List.forall_mem_cons]
      exact ⟨he, hes⟩

theorem named_draw : ∀ as : List NamedArgument, ∀ a ∈ as, a.phrase.Draws a.toNode
  | [] => by simp
  | a :: as => by
      have ha := a.draws_phrase
      have has := named_draw as
      rw [List.forall_mem_cons]
      exact ⟨ha, has⟩

theorem parameters_draw : ∀ ps : List Parameter, ∀ p ∈ ps, p.phrase.Draws p.toNode
  | [] => by simp
  | p :: ps => by
      have hp := p.draws_phrase
      have hps := parameters_draw ps
      rw [List.forall_mem_cons]
      exact ⟨hp, hps⟩

end

/-! ### Statements -/

theorem VariableDeclaration.draws_phrase (d : VariableDeclaration) : d.phrase.Draws d.toNode := by
  have htype := d.type.draws_phrase "type"
  have hname := d.name.draws_phrase "name"
  exact draws_covered (Lays.mul htype.left hname)

theorem Declarator.draws_phrase (d : Declarator) : d.phrase.Draws d.toNode := by
  cases d with
  | single d => exact d.draws_phrase
  | tuple elements span =>
    rw [Declarator.phrase, ← one_mul (parenthesized _)]
    exact Draws.such fun _ => draws_slots fun o _ d _ => d.draws_phrase
  | varTuple names span =>
    exact draws_slots fun o _ i _ => i.draws_phrase

theorem ErrorMark.draws_phrase (m : ErrorMark) : m.phrase.Draws m.toNode :=
  draws_leaf fun _ _ _ h => ⟨h.1, trivial⟩

theorem nested_leaf (kind : String) {span : Span} (value : Option String)
    (h : span.start.offset ≤ span.stop.offset) : (leaf kind span value).Nested := by
  rw [nested_iff, leaf, NestedIn]
  exact h

/-- The node of the mark of a missing brace. -/
theorem Stmt.node_of_missing {around : Span} (s : Stmt) {ts rest : List Lexeme}
    {es : List SyntaxError} (h : s.missing around ts es rest) :
    s.toNode.span = around.after ∧ s.toNode.Nested := by
  cases s with
  | error mark =>
    obtain ⟨-, -, hspan⟩ := ErrorMark.of_missing h
    rw [Stmt.toNode, ErrorMark.toNode, hspan]
    exact ⟨rfl, nested_leaf _ _ le_rfl⟩
  | _ => exact h.elim

theorem optionStmtNode_eq (s : Option Stmt) : optionStmtNode s = s.map Stmt.toNode := by
  cases s <;> simp [optionStmtNode]

theorem stmtNodes_eq (ss : List Stmt) : stmtNodes ss = ss.map Stmt.toNode := by
  induction ss with
  | nil => simp [stmtNodes]
  | cons s ss ih => simp [stmtNodes, ih]

theorem clauseNodes_eq (cs : List CatchClause) :
    clauseNodes cs = cs.map CatchClause.toNode := by
  induction cs with
  | nil => simp [clauseNodes]
  | cons c cs ih => simp [clauseNodes, ih]

mutual

theorem Stmt.draws_phrase : ∀ s : Stmt, s.phrase.Draws s.toNode
  | .block b => by
      rw [Stmt.phrase, Stmt.toNode]
      exact b.draws_phrase
  | .expression e span => by
      have he := e.draws_phrase "expression"
      rw [Stmt.phrase, Stmt.toNode]
      exact draws_covered he.left
  | .variables declarator value span => by
      have hdeclarator := declarator.draws_phrase "declaration"
      have hvalue := lays_maybe "value" fun (e : Expr) (_ : e ∈ value) =>
        e.draws_phrase.right (L := symbol .assign)
      rw [Stmt.phrase, Stmt.toNode]
      exact Draws.such fun _ => draws_covered (Lays.mul hdeclarator hvalue).left
  | .ifElse condition thenBranch elseBranch span => by
      have hcondition := condition.draws_phrase "condition"
      have hthen := thenBranch.draws_phrase "then"
      have helse := else_lays elseBranch
      rw [Stmt.phrase, Stmt.toNode, optionStmtNode_eq]
      exact draws_covered (Lays.mul (Lays.mul hcondition.right.left.right hthen) helse)
  | .forLoop init condition update body span => by
      have hinit := init_lays init
      have hcondition := lays_maybe "condition" (option_draws condition)
      have hupdate := lays_maybe "update" (option_draws update)
      have hbody := body.draws_phrase "body"
      rw [Stmt.phrase, Stmt.toNode, optionStmtNode_eq]
      exact draws_covered (Lays.mul
        (Lays.mul (Lays.mul hinit.right hcondition).left hupdate).left hbody)
  | .whileLoop condition body span => by
      have hcondition := condition.draws_phrase "condition"
      have hbody := body.draws_phrase "body"
      rw [Stmt.phrase, Stmt.toNode]
      exact draws_covered (Lays.mul hcondition.right.left.right hbody)
  | .doWhile body condition span => by
      have hbody := body.draws_phrase "body"
      have hcondition := condition.draws_phrase "condition"
      rw [Stmt.phrase, Stmt.toNode]
      exact draws_covered (Lays.mul hbody.right.left hcondition.right.left).left
  | .continue_ span | .break_ span | .throw span => by
      rw [Stmt.phrase, Stmt.toNode]
      exact draws_leaf (covered_mono le_top)
  | .return_ value span => by
      have hvalue := lays_maybe "value" (option_draws value)
      rw [Stmt.phrase, Stmt.toNode]
      exact draws_covered hvalue.right.left
  | .emit event arguments span => by
      have hevent := event.draws_phrase "event"
      have harguments := arguments.draws_phrase "arguments"
      rw [Stmt.phrase, Stmt.toNode]
      exact draws_covered (Lays.mul hevent.right harguments).left
  | .tryCatch expression returns body clauses span => by
      have hexpression := expression.draws_phrase "expression"
      have hreturns := lays_returned "returns" (parameters_draw returns)
      have hbody := body.draws_phrase "body"
      have hclauses := lays_prod "catch_clauses" (clauses_draw clauses)
      rw [Stmt.phrase, Stmt.toNode, clausePhrases_eq, clauseNodes_eq]
      exact Draws.such fun _ => draws_covered
        (Lays.mul (Lays.mul (Lays.mul hexpression.right hreturns) hbody) hclauses)
  | .assembly dialect body span => by
      have hbody : (covered body (symbol .leftBrace * tokens (fun _ => True)
        * symbol .rightBrace)).Draws (leaf "assembly_block" body none) :=
        draws_leaf (covered_mono le_top)
      rw [Stmt.phrase, Stmt.toNode]
      exact draws_covered (Lays.right (hbody "body"))
  | .error mark => by
      rw [Stmt.phrase, Stmt.toNode]
      exact mark.draws_phrase

theorem Block.draws_phrase : ∀ b : Block, b.phrase.Draws b.toNode
  | ⟨statements, span⟩ => by
      have hstatements := stmts_draw statements
      have hbraced : (covered span (1 * (symbol .leftBrace
          * body (statements.map fun s => (s.phrase, s.missing span))))).Draws
            ⟨"block", span, none, [] ++ several "statements" (statements.map Stmt.toNode)⟩ :=
        draws_braced (lays_nil 1) hstatements fun s _ _ _ _ => s.node_of_missing
      rw [one_mul] at hbraced
      rw [Block.phrase, Block.toNode, stmtPhrases_eq, stmtNodes_eq]
      exact hbraced

theorem CatchClause.draws_phrase : ∀ c : CatchClause, c.phrase.Draws c.toNode
  | ⟨name, parameters, body, span⟩ => by
      have hname := lays_maybe "error" fun (i : Identifier) (_ : i ∈ name) => i.draws_phrase
      have hparameters : (perhaps (parameters.map fun ps =>
          parenthesized (ps.map Parameter.phrase))).Lays
            (several "parameters" ((parameters.getD []).map Parameter.toNode)) := by
        cases parameters with
        | none => exact lays_nil _
        | some ps => exact lays_parenthesized "parameters" (parameters_draw ps)
      have hbody := body.draws_phrase "body"
      rw [CatchClause.phrase, CatchClause.toNode]
      exact draws_covered (Lays.mul (Lays.mul hname.right hparameters) hbody)

theorem else_lays : ∀ s : Option Stmt, (elsePhrase s).Lays (maybe "else" (s.map Stmt.toNode))
  | none => lays_nil _
  | some s => by
      have hs := s.draws_phrase "else"
      rw [elsePhrase]
      exact hs.right

theorem init_lays : ∀ s : Option Stmt, (initPhrase s).Lays (maybe "init" (s.map Stmt.toNode))
  | none => lays_nil _
  | some s => by
      have hs := s.draws_phrase "init"
      rw [initPhrase]
      exact Lays.such fun _ => hs

theorem stmts_draw : ∀ ss : List Stmt, ∀ s ∈ ss, s.phrase.Draws s.toNode
  | [] => by simp
  | s :: ss => by
      have hs := s.draws_phrase
      have hss := stmts_draw ss
      rw [List.forall_mem_cons]
      exact ⟨hs, hss⟩

theorem clauses_draw : ∀ cs : List CatchClause, ∀ c ∈ cs, c.phrase.Draws c.toNode
  | [] => by simp
  | c :: cs => by
      have hc := c.draws_phrase
      have hcs := clauses_draw cs
      rw [List.forall_mem_cons]
      exact ⟨hc, hcs⟩

end

/-! ### Directives -/

theorem ImportSymbol.draws_phrase (s : ImportSymbol) : s.phrase.Draws s.toNode := by
  cases s with
  | wildcard span => exact draws_leaf tokenAt_le_covered
  | name i => exact i.draws_phrase

theorem lays_renaming (renamed : Option Identifier) :
    (renamingPhrase renamed).Lays (maybe "alias" (renamed.map Identifier.toNode)) :=
  lays_maybe "alias" fun i _ => i.draws_phrase.right

theorem ImportAlias.draws_phrase (a : ImportAlias) : a.phrase.Draws a.toNode := by
  have hname := a.name.draws_phrase "name"
  exact draws_covered (Lays.mul hname (lays_renaming a.renamed))

theorem ImportClause.draws_phrase (c : ImportClause) : c.phrase.Draws c.toNode := by
  cases c with
  | single symbol renamed span =>
    have hsymbol := symbol.draws_phrase "symbol"
    exact Draws.such fun _ => draws_covered (Lays.mul hsymbol (lays_renaming renamed))
  | multiple symbols span =>
    have hsymbols := lays_separated "symbols" fun (a : ImportAlias) (_ : a ∈ symbols) =>
      a.draws_phrase
    exact Draws.such fun _ => draws_covered hsymbols.right.left

theorem ImportPath.phrase_le (p : ImportPath) : p.phrase ≤ covered p.span ⊤ := by
  rintro ts es rest ⟨l, rfl, -, -, -, hspan, -⟩
  rw [← hspan]
  exact ⟨.singleton l, trivial⟩

theorem ImportDirective.draws_phrase (d : ImportDirective) : d.phrase.Draws d.toNode := by
  have hclause := lays_maybe "clause" fun (c : ImportClause) (_ : c ∈ d.clause) =>
    c.draws_phrase.left (M := word "from")
  have hpath : d.path.phrase.Draws (leaf "string_literal" d.path.span (some d.path.value)) :=
    draws_leaf d.path.phrase_le
  exact draws_covered
    (Lays.mul (Lays.mul hclause.right (hpath "path")) (lays_renaming d.renamed)).left

theorem UsingTarget.draws_phrase (t : UsingTarget) : t.phrase.Draws t.toNode := by
  cases t with
  | wildcard span => exact draws_leaf tokenAt_le_covered
  | type t => exact t.draws_phrase

theorem UsingDirective.draws_phrase (d : UsingDirective) : d.phrase.Draws d.toNode := by
  have hlibrary := d.library.draws_phrase "library"
  have htarget := d.target.draws_phrase "target"
  exact draws_covered (Lays.mul hlibrary.right.left htarget).left

/-! ### Declarations -/

theorem OverrideSpecifier.draws_phrase (o : OverrideSpecifier) : o.phrase.Draws o.toNode := by
  refine draws_covered (Lays.right ?_)
  split
  · rename_i hnil
    rw [hnil]
    exact lays_nil _
  · exact lays_parenthesized "overrides" fun p _ => p.draws_phrase

theorem ModifierInvocation.draws_phrase (m : ModifierInvocation) : m.phrase.Draws m.toNode := by
  have hpath := m.path.draws_phrase "path"
  have harguments := lays_maybe "arguments" fun (a : Arguments) (_ : a ∈ m.arguments) =>
    a.draws_phrase
  exact draws_covered (Lays.mul hpath harguments)

theorem FunctionAttribute.draws_phrase (a : FunctionAttribute) : a.phrase.Draws a.toNode := by
  cases a with
  | override o => exact o.draws_phrase
  | modifier m => exact m.draws_phrase
  | _ => exact draws_leaf tokenAt_le_covered

theorem lays_attributes (as : List FunctionAttribute) :
    (as.map FunctionAttribute.phrase).prod.Lays
      (several "attributes" (as.map FunctionAttribute.toNode)) :=
  lays_prod "attributes" fun a _ => a.draws_phrase

theorem lays_signature (ps : List Parameter) (as : List FunctionAttribute) :
    (signaturePhrase ps as).Lays (signatureNodes ps as) :=
  Lays.mul (lays_parenthesized "parameters" (parameters_draw ps)) (lays_attributes as)

theorem lays_functionBody (b : Option Block) :
    (functionBodyPhrase b).Lays (maybe "body" (b.map Block.toNode)) := by
  cases b with
  | none => exact lays_nil _
  | some b => exact b.draws_phrase "body"

theorem FunctionDefinition.draws_phrase (d : FunctionDefinition) : d.phrase.Draws d.toNode := by
  have hname := d.name.draws_phrase "name"
  have hsignature := lays_signature d.parameters d.attributes
  have hreturns := lays_returned "returns" (parameters_draw d.returns)
  have hbody := lays_functionBody d.body
  exact draws_covered (Lays.mul (Lays.mul (Lays.mul hname.right hsignature) hreturns) hbody)

theorem ModifierDefinition.draws_phrase (d : ModifierDefinition) : d.phrase.Draws d.toNode := by
  have hname := d.name.draws_phrase "name"
  have hsignature : (such (d.parameters = []) (d.attributes.map FunctionAttribute.phrase).prod
      ⊔ signaturePhrase d.parameters d.attributes).Lays
        (signatureNodes d.parameters d.attributes) := by
    refine Lays.sup (Lays.such fun hnil => ?_) (lays_signature d.parameters d.attributes)
    rw [signatureNodes, hnil]
    exact lays_attributes d.attributes
  have hbody := lays_functionBody d.body
  exact draws_covered (Lays.mul (Lays.mul hname.right hsignature) hbody)

theorem ConstructorDefinition.draws_phrase (d : ConstructorDefinition) :
    d.phrase.Draws d.toNode := by
  have hsignature := lays_signature d.parameters d.attributes
  have hbody := lays_functionBody d.body
  exact draws_covered (Lays.mul hsignature.right hbody)

theorem FallbackDefinition.draws_phrase (d : FallbackDefinition) : d.phrase.Draws d.toNode := by
  have hsignature := lays_signature d.parameters d.attributes
  have hbody := lays_functionBody d.body
  exact draws_covered (Lays.mul hsignature.right hbody)

theorem VariableAttribute.draws_phrase (a : VariableAttribute) : a.phrase.Draws a.toNode := by
  cases a with
  | override o => exact o.draws_phrase
  | _ => exact draws_leaf tokenAt_le_covered

theorem StateVariable.draws_phrase (d : StateVariable) : d.phrase.Draws d.toNode := by
  have htype := d.type.draws_phrase "type"
  have hattributes := lays_prod "attributes" fun (a : VariableAttribute) (_ : a ∈ d.attributes) =>
    a.draws_phrase
  have hname := d.name.draws_phrase "name"
  have hvalue := lays_maybe "value" fun (e : Expr) (_ : e ∈ d.value) =>
    e.draws_phrase.right (L := symbol .assign)
  exact draws_covered (Lays.mul (Lays.mul (Lays.mul htype hattributes) hname) hvalue).left

theorem ConstantDeclaration.draws_phrase (d : ConstantDeclaration) : d.phrase.Draws d.toNode := by
  have htype := d.type.draws_phrase "type"
  have hname := d.name.draws_phrase "name"
  have hvalue := d.value.draws_phrase "value"
  exact draws_covered (Lays.mul (Lays.mul htype.left hname).left hvalue).left

theorem StructMember.draws_phrase (m : StructMember) : m.phrase.Draws m.toNode := by
  have htype := m.type.draws_phrase "type"
  have hname := m.name.draws_phrase "name"
  exact draws_covered (Lays.mul htype hname).left

theorem StructDeclaration.draws_phrase (d : StructDeclaration) : d.phrase.Draws d.toNode := by
  have hname := d.name.draws_phrase "name"
  have hmembers := lays_prod "members" fun (m : StructMember) (_ : m ∈ d.members) =>
    m.draws_phrase
  exact draws_covered (Lays.mul hname.right.left hmembers).left.left

theorem EnumDeclaration.draws_phrase (d : EnumDeclaration) : d.phrase.Draws d.toNode := by
  have hname := d.name.draws_phrase "name"
  have hvalues := lays_trailed "values" fun (i : Identifier) (_ : i ∈ d.values) => i.draws_phrase
  exact draws_covered (Lays.mul hname.right.left hvalues).left

theorem EventParameter.draws_phrase (p : EventParameter) : p.phrase.Draws p.toNode := by
  have htype := p.type.draws_phrase "type"
  have hname := lays_maybe "name" fun (i : Identifier) (_ : i ∈ p.name) => i.draws_phrase
  exact draws_covered (Lays.mul htype.left hname)

theorem EventDefinition.draws_phrase (d : EventDefinition) : d.phrase.Draws d.toNode := by
  have hname := d.name.draws_phrase "name"
  have hparameters := lays_parenthesized "parameters" fun (p : EventParameter)
    (_ : p ∈ d.parameters) => p.draws_phrase
  exact draws_covered (Lays.mul hname.right hparameters).left.left

theorem Member.draws_phrase (m : Member) : m.phrase.Draws m.toNode := by
  cases m with
  | function d => exact d.draws_phrase
  | modifier d => exact d.draws_phrase
  | constructor d => exact d.draws_phrase
  | fallback d => exact d.draws_phrase
  | stateVariable d => exact d.draws_phrase
  | struct d => exact d.draws_phrase
  | enum d => exact d.draws_phrase
  | event d => exact d.draws_phrase
  | using_ d => exact d.draws_phrase
  | error mark => exact mark.draws_phrase

theorem Member.node_of_missing {around : Span} (m : Member) {ts rest : List Lexeme}
    {es : List SyntaxError} (h : m.missing around ts es rest) :
    m.toNode.span = around.after ∧ m.toNode.Nested := by
  cases m with
  | error mark =>
    obtain ⟨-, -, hspan⟩ := ErrorMark.of_missing h
    rw [Member.toNode, ErrorMark.toNode, hspan]
    exact ⟨rfl, nested_leaf _ _ le_rfl⟩
  | _ => exact h.elim

theorem InheritanceSpecifier.draws_phrase (i : InheritanceSpecifier) :
    i.phrase.Draws i.toNode := by
  have hancestor := i.ancestor.draws_phrase "ancestor"
  have harguments := lays_maybe "arguments" fun (a : Arguments) (_ : a ∈ i.arguments) =>
    a.draws_phrase
  exact draws_covered (Lays.mul hancestor harguments)

theorem ContractDeclaration.draws_phrase (d : ContractDeclaration) : d.phrase.Draws d.toNode := by
  have hname := d.name.draws_phrase "name"
  have hbases : (if d.inheritance = [] then (1 : Phrase) else keyword .is_
      * separated (d.inheritance.map InheritanceSpecifier.phrase)).Lays
        (several "inheritance" (d.inheritance.map InheritanceSpecifier.toNode)) := by
    split
    · rename_i hnil
      rw [hnil]
      exact lays_nil _
    · exact Lays.right (lays_separated "inheritance" fun i _ => i.draws_phrase)
  have hheader : d.header.Lays (one "name" d.name.toNode
      ++ several "inheritance" (d.inheritance.map InheritanceSpecifier.toNode)) :=
    Lays.such fun _ => Lays.mul hname.right hbases
  exact draws_braced hheader (fun m _ => m.draws_phrase) fun m _ _ _ _ => m.node_of_missing

end SolidityFrontend
