import SolidityFrontend.Proofs.Writing

/-!
# The parts of a piece of syntax

All expressions and all blocks in a piece of syntax, each with what stands inside it behind it. Where
the piece is written, each of them is written in its middle (`Phrase.Holds`).
-/

namespace SolidityFrontend

open Phrase

/-- An expression or a block that is part of a piece of syntax. -/
inductive Part where
  | expr (e : Expr)
  | block (b : Block)

def Part.phrase : Part → Phrase
  | .expr e => e.phrase
  | .block b => b.phrase

mutual

def Expr.parts : Expr → List Part
  | e@(.binary left _ right _) | e@(.assignment left _ right _) =>
      .expr e :: (left.parts ++ right.parts)
  | e@(.unary _ operand _) | e@(.update _ _ operand _) => .expr e :: operand.parts
  | e@(.ternary condition ifTrue ifFalse _) =>
      .expr e :: (condition.parts ++ ifTrue.parts ++ ifFalse.parts)
  | e@(.call callee arguments _) => .expr e :: (callee.parts ++ arguments.parts)
  | e@(.member object _ _) => .expr e :: object.parts
  | e@(.index base index _) => .expr e :: (base.parts ++ optionParts index)
  | e@(.slice base lower upper _) =>
      .expr e :: (base.parts ++ optionParts lower ++ optionParts upper)
  | e@(.tuple elements _) => .expr e :: placeParts elements
  | e@(.inlineArray elements _) => .expr e :: exprParts elements
  | e@(.struct type fields _) => .expr e :: (type.parts ++ namedParts fields)
  | e@(.new type _) | e@(.metaType type _) => .expr e :: type.parts
  | e@(.cast _ argument _) => .expr e :: argument.parts
  | e@(.payable arguments _) => .expr e :: arguments.parts
  | e@(.parenthesized inner _) => .expr e :: inner.parts
  | e@(.elementary _) | e@(.literal _) | e@(.identifier _) => [.expr e]

def Arguments.parts : Arguments → List Part
  | .positional arguments _ => exprParts arguments
  | .named arguments _ => namedParts arguments

def NamedArgument.parts : NamedArgument → List Part
  | ⟨_, value, _⟩ => value.parts

def TypeName.parts : TypeName → List Part
  | .elementary _ | .userDefined _ => []
  | .mapping key value _ => key.parts ++ value.parts
  | .array base size _ => base.parts ++ optionParts size
  | .function parameters _ returns _ => parameterParts parameters ++ parameterParts returns

def Parameter.parts : Parameter → List Part
  | ⟨type, _, _, _⟩ => type.parts

def optionParts : Option Expr → List Part
  | none => []
  | some e => e.parts

def placeParts : List (Option Expr) → List Part
  | [] => []
  | e :: es => optionParts e ++ placeParts es

def exprParts : List Expr → List Part
  | [] => []
  | e :: es => e.parts ++ exprParts es

def namedParts : List NamedArgument → List Part
  | [] => []
  | a :: as => a.parts ++ namedParts as

def parameterParts : List Parameter → List Part
  | [] => []
  | p :: ps => p.parts ++ parameterParts ps

end

/-- An expression is the first of its own parts. -/
theorem Expr.mem_parts (e : Expr) : .expr e ∈ e.parts := by
  cases e <;> simp [Expr.parts]

theorem optionParts_eq (e : Option Expr) : optionParts e = e.elim [] Expr.parts := by
  cases e <;> simp [optionParts]

theorem placeParts_eq : ∀ es : List (Option Expr),
    placeParts es = es.flatMap fun e => e.elim [] Expr.parts
  | [] => by simp [placeParts]
  | e :: es => by simp [placeParts, optionParts_eq, placeParts_eq es]

theorem exprParts_eq : ∀ es : List Expr, exprParts es = es.flatMap Expr.parts
  | [] => by simp [exprParts]
  | e :: es => by simp [exprParts, exprParts_eq es]

theorem namedParts_eq : ∀ as : List NamedArgument, namedParts as = as.flatMap NamedArgument.parts
  | [] => by simp [namedParts]
  | a :: as => by simp [namedParts, namedParts_eq as]

theorem parameterParts_eq : ∀ ps : List Parameter, parameterParts ps = ps.flatMap Parameter.parts
  | [] => by simp [parameterParts]
  | p :: ps => by simp [parameterParts, parameterParts_eq ps]

/-! ### Parts of statements -/

def VariableDeclaration.parts (d : VariableDeclaration) : List Part := d.type.parts

def Declarator.parts : Declarator → List Part
  | .single d => d.parts
  | .tuple elements _ => elements.flatMap fun d => d.elim [] VariableDeclaration.parts
  | .varTuple .. => []

mutual

def Stmt.parts : Stmt → List Part
  | .block b => b.parts
  | .expression e _ => e.parts
  | .variables declarator value _ => declarator.parts ++ optionParts value
  | .ifElse condition thenBranch elseBranch _ =>
      condition.parts ++ thenBranch.parts ++ branchParts elseBranch
  | .forLoop init condition update body _ =>
      branchParts init ++ optionParts condition ++ optionParts update ++ body.parts
  | .whileLoop condition body _ => condition.parts ++ body.parts
  | .doWhile body condition _ => body.parts ++ condition.parts
  | .return_ value _ => optionParts value
  | .emit _ arguments _ => arguments.parts
  | .tryCatch expression returns body clauses _ =>
      expression.parts ++ parameterParts returns ++ body.parts ++ clauseParts clauses
  | .continue_ _ | .break_ _ | .throw _ | .assembly .. | .error _ => []

def Block.parts : Block → List Part
  | b@⟨statements, _⟩ => .block b :: stmtParts statements

def CatchClause.parts : CatchClause → List Part
  | ⟨_, parameters, body, _⟩ => parameters.elim [] parameterParts ++ body.parts

def branchParts : Option Stmt → List Part
  | none => []
  | some s => s.parts

def stmtParts : List Stmt → List Part
  | [] => []
  | s :: ss => s.parts ++ stmtParts ss

def clauseParts : List CatchClause → List Part
  | [] => []
  | c :: cs => c.parts ++ clauseParts cs

end

theorem stmtParts_eq : ∀ ss : List Stmt, stmtParts ss = ss.flatMap Stmt.parts
  | [] => by simp [stmtParts]
  | s :: ss => by simp [stmtParts, stmtParts_eq ss]

theorem clauseParts_eq : ∀ cs : List CatchClause, clauseParts cs = cs.flatMap CatchClause.parts
  | [] => by simp [clauseParts]
  | c :: cs => by simp [clauseParts, clauseParts_eq cs]

/-! ### Parts of declarations -/

def UsingDirective.parts (d : UsingDirective) : List Part :=
  match d.target with
  | .wildcard _ => []
  | .type t => t.parts

def ModifierInvocation.parts (m : ModifierInvocation) : List Part :=
  m.arguments.elim [] Arguments.parts

def FunctionAttribute.parts : FunctionAttribute → List Part
  | .modifier m => m.parts
  | .visibility .. | .mutability .. | .virtual _ | .override _ => []

/-- The parts of the parameters and attributes that functions with and without names share. -/
def signatureParts (parameters : List Parameter) (attributes : List FunctionAttribute) :
    List Part := parameterParts parameters ++ attributes.flatMap FunctionAttribute.parts

def bodyParts (body : Option Block) : List Part := body.elim [] Block.parts

def FunctionDefinition.parts (d : FunctionDefinition) : List Part :=
  signatureParts d.parameters d.attributes ++ parameterParts d.returns ++ bodyParts d.body

def ModifierDefinition.parts (d : ModifierDefinition) : List Part :=
  signatureParts d.parameters d.attributes ++ bodyParts d.body

def ConstructorDefinition.parts (d : ConstructorDefinition) : List Part :=
  signatureParts d.parameters d.attributes ++ bodyParts d.body

def FallbackDefinition.parts (d : FallbackDefinition) : List Part :=
  signatureParts d.parameters d.attributes ++ bodyParts d.body

def StateVariable.parts (d : StateVariable) : List Part := d.type.parts ++ optionParts d.value

def ConstantDeclaration.parts (d : ConstantDeclaration) : List Part := d.type.parts ++ d.value.parts

def StructDeclaration.parts (d : StructDeclaration) : List Part :=
  d.members.flatMap fun m => m.type.parts

def EventDefinition.parts (d : EventDefinition) : List Part :=
  d.parameters.flatMap fun p => p.type.parts

def Member.parts : Member → List Part
  | .function d => d.parts
  | .modifier d => d.parts
  | .constructor d => d.parts
  | .fallback d => d.parts
  | .stateVariable d => d.parts
  | .struct d => d.parts
  | .event d => d.parts
  | .using_ d => d.parts
  | .enum _ | .error _ => []

def InheritanceSpecifier.parts (i : InheritanceSpecifier) : List Part :=
  i.arguments.elim [] Arguments.parts

def ContractDeclaration.parts (d : ContractDeclaration) : List Part :=
  d.inheritance.flatMap InheritanceSpecifier.parts ++ d.members.flatMap Member.parts

def SourceUnit.parts : SourceUnit → List Part
  | .contract d => d.parts
  | .struct d => d.parts
  | .function d => d.parts
  | .constant d => d.parts
  | .pragma _ | .import_ _ | .enum _ | .error _ => []

def SourceFile.parts (f : SourceFile) : List Part := f.items.flatMap SourceUnit.parts

/-! ### What a phrase holds -/

namespace Phrase

variable {L M : Phrase} {ps qs : List Part}

/-- Wherever the phrase is written, all of some parts are written in its middle. -/
def Holds (L : Phrase) (ps : List Part) : Prop := ∀ p ∈ ps, L ≤ ⊤ * p.phrase * ⊤

theorem le_top_mul (L : Phrase) : L ≤ ⊤ * L :=
  (one_mul L).ge.trans (mul_mono le_top le_rfl)

theorem le_mul_top (L : Phrase) : L ≤ L * ⊤ :=
  (mul_one L).ge.trans (mul_mono le_rfl le_top)

theorem le_middle (L : Phrase) : L ≤ ⊤ * L * ⊤ := (le_top_mul L).trans (le_mul_top _)

@[grind ←]
theorem holds_nil (L : Phrase) : L.Holds [] := by simp [Holds]

@[grind =]
theorem holds_append : L.Holds (ps ++ qs) ↔ L.Holds ps ∧ L.Holds qs := List.forall_mem_append

@[grind =]
theorem holds_cons {p : Part} : L.Holds (p :: ps) ↔ L ≤ ⊤ * p.phrase * ⊤ ∧ L.Holds ps :=
  List.forall_mem_cons

theorem Holds.mono (h : M.Holds ps) (hL : L ≤ M) : L.Holds ps := fun p hp => hL.trans (h p hp)

@[grind ←]
theorem Holds.left (h : L.Holds ps) : (L * M).Holds ps := by
  intro p hp
  refine (mul_mono (h p hp) le_top).trans ?_
  rw [mul_assoc]
  exact mul_mono le_rfl le_top

@[grind ←]
theorem Holds.right (h : M.Holds ps) : (L * M).Holds ps := by
  intro p hp
  refine (mul_mono le_top (h p hp)).trans ?_
  rw [mul_assoc, ← mul_assoc]
  exact mul_mono le_top le_rfl

@[grind ←]
theorem Holds.such {p : Prop} (h : p → L.Holds ps) : (such p L).Holds ps := by
  rintro part hpart ts es rest ⟨hp, hL⟩
  exact h hp part hpart _ _ _ hL

@[grind ←]
theorem Holds.covered {span : Span} (h : L.Holds ps) : (covered span L).Holds ps :=
  h.mono covered_le

@[grind ←]
theorem Holds.sup (h : L.Holds ps) (h' : M.Holds ps) : (L ⊔ M).Holds ps :=
  fun p hp => sup_le (h p hp) (h' p hp)

@[grind ←]
theorem holds_perhaps {α : Type} {f : α → Phrase} {g : α → List Part} {o : Option α}
    (h : ∀ x ∈ o, (f x).Holds (g x)) : (perhaps (o.map f)).Holds (o.elim [] g) := by
  cases o with
  | none => exact holds_nil _
  | some x => exact h x rfl

@[grind ←]
theorem holds_prod {α : Type} {f : α → Phrase} {g : α → List Part} {xs : List α}
    (h : ∀ x ∈ xs, (f x).Holds (g x)) : (xs.map f).prod.Holds (xs.flatMap g) := by
  induction xs with
  | nil => exact holds_nil _
  | cons x xs ih =>
    rw [List.map_cons, List.prod_cons, List.flatMap_cons, holds_append]
    refine ⟨Holds.left (h x List.mem_cons_self), Holds.right (ih fun y hy => ?_)⟩
    exact h y (List.mem_cons_of_mem x hy)

@[grind ←]
theorem holds_separated {α : Type} {f : α → Phrase} {g : α → List Part} {xs : List α}
    (h : ∀ x ∈ xs, (f x).Holds (g x)) : (separated (xs.map f)).Holds (xs.flatMap g) := by
  rcases xs with _ | ⟨x, xs⟩
  · exact holds_nil _
  · rw [List.map_cons, separated, List.flatMap_cons, holds_append, List.map_map]
    refine ⟨Holds.left (h x List.mem_cons_self), Holds.right (holds_prod fun y hy => ?_)⟩
    exact Holds.right (h y (List.mem_cons_of_mem x hy))

@[grind ←]
theorem holds_trailed {α : Type} {f : α → Phrase} {g : α → List Part} {xs : List α}
    (h : ∀ x ∈ xs, (f x).Holds (g x)) : (trailed (xs.map f)).Holds (xs.flatMap g) := by
  induction xs with
  | nil => exact holds_nil _
  | cons x xs ih =>
    have hx := h x List.mem_cons_self
    have hxs := ih fun y hy => h y (List.mem_cons_of_mem x hy)
    rw [List.flatMap_cons, holds_append]
    rcases xs with _ | ⟨y, xs⟩
    · exact ⟨Holds.left hx, holds_nil _⟩
    · exact ⟨Holds.left (Holds.left hx), Holds.right hxs⟩

@[grind ←]
theorem holds_parenthesized {α : Type} {f : α → Phrase} {g : α → List Part} {xs : List α}
    (h : ∀ x ∈ xs, (f x).Holds (g x)) : (parenthesized (xs.map f)).Holds (xs.flatMap g) :=
  Holds.left (Holds.right (holds_separated h))

@[grind ←]
theorem holds_returned {α : Type} {f : α → Phrase} {g : α → List Part} {xs : List α}
    (h : ∀ x ∈ xs, (f x).Holds (g x)) : (returned (xs.map f)).Holds (xs.flatMap g) := by
  refine Holds.sup (Holds.such ?_) (Holds.right (holds_parenthesized h))
  intro hnil
  rw [List.map_eq_nil_iff.1 hnil]
  exact holds_nil _

theorem Holds.inParens (h : L.Holds ps) :
    (symbol .leftParen * L * symbol .rightParen).Holds ps := Holds.left (Holds.right h)

theorem holds_bot (ps : List Part) : (⊥ : Phrase).Holds ps := fun _ _ => bot_le

/-- Parts and a closing brace, or a mark in its place that holds what the part that marks it does. -/
theorem holds_body {α : Type} {f m : α → Phrase} {g : α → List Part} {xs : List α}
    (h : ∀ x ∈ xs, (f x).Holds (g x)) (hm : ∀ x ∈ xs, (m x).Holds (g x)) :
    (body (xs.map fun x => (f x, m x))).Holds (xs.flatMap g) := by
  induction xs with
  | nil => exact holds_nil _
  | cons x xs ih =>
    have hx := h x List.mem_cons_self
    have hrest := ih (fun y hy => h y (List.mem_cons_of_mem x hy))
      fun y hy => hm y (List.mem_cons_of_mem x hy)
    rw [List.map_cons, body, List.flatMap_cons, holds_append]
    refine ⟨Holds.sup (Holds.left hx) (Holds.such fun _ => hm x List.mem_cons_self), ?_⟩
    refine Holds.sup (Holds.right hrest) (Holds.such fun hnil => ?_)
    rw [List.map_eq_nil_iff.1 hnil]
    exact holds_nil _

theorem Holds.expr {e : Expr} (h : e.phrase.Holds ps) : e.phrase.Holds (.expr e :: ps) :=
  holds_cons.2 ⟨le_middle _, h⟩

theorem Holds.block {b : Block} (h : b.phrase.Holds ps) : b.phrase.Holds (.block b :: ps) :=
  holds_cons.2 ⟨le_middle _, h⟩

end Phrase

open Phrase

/-! ### Expressions and type names hold their parts -/

mutual

theorem Expr.holds_phrase : ∀ e : Expr, e.phrase.Holds e.parts
  | .binary left op right span | .assignment left op right span => by
      have hleft := left.holds_phrase
      have hright := right.holds_phrase
      rw [Expr.parts]
      refine Holds.expr ?_
      rw [Expr.phrase]
      grind
  | .unary op operand span => by
      have hoperand := operand.holds_phrase
      rw [Expr.parts]
      refine Holds.expr ?_
      rw [Expr.phrase]
      grind
  | .update op fixity operand span => by
      have hoperand := operand.holds_phrase
      rw [Expr.parts]
      refine Holds.expr ?_
      cases fixity <;> (rw [Expr.phrase]; grind)
  | .ternary condition ifTrue ifFalse span => by
      have hcondition := condition.holds_phrase
      have htrue := ifTrue.holds_phrase
      have hfalse := ifFalse.holds_phrase
      rw [Expr.parts]
      refine Holds.expr ?_
      rw [Expr.phrase]
      grind
  | .call callee arguments span => by
      have hcallee := callee.holds_phrase
      have harguments := arguments.holds_phrase
      rw [Expr.parts]
      refine Holds.expr ?_
      rw [Expr.phrase]
      grind
  | .member object name span => by
      have hobject := object.holds_phrase
      rw [Expr.parts]
      refine Holds.expr ?_
      rw [Expr.phrase]
      grind
  | .index base index span => by
      have hbase := base.holds_phrase
      have hindex := option_holds index
      rw [Expr.parts, optionParts_eq]
      refine Holds.expr ?_
      rw [Expr.phrase, optionPhrase_eq]
      grind
  | .slice base lower upper span => by
      have hbase := base.holds_phrase
      have hlower := holds_perhaps (option_holds lower)
      have hupper := holds_perhaps (option_holds upper)
      rw [Expr.parts, optionParts_eq, optionParts_eq]
      refine Holds.expr ?_
      rw [Expr.phrase, optionPhrase_eq, optionPhrase_eq]
      refine Holds.such fun _ => Holds.covered (Holds.left ?_)
      grind
  | .tuple elements span => by
      have helements := places_hold elements
      rw [Expr.parts, placeParts_eq]
      refine Holds.expr ?_
      rw [Expr.phrase, placePhrases_eq]
      grind
  | .inlineArray elements span => by
      have helements := exprs_hold elements
      rw [Expr.parts, exprParts_eq]
      refine Holds.expr ?_
      rw [Expr.phrase, exprPhrases_eq]
      grind
  | .struct type fields span => by
      have htype := type.holds_phrase
      have hfields := named_hold fields
      rw [Expr.parts, namedParts_eq]
      refine Holds.expr ?_
      rw [Expr.phrase, namedPhrases_eq]
      grind
  | .new type span | .metaType type span => by
      have htype := type.holds_phrase
      rw [Expr.parts]
      refine Holds.expr ?_
      rw [Expr.phrase]
      grind
  | .cast type argument span => by
      have hargument := argument.holds_phrase
      rw [Expr.parts]
      refine Holds.expr ?_
      rw [Expr.phrase]
      grind
  | .payable arguments span => by
      have harguments := arguments.holds_phrase
      rw [Expr.parts]
      refine Holds.expr ?_
      rw [Expr.phrase]
      grind
  | .parenthesized inner span => by
      have hinner := inner.holds_phrase
      rw [Expr.parts]
      refine Holds.expr ?_
      rw [Expr.phrase]
      grind
  | .elementary type | .literal l | .identifier i => by
      rw [Expr.parts]
      exact Holds.expr (holds_nil _)

theorem Arguments.holds_phrase : ∀ a : Arguments, a.phrase.Holds a.parts
  | .positional arguments span => by
      have harguments := exprs_hold arguments
      rw [Arguments.parts, Arguments.phrase, exprParts_eq, exprPhrases_eq]
      grind
  | .named arguments span => by
      have harguments := named_hold arguments
      rw [Arguments.parts, Arguments.phrase, namedParts_eq, namedPhrases_eq]
      refine Holds.covered (Holds.left (Holds.right ?_))
      grind

theorem NamedArgument.holds_phrase : ∀ a : NamedArgument, a.phrase.Holds a.parts
  | ⟨name, value, span⟩ => by
      have hvalue := value.holds_phrase
      rw [NamedArgument.parts, NamedArgument.phrase]
      grind

theorem TypeName.holds_phrase : ∀ t : TypeName, t.phrase.Holds t.parts
  | .elementary type | .userDefined path => by
      rw [TypeName.parts]
      exact holds_nil _
  | .mapping key value span => by
      have hkey := key.holds_phrase
      have hvalue := value.holds_phrase
      rw [TypeName.parts, TypeName.phrase]
      refine Holds.such fun _ => Holds.covered (holds_append.2 ⟨?_, ?_⟩)
      · exact Holds.left (Holds.left (Holds.left (Holds.right hkey)))
      · exact Holds.left (Holds.right hvalue)
  | .array base size span => by
      have hbase := base.holds_phrase
      have hsize := option_holds size
      rw [TypeName.parts, TypeName.phrase, optionParts_eq, optionPhrase_eq]
      grind
  | .function parameters attributes returns span => by
      have hparameters := parameters_hold parameters
      have hreturns := parameters_hold returns
      rw [TypeName.parts, TypeName.phrase, parameterParts_eq, parameterParts_eq,
        parameterPhrases_eq, parameterPhrases_eq]
      grind

theorem Parameter.holds_phrase : ∀ p : Parameter, p.phrase.Holds p.parts
  | ⟨type, location, name, span⟩ => by
      have htype := type.holds_phrase
      rw [Parameter.parts, Parameter.phrase]
      grind

theorem option_holds : ∀ o : Option Expr, ∀ e ∈ o, e.phrase.Holds e.parts
  | none => by simp
  | some e => by
      have he := e.holds_phrase
      simpa using he

theorem places_hold : ∀ es : List (Option Expr), ∀ e ∈ es,
    (perhaps (e.map Expr.phrase)).Holds (e.elim [] Expr.parts)
  | [] => by simp
  | e :: es => by
      have he := holds_perhaps (option_holds e)
      have hes := places_hold es
      rw [List.forall_mem_cons]
      exact ⟨he, hes⟩

theorem exprs_hold : ∀ es : List Expr, ∀ e ∈ es, e.phrase.Holds e.parts
  | [] => by simp
  | e :: es => by
      have he := e.holds_phrase
      have hes := exprs_hold es
      rw [List.forall_mem_cons]
      exact ⟨he, hes⟩

theorem named_hold : ∀ as : List NamedArgument, ∀ a ∈ as, a.phrase.Holds a.parts
  | [] => by simp
  | a :: as => by
      have ha := a.holds_phrase
      have has := named_hold as
      rw [List.forall_mem_cons]
      exact ⟨ha, has⟩

theorem parameters_hold : ∀ ps : List Parameter, ∀ p ∈ ps, p.phrase.Holds p.parts
  | [] => by simp
  | p :: ps => by
      have hp := p.holds_phrase
      have hps := parameters_hold ps
      rw [List.forall_mem_cons]
      exact ⟨hp, hps⟩

end

/-! ### Statements hold their parts -/

theorem VariableDeclaration.holds_phrase (d : VariableDeclaration) : d.phrase.Holds d.parts := by
  have htype := d.type.holds_phrase
  exact Holds.covered (Holds.left (Holds.left htype))

theorem Declarator.holds_phrase (d : Declarator) : d.phrase.Holds d.parts := by
  cases d with
  | single d => exact d.holds_phrase
  | tuple elements span =>
    refine Holds.such fun _ => Holds.covered (holds_parenthesized fun d _ => ?_)
    exact holds_perhaps fun d _ => d.holds_phrase
  | varTuple names span => exact holds_nil _

theorem Stmt.holds_missing (around : Span) (s : Stmt) : (s.missing around).Holds s.parts := by
  cases s with
  | error mark =>
    rw [Stmt.parts]
    exact holds_nil _
  | _ => exact holds_bot _

mutual

theorem Stmt.holds_phrase : ∀ s : Stmt, s.phrase.Holds s.parts
  | .block b => by
      have hb := b.holds_phrase
      rw [Stmt.parts, Stmt.phrase]
      exact hb
  | .expression e span => by
      have he := e.holds_phrase
      rw [Stmt.parts, Stmt.phrase]
      grind
  | .variables declarator value span => by
      have hdeclarator := declarator.holds_phrase
      have hvalue := option_holds value
      rw [Stmt.parts, Stmt.phrase, optionParts_eq]
      grind
  | .ifElse condition thenBranch elseBranch span => by
      have hcondition := condition.holds_phrase.inParens
      have hthen := thenBranch.holds_phrase
      have helse := else_holds elseBranch
      rw [Stmt.parts, Stmt.phrase]
      grind
  | .forLoop init condition update body span => by
      have hinit := init_holds init
      have hcondition := holds_perhaps (option_holds condition)
      have hupdate := holds_perhaps (option_holds update)
      have hbody := body.holds_phrase
      rw [Stmt.parts, Stmt.phrase, optionParts_eq, optionParts_eq]
      refine Holds.covered ?_
      simp only [mul_assoc, holds_append]
      grind
  | .whileLoop condition body span => by
      have hcondition := condition.holds_phrase.inParens
      have hbody := body.holds_phrase
      rw [Stmt.parts, Stmt.phrase]
      grind
  | .doWhile body condition span => by
      have hbody := body.holds_phrase
      have hcondition := condition.holds_phrase.inParens
      rw [Stmt.parts, Stmt.phrase, holds_append]
      exact ⟨hbody.right.left.left.left.covered, hcondition.right.left.covered⟩
  | .return_ value span => by
      have hvalue := option_holds value
      rw [Stmt.parts, Stmt.phrase, optionParts_eq]
      grind
  | .emit event arguments span => by
      have harguments := arguments.holds_phrase
      rw [Stmt.parts, Stmt.phrase]
      grind
  | .tryCatch expression returns body clauses span => by
      have hexpression := expression.holds_phrase
      have hreturns := parameters_hold returns
      have hbody := body.holds_phrase
      have hclauses := clauses_hold clauses
      have hreturned := holds_returned hreturns
      rw [Stmt.parts, Stmt.phrase, parameterParts_eq, clauseParts_eq, clausePhrases_eq]
      refine Holds.such fun _ => Holds.covered ?_
      grind
  | .continue_ span | .break_ span | .throw span | .assembly dialect body span | .error mark => by
      rw [Stmt.parts]
      exact holds_nil _

theorem Block.holds_phrase : ∀ b : Block, b.phrase.Holds b.parts
  | ⟨statements, span⟩ => by
      have hstatements := stmts_hold statements
      rw [Block.parts, stmtParts_eq]
      refine Holds.block ?_
      rw [Block.phrase, stmtPhrases_eq]
      refine Holds.covered (Holds.right (holds_body hstatements fun s _ => ?_))
      exact s.holds_missing span

theorem CatchClause.holds_phrase : ∀ c : CatchClause, c.phrase.Holds c.parts
  | ⟨name, parameters, body, span⟩ => by
      have hbody := body.holds_phrase
      have hparameters : (perhaps (parameters.map fun ps =>
          parenthesized (ps.map Parameter.phrase))).Holds (parameters.elim [] parameterParts) := by
        refine holds_perhaps fun ps _ => ?_
        rw [parameterParts_eq]
        exact holds_parenthesized (parameters_hold ps)
      rw [CatchClause.parts, CatchClause.phrase]
      grind

theorem else_holds : ∀ s : Option Stmt, (elsePhrase s).Holds (branchParts s)
  | none => by
      rw [branchParts]
      exact holds_nil _
  | some s => by
      have hs := s.holds_phrase
      rw [branchParts, elsePhrase]
      exact Holds.right hs

theorem init_holds : ∀ s : Option Stmt, (initPhrase s).Holds (branchParts s)
  | none => by
      rw [branchParts]
      exact holds_nil _
  | some s => by
      have hs := s.holds_phrase
      rw [branchParts, initPhrase]
      exact Holds.such fun _ => hs

theorem stmts_hold : ∀ ss : List Stmt, ∀ s ∈ ss, s.phrase.Holds s.parts
  | [] => by simp
  | s :: ss => by
      have hs := s.holds_phrase
      have hss := stmts_hold ss
      rw [List.forall_mem_cons]
      exact ⟨hs, hss⟩

theorem clauses_hold : ∀ cs : List CatchClause, ∀ c ∈ cs, c.phrase.Holds c.parts
  | [] => by simp
  | c :: cs => by
      have hc := c.holds_phrase
      have hcs := clauses_hold cs
      rw [List.forall_mem_cons]
      exact ⟨hc, hcs⟩

end

/-! ### Declarations hold their parts -/

theorem UsingDirective.holds_phrase (d : UsingDirective) : d.phrase.Holds d.parts := by
  have htarget : d.target.phrase.Holds d.parts := by
    unfold UsingDirective.parts
    split
    · exact holds_nil _
    · rename_i t ht
      rw [ht]
      exact t.holds_phrase
  exact Holds.covered (Holds.left (Holds.right htarget))

theorem ModifierInvocation.holds_phrase (m : ModifierInvocation) : m.phrase.Holds m.parts :=
  Holds.covered (Holds.right (holds_perhaps fun a _ => a.holds_phrase))

theorem FunctionAttribute.holds_phrase (a : FunctionAttribute) : a.phrase.Holds a.parts := by
  cases a with
  | modifier m => exact m.holds_phrase
  | _ => exact holds_nil _

theorem holds_attributes (as : List FunctionAttribute) :
    (as.map FunctionAttribute.phrase).prod.Holds (as.flatMap FunctionAttribute.parts) :=
  holds_prod fun a _ => a.holds_phrase

theorem holds_signature (ps : List Parameter) (as : List FunctionAttribute) :
    (signaturePhrase ps as).Holds (signatureParts ps as) := by
  have hparameters := holds_parenthesized (parameters_hold ps)
  have hattributes := holds_attributes as
  rw [signatureParts, parameterParts_eq, signaturePhrase]
  grind

theorem holds_functionBody (b : Option Block) : (functionBodyPhrase b).Holds (bodyParts b) := by
  cases b with
  | none => exact holds_nil _
  | some b => exact b.holds_phrase

theorem FunctionDefinition.holds_phrase (d : FunctionDefinition) : d.phrase.Holds d.parts := by
  have hsignature := holds_signature d.parameters d.attributes
  have hreturns := holds_returned (parameters_hold d.returns)
  have hbody := holds_functionBody d.body
  rw [FunctionDefinition.parts, FunctionDefinition.phrase, parameterParts_eq]
  grind

theorem ModifierDefinition.holds_phrase (d : ModifierDefinition) : d.phrase.Holds d.parts := by
  have hsignature : (such (d.parameters = []) (d.attributes.map FunctionAttribute.phrase).prod
      ⊔ signaturePhrase d.parameters d.attributes).Holds
        (signatureParts d.parameters d.attributes) := by
    refine Holds.sup (Holds.such fun hnil => ?_) (holds_signature d.parameters d.attributes)
    rw [signatureParts, hnil, parameterParts, List.nil_append]
    exact holds_attributes d.attributes
  have hbody := holds_functionBody d.body
  rw [ModifierDefinition.parts, ModifierDefinition.phrase]
  grind

theorem ConstructorDefinition.holds_phrase (d : ConstructorDefinition) :
    d.phrase.Holds d.parts := by
  have hsignature := holds_signature d.parameters d.attributes
  have hbody := holds_functionBody d.body
  rw [ConstructorDefinition.parts, ConstructorDefinition.phrase]
  grind

theorem FallbackDefinition.holds_phrase (d : FallbackDefinition) : d.phrase.Holds d.parts := by
  have hsignature := holds_signature d.parameters d.attributes
  have hbody := holds_functionBody d.body
  rw [FallbackDefinition.parts, FallbackDefinition.phrase]
  grind

theorem StateVariable.holds_phrase (d : StateVariable) : d.phrase.Holds d.parts := by
  have htype := d.type.holds_phrase
  have hvalue : (perhaps (d.value.map fun e => symbol .assign * e.phrase)).Holds
      (d.value.elim [] Expr.parts) := holds_perhaps fun e _ => e.holds_phrase.right
  rw [StateVariable.parts, StateVariable.phrase, optionParts_eq, holds_append]
  exact ⟨htype.left.left.left.left.covered, hvalue.right.left.covered⟩

theorem ConstantDeclaration.holds_phrase (d : ConstantDeclaration) : d.phrase.Holds d.parts := by
  have htype := d.type.holds_phrase
  have hvalue := d.value.holds_phrase
  rw [ConstantDeclaration.parts, ConstantDeclaration.phrase, holds_append]
  exact ⟨htype.left.left.left.left.left.covered, hvalue.right.left.covered⟩

theorem StructDeclaration.holds_phrase (d : StructDeclaration) : d.phrase.Holds d.parts := by
  have hmembers : (d.members.map StructMember.phrase).prod.Holds d.parts :=
    holds_prod fun m _ => m.type.holds_phrase.left.left.covered
  rw [StructDeclaration.phrase]
  grind

theorem EventDefinition.holds_phrase (d : EventDefinition) : d.phrase.Holds d.parts := by
  have hparameters : (parenthesized (d.parameters.map EventParameter.phrase)).Holds d.parts :=
    holds_parenthesized fun p _ => p.type.holds_phrase.left.left.covered
  rw [EventDefinition.phrase]
  grind

theorem Member.holds_phrase (m : Member) : m.phrase.Holds m.parts := by
  cases m with
  | function d => exact d.holds_phrase
  | modifier d => exact d.holds_phrase
  | constructor d => exact d.holds_phrase
  | fallback d => exact d.holds_phrase
  | stateVariable d => exact d.holds_phrase
  | struct d => exact d.holds_phrase
  | event d => exact d.holds_phrase
  | using_ d => exact d.holds_phrase
  | enum d => exact holds_nil _
  | error mark => exact holds_nil _

theorem Member.holds_missing (around : Span) (m : Member) : (m.missing around).Holds m.parts := by
  cases m with
  | error mark => exact holds_nil _
  | _ => exact holds_bot _

theorem InheritanceSpecifier.holds_phrase (i : InheritanceSpecifier) : i.phrase.Holds i.parts :=
  Holds.covered (Holds.right (holds_perhaps fun a _ => a.holds_phrase))

theorem ContractDeclaration.holds_phrase (d : ContractDeclaration) : d.phrase.Holds d.parts := by
  have hheader : d.header.Holds (d.inheritance.flatMap InheritanceSpecifier.parts) := by
    refine Holds.such fun _ => Holds.right ?_
    split
    · rename_i hnil
      rw [hnil]
      exact holds_nil _
    · exact Holds.right (holds_separated fun i _ => i.holds_phrase)
  have hbody : (body (d.members.map fun m => (m.phrase, m.missing d.span))).Holds
      (d.members.flatMap Member.parts) :=
    holds_body (fun m _ => m.holds_phrase) fun m _ => m.holds_missing d.span
  rw [ContractDeclaration.parts, ContractDeclaration.phrase]
  grind

theorem SourceUnit.holds_phrase (u : SourceUnit) : u.phrase.Holds u.parts := by
  cases u with
  | contract d => exact d.holds_phrase
  | struct d => exact d.holds_phrase
  | function d => exact d.holds_phrase
  | constant d => exact d.holds_phrase
  | pragma d => exact holds_nil _
  | import_ d => exact holds_nil _
  | enum d => exact holds_nil _
  | error mark => exact holds_nil _

theorem SourceFile.holds_phrase (f : SourceFile) :
    (f.items.map SourceUnit.phrase).prod.Holds f.parts :=
  holds_prod fun u _ => u.holds_phrase

end SolidityFrontend
