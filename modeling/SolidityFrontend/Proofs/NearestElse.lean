import SolidityFrontend.Proofs.Fragments
import SolidityFrontend.Proofs.ReadingFile
import SolidityFrontend.Proofs.WellFormed

/-!
# The nearest `else`

A statement is open if it ends with an `if` that has no `else`. The parser leaves an `if` without
`else` only where no `else` is next, so none is next behind an open statement either, through however
many loops and branches it ends (`Stmt.faces_of_open`). A branch with an `else` behind it is therefore
not open: each `else` belongs to the nearest `if` that can have it.
-/

namespace SolidityFrontend

open Phrase

/-! ### Open statements -/

mutual

/-- Whether an `else` behind the statement would belong to an `if` at its end. -/
def Stmt.isOpen : Stmt → Bool
  | .ifElse _ _ elseBranch _ => branchOpen elseBranch
  | .forLoop _ _ _ body _ | .whileLoop _ body _ => body.isOpen
  | _ => false

def branchOpen : Option Stmt → Bool
  | none => true
  | some s => s.isOpen

end

namespace Phrase

variable {L M : Phrase} {p : List Lexeme → Prop}

/-- What follows the phrase has a property. -/
def Faces (L : Phrase) (p : List Lexeme → Prop) : Prop := ∀ ts es rest, L ts es rest → p rest

theorem Faces.right (h : M.Faces p) : (L * M).Faces p := by
  rintro ts es rest ⟨_, _, _, _, rfl, rfl, -, hm⟩
  exact h _ _ _ hm

theorem Faces.covered {span : Span} (h : L.Faces p) : (covered span L).Faces p :=
  fun _ _ _ ⟨_, hl⟩ => h _ _ _ hl

theorem faces_before : (before p).Faces p := fun _ _ _ ⟨_, _, hp⟩ => hp

/-- What follows a phrase is not the token that it must not be. -/
theorem Faces.not_token {t : Token} (h : L.Faces (notNext t)) : L * (token t * M) ≤ ⊥ := by
  rintro ts es rest ⟨a, b, d, e, rfl, rfl, hl, a', b', d', e', rfl, rfl, ⟨l, rfl, rfl, ht⟩, -⟩
  exact h _ _ _ hl (by simp [ht])

end Phrase

mutual

/-- No `else` follows an open statement. -/
theorem Stmt.faces_of_open : ∀ s : Stmt, s.isOpen → s.phrase.Faces (notNext (.keyword .else_))
  | .ifElse condition thenBranch elseBranch span, h => by
      rw [Stmt.isOpen] at h
      rw [Stmt.phrase]
      exact (faces_of_branchOpen elseBranch h).right.covered
  | .forLoop init condition update body span, h => by
      rw [Stmt.isOpen] at h
      rw [Stmt.phrase]
      exact (body.faces_of_open h).right.covered
  | .whileLoop condition body span, h => by
      rw [Stmt.isOpen] at h
      rw [Stmt.phrase]
      exact (body.faces_of_open h).right.covered
  | .block _, h | .expression .., h | .variables .., h | .doWhile .., h | .continue_ _, h
  | .break_ _, h | .return_ .., h | .emit .., h | .tryCatch .., h | .assembly .., h | .throw _, h
  | .error _, h => by simp [Stmt.isOpen] at h

theorem faces_of_branchOpen : ∀ s : Option Stmt, branchOpen s →
    (elsePhrase s).Faces (notNext (.keyword .else_))
  | none, _ => by
      rw [elsePhrase]
      exact faces_before
  | some s, h => by
      rw [branchOpen] at h
      rw [elsePhrase]
      exact (s.faces_of_open h).right

end

/-! ### Statements among the fragments -/

def Fragment.isStmt : Fragment → Bool
  | .stmt _ => true
  | .expr _ | .typeName _ => false

/-- None of the fragments is a statement. -/
def NoStmt (fs : List Fragment) : Prop := ∀ f ∈ fs, f.isStmt = false

theorem noStmt_nil : NoStmt [] := by simp [NoStmt]

theorem NoStmt.expr {fs : List Fragment} (h : NoStmt fs) (e : Expr) : NoStmt (.expr e :: fs) :=
  List.forall_mem_cons.2 ⟨rfl, h⟩

theorem NoStmt.typeName {fs : List Fragment} (h : NoStmt fs) (t : TypeName) :
    NoStmt (.typeName t :: fs) := List.forall_mem_cons.2 ⟨rfl, h⟩

theorem NoStmt.append {fs gs : List Fragment} (h : NoStmt fs) (h' : NoStmt gs) : NoStmt (fs ++ gs) :=
  List.forall_mem_append.2 ⟨h, h'⟩

mutual

theorem Expr.noStmt : ∀ e : Expr, NoStmt e.fragments
  | .binary left _ right _ | .assignment left _ right _ => by
      rw [Expr.fragments]
      exact (left.noStmt.append right.noStmt).expr _
  | .unary _ operand _ | .update _ _ operand _ => by
      rw [Expr.fragments]
      exact operand.noStmt.expr _
  | .ternary condition ifTrue ifFalse _ => by
      rw [Expr.fragments]
      exact ((condition.noStmt.append ifTrue.noStmt).append ifFalse.noStmt).expr _
  | .call callee arguments _ => by
      rw [Expr.fragments]
      exact (callee.noStmt.append arguments.noStmt).expr _
  | .member object _ _ => by
      rw [Expr.fragments]
      exact object.noStmt.expr _
  | .index base index _ => by
      rw [Expr.fragments]
      exact (base.noStmt.append (option_noStmt index)).expr _
  | .slice base lower upper _ => by
      rw [Expr.fragments]
      exact ((base.noStmt.append (option_noStmt lower)).append (option_noStmt upper)).expr _
  | .tuple elements _ => by
      rw [Expr.fragments]
      exact (places_noStmt elements).expr _
  | .inlineArray elements _ => by
      rw [Expr.fragments]
      exact (exprs_noStmt elements).expr _
  | .struct type fields _ => by
      rw [Expr.fragments]
      exact (type.noStmt.append (named_noStmt fields)).expr _
  | .new type _ | .metaType type _ => by
      rw [Expr.fragments]
      exact type.noStmt.expr _
  | .cast _ argument _ => by
      rw [Expr.fragments]
      exact argument.noStmt.expr _
  | .payable arguments _ => by
      rw [Expr.fragments]
      exact arguments.noStmt.expr _
  | .parenthesized inner _ => by
      rw [Expr.fragments]
      exact inner.noStmt.expr _
  | .elementary _ | .literal _ | .identifier _ => by
      rw [Expr.fragments]
      exact noStmt_nil.expr _

theorem Arguments.noStmt : ∀ a : Arguments, NoStmt a.fragments
  | .positional arguments _ => by
      rw [Arguments.fragments]
      exact exprs_noStmt arguments
  | .named arguments _ => by
      rw [Arguments.fragments]
      exact named_noStmt arguments

theorem NamedArgument.noStmt : ∀ a : NamedArgument, NoStmt a.fragments
  | ⟨_, value, _⟩ => by
      rw [NamedArgument.fragments]
      exact value.noStmt

theorem TypeName.noStmt : ∀ t : TypeName, NoStmt t.fragments
  | .elementary _ | .userDefined _ => by
      rw [TypeName.fragments]
      exact noStmt_nil.typeName _
  | .mapping key value _ => by
      rw [TypeName.fragments]
      exact (key.noStmt.append value.noStmt).typeName _
  | .array base size _ => by
      rw [TypeName.fragments]
      exact (base.noStmt.append (option_noStmt size)).typeName _
  | .function parameters _ returns _ => by
      rw [TypeName.fragments]
      exact ((parameters_noStmt parameters).append (parameters_noStmt returns)).typeName _

theorem Parameter.noStmt : ∀ p : Parameter, NoStmt p.fragments
  | ⟨type, _, _, _⟩ => by
      rw [Parameter.fragments]
      exact type.noStmt

theorem option_noStmt : ∀ e : Option Expr, NoStmt (optionFragments e)
  | none => by
      rw [optionFragments]
      exact noStmt_nil
  | some e => by
      rw [optionFragments]
      exact e.noStmt

theorem places_noStmt : ∀ es : List (Option Expr), NoStmt (placeFragments es)
  | [] => by
      rw [placeFragments]
      exact noStmt_nil
  | e :: es => by
      rw [placeFragments]
      exact (option_noStmt e).append (places_noStmt es)

theorem exprs_noStmt : ∀ es : List Expr, NoStmt (exprFragments es)
  | [] => by
      rw [exprFragments]
      exact noStmt_nil
  | e :: es => by
      rw [exprFragments]
      exact e.noStmt.append (exprs_noStmt es)

theorem named_noStmt : ∀ as : List NamedArgument, NoStmt (namedFragments as)
  | [] => by
      rw [namedFragments]
      exact noStmt_nil
  | a :: as => by
      rw [namedFragments]
      exact a.noStmt.append (named_noStmt as)

theorem parameters_noStmt : ∀ ps : List Parameter, NoStmt (parameterFragments ps)
  | [] => by
      rw [parameterFragments]
      exact noStmt_nil
  | p :: ps => by
      rw [parameterFragments]
      exact p.noStmt.append (parameters_noStmt ps)

end

/-! ### Every `if` in a piece of syntax -/

/-- Where the fragment is an `if` with an `else`, the branch before the `else` is not open. -/
def Fragment.ElseNearest : Fragment → Prop
  | .stmt (.ifElse _ thenBranch (some _) _) => thenBranch.isOpen = false
  | _ => True

/-- All fragments are such. -/
def ElseNearest (fs : List Fragment) : Prop := ∀ f ∈ fs, f.ElseNearest

theorem NoStmt.elseNearest {fs : List Fragment} (h : NoStmt fs) : ElseNearest fs := by
  intro f hf
  have hf := h f hf
  cases f with
  | stmt s => exact absurd hf (by simp [Fragment.isStmt])
  | _ => trivial

theorem ElseNearest.append {fs gs : List Fragment} (h : ElseNearest fs) (h' : ElseNearest gs) :
    ElseNearest (fs ++ gs) := List.forall_mem_append.2 ⟨h, h'⟩

theorem ElseNearest.flatMap {α : Type} {xs : List α} {g : α → List Fragment}
    (h : ∀ x ∈ xs, ElseNearest (g x)) : ElseNearest (xs.flatMap g) :=
  List.forall_mem_flatMap.2 h

theorem elseNearest_cons {f : Fragment} {fs : List Fragment} (h : f.ElseNearest)
    (hfs : ElseNearest fs) : ElseNearest (f :: fs) := List.forall_mem_cons.2 ⟨h, hfs⟩

theorem Phrase.Shows.of {L : Phrase} {P : Prop} (h : P) : L.Shows P := fun _ _ _ _ => h

theorem Declarator.noStmt (d : Declarator) : NoStmt d.fragments := by
  cases d with
  | single d => exact d.type.noStmt
  | tuple elements span =>
    refine List.forall_mem_flatMap.2 fun d _ => ?_
    cases d with
    | none => exact noStmt_nil
    | some d => exact d.type.noStmt
  | varTuple names span => exact noStmt_nil

/-- Where an `if` is written with an `else`, its other branch is not open. -/
theorem Stmt.shows_ifElse (condition : Expr) (thenBranch : Stmt) (elseBranch : Option Stmt)
    (span : Span) : (Stmt.ifElse condition thenBranch elseBranch span).phrase.Shows
      (Fragment.stmt (.ifElse condition thenBranch elseBranch span)).ElseNearest := by
  cases elseBranch with
  | none => exact Shows.of trivial
  | some s =>
    intro ts es rest h
    change thenBranch.isOpen = false
    rw [Bool.eq_false_iff]
    intro hopen
    rw [Stmt.phrase, elsePhrase] at h
    exact (thenBranch.faces_of_open hopen).right.not_token _ _ _ (covered_le _ _ _ h)

theorem Stmt.shows_missing_nearest (s : Stmt) (around : Span) :
    (s.missing around).Shows (ElseNearest s.fragments) := by
  intro ts es rest h
  cases s with
  | error mark =>
    rw [Stmt.fragments]
    exact elseNearest_cons trivial noStmt_nil.elseNearest
  | _ => exact h.elim

mutual

theorem Stmt.shows_nearest : ∀ s : Stmt, s.phrase.Shows (ElseNearest s.fragments)
  | .block b => by
      rw [Stmt.phrase, Stmt.fragments]
      exact b.shows_nearest.imp (elseNearest_cons trivial)
  | .ifElse condition thenBranch elseBranch span => by
      intro ts es rest h
      have hfirst := Stmt.shows_ifElse _ _ _ _ _ _ _ h
      rw [Stmt.phrase] at h
      obtain ⟨hthen, helse⟩ :=
        (thenBranch.shows_nearest.right.both (else_shows_nearest elseBranch)).covered _ _ _ h
      rw [Stmt.fragments]
      exact elseNearest_cons hfirst ((condition.noStmt.elseNearest.append hthen).append helse)
  | .forLoop init condition update body span => by
      rw [Stmt.phrase, Stmt.fragments]
      refine Shows.imp (.covered (.both (.left (.left (.left (.left
        (init_shows_nearest init).right)))) body.shows_nearest)) ?_
      rintro ⟨hinit, hbody⟩
      refine elseNearest_cons trivial ?_
      exact ((hinit.append (option_noStmt condition).elseNearest).append
        (option_noStmt update).elseNearest).append hbody
  | .whileLoop condition body span => by
      rw [Stmt.phrase, Stmt.fragments]
      exact body.shows_nearest.right.covered.imp fun hbody =>
        elseNearest_cons trivial (condition.noStmt.elseNearest.append hbody)
  | .doWhile body condition span => by
      rw [Stmt.phrase, Stmt.fragments]
      exact body.shows_nearest.right.left.left.left.covered.imp fun hbody =>
        elseNearest_cons trivial (hbody.append condition.noStmt.elseNearest)
  | .tryCatch expression returns body clauses span => by
      rw [Stmt.phrase, Stmt.fragments, clausePhrases_eq]
      refine Shows.imp (.such (.covered (.both body.shows_nearest.right
        (shows_prod (clauses_show_nearest clauses))))) ?_
      rintro ⟨-, hbody, hclauses⟩
      refine elseNearest_cons trivial (((expression.noStmt.append
        (parameters_noStmt returns)).elseNearest.append hbody).append ?_)
      exact forall_clauseFragments.2 hclauses
  | .expression e span => Shows.of <| by
      rw [Stmt.fragments]
      exact elseNearest_cons trivial e.noStmt.elseNearest
  | .variables declarator value span => Shows.of <| by
      rw [Stmt.fragments]
      exact elseNearest_cons trivial (declarator.noStmt.append (option_noStmt value)).elseNearest
  | .return_ value span => Shows.of <| by
      rw [Stmt.fragments]
      exact elseNearest_cons trivial (option_noStmt value).elseNearest
  | .emit event arguments span => Shows.of <| by
      rw [Stmt.fragments]
      exact elseNearest_cons trivial arguments.noStmt.elseNearest
  | .continue_ span | .break_ span | .throw span | .assembly .. | .error mark => Shows.of <| by
      rw [Stmt.fragments]
      exact elseNearest_cons trivial noStmt_nil.elseNearest

theorem Block.shows_nearest : ∀ b : Block, b.phrase.Shows (ElseNearest b.fragments)
  | ⟨statements, span⟩ => by
      rw [Block.phrase, Block.fragments, stmtPhrases_eq]
      refine Shows.imp (.covered (.right (shows_body (stmts_show_nearest statements)
        fun s _ => s.shows_missing_nearest span))) ?_
      exact forall_stmtFragments.2

theorem CatchClause.shows_nearest : ∀ c : CatchClause, c.phrase.Shows (ElseNearest c.fragments)
  | ⟨name, parameters, body, span⟩ => by
      rw [CatchClause.phrase, CatchClause.fragments]
      refine body.shows_nearest.right.covered.imp fun hbody => ElseNearest.append ?_ hbody
      cases parameters with
      | none => exact noStmt_nil.elseNearest
      | some ps => exact (parameters_noStmt ps).elseNearest

theorem else_shows_nearest : ∀ s : Option Stmt,
    (elsePhrase s).Shows (ElseNearest (branchFragments s))
  | none => by
      rw [branchFragments]
      exact Shows.of noStmt_nil.elseNearest
  | some s => by
      rw [elsePhrase, branchFragments]
      exact s.shows_nearest.right

theorem init_shows_nearest : ∀ s : Option Stmt,
    (initPhrase s).Shows (ElseNearest (branchFragments s))
  | none => by
      rw [branchFragments]
      exact Shows.of noStmt_nil.elseNearest
  | some s => by
      rw [initPhrase, branchFragments]
      exact s.shows_nearest.such.imp And.right

theorem stmts_show_nearest : ∀ ss : List Stmt, ∀ s ∈ ss, s.phrase.Shows (ElseNearest s.fragments)
  | [] => by simp
  | s :: ss => List.forall_mem_cons.2 ⟨s.shows_nearest, stmts_show_nearest ss⟩

theorem clauses_show_nearest : ∀ cs : List CatchClause, ∀ c ∈ cs,
    c.phrase.Shows (ElseNearest c.fragments)
  | [] => by simp
  | c :: cs => List.forall_mem_cons.2 ⟨c.shows_nearest, clauses_show_nearest cs⟩

end

/-! ### Declarations -/

theorem arguments?_noStmt (arguments : Option Arguments) :
    NoStmt (arguments.elim [] Arguments.fragments) := by
  cases arguments with
  | none => exact noStmt_nil
  | some as => exact as.noStmt

theorem signature_noStmt (parameters : List Parameter) (attributes : List FunctionAttribute) :
    NoStmt (signatureFragments parameters attributes) := by
  refine (parameters_noStmt parameters).append (List.forall_mem_flatMap.2 fun a _ => ?_)
  cases a with
  | modifier m => exact arguments?_noStmt m.arguments
  | _ => exact noStmt_nil

theorem shows_functionBody_nearest (body : Option Block) :
    (functionBodyPhrase body).Shows (ElseNearest (bodyFragments body)) := by
  cases body with
  | none => exact Shows.of noStmt_nil.elseNearest
  | some b => exact b.shows_nearest

theorem FunctionDefinition.shows_nearest (d : FunctionDefinition) :
    d.phrase.Shows (ElseNearest d.fragments) := by
  refine (shows_functionBody_nearest d.body).right.covered.imp fun hbody => ?_
  exact ((signature_noStmt _ _).append (parameters_noStmt _)).elseNearest.append hbody

theorem ModifierDefinition.shows_nearest (d : ModifierDefinition) :
    d.phrase.Shows (ElseNearest d.fragments) :=
  (shows_functionBody_nearest d.body).right.covered.imp (signature_noStmt _ _).elseNearest.append

theorem ConstructorDefinition.shows_nearest (d : ConstructorDefinition) :
    d.phrase.Shows (ElseNearest d.fragments) :=
  (shows_functionBody_nearest d.body).right.covered.imp (signature_noStmt _ _).elseNearest.append

theorem FallbackDefinition.shows_nearest (d : FallbackDefinition) :
    d.phrase.Shows (ElseNearest d.fragments) :=
  (shows_functionBody_nearest d.body).right.covered.imp (signature_noStmt _ _).elseNearest.append

theorem StructDeclaration.noStmt (d : StructDeclaration) : NoStmt d.fragments :=
  List.forall_mem_flatMap.2 fun m _ => m.type.noStmt

theorem Member.shows_nearest (m : Member) : m.phrase.Shows (ElseNearest m.fragments) := by
  cases m with
  | function d => exact d.shows_nearest
  | modifier d => exact d.shows_nearest
  | constructor d => exact d.shows_nearest
  | fallback d => exact d.shows_nearest
  | stateVariable d => exact Shows.of (d.type.noStmt.append (option_noStmt d.value)).elseNearest
  | struct d => exact Shows.of d.noStmt.elseNearest
  | event d =>
    exact Shows.of (ElseNearest.flatMap fun p _ => p.type.noStmt.elseNearest)
  | using_ d =>
    refine Shows.of ?_
    rw [Member.fragments, UsingDirective.fragments]
    cases d.target with
    | wildcard span => exact noStmt_nil.elseNearest
    | type t => exact t.noStmt.elseNearest
  | enum d | error mark => exact Shows.of noStmt_nil.elseNearest

theorem Member.shows_missing_nearest (m : Member) (around : Span) :
    (m.missing around).Shows (ElseNearest m.fragments) := by
  cases m with
  | error mark => exact Shows.of noStmt_nil.elseNearest
  | _ => exact fun _ _ _ h => h.elim

theorem ContractDeclaration.shows_nearest (d : ContractDeclaration) :
    d.phrase.Shows (ElseNearest d.fragments) := by
  refine Shows.imp (.covered (.right (.right (shows_body (fun m _ => m.shows_nearest)
    fun m _ => m.shows_missing_nearest d.span)))) fun hmembers => ?_
  refine ElseNearest.append ?_ (ElseNearest.flatMap hmembers)
  exact ElseNearest.flatMap fun i _ => (arguments?_noStmt i.arguments).elseNearest

theorem SourceUnit.shows_nearest (u : SourceUnit) : u.phrase.Shows (ElseNearest u.fragments) := by
  cases u with
  | contract d => exact d.shows_nearest
  | struct d => exact Shows.of d.noStmt.elseNearest
  | function d => exact d.shows_nearest
  | constant d => exact Shows.of (d.type.noStmt.append d.value.noStmt).elseNearest
  | pragma d | import_ d | enum d | error mark => exact Shows.of noStmt_nil.elseNearest

theorem SourceFile.shows_nearest (f : SourceFile) :
    (f.items.map SourceUnit.phrase).prod.Shows (ElseNearest f.fragments) :=
  (shows_prod fun u _ => u.shows_nearest).imp ElseNearest.flatMap

/-! ### What a source gives -/

theorem WrittenIn.shown {source : String} {L : Phrase} {P : Prop} (h : WrittenIn source L)
    (hL : L.Shows P) : P := by
  obtain ⟨-, ts, es, after, -, hphrase⟩ := h
  exact hL _ _ _ hphrase

/-- In the file that is read from a source, and in each file or statement that a session gives, every
`else` belongs to the nearest `if`: no branch before an `else` is open. -/
theorem parse_elseNearest (source : String) : ElseNearest (parse source).file.fragments
    ∧ ∀ s, Session.Reachable source s → ElseNearest s.file.1.fragments
      ∧ ∀ x, s.statement.1 = .ok x → ElseNearest x.fragments := by
  refine ⟨SourceFile.shows_nearest _ _ _ _ (parse_phrase source), fun s hs => ⟨?_, fun x hx => ?_⟩⟩
  · exact hs.sound.file.1.shown (SourceFile.shows_nearest _).left
  · exact (hs.sound.statement.1 x hx).shown x.shows_nearest

/-- Whether a statement is an `if` without an `else`. -/
def Stmt.lacksElse : Stmt → Bool
  | .ifElse _ _ none _ => true
  | _ => false

/-- An `else` behind two `if` belongs to the second, so that the first has none. -/
theorem statement_elseNearest_loop : ∃ condition body span,
    (Session.ofSource "if (a) while (b) if (c) d; else e;").statement.1
        = .ok (.ifElse condition body none span)
      ∧ ElseNearest (Stmt.ifElse condition body none span).fragments := by
  have heval : (Session.ofSource "if (a) while (b) if (c) d; else e;").statement.1.toOption.any
      Stmt.lacksElse := by
    rw [Session.ofSource_ofList]
    decide +kernel
  set s := Session.ofSource "if (a) while (b) if (c) d; else e;"
  rcases hstatement : s.statement.1 with error | x
  · rw [hstatement] at heval
    simp [Except.toOption] at heval
  · rw [hstatement] at heval
    have hnearest := ((parse_elseNearest _).2 s .start).2 x hstatement
    cases x with
    | ifElse condition body elseBranch span =>
      cases elseBranch with
      | none => exact ⟨condition, body, span, rfl, hnearest⟩
      | some e => simp [Except.toOption, Stmt.lacksElse] at heval
    | _ => simp [Except.toOption, Stmt.lacksElse] at heval

end SolidityFrontend
