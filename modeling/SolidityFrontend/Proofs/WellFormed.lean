import SolidityFrontend.Proofs.Reporting
import SolidityFrontend.Proofs.VersionPlaces

/-!
# Well-formed syntax

What the grammar demands of a piece of syntax beyond the types of its parts: which expressions may be
assigned to, which lists may not be empty, which types may stand in which place. A piece of syntax is
well-formed if this holds of it and of all its parts. Whatever is written is well-formed
(`Phrase.Shows`), so every file that is read is, however many faults its source has.
-/

namespace SolidityFrontend

open Phrase

/-! ### Names, literals and types -/

/-- A path has a segment. -/
def Path.WellFormed (p : Path) : Prop := p.segments ≠ []

/-- The literal has the parts it is put together from. -/
def Literal.WellFormed : Literal → Prop
  | .string l | .hexString l | .unicodeString l => l.parts ≠ []
  | .number _ | .boolean .. => True

/-- Values of function types are internal or external. -/
def FunctionTypeAttribute.WellFormed : FunctionTypeAttribute → Prop
  | .visibility v _ => v = .internal ∨ v = .external
  | .mutability .. => True

mutual

def Expr.WellFormed : Expr → Prop
  | .binary left _ right _ => left.WellFormed ∧ right.WellFormed
  | .unary _ operand _ | .update _ _ operand _ => operand.WellFormed
  | .ternary condition ifTrue ifFalse _ =>
      (condition.WellFormed ∧ ifTrue.WellFormed) ∧ ifFalse.WellFormed
  | .assignment left _ right _ => left.isAssignable ∧ left.WellFormed ∧ right.WellFormed
  | .call callee arguments _ => callee.WellFormed ∧ arguments.WellFormed
  | .member object _ _ => object.WellFormed
  | .index base index _ => base.WellFormed ∧ optionWellFormed index
  | .slice base lower upper _ =>
      (base.WellFormed ∧ optionWellFormed lower) ∧ optionWellFormed upper
  | .tuple elements _ => elements.length ≠ 1 ∧ placesWellFormed elements
  | .inlineArray elements _ => exprsWellFormed elements
  | .struct type fields _ => fields ≠ [] ∧ type.WellFormed ∧ namedWellFormed fields
  | .new type _ | .metaType type _ => type.WellFormed
  | .cast type argument _ => type.kind ≠ .addressPayable ∧ argument.WellFormed
  | .elementary type => type.kind ≠ .addressPayable
  | .payable arguments _ => arguments.WellFormed
  | .parenthesized inner _ => inner.WellFormed
  | .literal l => l.WellFormed
  | .identifier _ => True

def Arguments.WellFormed : Arguments → Prop
  | .positional arguments _ => exprsWellFormed arguments
  | .named arguments _ => namedWellFormed arguments

def NamedArgument.WellFormed : NamedArgument → Prop
  | ⟨_, value, _⟩ => value.WellFormed

def TypeName.WellFormed : TypeName → Prop
  | .elementary _ => True
  | .userDefined path => path.WellFormed
  | .mapping key value _ => key.isKey ∧ key.WellFormed ∧ value.WellFormed
  | .array base size _ => base.WellFormed ∧ optionWellFormed size
  | .function parameters attributes returns _ => (parametersWellFormed parameters
      ∧ ∀ a ∈ attributes, a.WellFormed) ∧ parametersWellFormed returns

def Parameter.WellFormed : Parameter → Prop
  | ⟨type, _, _, _⟩ => type.WellFormed

def optionWellFormed : Option Expr → Prop
  | none => True
  | some e => e.WellFormed

def placesWellFormed : List (Option Expr) → Prop
  | [] => True
  | e :: es => optionWellFormed e ∧ placesWellFormed es

def exprsWellFormed : List Expr → Prop
  | [] => True
  | e :: es => e.WellFormed ∧ exprsWellFormed es

def namedWellFormed : List NamedArgument → Prop
  | [] => True
  | a :: as => a.WellFormed ∧ namedWellFormed as

def parametersWellFormed : List Parameter → Prop
  | [] => True
  | p :: ps => p.WellFormed ∧ parametersWellFormed ps

end

theorem optionWellFormed_iff {e : Option Expr} :
    optionWellFormed e ↔ ∀ x ∈ e, x.WellFormed := by
  cases e <;> simp [optionWellFormed]

theorem placesWellFormed_iff {es : List (Option Expr)} :
    placesWellFormed es ↔ ∀ e ∈ es, ∀ x ∈ e, x.WellFormed := by
  induction es with
  | nil => simp [placesWellFormed]
  | cons e es ih => rw [placesWellFormed, optionWellFormed_iff, ih, List.forall_mem_cons]

theorem exprsWellFormed_iff {es : List Expr} :
    exprsWellFormed es ↔ ∀ e ∈ es, e.WellFormed := by
  induction es with
  | nil => simp [exprsWellFormed]
  | cons e es ih => rw [exprsWellFormed, ih, List.forall_mem_cons]

theorem namedWellFormed_iff {as : List NamedArgument} :
    namedWellFormed as ↔ ∀ a ∈ as, a.WellFormed := by
  induction as with
  | nil => simp [namedWellFormed]
  | cons a as ih => rw [namedWellFormed, ih, List.forall_mem_cons]

theorem parametersWellFormed_iff {ps : List Parameter} :
    parametersWellFormed ps ↔ ∀ p ∈ ps, p.WellFormed := by
  induction ps with
  | nil => simp [parametersWellFormed]
  | cons p ps ih => rw [parametersWellFormed, ih, List.forall_mem_cons]

/-! ### Statements -/

def VariableDeclaration.WellFormed (d : VariableDeclaration) : Prop := d.type.WellFormed

/-- A tuple of variables has one. -/
def Declarator.WellFormed : Declarator → Prop
  | .single d => d.WellFormed
  | .tuple elements _ =>
      (∃ d, some d ∈ elements) ∧ ∀ e ∈ elements, ∀ d ∈ e, d.WellFormed
  | .varTuple .. => True

/-- A declaration of several variables. -/
def Declarator.isTuple : Declarator → Prop
  | .single _ => False
  | .tuple .. | .varTuple .. => True

mutual

def Stmt.WellFormed : Stmt → Prop
  | .block b => b.WellFormed
  | .expression e _ => e.WellFormed
  | .variables declarator value _ => (declarator.isTuple → value.isSome)
      ∧ declarator.WellFormed ∧ ∀ e ∈ value, e.WellFormed
  | .ifElse condition thenBranch elseBranch _ =>
      (condition.WellFormed ∧ thenBranch.WellFormed) ∧ branchWellFormed elseBranch
  | .forLoop init condition update body _ => (∀ s ∈ init, s.isSimple)
      ∧ ((branchWellFormed init ∧ ∀ e ∈ condition, e.WellFormed) ∧ ∀ e ∈ update, e.WellFormed)
      ∧ body.WellFormed
  | .whileLoop condition body _ => condition.WellFormed ∧ body.WellFormed
  | .doWhile body condition _ => body.WellFormed ∧ condition.WellFormed
  | .return_ value _ => ∀ e ∈ value, e.WellFormed
  | .emit event arguments _ => event.WellFormed ∧ arguments.WellFormed
  | .tryCatch expression returns body clauses _ => clauses ≠ []
      ∧ ((expression.WellFormed ∧ ∀ p ∈ returns, p.WellFormed) ∧ body.WellFormed)
      ∧ clausesWellFormed clauses
  | .continue_ _ | .break_ _ | .throw _ | .assembly .. | .error _ => True

def Block.WellFormed : Block → Prop
  | ⟨statements, _⟩ => stmtsWellFormed statements

def CatchClause.WellFormed : CatchClause → Prop
  | ⟨_, parameters, body, _⟩ =>
      (∀ ps ∈ parameters, ∀ p ∈ ps, p.WellFormed) ∧ body.WellFormed

def branchWellFormed : Option Stmt → Prop
  | none => True
  | some s => s.WellFormed

def stmtsWellFormed : List Stmt → Prop
  | [] => True
  | s :: ss => s.WellFormed ∧ stmtsWellFormed ss

def clausesWellFormed : List CatchClause → Prop
  | [] => True
  | c :: cs => c.WellFormed ∧ clausesWellFormed cs

end

theorem stmtsWellFormed_iff {ss : List Stmt} :
    stmtsWellFormed ss ↔ ∀ s ∈ ss, s.WellFormed := by
  induction ss with
  | nil => simp [stmtsWellFormed]
  | cons s ss ih => rw [stmtsWellFormed, ih, List.forall_mem_cons]

theorem clausesWellFormed_iff {cs : List CatchClause} :
    clausesWellFormed cs ↔ ∀ c ∈ cs, c.WellFormed := by
  induction cs with
  | nil => simp [clausesWellFormed]
  | cons c cs ih => rw [clausesWellFormed, ih, List.forall_mem_cons]

/-! ### Declarations -/

/-- A version requirement has alternatives, and each of them constraints. -/
def PragmaDirective.WellFormed (d : PragmaDirective) : Prop :=
  match d.value with
  | .version requirement =>
      requirement.alternatives ≠ [] ∧ ∀ a ∈ requirement.alternatives, a ≠ []
  | .raw .. => True

/-- All names are imported under a name for the whole, or some names are imported. -/
def ImportClause.WellFormed : ImportClause → Prop
  | .single symbol renamed _ => (∃ star, symbol = .wildcard star) → renamed.isSome
  | .multiple symbols _ => symbols ≠ []

def ImportDirective.WellFormed (d : ImportDirective) : Prop := ∀ c ∈ d.clause, c.WellFormed

def UsingTarget.WellFormed : UsingTarget → Prop
  | .wildcard _ => True
  | .type t => t.WellFormed

def UsingDirective.WellFormed (d : UsingDirective) : Prop :=
  d.library.WellFormed ∧ d.target.WellFormed

def OverrideSpecifier.WellFormed (o : OverrideSpecifier) : Prop := ∀ p ∈ o.overrides, p.WellFormed

def ModifierInvocation.WellFormed (m : ModifierInvocation) : Prop :=
  m.path.WellFormed ∧ ∀ as ∈ m.arguments, as.WellFormed

def FunctionAttribute.WellFormed : FunctionAttribute → Prop
  | .visibility .. | .mutability .. | .virtual _ => True
  | .override o => o.WellFormed
  | .modifier m => m.WellFormed

/-- The parameters and attributes that functions with and without names share. -/
def signatureWellFormed (parameters : List Parameter) (attributes : List FunctionAttribute) : Prop :=
  (∀ p ∈ parameters, p.WellFormed) ∧ ∀ a ∈ attributes, a.WellFormed

def FunctionDefinition.WellFormed (d : FunctionDefinition) : Prop :=
  (signatureWellFormed d.parameters d.attributes ∧ ∀ p ∈ d.returns, p.WellFormed)
    ∧ ∀ b ∈ d.body, b.WellFormed

def ModifierDefinition.WellFormed (d : ModifierDefinition) : Prop :=
  signatureWellFormed d.parameters d.attributes ∧ ∀ b ∈ d.body, b.WellFormed

def ConstructorDefinition.WellFormed (d : ConstructorDefinition) : Prop :=
  signatureWellFormed d.parameters d.attributes ∧ ∀ b ∈ d.body, b.WellFormed

def FallbackDefinition.WellFormed (d : FallbackDefinition) : Prop :=
  signatureWellFormed d.parameters d.attributes ∧ ∀ b ∈ d.body, b.WellFormed

def VariableAttribute.WellFormed : VariableAttribute → Prop
  | .visibility .. | .constant _ | .immutable _ => True
  | .override o => o.WellFormed

def StateVariable.WellFormed (d : StateVariable) : Prop :=
  (d.type.WellFormed ∧ ∀ a ∈ d.attributes, a.WellFormed) ∧ ∀ e ∈ d.value, e.WellFormed

def ConstantDeclaration.WellFormed (d : ConstantDeclaration) : Prop :=
  d.type.WellFormed ∧ d.value.WellFormed

def StructMember.WellFormed (m : StructMember) : Prop := m.type.WellFormed

def StructDeclaration.WellFormed (d : StructDeclaration) : Prop := ∀ m ∈ d.members, m.WellFormed

def EventParameter.WellFormed (p : EventParameter) : Prop := p.type.WellFormed

def EventDefinition.WellFormed (d : EventDefinition) : Prop := ∀ p ∈ d.parameters, p.WellFormed

def Member.WellFormed : Member → Prop
  | .function d => d.WellFormed
  | .modifier d => d.WellFormed
  | .constructor d => d.WellFormed
  | .fallback d => d.WellFormed
  | .stateVariable d => d.WellFormed
  | .struct d => d.WellFormed
  | .event d => d.WellFormed
  | .using_ d => d.WellFormed
  | .enum _ | .error _ => True

def InheritanceSpecifier.WellFormed (i : InheritanceSpecifier) : Prop :=
  i.ancestor.WellFormed ∧ ∀ as ∈ i.arguments, as.WellFormed

/-- Only a contract proper is abstract, and a library has no bases. -/
def ContractDeclaration.WellFormed (d : ContractDeclaration) : Prop :=
  (d.isAbstract → d.kind = .contract) ∧ (d.kind = .library → d.inheritance = [])
    ∧ (∀ i ∈ d.inheritance, i.WellFormed) ∧ ∀ m ∈ d.members, m.WellFormed

def SourceUnit.WellFormed : SourceUnit → Prop
  | .pragma d => d.WellFormed
  | .import_ d => d.WellFormed
  | .contract d => d.WellFormed
  | .struct d => d.WellFormed
  | .function d => d.WellFormed
  | .constant d => d.WellFormed
  | .enum _ | .error _ => True

def SourceFile.WellFormed (f : SourceFile) : Prop := ∀ u ∈ f.items, u.WellFormed

/-! ### What a phrase shows -/

namespace Phrase

variable {L M : Phrase} {P Q : Prop}

/-- Where the phrase is written, a statement holds. -/
def Shows (L : Phrase) (P : Prop) : Prop := ∀ ts es rest, L ts es rest → P

theorem Shows.trivial (L : Phrase) : L.Shows True := fun _ _ _ _ => True.intro

theorem Shows.mono (h : M.Shows P) (hL : L ≤ M) : L.Shows P := fun _ _ _ hl => h _ _ _ (hL _ _ _ hl)

theorem Shows.imp (h : L.Shows P) (hP : P → Q) : L.Shows Q := fun _ _ _ hl => hP (h _ _ _ hl)

theorem Shows.left (h : L.Shows P) : (L * M).Shows P := by
  rintro ts es rest ⟨_, _, _, _, rfl, rfl, hl, -⟩
  exact h _ _ _ hl

theorem Shows.right (h : M.Shows P) : (L * M).Shows P := by
  rintro ts es rest ⟨_, _, _, _, rfl, rfl, -, hm⟩
  exact h _ _ _ hm

theorem Shows.both (h : L.Shows P) (h' : M.Shows Q) : (L * M).Shows (P ∧ Q) :=
  fun _ _ _ hlm => ⟨h.left _ _ _ hlm, h'.right _ _ _ hlm⟩

theorem Shows.such {p : Prop} (h : L.Shows P) : (such p L).Shows (p ∧ P) :=
  fun _ _ _ ⟨hp, hl⟩ => ⟨hp, h _ _ _ hl⟩

theorem Shows.covered {span : Span} (h : L.Shows P) : (covered span L).Shows P := h.mono covered_le

theorem Shows.sup (h : L.Shows P) (h' : M.Shows P) : (L ⊔ M).Shows P :=
  fun _ _ _ hl => hl.elim (h _ _ _) (h' _ _ _)

section

variable {α : Type} {f : α → Phrase} {P : α → Prop} {xs : List α}

theorem shows_perhaps {o : Option α} (h : ∀ x ∈ o, (f x).Shows (P x)) :
    (perhaps (o.map f)).Shows (∀ x ∈ o, P x) := by
  cases o with
  | none => exact (Shows.trivial _).imp fun _ => by simp
  | some x => exact (h x rfl).imp fun hx => by simpa using hx

theorem shows_prod (h : ∀ x ∈ xs, (f x).Shows (P x)) : (xs.map f).prod.Shows (∀ x ∈ xs, P x) := by
  induction xs with
  | nil => exact (Shows.trivial _).imp fun _ => by simp
  | cons x xs ih =>
    obtain ⟨hx, hxs⟩ := List.forall_mem_cons.1 h
    rw [List.map_cons, List.prod_cons]
    exact (hx.both (ih hxs)).imp List.forall_mem_cons.2

theorem shows_separated (h : ∀ x ∈ xs, (f x).Shows (P x)) :
    (separated (xs.map f)).Shows (∀ x ∈ xs, P x) := by
  rcases xs with _ | ⟨x, xs⟩
  · exact (Shows.trivial _).imp fun _ => by simp
  · obtain ⟨hx, hxs⟩ := List.forall_mem_cons.1 h
    rw [List.map_cons, separated, List.map_map]
    exact (hx.both (shows_prod fun y hy => (hxs y hy).right)).imp List.forall_mem_cons.2

theorem shows_trailed (h : ∀ x ∈ xs, (f x).Shows (P x)) :
    (trailed (xs.map f)).Shows (∀ x ∈ xs, P x) := by
  induction xs with
  | nil => exact (Shows.trivial _).imp fun _ => by simp
  | cons x xs ih =>
    obtain ⟨hx, hxs⟩ := List.forall_mem_cons.1 h
    rcases xs with _ | ⟨y, xs⟩
    · exact hx.left.imp fun hx => by simpa using hx
    · exact (hx.left.both (ih hxs)).imp List.forall_mem_cons.2

theorem shows_parenthesized (h : ∀ x ∈ xs, (f x).Shows (P x)) :
    (parenthesized (xs.map f)).Shows (∀ x ∈ xs, P x) := (shows_separated h).right.left

theorem shows_returned (h : ∀ x ∈ xs, (f x).Shows (P x)) :
    (returned (xs.map f)).Shows (∀ x ∈ xs, P x) := by
  refine Shows.sup ?_ (shows_parenthesized h).right
  exact (Shows.trivial _).such.imp fun hnil => by simp [List.map_eq_nil_iff.1 hnil.1]

/-- In a body that shows of each part what its phrases as a part and as a mark show. -/
theorem shows_body {m : α → Phrase} (h : ∀ x ∈ xs, (f x).Shows (P x))
    (hm : ∀ x ∈ xs, (m x).Shows (P x)) :
    (body (xs.map fun x => (f x, m x))).Shows (∀ x ∈ xs, P x) := by
  induction xs with
  | nil => exact (Shows.trivial _).imp fun _ => by simp
  | cons x xs ih =>
    obtain ⟨hx, hxs⟩ := List.forall_mem_cons.1 h
    obtain ⟨hmx, hmxs⟩ := List.forall_mem_cons.1 hm
    rw [List.map_cons, body]
    refine Shows.sup ((hx.both (ih hxs hmxs)).imp List.forall_mem_cons.2) ?_
    refine hmx.such.imp fun hlast => ?_
    obtain ⟨hnil, hx⟩ := hlast
    simpa [List.map_eq_nil_iff.1 hnil] using hx

end

end Phrase

open Phrase

/-! ### What is written is well-formed -/

theorem Path.shows_phrase (p : Path) : p.phrase.Shows p.WellFormed := by
  rintro ts es rest ⟨-, h⟩ hnil
  rw [hnil] at h
  exact h

theorem StringLiteral.shows_phrase {α : Type} (l : StringLiteral) (part? : Token → Option α)
    (bytes : α → List UInt8) (value : List α → String) :
    (l.phrase part? bytes value).Shows (l.parts ≠ []) := by
  rintro ts es rest ⟨hcovers, parts, hparts, -, -, h⟩ hnil
  rw [hnil] at hparts
  rw [List.map_eq_nil_iff.1 hparts.symm] at h
  exact hcovers.ne_nil h.1

theorem Literal.shows_phrase (l : Literal) : l.phrase.Shows l.WellFormed := by
  cases l with
  | string l | unicodeString l => exact l.shows_phrase _ _ _
  | hexString l => exact l.shows_phrase Grammar.hexPart? (Grammar.hexBytes ·.toList) _
  | number l => exact Shows.trivial _
  | boolean value span => exact Shows.trivial _

theorem FunctionTypeAttribute.shows_phrase (a : FunctionTypeAttribute) :
    a.phrase.Shows a.WellFormed := by
  cases a with
  | visibility v span => exact (Shows.trivial _).such.imp And.left
  | mutability m span => exact Shows.trivial _

mutual

theorem Expr.shows_phrase : ∀ e : Expr, e.phrase.Shows e.WellFormed
  | .binary left op right span => by
      rw [Expr.phrase, Expr.WellFormed]
      exact (left.shows_phrase.left.both right.shows_phrase).covered.such.imp And.right
  | .unary op operand span => by
      rw [Expr.phrase, Expr.WellFormed]
      exact operand.shows_phrase.right.covered.such.imp And.right
  | .update op .before operand span => by
      rw [Expr.phrase, Expr.WellFormed]
      exact operand.shows_phrase.right.covered.such.imp And.right
  | .update op .after operand span => by
      rw [Expr.phrase, Expr.WellFormed]
      exact operand.shows_phrase.left.covered.such.imp And.right
  | .ternary condition ifTrue ifFalse span => by
      rw [Expr.phrase, Expr.WellFormed]
      refine Shows.imp (.such (.covered (.both (.left ?_) ifFalse.shows_phrase))) And.right
      exact condition.shows_phrase.left.both ifTrue.shows_phrase
  | .assignment left op right span => by
      rw [Expr.phrase, Expr.WellFormed]
      refine Shows.imp (.such (.covered ?_)) fun ⟨⟨_, hleft⟩, h⟩ => ⟨hleft, h⟩
      exact left.shows_phrase.left.both right.shows_phrase
  | .call callee arguments span => by
      rw [Expr.phrase, Expr.WellFormed]
      exact (callee.shows_phrase.both arguments.shows_phrase).covered.such.imp And.right
  | .member object name span => by
      rw [Expr.phrase, Expr.WellFormed]
      exact object.shows_phrase.left.left.covered.such.imp And.right
  | .index base index span => by
      rw [Expr.phrase, Expr.WellFormed]
      refine Shows.imp (.such (.covered (.left ?_))) And.right
      exact base.shows_phrase.left.both (option_shows index)
  | .slice base lower upper span => by
      rw [Expr.phrase, Expr.WellFormed]
      refine Shows.imp (.such (.covered (.left (.both (.left ?_) (option_shows upper))))) And.right
      exact base.shows_phrase.left.both (option_shows lower)
  | .tuple elements span => by
      rw [Expr.phrase, Expr.WellFormed, placePhrases_eq, placesWellFormed_iff]
      exact (shows_parenthesized (places_show elements)).covered.such
  | .inlineArray elements span => by
      rw [Expr.phrase, Expr.WellFormed, exprPhrases_eq, exprsWellFormed_iff]
      exact (shows_trailed (exprs_show elements)).right.left.covered
  | .struct type fields span => by
      rw [Expr.phrase, Expr.WellFormed, namedPhrases_eq, namedWellFormed_iff]
      refine Shows.imp (.such (.covered (.left ?_))) fun ⟨⟨_, hfields⟩, h⟩ => ⟨hfields, h⟩
      exact type.shows_phrase.left.both (shows_trailed (named_show fields))
  | .new type span => by
      rw [Expr.phrase, Expr.WellFormed]
      exact type.shows_phrase.right.covered
  | .metaType type span => by
      rw [Expr.phrase, Expr.WellFormed]
      exact type.shows_phrase.right.left.covered
  | .cast type argument span => by
      rw [Expr.phrase, Expr.WellFormed]
      exact argument.shows_phrase.right.left.covered.such
  | .elementary type => by
      rw [Expr.phrase, Expr.WellFormed]
      exact (Shows.trivial _).such.imp And.left
  | .payable arguments span => by
      rw [Expr.phrase, Expr.WellFormed]
      exact arguments.shows_phrase.right.covered
  | .parenthesized inner span => by
      rw [Expr.phrase, Expr.WellFormed]
      exact inner.shows_phrase.right.left.covered
  | .literal l => by
      rw [Expr.phrase, Expr.WellFormed]
      exact l.shows_phrase
  | .identifier i => by
      rw [Expr.WellFormed]
      exact Shows.trivial _

theorem Arguments.shows_phrase : ∀ a : Arguments, a.phrase.Shows a.WellFormed
  | .positional arguments span => by
      rw [Arguments.phrase, Arguments.WellFormed, exprPhrases_eq, exprsWellFormed_iff]
      exact (shows_trailed (exprs_show arguments)).right.left.covered
  | .named arguments span => by
      rw [Arguments.phrase, Arguments.WellFormed, namedPhrases_eq, namedWellFormed_iff]
      exact (shows_trailed (named_show arguments)).right.left.right.left.covered

theorem NamedArgument.shows_phrase : ∀ a : NamedArgument, a.phrase.Shows a.WellFormed
  | ⟨name, value, span⟩ => by
      rw [NamedArgument.phrase, NamedArgument.WellFormed]
      exact value.shows_phrase.right.covered

theorem TypeName.shows_phrase : ∀ t : TypeName, t.phrase.Shows t.WellFormed
  | .elementary type => by
      rw [TypeName.WellFormed]
      exact Shows.trivial _
  | .userDefined path => by
      rw [TypeName.phrase, TypeName.WellFormed]
      exact path.shows_phrase
  | .mapping key value span => by
      rw [TypeName.phrase, TypeName.WellFormed]
      exact (key.shows_phrase.right.left.both value.shows_phrase).left.covered.such
  | .array base size span => by
      rw [TypeName.phrase, TypeName.WellFormed]
      exact (base.shows_phrase.left.both (option_shows size)).left.covered
  | .function parameters attributes returns span => by
      rw [TypeName.phrase, TypeName.WellFormed, parameterPhrases_eq, parameterPhrases_eq,
        parametersWellFormed_iff, parametersWellFormed_iff]
      refine Shows.covered (.both (.both (.right ?_) ?_) (shows_returned (parameters_show returns)))
      · exact shows_parenthesized (parameters_show parameters)
      · exact shows_prod fun a _ => a.shows_phrase

theorem Parameter.shows_phrase : ∀ p : Parameter, p.phrase.Shows p.WellFormed
  | ⟨type, location, name, span⟩ => by
      rw [Parameter.phrase, Parameter.WellFormed]
      exact type.shows_phrase.left.left.covered

theorem option_shows : ∀ e : Option Expr, (perhaps (optionPhrase e)).Shows (optionWellFormed e)
  | none => by
      rw [optionWellFormed]
      exact Shows.trivial _
  | some e => by
      rw [optionPhrase, optionWellFormed]
      exact e.shows_phrase

theorem places_show : ∀ es : List (Option Expr), ∀ e ∈ es,
    (perhaps (e.map Expr.phrase)).Shows (∀ x ∈ e, x.WellFormed)
  | [] => by simp
  | e :: es => by
      have he := option_shows e
      rw [optionPhrase_eq, optionWellFormed_iff] at he
      exact List.forall_mem_cons.2 ⟨he, places_show es⟩

theorem exprs_show : ∀ es : List Expr, ∀ e ∈ es, e.phrase.Shows e.WellFormed
  | [] => by simp
  | e :: es => List.forall_mem_cons.2 ⟨e.shows_phrase, exprs_show es⟩

theorem named_show : ∀ as : List NamedArgument, ∀ a ∈ as, a.phrase.Shows a.WellFormed
  | [] => by simp
  | a :: as => List.forall_mem_cons.2 ⟨a.shows_phrase, named_show as⟩

theorem parameters_show : ∀ ps : List Parameter, ∀ p ∈ ps, p.phrase.Shows p.WellFormed
  | [] => by simp
  | p :: ps => List.forall_mem_cons.2 ⟨p.shows_phrase, parameters_show ps⟩

end

theorem VariableDeclaration.shows_phrase (d : VariableDeclaration) :
    d.phrase.Shows d.WellFormed := d.type.shows_phrase.left.left.covered

theorem Declarator.shows_phrase (d : Declarator) : d.phrase.Shows d.WellFormed := by
  cases d with
  | single d => exact d.shows_phrase
  | tuple elements span =>
    have h := shows_parenthesized fun e (_ : e ∈ elements) =>
      shows_perhaps fun d (_ : d ∈ e) => d.shows_phrase
    refine h.covered.such.imp fun ⟨hsome, h⟩ => ⟨?_, h⟩
    obtain ⟨e, he, hd⟩ := List.all_eq_false.1 hsome
    rcases e with _ | d
    · exact absurd rfl hd
    · exact ⟨d, he⟩
  | varTuple names span => exact Shows.trivial _

theorem Stmt.shows_missing (s : Stmt) (around : Span) : (s.missing around).Shows s.WellFormed := by
  intro ts es rest h
  cases s with
  | error mark =>
    rw [Stmt.WellFormed]
    trivial
  | _ => exact h.elim

mutual

theorem Stmt.shows_phrase : ∀ s : Stmt, s.phrase.Shows s.WellFormed
  | .block b => by
      rw [Stmt.phrase, Stmt.WellFormed]
      exact b.shows_phrase
  | .expression e span => by
      rw [Stmt.phrase, Stmt.WellFormed]
      exact e.shows_phrase.left.covered
  | .variables declarator value span => by
      rw [Stmt.phrase, Stmt.WellFormed]
      refine Shows.imp (.such (.covered (.left (.both declarator.shows_phrase
        (shows_perhaps fun e _ => e.shows_phrase.right))))) ?_
      rintro ⟨hneeds, h⟩
      refine ⟨fun htuple => hneeds.resolve_right fun hsingle => ?_, h⟩
      cases declarator with
      | single d => exact htuple
      | tuple elements span => exact Bool.false_ne_true hsingle
      | varTuple names span => exact Bool.false_ne_true hsingle
  | .ifElse condition thenBranch elseBranch span => by
      rw [Stmt.phrase, Stmt.WellFormed]
      refine Shows.covered (.both (.both (.right ?_) thenBranch.shows_phrase) (else_shows elseBranch))
      exact condition.shows_phrase.right.left
  | .forLoop init condition update body span => by
      rw [Stmt.phrase, Stmt.WellFormed]
      refine Shows.imp (.covered (.both (.left (.both (.left (.both (.right (init_shows init))
        (shows_perhaps fun e _ => e.shows_phrase))) (shows_perhaps fun e _ => e.shows_phrase)))
        body.shows_phrase)) ?_
      rintro ⟨⟨⟨⟨hsimple, hinit⟩, hcondition⟩, hupdate⟩, hbody⟩
      exact ⟨hsimple, ⟨⟨hinit, hcondition⟩, hupdate⟩, hbody⟩
  | .whileLoop condition body span => by
      rw [Stmt.phrase, Stmt.WellFormed]
      exact (condition.shows_phrase.right.left.right.both body.shows_phrase).covered
  | .doWhile body condition span => by
      rw [Stmt.phrase, Stmt.WellFormed]
      refine Shows.covered (.left (.both (.left ?_) condition.shows_phrase.right.left))
      exact body.shows_phrase.right
  | .continue_ span | .break_ span | .throw span => by
      rw [Stmt.WellFormed]
      exact Shows.trivial _
  | .return_ value span => by
      rw [Stmt.phrase, Stmt.WellFormed]
      exact (shows_perhaps fun e (_ : e ∈ value) => e.shows_phrase).right.left.covered
  | .emit event arguments span => by
      rw [Stmt.phrase, Stmt.WellFormed]
      exact (event.shows_phrase.right.both arguments.shows_phrase).left.covered
  | .tryCatch expression returns body clauses span => by
      rw [Stmt.phrase, Stmt.WellFormed, clausePhrases_eq, clausesWellFormed_iff]
      refine Shows.such (.covered (.both (.both (.both expression.shows_phrase.right ?_)
        body.shows_phrase) (shows_prod (clauses_show clauses))))
      exact shows_returned fun p _ => p.shows_phrase
  | .assembly dialect body span => by
      rw [Stmt.WellFormed]
      exact Shows.trivial _
  | .error mark => by
      rw [Stmt.WellFormed]
      exact Shows.trivial _

theorem Block.shows_phrase : ∀ b : Block, b.phrase.Shows b.WellFormed
  | ⟨statements, span⟩ => by
      rw [Block.phrase, Block.WellFormed, stmtPhrases_eq, stmtsWellFormed_iff]
      exact (shows_body (stmts_show statements) fun s _ => s.shows_missing span).right.covered

theorem CatchClause.shows_phrase : ∀ c : CatchClause, c.phrase.Shows c.WellFormed
  | ⟨name, parameters, body, span⟩ => by
      rw [CatchClause.phrase, CatchClause.WellFormed]
      refine Shows.covered (.both (.right ?_) body.shows_phrase)
      exact shows_perhaps fun ps _ => shows_parenthesized fun p _ => p.shows_phrase

theorem else_shows : ∀ s : Option Stmt, (elsePhrase s).Shows (branchWellFormed s)
  | none => by
      rw [branchWellFormed]
      exact Shows.trivial _
  | some s => by
      rw [elsePhrase, branchWellFormed]
      exact s.shows_phrase.right

theorem init_shows : ∀ s : Option Stmt,
    (initPhrase s).Shows ((∀ x ∈ s, x.isSimple) ∧ branchWellFormed s)
  | none => by
      rw [branchWellFormed]
      exact (Shows.trivial _).imp fun _ => by simp
  | some s => by
      rw [initPhrase, branchWellFormed]
      exact s.shows_phrase.such.imp fun ⟨hsimple, hs⟩ => ⟨by simpa using hsimple, hs⟩

theorem stmts_show : ∀ ss : List Stmt, ∀ s ∈ ss, s.phrase.Shows s.WellFormed
  | [] => by simp
  | s :: ss => List.forall_mem_cons.2 ⟨s.shows_phrase, stmts_show ss⟩

theorem clauses_show : ∀ cs : List CatchClause, ∀ c ∈ cs, c.phrase.Shows c.WellFormed
  | [] => by simp
  | c :: cs => List.forall_mem_cons.2 ⟨c.shows_phrase, clauses_show cs⟩

end

/-! ### Directives and declarations -/

theorem PragmaDirective.shows_phrase (d : PragmaDirective) : d.phrase.Shows d.WellFormed := by
  rintro ts es rest ⟨-, text, h, -⟩
  rw [WellFormed]
  unfold pragmaReading at h
  split
  · rename_i requirement hvalue
    rw [hvalue] at h
    dsimp only at h
    split at h
    · split at h
      · rename_i value hversion
        obtain rfl := (Prod.mk.inj h).1
        unfold Grammar.versionValue at hversion
        split at hversion
        · simp at hversion
        split at hversion
        · rename_i kss hkss
          obtain ⟨hne, hall⟩ := Version.parse_ne_nil hkss
          obtain rfl := PragmaValue.version.inj (Except.ok.inj hversion)
          refine ⟨by simpa using hne, fun a ha => ?_⟩
          obtain ⟨ks, hks, rfl⟩ := List.mem_map.1 ha
          simpa using hall ks hks
        · simp at hversion
      · simp at h
    · simp at h
  · trivial

theorem ImportClause.shows_phrase (c : ImportClause) : c.phrase.Shows c.WellFormed := by
  cases c with
  | single symbol renamed span => exact (Shows.trivial _).such.imp And.left
  | multiple symbols span => exact (Shows.trivial _).such.imp And.left

theorem ImportDirective.shows_phrase (d : ImportDirective) : d.phrase.Shows d.WellFormed :=
  .covered (.left (.left (.left (.right (shows_perhaps fun c _ => c.shows_phrase.left)))))

theorem UsingTarget.shows_phrase (t : UsingTarget) : t.phrase.Shows t.WellFormed := by
  cases t with
  | wildcard span => exact Shows.trivial _
  | type t => exact t.shows_phrase

theorem UsingDirective.shows_phrase (d : UsingDirective) : d.phrase.Shows d.WellFormed :=
  .covered (.left (.both (.left d.library.shows_phrase.right) d.target.shows_phrase))

theorem OverrideSpecifier.shows_phrase (o : OverrideSpecifier) : o.phrase.Shows o.WellFormed := by
  refine Shows.covered (.right ?_)
  split
  · rename_i hnil
    exact (Shows.trivial _).imp fun _ => by simp [WellFormed, hnil]
  · exact shows_parenthesized fun p _ => p.shows_phrase

theorem ModifierInvocation.shows_phrase (m : ModifierInvocation) : m.phrase.Shows m.WellFormed :=
  .covered (.both m.path.shows_phrase (shows_perhaps fun as _ => as.shows_phrase))

theorem FunctionAttribute.shows_phrase (a : FunctionAttribute) : a.phrase.Shows a.WellFormed := by
  cases a with
  | visibility | mutability | virtual => exact Shows.trivial _
  | override o => exact o.shows_phrase
  | modifier m => exact m.shows_phrase

theorem shows_signature (parameters : List Parameter) (attributes : List FunctionAttribute) :
    (signaturePhrase parameters attributes).Shows (signatureWellFormed parameters attributes) :=
  .both (shows_parenthesized fun p _ => p.shows_phrase) (shows_prod fun a _ => a.shows_phrase)

theorem shows_functionBody (body : Option Block) :
    (functionBodyPhrase body).Shows (∀ b ∈ body, b.WellFormed) := by
  cases body with
  | none => exact (Shows.trivial _).imp fun _ => by simp
  | some b => exact b.shows_phrase.imp fun hb => by simpa using hb

theorem FunctionDefinition.shows_phrase (d : FunctionDefinition) : d.phrase.Shows d.WellFormed :=
  .covered (.both (.both (.right (shows_signature _ _)) (shows_returned fun p _ => p.shows_phrase))
    (shows_functionBody _))

theorem ModifierDefinition.shows_phrase (d : ModifierDefinition) : d.phrase.Shows d.WellFormed := by
  refine Shows.covered (.both (.right (.sup ?_ (shows_signature _ _))) (shows_functionBody _))
  refine Shows.imp (.such (shows_prod fun a _ => a.shows_phrase)) fun ⟨hnil, h⟩ => ⟨?_, h⟩
  simp [hnil]

theorem ConstructorDefinition.shows_phrase (d : ConstructorDefinition) :
    d.phrase.Shows d.WellFormed :=
  .covered (.both (.right (shows_signature _ _)) (shows_functionBody _))

theorem FallbackDefinition.shows_phrase (d : FallbackDefinition) : d.phrase.Shows d.WellFormed :=
  .covered (.both (.right (shows_signature _ _)) (shows_functionBody _))

theorem VariableAttribute.shows_phrase (a : VariableAttribute) : a.phrase.Shows a.WellFormed := by
  cases a with
  | visibility | constant | immutable => exact Shows.trivial _
  | override o => exact o.shows_phrase

theorem StateVariable.shows_phrase (d : StateVariable) : d.phrase.Shows d.WellFormed :=
  .covered (.left (.both (.left (.both d.type.shows_phrase (shows_prod fun a _ => a.shows_phrase)))
    (shows_perhaps fun e _ => e.shows_phrase.right)))

theorem ConstantDeclaration.shows_phrase (d : ConstantDeclaration) : d.phrase.Shows d.WellFormed :=
  .covered (.left (.both (.left (.left (.left d.type.shows_phrase))) d.value.shows_phrase))

theorem StructMember.shows_phrase (m : StructMember) : m.phrase.Shows m.WellFormed :=
  .covered (.left (.left m.type.shows_phrase))

theorem StructDeclaration.shows_phrase (d : StructDeclaration) : d.phrase.Shows d.WellFormed :=
  .covered (.left (.left (.right (shows_prod fun m _ => m.shows_phrase))))

theorem EventParameter.shows_phrase (p : EventParameter) : p.phrase.Shows p.WellFormed :=
  .covered (.left (.left p.type.shows_phrase))

theorem EventDefinition.shows_phrase (d : EventDefinition) : d.phrase.Shows d.WellFormed :=
  .covered (.left (.left (.right (shows_parenthesized fun p _ => p.shows_phrase))))

theorem Member.shows_phrase (m : Member) : m.phrase.Shows m.WellFormed := by
  cases m with
  | function d => exact d.shows_phrase
  | modifier d => exact d.shows_phrase
  | constructor d => exact d.shows_phrase
  | fallback d => exact d.shows_phrase
  | stateVariable d => exact d.shows_phrase
  | struct d => exact d.shows_phrase
  | event d => exact d.shows_phrase
  | using_ d => exact d.shows_phrase
  | enum | error => exact Shows.trivial _

theorem Member.shows_missing (m : Member) (around : Span) :
    (m.missing around).Shows m.WellFormed := by
  cases m with
  | error mark => exact Shows.trivial _
  | _ => exact fun _ _ _ h => h.elim

theorem InheritanceSpecifier.shows_phrase (i : InheritanceSpecifier) :
    i.phrase.Shows i.WellFormed :=
  .covered (.both i.ancestor.shows_phrase (shows_perhaps fun as _ => as.shows_phrase))

theorem ContractDeclaration.shows_header (d : ContractDeclaration) :
    d.header.Shows ((d.isAbstract → d.kind = .contract) ∧ (d.kind = .library → d.inheritance = [])
      ∧ ∀ i ∈ d.inheritance, i.WellFormed) := by
  have hbases : (if d.inheritance = [] then 1 else
      keyword .is_ * separated (d.inheritance.map InheritanceSpecifier.phrase)).Shows
        (∀ i ∈ d.inheritance, i.WellFormed) := by
    split
    · rename_i hnil
      exact (Shows.trivial _).imp fun _ => by simp [hnil]
    · exact .right (shows_separated fun i _ => i.shows_phrase)
  exact hbases.right.such.imp fun ⟨⟨habstract, hlibrary⟩, h⟩ => ⟨habstract, hlibrary, h⟩

theorem ContractDeclaration.shows_phrase (d : ContractDeclaration) : d.phrase.Shows d.WellFormed :=
  Shows.imp (.covered (.both d.shows_header (.right (shows_body (fun m _ => m.shows_phrase)
    fun m _ => m.shows_missing d.span))))
    fun ⟨⟨habstract, hlibrary, hbases⟩, h⟩ => ⟨habstract, hlibrary, hbases, h⟩

theorem SourceUnit.shows_phrase (u : SourceUnit) : u.phrase.Shows u.WellFormed := by
  cases u with
  | pragma d => exact d.shows_phrase
  | import_ d => exact d.shows_phrase
  | contract d => exact d.shows_phrase
  | struct d => exact d.shows_phrase
  | function d => exact d.shows_phrase
  | constant d => exact d.shows_phrase
  | enum | error => exact Shows.trivial _

theorem SourceFile.shows_phrase (f : SourceFile) :
    (f.items.map SourceUnit.phrase).prod.Shows f.WellFormed :=
  shows_prod fun u _ => u.shows_phrase

/-! ### Structs without members -/

theorem SourceFile.emptyStruct_mem_causes {f : SourceFile} {d : StructDeclaration}
    (hd : d ∈ f.structs) (hnil : d.members = []) : .emptyStruct d.span ∈ f.causes := by
  have hcauses : .emptyStruct d.span ∈ d.causes := by
    rw [StructDeclaration.causes, if_pos hnil]
    exact List.mem_singleton_self _
  obtain ⟨u, hu, hd⟩ := List.mem_flatMap.1 hd
  refine List.mem_flatMap.2 ⟨u, hu, ?_⟩
  cases u with
  | struct d' =>
    obtain rfl := List.mem_singleton.1 hd
    exact hcauses
  | contract c =>
    obtain ⟨m, hm, hstruct⟩ := List.mem_filterMap.1 hd
    refine List.mem_flatMap.2 ⟨m, hm, ?_⟩
    cases m with
    | struct d' =>
      obtain rfl := Option.some.inj hstruct
      exact hcauses
    | _ => simp [Member.struct?] at hstruct
  | _ => simp [SourceUnit.structs] at hd

/-- The fault of a cause is among those that are recorded. -/
theorem Cause.exists_explained {cs : List Cause} {es : List SyntaxError} {c : Cause}
    (h : List.SublistForall₂ Explains cs es) (hc : c ∈ cs) : ∃ e ∈ es, c.Explains e := by
  induction h with
  | nil => simp at hc
  | @cons c' e cs es hexplains _ ih =>
    rcases List.mem_cons.1 hc with rfl | hc
    · exact ⟨e, List.mem_cons_self, hexplains⟩
    · obtain ⟨e', he', hexplains'⟩ := ih hc
      exact ⟨e', List.mem_cons_of_mem e he', hexplains'⟩
  | cons_right _ ih =>
    obtain ⟨e', he', hexplains'⟩ := ih hc
    exact ⟨e', List.mem_cons_of_mem _ he', hexplains'⟩

/-- The syntax of every source is well-formed, and for each of its structs without members an error
is reported. -/
theorem parse_wellFormed (source : String) : (parse source).file.WellFormed
    ∧ ∀ d ∈ (parse source).file.structs, d.members = [] →
      .syntactic ⟨.violation .emptyStruct, d.span⟩ ∈ (parse source).errors := by
  refine ⟨SourceFile.shows_phrase _ _ _ _ (parse_phrase source), fun d hd hnil => ?_⟩
  obtain ⟨e, he, rfl⟩ := Cause.exists_explained (parse_account source).1
    (SourceFile.emptyStruct_mem_causes hd hnil)
  rw [parse_errors, SourceError.sorted, List.mem_mergeSort]
  exact List.mem_append_right _ (List.mem_map_of_mem he)

example : (parse "struct S {}").errors.length = 1 := by
  rw [parse_ofList]
  decide +kernel

theorem parse_wellFormed_struct : ∃ d ∈ (parse "contract C { struct S {} }").file.structs,
    d.members = [] ∧ .syntactic ⟨.violation .emptyStruct, d.span⟩
      ∈ (parse "contract C { struct S {} }").errors := by
  have hstruct : (parse "contract C { struct S {} }").file.structs.any
      (·.members.isEmpty) := by
    rw [parse_ofList]
    decide +kernel
  obtain ⟨d, hd, hnil⟩ := List.any_eq_true.1 hstruct
  have hnil := List.isEmpty_iff.1 hnil
  exact ⟨d, hd, hnil, (parse_wellFormed "contract C { struct S {} }").2 d hd hnil⟩

end SolidityFrontend
