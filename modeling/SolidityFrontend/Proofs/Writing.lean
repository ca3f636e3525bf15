import SolidityFrontend.Grammar.Level
import SolidityFrontend.Proofs.Phrase

/-!
# What writes a piece of syntax

The phrase of each kind of syntax: the tokens that write it, in the order of the grammar and under
the conditions the grammar puts on it, with every span covering the tokens of its part. An error
mark is written by the tokens that were skipped for it.

Expressions fall into tiers, the binding strength of what stands at their root, and their phrases
hold the bounds on the tiers of their operands (`Expr.Tiered`).
-/

namespace SolidityFrontend

open Phrase

/-! ### Tiers -/

/-- How tightly an operator between two operands binds them. -/
def BinaryOp.tier : BinaryOp → Nat
  | .or => 1
  | .and => 2
  | .eq | .ne => 3
  | .lt | .gt | .le | .ge => 4
  | .bitOr => 5
  | .bitXor => 6
  | .bitAnd => 7
  | .shl | .shr | .sar => 8
  | .add | .sub => 9
  | .mul | .div | .mod => 10
  | .pow => 11

namespace Expr

/-- How tightly what stands at the root of an expression binds its parts. -/
def tier : Expr → Nat
  | .ternary .. | .assignment .. => 0
  | .binary _ op _ _ => op.tier
  | .unary .. | .update _ .before _ _ => 12
  | _ => 13

/-- The parts of an expression bind tightly enough to stand where they do. -/
def Tiered : Expr → Prop
  | .binary left .pow right _ => 12 ≤ left.tier ∧ 11 ≤ right.tier
  | .binary left op right _ => op.tier ≤ left.tier ∧ op.tier + 1 ≤ right.tier
  | .unary _ operand _ | .update _ .before operand _ => 12 ≤ operand.tier
  | .update _ .after operand _ => operand.tier = 13
  | .ternary condition _ _ _ => 1 ≤ condition.tier
  | .assignment left _ _ _ => 1 ≤ left.tier
  | .call base _ _ | .member base _ _ | .index base _ _ | .slice base _ _ _
  | .struct base _ _ => base.tier = 13
  | _ => True

end Expr

/-! ### Names, words and literals -/

def Identifier.phrase (i : Identifier) : Phrase := tokenAt (.identifier i.name) i.span

def Path.phrase (p : Path) : Phrase :=
  covered p.span <| match p.segments with
    | [] => ⊥
    | i :: is => i.phrase * (is.map fun i => symbol .dot * i.phrase).prod

def ElementaryTypeName.phrase (t : ElementaryTypeName) : Phrase :=
  covered t.span <|
    lexeme (fun l => ∃ w, l.token = .elementaryType w ∧ ElementaryType.ofWord? w = some t.kind)
    ⊔ such (t.kind = .addressPayable) (lexeme (fun l => ∃ w, l.token = .elementaryType w ∧
        ElementaryType.ofWord? w = some .address) * word "payable")

/-- The tokens of adjacent strings of one kind, with what each holds. -/
def stringParts {α : Type} (part? : Token → Option α) (parts : List (α × Span)) : Phrase :=
  (parts.map fun p => lexeme fun l => part? l.token = some p.1 ∧ l.span = p.2).prod

/-- A string literal whose bytes are those of its parts, and whose value is made of theirs. -/
def StringLiteral.phrase {α : Type} (part? : Token → Option α) (bytes : α → List UInt8)
    (value : List α → String) (l : StringLiteral) : Phrase :=
  covered l.span fun ts es rest => ∃ parts : List (α × Span),
    l.parts = parts.map Prod.snd ∧ l.bytes = parts.flatMap (bytes ·.1)
      ∧ l.value = value (parts.map Prod.fst) ∧ stringParts part? parts ts es rest

/-- The characters of strings that are joined. -/
def joinedText (parts : List (List UInt8)) : String :=
  String.ofList (Text.Utf8.decodeLossy parts.flatten)

/-- The token of a number. -/
def NumberLiteral.token (l : NumberLiteral) : Token :=
  match l.kind with
  | .decimal => .decimalNumber l.value
  | .hex => .hexNumber l.value

def Literal.phrase : Literal → Phrase
  | .string l => l.phrase Grammar.plainPart? id joinedText
  | .hexString l => l.phrase Grammar.hexPart? (Grammar.hexBytes ·.toList) ("".intercalate)
  | .unicodeString l => l.phrase Grammar.unicodePart? id joinedText
  | .number l => covered l.span <|
      Phrase.token l.token * perhaps (l.unit.map fun unit => word unit.text)
  | .boolean value span => tokenAt (.keyword (if value then .true_ else .false_)) span

def FunctionTypeAttribute.phrase : FunctionTypeAttribute → Phrase
  | .visibility v span =>
      such (v = .internal ∨ v = .external) (tokenAt (.identifier v.text) span)
  | .mutability m span => tokenAt (.identifier m.text) span

/-! ### Expressions and type names -/

/-- A type that may be the key of a mapping. -/
def TypeName.isKey : TypeName → Prop
  | .elementary type => type.kind ≠ .addressPayable
  | .userDefined _ => True
  | _ => False

/-- The parameters behind `returns`, which may be left out if there are none. -/
def returned (parameters : List Phrase) : Phrase :=
  such (parameters = []) 1 ⊔ keyword .returns * parenthesized parameters

mutual

def Expr.phrase : Expr → Phrase
  | e@(.binary left op right span) =>
      such e.Tiered <| covered span (left.phrase * symbol op.symbol * right.phrase)
  | e@(.unary op operand span) =>
      such e.Tiered <| covered span (token op.token * operand.phrase)
  | e@(.update op .before operand span) =>
      such e.Tiered <| covered span (symbol op.symbol * operand.phrase)
  | e@(.update op .after operand span) =>
      such e.Tiered <| covered span (operand.phrase * symbol op.symbol)
  | e@(.ternary condition ifTrue ifFalse span) =>
      such e.Tiered <| covered span (condition.phrase * symbol .question * ifTrue.phrase
        * symbol .colon * ifFalse.phrase)
  | e@(.assignment left op right span) =>
      such (e.Tiered ∧ left.isAssignable) <|
        covered span (left.phrase * symbol op.symbol * right.phrase)
  | e@(.call callee arguments span) =>
      such e.Tiered <| covered span (callee.phrase * arguments.phrase)
  | e@(.member object name span) =>
      such e.Tiered <| covered span (object.phrase * symbol .dot * name.phrase)
  | e@(.index base index span) =>
      such e.Tiered <| covered span (base.phrase * symbol .leftBracket
        * perhaps (optionPhrase index) * symbol .rightBracket)
  | e@(.slice base lower upper span) =>
      such e.Tiered <| covered span (base.phrase * symbol .leftBracket
        * perhaps (optionPhrase lower) * symbol .colon * perhaps (optionPhrase upper)
        * symbol .rightBracket)
  | .tuple elements span =>
      such (elements.length ≠ 1) <| covered span (parenthesized (placePhrases elements))
  | .inlineArray elements span =>
      covered span (symbol .leftBracket * trailed (exprPhrases elements) * symbol .rightBracket)
  | e@(.struct type fields span) =>
      such (e.Tiered ∧ fields ≠ []) <| covered span (type.phrase * symbol .leftBrace
        * trailed (namedPhrases fields) * symbol .rightBrace)
  | .new type span => covered span (keyword .new * type.phrase)
  | .cast type argument span =>
      such (type.kind ≠ .addressPayable) <| covered span
        (type.phrase * symbol .leftParen * argument.phrase * symbol .rightParen)
  | .elementary type => such (type.kind ≠ .addressPayable) type.phrase
  | .metaType type span =>
      covered span (word "type" * symbol .leftParen * type.phrase * symbol .rightParen)
  | .payable arguments span => covered span (word "payable" * arguments.phrase)
  | .parenthesized inner span =>
      covered span (symbol .leftParen * inner.phrase * symbol .rightParen)
  | .literal l => l.phrase
  | .identifier i => i.phrase

def Arguments.phrase : Arguments → Phrase
  | .positional arguments span =>
      covered span (symbol .leftParen * trailed (exprPhrases arguments) * symbol .rightParen)
  | .named arguments span =>
      covered span (symbol .leftParen * (symbol .leftBrace * trailed (namedPhrases arguments)
        * symbol .rightBrace) * symbol .rightParen)

def NamedArgument.phrase : NamedArgument → Phrase
  | ⟨name, value, span⟩ => covered span (name.phrase * symbol .colon * value.phrase)

def TypeName.phrase : TypeName → Phrase
  | .elementary type => type.phrase
  | .userDefined path => path.phrase
  | .mapping key value span =>
      such key.isKey <|
        covered span (keyword .mapping * symbol .leftParen * key.phrase * symbol .arrow
          * value.phrase * symbol .rightParen)
  | .array base size span =>
      covered span (base.phrase * symbol .leftBracket * perhaps (optionPhrase size)
        * symbol .rightBracket)
  | .function parameters attributes returns span =>
      covered span (keyword .function * parenthesized (parameterPhrases parameters)
        * (attributes.map FunctionTypeAttribute.phrase).prod
        * returned (parameterPhrases returns))

def Parameter.phrase : Parameter → Phrase
  | ⟨type, location, name, span⟩ =>
      covered span (type.phrase * perhaps (location.map fun l => word l.text)
        * perhaps (name.map Identifier.phrase))

def optionPhrase : Option Expr → Option Phrase
  | none => none
  | some e => some e.phrase

def placePhrases : List (Option Expr) → List Phrase
  | [] => []
  | e :: es => perhaps (optionPhrase e) :: placePhrases es

def exprPhrases : List Expr → List Phrase
  | [] => []
  | e :: es => e.phrase :: exprPhrases es

def namedPhrases : List NamedArgument → List Phrase
  | [] => []
  | a :: as => a.phrase :: namedPhrases as

def parameterPhrases : List Parameter → List Phrase
  | [] => []
  | p :: ps => p.phrase :: parameterPhrases ps

end

theorem optionPhrase_eq (e : Option Expr) : optionPhrase e = e.map Expr.phrase := by
  cases e <;> simp [optionPhrase]

theorem placePhrases_eq : ∀ es : List (Option Expr),
    placePhrases es = es.map fun e => perhaps (e.map Expr.phrase)
  | [] => by simp [placePhrases]
  | e :: es => by simp [placePhrases, optionPhrase_eq, placePhrases_eq es]

theorem exprPhrases_eq : ∀ es : List Expr, exprPhrases es = es.map Expr.phrase
  | [] => by simp [exprPhrases]
  | e :: es => by simp [exprPhrases, exprPhrases_eq es]

theorem namedPhrases_eq : ∀ as : List NamedArgument, namedPhrases as = as.map NamedArgument.phrase
  | [] => by simp [namedPhrases]
  | a :: as => by simp [namedPhrases, namedPhrases_eq as]

theorem parameterPhrases_eq : ∀ ps : List Parameter, parameterPhrases ps = ps.map Parameter.phrase
  | [] => by simp [parameterPhrases]
  | p :: ps => by simp [parameterPhrases, parameterPhrases_eq ps]

theorem Literal.phrase_le (l : Literal) : l.phrase ≤ covered l.span ⊤ := by
  cases l with
  | boolean value span => exact tokenAt_le_covered
  | _ => exact covered_mono le_top

/-- The span of an expression covers its tokens. -/
theorem Expr.phrase_le (e : Expr) : e.phrase ≤ covered e.span ⊤ := by
  cases e
  case literal l =>
    rw [Expr.phrase]
    exact l.phrase_le
  case identifier i =>
    rw [Expr.phrase]
    exact tokenAt_le_covered
  case elementary type =>
    rw [Expr.phrase]
    exact such_le.trans (covered_mono le_top)
  case update op fixity operand span =>
    cases fixity <;> (rw [Expr.phrase]; exact such_le.trans (covered_mono le_top))
  all_goals
    rw [Expr.phrase]
    first | exact covered_mono le_top | exact such_le.trans (covered_mono le_top)

theorem TypeName.phrase_le (t : TypeName) : t.phrase ≤ covered t.span ⊤ := by
  cases t <;> rw [TypeName.phrase]
  case mapping => exact such_le.trans (covered_mono le_top)
  all_goals exact covered_mono le_top

@[simp]
theorem Identifier.opens_phrase (i : Identifier) : i.phrase.Opens i.span := opens_tokenAt _ _

@[simp]
theorem Path.opens_phrase (p : Path) : p.phrase.Opens p.span := opens_covered _ _

@[simp]
theorem ElementaryTypeName.opens_phrase (t : ElementaryTypeName) : t.phrase.Opens t.span :=
  opens_covered _ _

@[simp]
theorem Expr.opens_phrase (e : Expr) : e.phrase.Opens e.span :=
  (opens_covered _ _).mono e.phrase_le

@[simp]
theorem TypeName.opens_phrase (t : TypeName) : t.phrase.Opens t.span :=
  (opens_covered _ _).mono t.phrase_le

@[simp]
theorem Expr.takes_phrase (e : Expr) : e.phrase.Takes := e.opens_phrase.takes

@[simp]
theorem TypeName.takes_phrase (t : TypeName) : t.phrase.Takes := t.opens_phrase.takes

/-! ### Error marks and bodies -/

/-- A mark is written by what was skipped for it, and its error is recorded last. -/
def ErrorMark.phrase (m : ErrorMark) : Phrase := fun ts es _ =>
  Covers m.span ts ∧ ∃ (ds : List SyntaxError) (e : SyntaxError),
    es = ds ++ [e] ∧ m.message = e.fault.summary

/-- The error of a part with this span whose closing brace is missing. -/
def bracelessError (around : Span) : SyntaxError := ⟨.missing .rightBrace, around.after⟩

/-- A mark of the closing brace that is missing at the end of a part, where the input ends. -/
def ErrorMark.missing (around : Span) (m : ErrorMark) : Phrase :=
  such (m = (bracelessError around).mark around.after) <|
    before (· = []) * recording (bracelessError around)

/-- The parts of a body and its closing brace. Where the brace is missing, the last part marks it:
each part comes with the phrase it has as such a mark. -/
def Phrase.body : List (Phrase × Phrase) → Phrase
  | [] => symbol .rightBrace
  | (L, M) :: parts => L * body parts ⊔ such (parts = []) M

/-! ### Statements -/

def VariableDeclaration.phrase (d : VariableDeclaration) : Phrase :=
  covered d.span (d.type.phrase * perhaps (d.location.map fun l => word l.text) * d.name.phrase)

def Declarator.phrase : Declarator → Phrase
  | .single d => d.phrase
  | .tuple elements span =>
      such (elements.all Option.isNone = false) <| covered span <|
        parenthesized (elements.map fun d => perhaps (d.map VariableDeclaration.phrase))
  | .varTuple names span =>
      covered span (token (.elementaryType "var")
        * parenthesized (names.map fun i => perhaps (i.map Identifier.phrase)))

@[simp]
theorem Declarator.takes_phrase (d : Declarator) : d.phrase.Takes := by
  cases d with
  | tuple => exact (takes_covered _ _).mono such_le
  | _ => exact takes_covered _ _

/-- A statement that may begin a loop. -/
def Stmt.isSimple : Stmt → Prop
  | .expression .. | .variables .. => True
  | _ => False

/-- A statement as the mark of a missing brace. -/
def Stmt.missing (around : Span) : Stmt → Phrase
  | .error mark => mark.missing around
  | _ => ⊥

/-- The next token is not this one. -/
def notNext (t : Token) (rest : List Lexeme) : Prop := rest.head?.map Lexeme.token ≠ some t

mutual

def Stmt.phrase : Stmt → Phrase
  | .block b => b.phrase
  | .expression e span => covered span (e.phrase * symbol .semicolon)
  | .variables declarator value span =>
      such (value.isSome ∨ Grammar.needsNoValue declarator) <| covered span (declarator.phrase
        * perhaps (value.map fun e => symbol .assign * e.phrase) * symbol .semicolon)
  | .ifElse condition thenBranch elseBranch span =>
      covered span (keyword .if_ * (symbol .leftParen * condition.phrase * symbol .rightParen)
        * thenBranch.phrase * elsePhrase elseBranch)
  | .forLoop init condition update body span =>
      covered span (keyword .for_ * symbol .leftParen * initPhrase init
        * perhaps (condition.map Expr.phrase) * symbol .semicolon
        * perhaps (update.map Expr.phrase) * symbol .rightParen * body.phrase)
  | .whileLoop condition body span =>
      covered span (keyword .while_ * (symbol .leftParen * condition.phrase * symbol .rightParen)
        * body.phrase)
  | .doWhile body condition span =>
      covered span (keyword .do_ * body.phrase * keyword .while_
        * (symbol .leftParen * condition.phrase * symbol .rightParen) * symbol .semicolon)
  | .continue_ span => covered span (keyword .continue_ * symbol .semicolon)
  | .break_ span => covered span (keyword .break_ * symbol .semicolon)
  | .throw span => covered span (keyword .throw * symbol .semicolon)
  | .return_ value span =>
      covered span (keyword .return_ * perhaps (value.map Expr.phrase) * symbol .semicolon)
  | .emit event arguments span =>
      covered span (keyword .emit * event.phrase * arguments.phrase * symbol .semicolon)
  | .tryCatch expression returns body clauses span =>
      such (clauses ≠ []) <| covered span (keyword .try_ * expression.phrase
        * returned (returns.map Parameter.phrase) * body.phrase * (clausePhrases clauses).prod)
  | .assembly dialect body span =>
      covered span (keyword .assembly
        * perhaps (dialect.map fun text => lexeme fun l => ∃ bytes, l.token = .string bytes
            ∧ text = String.ofList (Text.Utf8.decodeLossy bytes))
        * covered body (symbol .leftBrace * tokens (fun _ => True) * symbol .rightBrace))
  | .error mark => mark.phrase

def Block.phrase : Block → Phrase
  | ⟨statements, span⟩ =>
      covered span (symbol .leftBrace * body (stmtPhrases span statements))

def CatchClause.phrase : CatchClause → Phrase
  | ⟨name, parameters, body, span⟩ =>
      covered span (keyword .catch_ * perhaps (name.map Identifier.phrase)
        * perhaps (parameters.map fun ps => parenthesized (ps.map Parameter.phrase))
        * body.phrase)

def elsePhrase : Option Stmt → Phrase
  | none => before (notNext (.keyword .else_))
  | some s => keyword .else_ * s.phrase

def initPhrase : Option Stmt → Phrase
  | none => symbol .semicolon
  | some s => such s.isSimple s.phrase

def stmtPhrases (around : Span) : List Stmt → List (Phrase × Phrase)
  | [] => []
  | s :: ss => (s.phrase, s.missing around) :: stmtPhrases around ss

def clausePhrases : List CatchClause → List Phrase
  | [] => []
  | c :: cs => c.phrase :: clausePhrases cs

end

theorem stmtPhrases_eq (around : Span) : ∀ ss : List Stmt,
    stmtPhrases around ss = ss.map fun s => (s.phrase, s.missing around)
  | [] => by simp [stmtPhrases]
  | s :: ss => by simp [stmtPhrases, stmtPhrases_eq around ss]

theorem clausePhrases_eq : ∀ cs : List CatchClause, clausePhrases cs = cs.map CatchClause.phrase
  | [] => by simp [clausePhrases]
  | c :: cs => by simp [clausePhrases, clausePhrases_eq cs]

/-! ### Directives -/

/-- What the value of a pragma is, given the text behind its name, and the errors in it. -/
def pragmaReading (name : Identifier) (text : List Char) : PragmaValue × List SyntaxError :=
  let span := Grammar.trimmedSpan name.span.stop text
  let raw : PragmaValue := .raw (String.ofList (Text.trim text)) span
  if name.name = "solidity" then
    match Grammar.versionValue name.span.stop text with
    | .ok value => (value, [])
    | .error v => (raw, [⟨.violation v, span⟩])
  else (raw, [])

/-- A pragma: the text it is read from fits between its name and the semicolon. -/
def PragmaDirective.phrase (d : PragmaDirective) : Phrase :=
  covered d.span fun ts es rest => ∃ text, pragmaReading d.name text = (d.value, es)
    ∧ (keyword .pragma * d.name.phrase * tokens (fun t => Grammar.endsPragma t = false)
      * lexeme (fun l => l.token = .symbol .semicolon ∧
          byteLength text ≤ l.span.start.offset - d.name.span.stop.offset)) ts [] rest

def ImportPath.phrase (p : ImportPath) : Phrase :=
  lexeme fun l => ∃ bytes, l.token = .string bytes ∧ l.span = p.span
    ∧ p.value = String.ofList (Text.Utf8.decodeLossy bytes)

/-- The other name behind `as`. -/
def renamingPhrase (renamed : Option Identifier) : Phrase :=
  perhaps (renamed.map fun i => word "as" * i.phrase)

def ImportSymbol.phrase : ImportSymbol → Phrase
  | .wildcard span => tokenAt (.symbol .star) span
  | .name i => i.phrase

def ImportAlias.phrase (a : ImportAlias) : Phrase :=
  covered a.span (a.name.phrase * renamingPhrase a.renamed)

/-- The star has another name, and names in braces are at least one. -/
def ImportClause.phrase : ImportClause → Phrase
  | .single symbol renamed span =>
      such ((∃ star, symbol = .wildcard star) → renamed.isSome) <|
        covered span (symbol.phrase * renamingPhrase renamed)
  | .multiple symbols span =>
      such (symbols ≠ []) <| covered span (symbol .leftBrace
        * separated (symbols.map ImportAlias.phrase) * symbol .rightBrace)

def ImportDirective.phrase (d : ImportDirective) : Phrase :=
  covered d.span (keyword .import_ * perhaps (d.clause.map fun c => c.phrase * word "from")
    * d.path.phrase * renamingPhrase d.renamed * symbol .semicolon)

def UsingTarget.phrase : UsingTarget → Phrase
  | .wildcard span => tokenAt (.symbol .star) span
  | .type t => t.phrase

def UsingDirective.phrase (d : UsingDirective) : Phrase :=
  covered d.span (keyword .using_ * d.library.phrase * keyword .for_ * d.target.phrase
    * symbol .semicolon)

/-! ### Declarations -/

def OverrideSpecifier.phrase (o : OverrideSpecifier) : Phrase :=
  covered o.span (word "override"
    * if o.overrides = [] then 1 else parenthesized (o.overrides.map Path.phrase))

def ModifierInvocation.phrase (m : ModifierInvocation) : Phrase :=
  covered m.span (m.path.phrase * perhaps (m.arguments.map Arguments.phrase))

def FunctionAttribute.phrase : FunctionAttribute → Phrase
  | .visibility v span => tokenAt (.identifier v.text) span
  | .mutability m span => tokenAt (.identifier m.text) span
  | .virtual span => tokenAt (.identifier "virtual") span
  | .override o => o.phrase
  | .modifier m => m.phrase

/-- The parameters and attributes that functions with and without names share. -/
def signaturePhrase (parameters : List Parameter) (attributes : List FunctionAttribute) : Phrase :=
  parenthesized (parameters.map Parameter.phrase) * (attributes.map FunctionAttribute.phrase).prod

/-- A block or a semicolon in its place. -/
def functionBodyPhrase : Option Block → Phrase
  | none => symbol .semicolon
  | some b => b.phrase

def FunctionDefinition.phrase (d : FunctionDefinition) : Phrase :=
  covered d.span (keyword .function * d.name.phrase * signaturePhrase d.parameters d.attributes
    * returned (d.returns.map Parameter.phrase) * functionBodyPhrase d.body)

def ModifierDefinition.phrase (d : ModifierDefinition) : Phrase :=
  covered d.span (keyword .modifier * d.name.phrase
    * (such (d.parameters = []) (d.attributes.map FunctionAttribute.phrase).prod
      ⊔ signaturePhrase d.parameters d.attributes)
    * functionBodyPhrase d.body)

def ConstructorDefinition.phrase (d : ConstructorDefinition) : Phrase :=
  covered d.span (keyword .constructor * signaturePhrase d.parameters d.attributes
    * functionBodyPhrase d.body)

def FallbackDefinition.phrase (d : FallbackDefinition) : Phrase :=
  covered d.span ((word d.kind.text ⊔ such (d.kind = .fallback) (keyword .function))
    * signaturePhrase d.parameters d.attributes * functionBodyPhrase d.body)

def VariableAttribute.phrase : VariableAttribute → Phrase
  | .visibility v span => tokenAt (.identifier v.text) span
  | .constant span => tokenAt (.identifier "constant") span
  | .immutable span => tokenAt (.identifier "immutable") span
  | .override o => o.phrase

def StateVariable.phrase (d : StateVariable) : Phrase :=
  covered d.span (d.type.phrase * (d.attributes.map VariableAttribute.phrase).prod
    * d.name.phrase * perhaps (d.value.map fun e => symbol .assign * e.phrase)
    * symbol .semicolon)

def ConstantDeclaration.phrase (d : ConstantDeclaration) : Phrase :=
  covered d.span (d.type.phrase * word "constant" * d.name.phrase * symbol .assign
    * d.value.phrase * symbol .semicolon)

def StructMember.phrase (m : StructMember) : Phrase :=
  covered m.span (m.type.phrase * m.name.phrase * symbol .semicolon)

/-- A struct without members is recorded as an error. -/
def StructDeclaration.phrase (d : StructDeclaration) : Phrase :=
  covered d.span (keyword .struct * d.name.phrase * symbol .leftBrace
    * (d.members.map StructMember.phrase).prod * symbol .rightBrace
    * if d.members = [] then recording ⟨.violation .emptyStruct, d.span⟩ else 1)

def EnumDeclaration.phrase (d : EnumDeclaration) : Phrase :=
  covered d.span (keyword .enum * d.name.phrase * symbol .leftBrace
    * trailed (d.values.map Identifier.phrase) * symbol .rightBrace)

def EventParameter.phrase (p : EventParameter) : Phrase :=
  covered p.span (p.type.phrase * (if p.isIndexed then word "indexed" else 1)
    * perhaps (p.name.map Identifier.phrase))

def EventDefinition.phrase (d : EventDefinition) : Phrase :=
  covered d.span (keyword .event * d.name.phrase
    * parenthesized (d.parameters.map EventParameter.phrase)
    * (if d.isAnonymous then word "anonymous" else 1) * symbol .semicolon)

def Member.phrase : Member → Phrase
  | .function d => d.phrase
  | .modifier d => d.phrase
  | .constructor d => d.phrase
  | .fallback d => d.phrase
  | .stateVariable d => d.phrase
  | .struct d => d.phrase
  | .enum d => d.phrase
  | .event d => d.phrase
  | .using_ d => d.phrase
  | .error mark => mark.phrase

/-- A member as the mark of a missing brace. -/
def Member.missing (around : Span) : Member → Phrase
  | .error mark => mark.missing around
  | _ => ⊥

def InheritanceSpecifier.phrase (i : InheritanceSpecifier) : Phrase :=
  covered i.span (i.ancestor.phrase * perhaps (i.arguments.map Arguments.phrase))

/-- What stands before the body of a contract: only a contract proper is abstract, and a library has
no bases. -/
def ContractDeclaration.header (d : ContractDeclaration) : Phrase :=
  such ((d.isAbstract → d.kind = .contract) ∧ (d.kind = .library → d.inheritance = [])) <|
    (if d.isAbstract then keyword .abstract else 1) * keyword d.kind.keyword * d.name.phrase
      * if d.inheritance = [] then 1
        else keyword .is_ * separated (d.inheritance.map InheritanceSpecifier.phrase)

def ContractDeclaration.phrase (d : ContractDeclaration) : Phrase :=
  covered d.span (d.header * (symbol .leftBrace
    * body (d.members.map fun m => (m.phrase, m.missing d.span))))

def SourceUnit.phrase : SourceUnit → Phrase
  | .pragma d => d.phrase
  | .import_ d => d.phrase
  | .contract d => d.phrase
  | .struct d => d.phrase
  | .enum d => d.phrase
  | .function d => d.phrase
  | .constant d => d.phrase
  | .error mark => mark.phrase

end SolidityFrontend
