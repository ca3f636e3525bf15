import SolidityFrontend.Proofs.Layout
import SolidityFrontend.Proofs.Lines
import SolidityFrontend.Proofs.ReadingFile

/-!
# Fragments have no lexical faults

A lexical fault leaves a token that writes no expression and no type name. So a source that is read as
one of them has no faults, and it may stand above other texts.
-/

namespace SolidityFrontend

open SolidityFrontend.Parser

/-- Whether a token is no point and opens no brace, so that names may stand behind it. -/
def Token.closesName : Token → Bool
  | .symbol .dot | .symbol .leftBrace => false
  | _ => true

/-- Whether an expression or a type name may end with a token: a closing bracket, an increment or a
decrement, or what is no symbol. -/
def Token.endsTerm : Token → Bool
  | .symbol b => [.rightParen, .rightBracket, .rightBrace, .plusPlus, .minusMinus].contains b
  | _ => true

theorem Token.closesName_of_endsTerm {t : Token} (h : t.endsTerm) : t.closesName := by
  cases t with
  | symbol b => cases b <;> first | rfl | cases h
  | _ => rfl

namespace Phrase

variable {L M : Phrase} {Ls : List Phrase} {t : Token} {span : Span}

/-! ### All tokens of a phrase -/

/-- Tokens that are no faults. -/
def sane : Phrase := tokens fun t => t ≠ .error

theorem one_le_sane : 1 ≤ sane := by
  rintro ts es rest ⟨rfl, rfl⟩
  exact ⟨rfl, by simp⟩

theorem mul_le_sane (hL : L ≤ sane) (hM : M ≤ sane) : L * M ≤ sane := by
  rintro _ _ rest ⟨a, b, d, e, rfl, rfl, h, h'⟩
  obtain ⟨rfl, ha⟩ := hL _ _ _ h
  obtain ⟨rfl, hb⟩ := hM _ _ _ h'
  exact ⟨rfl, List.forall_mem_append.2 ⟨ha, hb⟩⟩

theorem lexeme_le_sane {q : Lexeme → Prop} (h : ∀ l, q l → l.token ≠ .error) : lexeme q ≤ sane := by
  rintro _ _ rest ⟨l, rfl, rfl, hl⟩
  exact ⟨rfl, by simpa using h l hl⟩

theorem token_le_sane (h : t ≠ .error) : token t ≤ sane := lexeme_le_sane fun _ hl => hl ▸ h

theorem tokenAt_le_sane (h : t ≠ .error) : tokenAt t span ≤ sane :=
  lexeme_le_sane fun _ hl => hl.1 ▸ h

theorem perhaps_le_sane {o : Option Phrase} (h : ∀ L ∈ o, L ≤ sane) :
    perhaps o ≤ sane := by
  cases o with
  | none => exact one_le_sane
  | some L => exact h L rfl

theorem prod_le_sane (h : ∀ L ∈ Ls, L ≤ sane) : Ls.prod ≤ sane := by
  induction Ls with
  | nil => exact one_le_sane
  | cons L Ls ih =>
    rw [List.forall_mem_cons] at h
    rw [List.prod_cons]
    exact mul_le_sane h.1 (ih h.2)

theorem separated_le_sane (h : ∀ L ∈ Ls, L ≤ sane) :
    separated Ls ≤ sane := by
  cases Ls with
  | nil => exact one_le_sane
  | cons L Ls =>
    rw [List.forall_mem_cons] at h
    refine mul_le_sane h.1 (prod_le_sane ?_)
    rw [List.forall_mem_map]
    exact fun M hM => mul_le_sane (token_le_sane (by simp)) (h.2 M hM)

theorem trailed_le_sane (h : ∀ L ∈ Ls, L ≤ sane) :
    trailed Ls ≤ sane := by
  induction Ls with
  | nil => exact one_le_sane
  | cons L Ls ih =>
    rw [List.forall_mem_cons] at h
    cases Ls with
    | nil => exact mul_le_sane h.1 (sup_le one_le_sane (token_le_sane (by simp)))
    | cons M Ls => exact mul_le_sane (mul_le_sane h.1 (token_le_sane (by simp))) (ih h.2)

/-! ### The last token of a phrase -/

/-- The last token of a phrase, if it takes any, is one with which an expression may end. -/
def Closes (L : Phrase) : Prop :=
  ∀ ts es rest, L ts es rest → ∀ l ∈ ts.getLast?, l.token.endsTerm

theorem Closes.mono (h : M.Closes) (hL : L ≤ M) : L.Closes :=
  fun ts es rest hts => h ts es rest (hL _ _ _ hts)

theorem closes_one : Closes 1 := by
  rintro _ _ rest ⟨rfl, -⟩
  simp

theorem closes_lexeme {q : Lexeme → Prop} (h : ∀ l, q l → l.token.endsTerm) :
    (lexeme q).Closes := by
  rintro _ _ rest ⟨l, rfl, -, hl⟩
  simpa using h l hl

theorem closes_token (h : t.endsTerm) : (token t).Closes := closes_lexeme fun _ hl => hl ▸ h

theorem closes_tokenAt (h : t.endsTerm) : (tokenAt t span).Closes :=
  closes_lexeme fun _ hl => hl.1 ▸ h

theorem Closes.mul (hL : L.Closes) (hM : M.Closes) : (L * M).Closes := by
  rintro _ _ rest ⟨a, b, d, e, rfl, rfl, h, h'⟩
  rcases List.eq_nil_or_concat b with rfl | ⟨b, l, rfl⟩
  · rw [List.append_nil]
    exact hL _ _ _ h
  · have hl := hM _ _ _ h'
    simpa using hl

/-- The last of several phrases takes a token. -/
theorem Closes.mul_left (hM : M.Closes) (htakes : M.Takes) : (L * M).Closes := by
  rintro _ _ rest ⟨a, b, d, e, rfl, rfl, -, h'⟩
  rw [List.getLast?_append_of_ne_nil _ (htakes _ _ _ h')]
  exact hM _ _ _ h'

theorem closes_mul_symbol {b : Symbol} (hb : Token.endsTerm (.symbol b)) :
    (L * Phrase.symbol b).Closes := (closes_token hb).mul_left (takes_token _)

theorem closes_parenthesized : (parenthesized Ls).Closes := closes_mul_symbol rfl

theorem closes_prod (h : ∀ L ∈ Ls, L.Closes) : Ls.prod.Closes := by
  induction Ls with
  | nil => exact closes_one
  | cons L Ls ih =>
    rw [List.forall_mem_cons] at h
    rw [List.prod_cons]
    exact h.1.mul (ih h.2)

end Phrase

open Phrase

/-! ### Expressions and type names -/

theorem Path.phrase_le_sane (p : Path) : p.phrase ≤ sane := by
  refine covered_le.trans ?_
  rcases p.segments with _ | ⟨i, is⟩
  · exact bot_le
  · refine mul_le_sane (tokenAt_le_sane (by simp)) (prod_le_sane ?_)
    rw [List.forall_mem_map]
    exact fun i _ => mul_le_sane (token_le_sane (by simp)) (tokenAt_le_sane (by simp))

theorem ElementaryTypeName.phrase_le_sane (t : ElementaryTypeName) : t.phrase ≤ sane := by
  have hword (kind : ElementaryType) : lexeme (fun l => ∃ w, l.token = .elementaryType w
      ∧ ElementaryType.ofWord? w = some kind) ≤ sane :=
    lexeme_le_sane fun l ⟨w, hw, _⟩ => by simp [hw]
  refine covered_le.trans (sup_le (hword _) (such_le.trans ?_))
  exact mul_le_sane (hword _) (token_le_sane (by simp))

theorem FunctionTypeAttribute.phrase_le_sane (a : FunctionTypeAttribute) : a.phrase ≤ sane := by
  cases a with
  | visibility v span => exact such_le.trans (tokenAt_le_sane (by simp))
  | mutability m span => exact tokenAt_le_sane (by simp)

theorem StringLiteral.phrase_le_sane {α : Type} (part? : Token → Option α) (bytes : α → List UInt8)
    (value : List α → String) (l : StringLiteral) (h : part? .error = none) :
    l.phrase part? bytes value ≤ sane := by
  refine covered_le.trans ?_
  rintro ts es rest ⟨parts, -, -, -, hparts⟩
  have hle : stringParts part? parts ≤ sane := by
    refine prod_le_sane ?_
    rw [List.forall_mem_map]
    refine fun part _ => lexeme_le_sane ?_
    rintro l ⟨hpart, -⟩ herror
    rw [herror, h] at hpart
    simp at hpart
  exact hle _ _ _ hparts

theorem Literal.phrase_le_sane (l : Literal) : l.phrase ≤ sane := by
  cases l with
  | string l => exact l.phrase_le_sane Grammar.plainPart? id joinedText rfl
  | hexString l =>
    exact l.phrase_le_sane Grammar.hexPart? (Grammar.hexBytes ·.toList) ("".intercalate) rfl
  | unicodeString l => exact l.phrase_le_sane Grammar.unicodePart? id joinedText rfl
  | number l =>
    have htoken : l.token ≠ .error := by
      rw [NumberLiteral.token]
      cases l.kind <;> simp
    refine covered_le.trans (mul_le_sane (token_le_sane htoken) (perhaps_le_sane ?_))
    simp only [Option.mem_def, Option.map_eq_some_iff]
    rintro _ ⟨unit, -, rfl⟩
    exact token_le_sane (by simp)
  | boolean value span => exact tokenAt_le_sane (by simp)

theorem symbol_le_sane (b : Symbol) : Phrase.symbol b ≤ sane := token_le_sane (by simp)

theorem keyword_le_sane (k : Keyword) : Phrase.keyword k ≤ sane := token_le_sane (by simp)

theorem word_le_sane (w : String) : Phrase.word w ≤ sane := token_le_sane (by simp)

theorem Identifier.phrase_le_sane (i : Identifier) : i.phrase ≤ sane := tokenAt_le_sane (by simp)

theorem parenthesized_le_sane {Ls : List Phrase} (h : ∀ L ∈ Ls, L ≤ sane) :
    parenthesized Ls ≤ sane :=
  mul_le_sane (mul_le_sane (symbol_le_sane _) (separated_le_sane h))
    (symbol_le_sane _)

mutual

theorem Expr.phrase_le_sane : ∀ e : Expr, e.phrase ≤ sane
  | .binary l op r span | .assignment l op r span => by
    rw [Expr.phrase]
    exact such_le.trans (covered_le.trans (mul_le_sane
      (mul_le_sane l.phrase_le_sane (symbol_le_sane _)) r.phrase_le_sane))
  | .unary op e span => by
    have hop : op.token ≠ .error := by cases op <;> simp [UnaryOp.token]
    rw [Expr.phrase]
    exact such_le.trans (covered_le.trans (mul_le_sane (token_le_sane hop) e.phrase_le_sane))
  | .update op .before e span => by
    rw [Expr.phrase]
    exact such_le.trans (covered_le.trans (mul_le_sane (symbol_le_sane _) e.phrase_le_sane))
  | .update op .after e span => by
    rw [Expr.phrase]
    exact such_le.trans (covered_le.trans (mul_le_sane e.phrase_le_sane (symbol_le_sane _)))
  | .ternary c a b span => by
    rw [Expr.phrase]
    exact such_le.trans (covered_le.trans (mul_le_sane (mul_le_sane (mul_le_sane
      (mul_le_sane c.phrase_le_sane (symbol_le_sane _)) a.phrase_le_sane) (symbol_le_sane _))
      b.phrase_le_sane))
  | .call e a span => by
    rw [Expr.phrase]
    exact such_le.trans (covered_le.trans (mul_le_sane e.phrase_le_sane a.phrase_le_sane))
  | .member e i span => by
    rw [Expr.phrase]
    exact such_le.trans (covered_le.trans (mul_le_sane
      (mul_le_sane e.phrase_le_sane (symbol_le_sane _)) i.phrase_le_sane))
  | .index b i span => by
    rw [Expr.phrase]
    exact such_le.trans (covered_le.trans (mul_le_sane (mul_le_sane
      (mul_le_sane b.phrase_le_sane (symbol_le_sane _)) (option_phrase_le_sane i))
      (symbol_le_sane _)))
  | .slice b l u span => by
    rw [Expr.phrase]
    exact such_le.trans (covered_le.trans (mul_le_sane (mul_le_sane (mul_le_sane
      (mul_le_sane (mul_le_sane b.phrase_le_sane (symbol_le_sane _)) (option_phrase_le_sane l))
      (symbol_le_sane _)) (option_phrase_le_sane u)) (symbol_le_sane _)))
  | .tuple es span => by
    rw [Expr.phrase]
    exact such_le.trans (covered_le.trans (parenthesized_le_sane (places_phrase_le_sane es)))
  | .inlineArray es span => by
    rw [Expr.phrase]
    exact covered_le.trans (mul_le_sane (mul_le_sane (symbol_le_sane _)
      (trailed_le_sane (exprs_phrase_le_sane es))) (symbol_le_sane _))
  | .struct e as span => by
    rw [Expr.phrase]
    exact such_le.trans (covered_le.trans (mul_le_sane (mul_le_sane
      (mul_le_sane e.phrase_le_sane (symbol_le_sane _))
      (trailed_le_sane (named_phrase_le_sane as))) (symbol_le_sane _)))
  | .new t span => by
    rw [Expr.phrase]
    exact covered_le.trans (mul_le_sane (keyword_le_sane _) t.phrase_le_sane)
  | .cast t e span => by
    rw [Expr.phrase]
    exact such_le.trans (covered_le.trans (mul_le_sane (mul_le_sane
      (mul_le_sane t.phrase_le_sane (symbol_le_sane _)) e.phrase_le_sane) (symbol_le_sane _)))
  | .elementary t => by
    rw [Expr.phrase]
    exact such_le.trans t.phrase_le_sane
  | .metaType t span => by
    rw [Expr.phrase]
    exact covered_le.trans (mul_le_sane (mul_le_sane
      (mul_le_sane (word_le_sane _) (symbol_le_sane _)) t.phrase_le_sane) (symbol_le_sane _))
  | .payable a span => by
    rw [Expr.phrase]
    exact covered_le.trans (mul_le_sane (word_le_sane _) a.phrase_le_sane)
  | .parenthesized e span => by
    rw [Expr.phrase]
    exact covered_le.trans (mul_le_sane (mul_le_sane (symbol_le_sane _) e.phrase_le_sane)
      (symbol_le_sane _))
  | .literal l => by rw [Expr.phrase]; exact l.phrase_le_sane
  | .identifier i => by rw [Expr.phrase]; exact i.phrase_le_sane

theorem Arguments.phrase_le_sane : ∀ a : Arguments, a.phrase ≤ sane
  | .positional es span => by
    rw [Arguments.phrase]
    exact covered_le.trans (mul_le_sane (mul_le_sane (symbol_le_sane _)
      (trailed_le_sane (exprs_phrase_le_sane es))) (symbol_le_sane _))
  | .named as span => by
    rw [Arguments.phrase]
    exact covered_le.trans (mul_le_sane (mul_le_sane (symbol_le_sane _)
      (mul_le_sane (mul_le_sane (symbol_le_sane _)
        (trailed_le_sane (named_phrase_le_sane as))) (symbol_le_sane _)))
      (symbol_le_sane _))

theorem NamedArgument.phrase_le_sane : ∀ a : NamedArgument, a.phrase ≤ sane
  | ⟨i, e, span⟩ => by
    rw [NamedArgument.phrase]
    exact covered_le.trans (mul_le_sane (mul_le_sane i.phrase_le_sane (symbol_le_sane _))
      e.phrase_le_sane)

theorem TypeName.phrase_le_sane : ∀ t : TypeName, t.phrase ≤ sane
  | .elementary t => by rw [TypeName.phrase]; exact t.phrase_le_sane
  | .userDefined p => by rw [TypeName.phrase]; exact p.phrase_le_sane
  | .mapping k v span => by
    rw [TypeName.phrase]
    exact such_le.trans (covered_le.trans (mul_le_sane (mul_le_sane (mul_le_sane
      (mul_le_sane (mul_le_sane (keyword_le_sane _) (symbol_le_sane _)) k.phrase_le_sane)
      (symbol_le_sane _)) v.phrase_le_sane) (symbol_le_sane _)))
  | .array t size span => by
    rw [TypeName.phrase]
    exact covered_le.trans (mul_le_sane (mul_le_sane
      (mul_le_sane t.phrase_le_sane (symbol_le_sane _)) (option_phrase_le_sane size))
      (symbol_le_sane _))
  | .function ps as rs span => by
    rw [TypeName.phrase]
    refine covered_le.trans (mul_le_sane (mul_le_sane (mul_le_sane (keyword_le_sane _)
      (parenthesized_le_sane (parameters_phrase_le_sane ps))) (prod_le_sane ?_))
      (sup_le (such_le.trans one_le_sane) (mul_le_sane (keyword_le_sane _)
        (parenthesized_le_sane (parameters_phrase_le_sane rs)))))
    rw [List.forall_mem_map]
    exact fun a _ => a.phrase_le_sane

theorem Parameter.phrase_le_sane : ∀ p : Parameter, p.phrase ≤ sane
  | ⟨t, location, name, span⟩ => by
    rw [Parameter.phrase]
    refine covered_le.trans (mul_le_sane (mul_le_sane t.phrase_le_sane
      (perhaps_le_sane ?_)) (perhaps_le_sane ?_))
    · simp only [Option.mem_def, Option.map_eq_some_iff]
      rintro _ ⟨l, -, rfl⟩
      exact word_le_sane _
    · simp only [Option.mem_def, Option.map_eq_some_iff]
      rintro _ ⟨i, -, rfl⟩
      exact i.phrase_le_sane

theorem option_phrase_le_sane : ∀ e : Option Expr, perhaps (optionPhrase e) ≤ sane
  | none => by
    rw [optionPhrase]
    exact one_le_sane
  | some e => by
    rw [optionPhrase]
    exact e.phrase_le_sane

theorem places_phrase_le_sane : ∀ es : List (Option Expr), ∀ L ∈ placePhrases es, L ≤ sane
  | [], L, h => by simp [placePhrases] at h
  | e :: es, L, h => by
    rw [placePhrases, List.mem_cons] at h
    rcases h with rfl | h
    · exact option_phrase_le_sane e
    · exact places_phrase_le_sane es L h

theorem exprs_phrase_le_sane : ∀ es : List Expr, ∀ L ∈ exprPhrases es, L ≤ sane
  | [], L, h => by simp [exprPhrases] at h
  | e :: es, L, h => by
    rw [exprPhrases, List.mem_cons] at h
    rcases h with rfl | h
    · exact e.phrase_le_sane
    · exact exprs_phrase_le_sane es L h

theorem named_phrase_le_sane : ∀ as : List NamedArgument, ∀ L ∈ namedPhrases as, L ≤ sane
  | [], L, h => by simp [namedPhrases] at h
  | a :: as, L, h => by
    rw [namedPhrases, List.mem_cons] at h
    rcases h with rfl | h
    · exact a.phrase_le_sane
    · exact named_phrase_le_sane as L h

theorem parameters_phrase_le_sane : ∀ ps : List Parameter, ∀ L ∈ parameterPhrases ps, L ≤ sane
  | [], L, h => by simp [parameterPhrases] at h
  | p :: ps, L, h => by
    rw [parameterPhrases, List.mem_cons] at h
    rcases h with rfl | h
    · exact p.phrase_le_sane
    · exact parameters_phrase_le_sane ps L h

end

/-! ### The end of a type name -/

theorem Path.closes_phrase (p : Path) : p.phrase.Closes := by
  refine Closes.mono ?_ covered_le
  rcases p.segments with _ | ⟨i, is⟩
  · exact fun ts es rest h => absurd h id
  · have hname (i : Identifier) : i.phrase.Closes := closes_tokenAt rfl
    refine (hname i).mul (closes_prod ?_)
    rw [List.forall_mem_map]
    exact fun i _ => (hname i).mul_left (takes_tokenAt _ _)

theorem ElementaryTypeName.closes_phrase (t : ElementaryTypeName) : t.phrase.Closes := by
  refine Closes.mono ?_ covered_le
  rintro ts es rest (⟨l, rfl, -, w, hw, -⟩ | ⟨-, hts⟩)
  · simp [hw, Token.endsTerm]
  · have hword : (Phrase.word "payable").Closes := closes_token rfl
    exact hword.mul_left (takes_token _) ts es rest hts

theorem TypeName.closes_phrase (t : TypeName) : t.phrase.Closes := by
  cases t with
  | elementary t =>
    rw [TypeName.phrase]
    exact t.closes_phrase
  | userDefined p =>
    rw [TypeName.phrase]
    exact p.closes_phrase
  | mapping k v span =>
    rw [TypeName.phrase]
    exact (closes_mul_symbol rfl).mono (such_le.trans covered_le)
  | array t size span =>
    rw [TypeName.phrase]
    exact (closes_mul_symbol rfl).mono covered_le
  | function ps as rs span =>
    have hparameters (L : Phrase) (Ls : List Phrase) : (L * parenthesized Ls).Closes :=
      closes_parenthesized.mul_left (by simp [parenthesized, Phrase.symbol])
    rw [TypeName.phrase]
    refine Closes.mono (Closes.mul (Closes.mul (hparameters _ _) (closes_prod ?_)) ?_) covered_le
    · rw [List.forall_mem_map]
      intro a _
      cases a with
      | visibility v span => exact Closes.mono (closes_tokenAt rfl) such_le
      | mutability m span => exact closes_tokenAt rfl
    · rintro ts es rest (⟨-, hts⟩ | hts)
      · exact closes_one ts es rest hts
      · exact hparameters _ _ ts es rest hts

/-! ### The end of an expression -/

theorem Arguments.closes_phrase (a : Arguments) : a.phrase.Closes := by
  cases a with
  | positional es span =>
    rw [Arguments.phrase]
    exact (closes_mul_symbol rfl).mono covered_le
  | named as span =>
    rw [Arguments.phrase]
    exact (closes_mul_symbol rfl).mono covered_le

theorem StringLiteral.closes_phrase {α : Type} (part? : Token → Option α) (bytes : α → List UInt8)
    (value : List α → String) (l : StringLiteral) (h : ∀ b, part? (.symbol b) = none) :
    (l.phrase part? bytes value).Closes := by
  refine Closes.mono ?_ covered_le
  rintro ts es rest ⟨parts, -, -, -, hparts⟩
  refine closes_prod ?_ ts es rest hparts
  rw [List.forall_mem_map]
  refine fun part _ => closes_lexeme ?_
  rintro ⟨token, span⟩ ⟨hpart, -⟩
  cases token with
  | symbol b =>
    rw [h b] at hpart
    simp at hpart
  | _ => rfl

theorem Literal.closes_phrase (l : Literal) : l.phrase.Closes := by
  cases l with
  | string l => exact l.closes_phrase Grammar.plainPart? id joinedText fun _ => rfl
  | hexString l =>
    exact l.closes_phrase Grammar.hexPart? (Grammar.hexBytes ·.toList) ("".intercalate) fun _ => rfl
  | unicodeString l => exact l.closes_phrase Grammar.unicodePart? id joinedText fun _ => rfl
  | number l =>
    have htoken : l.token.endsTerm := by
      rw [NumberLiteral.token]
      cases l.kind <;> rfl
    refine Closes.mono ((closes_token htoken).mul ?_) covered_le
    cases l.unit with
    | none => exact closes_one
    | some unit => exact closes_token rfl
  | boolean value span => exact closes_tokenAt rfl

theorem Expr.closes_phrase : ∀ e : Expr, e.phrase.Closes
  | .binary l op r span | .assignment l op r span => by
    rw [Expr.phrase]
    exact (r.closes_phrase.mul_left r.takes_phrase).mono (such_le.trans covered_le)
  | .unary op e span | .update op .before e span => by
    rw [Expr.phrase]
    exact (e.closes_phrase.mul_left e.takes_phrase).mono (such_le.trans covered_le)
  | .update op .after e span => by
    rw [Expr.phrase]
    exact (closes_mul_symbol (by cases op <;> rfl)).mono (such_le.trans covered_le)
  | .ternary c a b span => by
    rw [Expr.phrase]
    exact (b.closes_phrase.mul_left b.takes_phrase).mono (such_le.trans covered_le)
  | .call e a span => by
    rw [Expr.phrase]
    exact (e.closes_phrase.mul a.closes_phrase).mono (such_le.trans covered_le)
  | .member e i span => by
    rw [Expr.phrase]
    exact ((closes_tokenAt rfl).mul_left i.opens_phrase.takes).mono (such_le.trans covered_le)
  | .index .. | .slice .. | .tuple .. | .struct .. | .cast .. => by
    rw [Expr.phrase]
    exact (closes_mul_symbol rfl).mono (such_le.trans covered_le)
  | .inlineArray .. | .metaType .. | .parenthesized .. => by
    rw [Expr.phrase]
    exact (closes_mul_symbol rfl).mono covered_le
  | .new t span => by
    rw [Expr.phrase]
    exact (t.closes_phrase.mul_left t.takes_phrase).mono covered_le
  | .elementary t => by
    rw [Expr.phrase]
    exact t.closes_phrase.mono such_le
  | .payable a span => by
    rw [Expr.phrase]
    exact ((closes_token rfl).mul a.closes_phrase).mono covered_le
  | .literal l => by
    rw [Expr.phrase]
    exact l.closes_phrase
  | .identifier i => by
    rw [Expr.phrase]
    exact closes_tokenAt rfl

/-! ### Attributes of functions -/

theorem OverrideSpecifier.phrase_le_sane (o : OverrideSpecifier) : o.phrase ≤ sane := by
  refine covered_le.trans (mul_le_sane (word_le_sane _) ?_)
  split
  · exact one_le_sane
  · refine parenthesized_le_sane ?_
    rw [List.forall_mem_map]
    exact fun p _ => p.phrase_le_sane

theorem OverrideSpecifier.closes_phrase (o : OverrideSpecifier) : o.phrase.Closes := by
  refine Closes.mono (Closes.mul (closes_token rfl) ?_) covered_le
  split
  · exact closes_one
  · exact closes_parenthesized

theorem ModifierInvocation.phrase_le_sane (m : ModifierInvocation) : m.phrase ≤ sane := by
  refine covered_le.trans (mul_le_sane m.path.phrase_le_sane (perhaps_le_sane ?_))
  simp only [Option.mem_def, Option.map_eq_some_iff]
  rintro _ ⟨a, -, rfl⟩
  exact a.phrase_le_sane

theorem ModifierInvocation.closes_phrase (m : ModifierInvocation) : m.phrase.Closes := by
  refine Closes.mono (Closes.mul m.path.closes_phrase ?_) covered_le
  rcases m.arguments with _ | a
  · exact closes_one
  · exact a.closes_phrase

theorem FunctionAttribute.phrase_le_sane (a : FunctionAttribute) : a.phrase ≤ sane := by
  cases a with
  | override o => exact o.phrase_le_sane
  | modifier m => exact m.phrase_le_sane
  | _ => exact tokenAt_le_sane (by simp)

theorem FunctionAttribute.closes_phrase (a : FunctionAttribute) : a.phrase.Closes := by
  cases a with
  | override o => exact o.closes_phrase
  | modifier m => exact m.closes_phrase
  | _ => exact closes_tokenAt rfl

/-! ### Sources that are read as a whole -/

theorem tokenize_errors_eq_nil_iff {source : String} :
    (tokenize source).errors = [] ↔ Token.error ∉ tokensOf source := by
  rw [← List.map_eq_nil_iff (f := LexError.span), map_span_errors, List.map_eq_nil_iff,
    List.filter_eq_nil_iff, tokensOf, List.mem_map]
  simp

namespace Session

variable {α : Type} {source : String} {p : Parser α} {x : α} {next : Session} {L : α → Phrase}

/-- All tokens of a source that is read as a whole write what is read. -/
theorem phrase_of_whole (h : (ofSource source).run (whole p) = (.ok x, next)) (hp : Reads False p L) :
    ∃ es, L x (tokenize source).tokens es [] := by
  obtain ⟨hread, hend, -⟩ := run_whole_eq_ok h
  obtain ⟨ts, es, ⟨hts, -, -⟩, hx, -⟩ := hp.effect_ok (ordered_start source) hread
  rw [hend, List.append_nil] at hts
  rw [hend] at hx
  obtain rfl : (tokenize source).tokens = ts := hts
  exact ⟨es, hx⟩

theorem faultless_of_whole (h : (ofSource source).run (whole p) = (.ok x, next))
    (hp : Reads False p L) (hL : L x ≤ sane) : (tokenize source).errors = [] := by
  obtain ⟨es, hx⟩ := phrase_of_whole h hp
  obtain ⟨-, hsane⟩ := hL _ _ _ hx
  rw [tokenize_errors_eq_nil_iff, tokensOf, List.mem_map]
  rintro ⟨l, hl, herror⟩
  exact absurd herror (by simpa using hsane l hl)

theorem closesName_of_whole (h : (ofSource source).run (whole p) = (.ok x, next))
    (hp : Reads False p L) (hL : (L x).Closes) : ∀ t ∈ (tokensOf source).getLast?, t.closesName := by
  obtain ⟨es, hx⟩ := phrase_of_whole h hp
  rw [tokensOf, List.getLast?_map]
  rintro _ ht
  obtain ⟨l, hl, rfl⟩ := Option.map_eq_some_iff.1 ht
  exact Token.closesName_of_endsTerm (hL _ _ _ hx l hl)

end Session

end SolidityFrontend
