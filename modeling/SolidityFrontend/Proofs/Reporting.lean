import Mathlib.Data.List.Forall2
import SolidityFrontend.Proofs.ReadingFile
import SolidityFrontend.Proofs.Scanning

/-!
# What the recorded faults are about

Every error mark, every struct without members and every version pragma whose value could not be read
has a fault of its own among those that are recorded, in the order of the text. Where no mark stands
there are no other faults: expressions, type names and all that is read without a mark record none
(`Phrase.Silent`).
-/

namespace SolidityFrontend

open Phrase

/-! ### Causes of faults -/

/-- What a fault in the syntax is recorded for. -/
inductive Cause where
  | mark (m : ErrorMark)
  /-- A struct without members, with its span. -/
  | emptyStruct (span : Span)
  /-- A value of `pragma solidity` that stays text, with its span. -/
  | rawVersion (span : Span)

namespace Cause

/-- The fault that is recorded for a cause. -/
def Explains : Cause → SyntaxError → Prop
  | .mark m, e => m.message = e.fault.summary
  | .emptyStruct span, e => e = ⟨.violation .emptyStruct, span⟩
  | .rawVersion span, e => ∃ v, e = ⟨.violation v, span⟩

def mark? : Cause → Option ErrorMark
  | .mark m => some m
  | .emptyStruct _ | .rawVersion _ => none

/-- The causes have faults of their own, in their order, and these are all faults if none of the
causes is a mark. -/
def Account (cs : List Cause) (es : List SyntaxError) : Prop :=
  List.SublistForall₂ Explains cs es
    ∧ (cs.filterMap mark? = [] → List.Forall₂ Explains cs es)

variable {cs ds : List Cause} {es es' : List SyntaxError}

theorem Account.nil : Account [] [] := ⟨.nil, fun _ => .nil⟩

theorem Account.append (h : Account cs es) (h' : Account ds es') :
    Account (cs ++ ds) (es ++ es') := by
  obtain ⟨hsome, hall⟩ := h
  obtain ⟨hsome', hall'⟩ := h'
  constructor
  · obtain ⟨fs, hfs, hes⟩ := List.sublistForall₂_iff.1 hsome
    obtain ⟨fs', hfs', hes'⟩ := List.sublistForall₂_iff.1 hsome'
    exact List.sublistForall₂_iff.2 ⟨fs ++ fs', List.rel_append hfs hfs', hes.append hes'⟩
  · intro hmarks
    rw [List.filterMap_append, List.append_eq_nil_iff] at hmarks
    exact List.rel_append (hall hmarks.1) (hall' hmarks.2)

theorem Account.singleton {c : Cause} {e : SyntaxError} (h : c.Explains e) : Account [c] [e] :=
  ⟨.cons h .nil, fun _ => .cons h .nil⟩

/-- The fault of a mark is recorded behind those of the text that it stands for. -/
theorem Account.mark {m : ErrorMark} {e : SyntaxError} (h : m.message = e.fault.summary)
    (es : List SyntaxError) : Account [.mark m] (es ++ [e]) := by
  refine ⟨List.sublistForall₂_iff.2 ⟨[e], .cons h .nil, ?_⟩, by simp [mark?]⟩
  exact List.sublist_append_right es [e]

end Cause

/-- The marks in a statement are all that is recorded for it. -/
def markCauses (marks : List ErrorMark) : List Cause := marks.map .mark

def StructDeclaration.causes (d : StructDeclaration) : List Cause :=
  if d.members = [] then [.emptyStruct d.span] else []

def PragmaDirective.causes (d : PragmaDirective) : List Cause :=
  match d.value with
  | .raw _ span => if d.name.name = "solidity" then [.rawVersion span] else []
  | .version _ => []

def Member.causes : Member → List Cause
  | .struct d => d.causes
  | m => markCauses m.errorMarks

def SourceUnit.causes : SourceUnit → List Cause
  | .pragma d => d.causes
  | .struct d => d.causes
  | .contract d => d.members.flatMap Member.causes
  | u => markCauses u.errorMarks

def SourceFile.causes (f : SourceFile) : List Cause := f.items.flatMap SourceUnit.causes

/-! ### Phrases without faults -/

namespace Phrase

variable {L M : Phrase}

/-- No fault is recorded where the phrase is written. -/
def Silent (L : Phrase) : Prop := ∀ ts es rest, L ts es rest → es = []

theorem Silent.mono (h : M.Silent) (hL : L ≤ M) : L.Silent := fun _ _ _ hl => h _ _ _ (hL _ _ _ hl)

theorem silent_one : (1 : Phrase).Silent := fun _ _ _ h => h.2

theorem silent_bot : (⊥ : Phrase).Silent := fun _ _ _ h => h.elim

theorem Silent.lexeme (p : Lexeme → Prop) : (lexeme p).Silent := by
  rintro ts es rest ⟨t, -, rfl, -⟩
  rfl

theorem silent_tokens (p : Token → Prop) : (tokens p).Silent := fun _ _ _ h => h.1

theorem silent_before (p : List Lexeme → Prop) : (before p).Silent := fun _ _ _ h => h.2.1

theorem Silent.mul (hL : L.Silent) (hM : M.Silent) : (L * M).Silent := by
  rintro ts es rest ⟨_, _, _, _, rfl, rfl, hl, hm⟩
  rw [hL _ _ _ hl, hM _ _ _ hm, List.append_nil]

theorem Silent.such {p : Prop} (h : L.Silent) : (such p L).Silent := h.mono such_le

theorem Silent.covered {span : Span} (h : L.Silent) : (covered span L).Silent := h.mono covered_le

theorem Silent.sup (hL : L.Silent) (hM : M.Silent) : (L ⊔ M).Silent :=
  fun _ _ _ h => h.elim (hL _ _ _) (hM _ _ _)

/-- What stands in brackets. -/
theorem Silent.between (hM : M.Silent) (p p' : Lexeme → Prop) :
    (Phrase.lexeme p * M * Phrase.lexeme p').Silent := .mul (.mul (.lexeme p) hM) (.lexeme p')

theorem Silent.ite {p : Prop} [Decidable p] (hL : L.Silent) (hM : M.Silent) :
    (if p then L else M).Silent := by
  split
  · exact hL
  · exact hM

section

variable {α : Type} {f : α → Phrase} {xs : List α}

theorem Silent.perhaps {o : Option α} (h : ∀ x, (f x).Silent) : (perhaps (o.map f)).Silent := by
  cases o with
  | none => exact silent_one
  | some x => exact h x

theorem Silent.prod (h : ∀ x ∈ xs, (f x).Silent) : (xs.map f).prod.Silent := by
  induction xs with
  | nil => exact silent_one
  | cons x xs ih =>
    obtain ⟨hx, hxs⟩ := List.forall_mem_cons.1 h
    rw [List.map_cons, List.prod_cons]
    exact hx.mul (ih hxs)

theorem Silent.separated (h : ∀ x ∈ xs, (f x).Silent) : (separated (xs.map f)).Silent := by
  rcases xs with _ | ⟨x, xs⟩
  · exact silent_one
  · obtain ⟨hx, hxs⟩ := List.forall_mem_cons.1 h
    rw [List.map_cons, Phrase.separated, List.map_map]
    exact hx.mul (.prod fun y hy => .mul (.lexeme _) (hxs y hy))

theorem Silent.trailed (h : ∀ x ∈ xs, (f x).Silent) : (trailed (xs.map f)).Silent := by
  induction xs with
  | nil => exact silent_one
  | cons x xs ih =>
    obtain ⟨hx, hxs⟩ := List.forall_mem_cons.1 h
    rcases xs with _ | ⟨y, xs⟩
    · exact hx.mul (silent_one.sup (.lexeme _))
    · exact (hx.mul (.lexeme _)).mul (ih hxs)

theorem Silent.parenthesized (h : ∀ x ∈ xs, (f x).Silent) : (parenthesized (xs.map f)).Silent :=
  (Silent.separated h).between _ _

theorem Silent.returned (h : ∀ x ∈ xs, (f x).Silent) : (returned (xs.map f)).Silent :=
  silent_one.such.sup (.mul (.lexeme _) (.parenthesized h))

end

end Phrase

theorem Path.silent_phrase (p : Path) : p.phrase.Silent := by
  refine .covered ?_
  split
  · exact silent_bot
  · exact .mul (.lexeme _) (.prod fun i _ => .mul (.lexeme _) (.lexeme _))

theorem ElementaryTypeName.silent_phrase (t : ElementaryTypeName) : t.phrase.Silent :=
  .covered (.sup (.lexeme _) (.such (.mul (.lexeme _) (.lexeme _))))

theorem StringLiteral.silent_phrase {α : Type} (l : StringLiteral) (part? : Token → Option α)
    (bytes : α → List UInt8) (value : List α → String) :
    (l.phrase part? bytes value).Silent := by
  rintro ts es rest ⟨-, parts, -, -, -, h⟩
  exact Silent.prod (fun p _ => .lexeme _) _ _ _ h

theorem Literal.silent_phrase (l : Literal) : l.phrase.Silent := by
  cases l with
  | string l | unicodeString l => exact l.silent_phrase _ _ _
  | hexString l => exact l.silent_phrase Grammar.hexPart? (Grammar.hexBytes ·.toList) _
  | number l => exact .covered (.mul (.lexeme _) (.perhaps fun unit => .lexeme _))
  | boolean value span => exact .lexeme _

theorem FunctionTypeAttribute.silent_phrase (a : FunctionTypeAttribute) : a.phrase.Silent := by
  cases a with
  | visibility v span => exact .such (.lexeme _)
  | mutability m span => exact .lexeme _

mutual

theorem Expr.silent_phrase : ∀ e : Expr, e.phrase.Silent
  | .binary left op right span | .assignment left op right span => by
      rw [Expr.phrase]
      exact .such (.covered (.mul (.mul left.silent_phrase (.lexeme _)) right.silent_phrase))
  | .unary op operand span | .update op .before operand span => by
      rw [Expr.phrase]
      exact .such (.covered (.mul (.lexeme _) operand.silent_phrase))
  | .update op .after operand span => by
      rw [Expr.phrase]
      exact .such (.covered (.mul operand.silent_phrase (.lexeme _)))
  | .ternary condition ifTrue ifFalse span => by
      rw [Expr.phrase]
      refine .such (.covered (.mul (.mul (.mul ?_ ifTrue.silent_phrase) (.lexeme _))
        ifFalse.silent_phrase))
      exact .mul condition.silent_phrase (.lexeme _)
  | .call callee arguments span => by
      rw [Expr.phrase]
      exact .such (.covered (.mul callee.silent_phrase arguments.silent_phrase))
  | .member object name span => by
      rw [Expr.phrase]
      exact .such (.covered (.mul (.mul object.silent_phrase (.lexeme _)) (.lexeme _)))
  | .index base index span => by
      rw [Expr.phrase]
      refine .such (.covered (.mul (.mul ?_ (option_silent index)) (.lexeme _)))
      exact .mul base.silent_phrase (.lexeme _)
  | .slice base lower upper span => by
      rw [Expr.phrase]
      refine .such (.covered (.mul (.mul (.mul (.mul ?_ (option_silent lower)) (.lexeme _))
        (option_silent upper)) (.lexeme _)))
      exact .mul base.silent_phrase (.lexeme _)
  | .tuple elements span => by
      rw [Expr.phrase, placePhrases_eq]
      exact .such (.covered (.parenthesized (places_silent elements)))
  | .inlineArray elements span => by
      rw [Expr.phrase, exprPhrases_eq]
      exact .covered (.between (.trailed (exprs_silent elements)) _ _)
  | .struct type fields span => by
      rw [Expr.phrase, namedPhrases_eq]
      refine .such (.covered (.mul (.mul ?_ (.trailed (named_silent fields))) (.lexeme _)))
      exact .mul type.silent_phrase (.lexeme _)
  | .new type span => by
      rw [Expr.phrase]
      exact .covered (.mul (.lexeme _) type.silent_phrase)
  | .metaType type span => by
      rw [Expr.phrase]
      exact .covered (.mul (.mul (.mul (.lexeme _) (.lexeme _)) type.silent_phrase) (.lexeme _))
  | .cast type argument span => by
      rw [Expr.phrase]
      refine .such (.covered (.mul (.mul ?_ argument.silent_phrase) (.lexeme _)))
      exact .mul type.silent_phrase (.lexeme _)
  | .elementary type => by
      rw [Expr.phrase]
      exact .such type.silent_phrase
  | .payable arguments span => by
      rw [Expr.phrase]
      exact .covered (.mul (.lexeme _) arguments.silent_phrase)
  | .parenthesized inner span => by
      rw [Expr.phrase]
      exact .covered (.between inner.silent_phrase _ _)
  | .literal l => by
      rw [Expr.phrase]
      exact l.silent_phrase
  | .identifier i => by
      rw [Expr.phrase]
      exact .lexeme _

theorem Arguments.silent_phrase : ∀ a : Arguments, a.phrase.Silent
  | .positional arguments span => by
      rw [Arguments.phrase, exprPhrases_eq]
      exact .covered (.between (.trailed (exprs_silent arguments)) _ _)
  | .named arguments span => by
      rw [Arguments.phrase, namedPhrases_eq]
      exact .covered (.between (.between (.trailed (named_silent arguments)) _ _) _ _)

theorem NamedArgument.silent_phrase : ∀ a : NamedArgument, a.phrase.Silent
  | ⟨name, value, span⟩ => by
      rw [NamedArgument.phrase]
      exact .covered (.mul (.mul (.lexeme _) (.lexeme _)) value.silent_phrase)

theorem TypeName.silent_phrase : ∀ t : TypeName, t.phrase.Silent
  | .elementary type => by
      rw [TypeName.phrase]
      exact type.silent_phrase
  | .userDefined path => by
      rw [TypeName.phrase]
      exact path.silent_phrase
  | .mapping key value span => by
      rw [TypeName.phrase]
      refine .such (.covered (.mul (.mul (.mul (.mul ?_ key.silent_phrase) (.lexeme _))
        value.silent_phrase) (.lexeme _)))
      exact .mul (.lexeme _) (.lexeme _)
  | .array base size span => by
      rw [TypeName.phrase]
      refine .covered (.mul (.mul ?_ (option_silent size)) (.lexeme _))
      exact .mul base.silent_phrase (.lexeme _)
  | .function parameters attributes returns span => by
      rw [TypeName.phrase, parameterPhrases_eq, parameterPhrases_eq]
      refine .covered (.mul (.mul (.mul (.lexeme _) (.parenthesized (parameters_silent parameters)))
        ?_) (.returned (parameters_silent returns)))
      exact .prod fun a _ => a.silent_phrase

theorem Parameter.silent_phrase : ∀ p : Parameter, p.phrase.Silent
  | ⟨type, location, name, span⟩ => by
      rw [Parameter.phrase]
      refine .covered (.mul (.mul type.silent_phrase ?_) (.perhaps fun i => .lexeme _))
      exact .perhaps fun l => .lexeme _

theorem option_silent : ∀ e : Option Expr, (perhaps (optionPhrase e)).Silent
  | none => silent_one
  | some e => by
      rw [optionPhrase]
      exact e.silent_phrase

theorem places_silent : ∀ es : List (Option Expr), ∀ e ∈ es, (perhaps (e.map Expr.phrase)).Silent
  | [] => by simp
  | e :: es => by
      have he := option_silent e
      rw [optionPhrase_eq] at he
      exact List.forall_mem_cons.2 ⟨he, places_silent es⟩

theorem exprs_silent : ∀ es : List Expr, ∀ e ∈ es, e.phrase.Silent
  | [] => by simp
  | e :: es => List.forall_mem_cons.2 ⟨e.silent_phrase, exprs_silent es⟩

theorem named_silent : ∀ as : List NamedArgument, ∀ a ∈ as, a.phrase.Silent
  | [] => by simp
  | a :: as => List.forall_mem_cons.2 ⟨a.silent_phrase, named_silent as⟩

theorem parameters_silent : ∀ ps : List Parameter, ∀ p ∈ ps, p.phrase.Silent
  | [] => by simp
  | p :: ps => List.forall_mem_cons.2 ⟨p.silent_phrase, parameters_silent ps⟩

end

/-! ### Phrases with the causes of their faults -/

namespace Phrase

variable {L M : Phrase} {cs ds : List Cause}

/-- The faults that are recorded where the phrase is written have these causes. -/
def Reports (L : Phrase) (cs : List Cause) : Prop :=
  ∀ ts es rest, L ts es rest → Cause.Account cs es

theorem Reports.mono (h : M.Reports cs) (hL : L ≤ M) : L.Reports cs :=
  fun _ _ _ hl => h _ _ _ (hL _ _ _ hl)

theorem Silent.reports (h : L.Silent) : L.Reports [] := by
  intro ts es rest hl
  rw [h _ _ _ hl]
  exact .nil

theorem Reports.mul (hL : L.Reports cs) (hM : M.Reports ds) : (L * M).Reports (cs ++ ds) := by
  rintro ts es rest ⟨_, _, _, _, rfl, rfl, hl, hm⟩
  exact (hL _ _ _ hl).append (hM _ _ _ hm)

theorem Reports.left (hL : L.Reports cs) (hM : M.Silent) : (L * M).Reports cs := by
  have h := hL.mul hM.reports
  rwa [List.append_nil] at h

theorem Reports.right (hL : L.Silent) (hM : M.Reports cs) : (L * M).Reports cs :=
  hL.reports.mul hM

theorem Reports.such {p : Prop} (h : p → L.Reports cs) : (such p L).Reports cs :=
  fun _ _ _ hl => h hl.1 _ _ _ hl.2

theorem Reports.covered {span : Span} (h : L.Reports cs) : (covered span L).Reports cs :=
  h.mono covered_le

section

variable {α : Type} {f m : α → Phrase} {g : α → List Cause} {xs : List α}

theorem Reports.prod (h : ∀ x ∈ xs, (f x).Reports (g x)) :
    (xs.map f).prod.Reports (xs.flatMap g) := by
  induction xs with
  | nil => exact silent_one.reports
  | cons x xs ih =>
    obtain ⟨hx, hxs⟩ := List.forall_mem_cons.1 h
    rw [List.map_cons, List.prod_cons, List.flatMap_cons]
    exact hx.mul (ih hxs)

/-- The last part of a body may be the mark of its missing brace. -/
theorem Reports.body (h : ∀ x ∈ xs, (f x).Reports (g x)) (hm : ∀ x ∈ xs, (m x).Reports (g x)) :
    (body (xs.map fun x => (f x, m x))).Reports (xs.flatMap g) := by
  induction xs with
  | nil => exact (Silent.lexeme _).reports
  | cons x xs ih =>
    obtain ⟨hx, hxs⟩ := List.forall_mem_cons.1 h
    obtain ⟨hmx, hmxs⟩ := List.forall_mem_cons.1 hm
    rw [List.map_cons, Phrase.body, List.flatMap_cons]
    rintro ts es rest (hl | ⟨hnil, hl⟩)
    · exact hx.mul (ih hxs hmxs) _ _ _ hl
    · rw [List.map_eq_nil_iff.1 hnil, List.flatMap_nil, List.append_nil]
      exact hmx _ _ _ hl

end

end Phrase

theorem markCauses_append (ms ns : List ErrorMark) :
    markCauses (ms ++ ns) = markCauses ms ++ markCauses ns := List.map_append

theorem markCauses_flatMap {α : Type} (f : α → List ErrorMark) (xs : List α) :
    markCauses (xs.flatMap f) = xs.flatMap fun x => markCauses (f x) := List.map_flatMap

theorem ErrorMark.reports_phrase (m : ErrorMark) : m.phrase.Reports [.mark m] := by
  rintro ts es rest ⟨-, ds, e, rfl, hm⟩
  exact .mark hm ds

theorem ErrorMark.reports_missing (m : ErrorMark) (around : Span) :
    (m.missing around).Reports [.mark m] := by
  refine .such fun hm => ?_
  rintro ts es rest ⟨_, _, _, _, -, rfl, ⟨-, rfl, -⟩, -, rfl⟩
  rw [hm, List.nil_append]
  exact .singleton rfl

/-! ### Statements -/

theorem VariableDeclaration.silent_phrase (d : VariableDeclaration) : d.phrase.Silent :=
  .covered (.mul (.mul d.type.silent_phrase (.perhaps fun _ => .lexeme _)) (.lexeme _))

theorem Declarator.silent_phrase (d : Declarator) : d.phrase.Silent := by
  cases d with
  | single d => exact d.silent_phrase
  | tuple elements span =>
    exact .such (.covered (.parenthesized fun e _ => .perhaps fun d => d.silent_phrase))
  | varTuple names span =>
    exact .covered (.mul (.lexeme _) (.parenthesized fun i _ => .perhaps fun i => .lexeme _))

theorem statementsErrorMarks_eq (ss : List Stmt) :
    statementsErrorMarks ss = ss.flatMap Stmt.errorMarks := by
  induction ss with
  | nil => simp [statementsErrorMarks]
  | cons s ss ih => simp [statementsErrorMarks, ih]

theorem clausesErrorMarks_eq (cs : List CatchClause) :
    clausesErrorMarks cs = cs.flatMap CatchClause.errorMarks := by
  induction cs with
  | nil => simp [clausesErrorMarks]
  | cons c cs ih => simp [clausesErrorMarks, ih]

theorem Stmt.reports_missing (s : Stmt) (around : Span) :
    (s.missing around).Reports (markCauses s.errorMarks) := by
  cases s with
  | error mark =>
    rw [Stmt.errorMarks]
    exact mark.reports_missing around
  | _ => exact fun _ _ _ h => h.elim

mutual

theorem Stmt.reports_phrase : ∀ s : Stmt, s.phrase.Reports (markCauses s.errorMarks)
  | .block b => by
      rw [Stmt.phrase, Stmt.errorMarks]
      exact b.reports_phrase
  | .expression e span => by
      rw [Stmt.phrase]
      simp only [Stmt.errorMarks]
      exact (Silent.covered (.mul e.silent_phrase (.lexeme _))).reports
  | .variables declarator value span => by
      rw [Stmt.phrase]
      simp only [Stmt.errorMarks]
      refine (Silent.such (.covered (.mul (.mul declarator.silent_phrase ?_) (.lexeme _)))).reports
      exact .perhaps fun e => .mul (.lexeme _) e.silent_phrase
  | .ifElse condition thenBranch elseBranch span => by
      rw [Stmt.phrase, Stmt.errorMarks, markCauses_append]
      refine .covered (.mul (.right ?_ thenBranch.reports_phrase) (else_reports elseBranch))
      exact .mul (.lexeme _) (.between condition.silent_phrase _ _)
  | .forLoop init condition update body span => by
      rw [Stmt.phrase, Stmt.errorMarks, markCauses_append]
      refine .covered (.mul (.left (.left (.left (.left (.right ?_ (init_reports init)) ?_)
        (.lexeme _)) ?_) (.lexeme _)) body.reports_phrase)
      · exact .mul (.lexeme _) (.lexeme _)
      · exact .perhaps fun e => e.silent_phrase
      · exact .perhaps fun e => e.silent_phrase
  | .whileLoop condition body span => by
      rw [Stmt.phrase, Stmt.errorMarks]
      refine .covered (.right ?_ body.reports_phrase)
      exact .mul (.lexeme _) (.between condition.silent_phrase _ _)
  | .doWhile body condition span => by
      rw [Stmt.phrase, Stmt.errorMarks]
      refine .covered (.left (.left (.left (.right (.lexeme _) body.reports_phrase) (.lexeme _)) ?_)
        (.lexeme _))
      exact .between condition.silent_phrase _ _
  | .continue_ span | .break_ span | .throw span => by
      rw [Stmt.phrase]
      simp only [Stmt.errorMarks]
      exact (Silent.covered (.mul (.lexeme _) (.lexeme _))).reports
  | .return_ value span => by
      rw [Stmt.phrase]
      simp only [Stmt.errorMarks]
      refine (Silent.covered (.mul (.mul (.lexeme _) ?_) (.lexeme _))).reports
      exact .perhaps fun e => e.silent_phrase
  | .emit event arguments span => by
      rw [Stmt.phrase]
      simp only [Stmt.errorMarks]
      refine (Silent.covered (.mul (.mul ?_ arguments.silent_phrase) (.lexeme _))).reports
      exact .mul (.lexeme _) event.silent_phrase
  | .tryCatch expression returns body clauses span => by
      rw [Stmt.phrase, Stmt.errorMarks, markCauses_append, clausePhrases_eq, clausesErrorMarks_eq,
        markCauses_flatMap]
      refine .such fun _ => .covered (.mul (.right (.mul ?_ ?_) body.reports_phrase)
        (.prod (clauses_report clauses)))
      · exact .mul (.lexeme _) expression.silent_phrase
      · exact .returned fun p _ => p.silent_phrase
  | .assembly dialect body span => by
      rw [Stmt.phrase]
      simp only [Stmt.errorMarks]
      refine (Silent.covered (.mul (.mul (.lexeme _) (.perhaps fun text => .lexeme _)) ?_)).reports
      exact .covered (.between (silent_tokens _) _ _)
  | .error mark => by
      rw [Stmt.phrase, Stmt.errorMarks]
      exact mark.reports_phrase

theorem Block.reports_phrase : ∀ b : Block, b.phrase.Reports (markCauses b.errorMarks)
  | ⟨statements, span⟩ => by
      rw [Block.phrase, Block.errorMarks, stmtPhrases_eq, statementsErrorMarks_eq,
        markCauses_flatMap]
      exact .covered (.right (.lexeme _)
        (.body (stmts_report statements) fun s _ => s.reports_missing span))

theorem CatchClause.reports_phrase : ∀ c : CatchClause,
    c.phrase.Reports (markCauses c.errorMarks)
  | ⟨name, parameters, body, span⟩ => by
      rw [CatchClause.phrase, CatchClause.errorMarks]
      refine .covered (.right (.mul (.mul (.lexeme _) (.perhaps fun i => .lexeme _)) ?_)
        body.reports_phrase)
      exact .perhaps fun ps => .parenthesized fun p _ => p.silent_phrase

theorem else_reports : ∀ s : Option Stmt,
    (elsePhrase s).Reports (markCauses (optionErrorMarks s))
  | none => by
      rw [elsePhrase, optionErrorMarks]
      exact (silent_before _).reports
  | some s => by
      rw [elsePhrase, optionErrorMarks]
      exact .right (.lexeme _) s.reports_phrase

theorem init_reports : ∀ s : Option Stmt,
    (initPhrase s).Reports (markCauses (optionErrorMarks s))
  | none => by
      rw [initPhrase, optionErrorMarks]
      exact (Silent.lexeme _).reports
  | some s => by
      rw [initPhrase, optionErrorMarks]
      exact .such fun _ => s.reports_phrase

theorem stmts_report : ∀ ss : List Stmt,
    ∀ s ∈ ss, s.phrase.Reports (markCauses s.errorMarks)
  | [] => by simp
  | s :: ss => List.forall_mem_cons.2 ⟨s.reports_phrase, stmts_report ss⟩

theorem clauses_report : ∀ cs : List CatchClause,
    ∀ c ∈ cs, c.phrase.Reports (markCauses c.errorMarks)
  | [] => by simp
  | c :: cs => List.forall_mem_cons.2 ⟨c.reports_phrase, clauses_report cs⟩

end

/-! ### Directives and declarations -/

theorem PragmaDirective.reports_phrase (d : PragmaDirective) : d.phrase.Reports d.causes := by
  rintro ts es rest ⟨-, text, h, -⟩
  rw [PragmaDirective.causes]
  unfold pragmaReading at h
  dsimp only at h
  split at h
  · rename_i hname
    split at h
    · rename_i value hvalue
      obtain ⟨rfl, rfl⟩ := Prod.mk.inj h
      unfold Grammar.versionValue at hvalue
      split at hvalue
      · simp at hvalue
      split at hvalue
      · rw [← Except.ok.inj hvalue]
        exact .nil
      · simp at hvalue
    · obtain ⟨hd, rfl⟩ := Prod.mk.inj h
      rw [← hd]
      dsimp only
      rw [if_pos hname]
      exact .singleton ⟨_, rfl⟩
  · rename_i hname
    obtain ⟨hd, rfl⟩ := Prod.mk.inj h
    rw [← hd]
    dsimp only
    rw [if_neg hname]
    exact .nil

theorem ImportClause.silent_phrase (c : ImportClause) : c.phrase.Silent := by
  have hrenaming (renamed : Option Identifier) : (renamingPhrase renamed).Silent :=
    .perhaps fun i => .mul (.lexeme _) (.lexeme _)
  cases c with
  | single symbol renamed span =>
    refine .such (.covered (.mul ?_ (hrenaming _)))
    cases symbol with
    | wildcard span => exact .lexeme _
    | name i => exact .lexeme _
  | multiple symbols span =>
    exact .such (.covered (.between (.separated fun a _ => .covered (.mul (.lexeme _)
      (hrenaming _))) _ _))

theorem ImportDirective.silent_phrase (d : ImportDirective) : d.phrase.Silent := by
  refine .covered (.mul (.mul (.mul (.mul (.lexeme _) ?_) (.lexeme _)) ?_) (.lexeme _))
  · exact .perhaps fun c => .mul c.silent_phrase (.lexeme _)
  · exact .perhaps fun i => .mul (.lexeme _) (.lexeme _)

theorem UsingDirective.silent_phrase (d : UsingDirective) : d.phrase.Silent := by
  refine .covered (.mul (.mul (.mul (.mul (.lexeme _) d.library.silent_phrase) (.lexeme _)) ?_)
    (.lexeme _))
  cases d.target with
  | wildcard span => exact .lexeme _
  | type t => exact t.silent_phrase

theorem OverrideSpecifier.silent_phrase (o : OverrideSpecifier) : o.phrase.Silent :=
  .covered (.mul (.lexeme _) (.ite silent_one (.parenthesized fun p _ => p.silent_phrase)))

theorem ModifierInvocation.silent_phrase (m : ModifierInvocation) : m.phrase.Silent :=
  .covered (.mul m.path.silent_phrase (.perhaps fun as => as.silent_phrase))

theorem FunctionAttribute.silent_phrase (a : FunctionAttribute) : a.phrase.Silent := by
  cases a with
  | visibility | mutability | virtual => exact .lexeme _
  | override o => exact o.silent_phrase
  | modifier m => exact m.silent_phrase

theorem silent_signature (parameters : List Parameter) (attributes : List FunctionAttribute) :
    (signaturePhrase parameters attributes).Silent :=
  .mul (.parenthesized fun p _ => p.silent_phrase) (.prod fun a _ => a.silent_phrase)

theorem reports_functionBody (body : Option Block) :
    (functionBodyPhrase body).Reports (markCauses (body.elim [] Block.errorMarks)) := by
  cases body with
  | none => exact (Silent.lexeme _).reports
  | some b => exact b.reports_phrase

theorem FunctionDefinition.reports_phrase (d : FunctionDefinition) :
    d.phrase.Reports (markCauses (d.body.elim [] Block.errorMarks)) := by
  refine .covered (.right (.mul (.mul (.mul (.lexeme _) (.lexeme _)) (silent_signature _ _)) ?_)
    (reports_functionBody _))
  exact .returned fun p _ => p.silent_phrase

theorem ModifierDefinition.reports_phrase (d : ModifierDefinition) :
    d.phrase.Reports (markCauses (d.body.elim [] Block.errorMarks)) := by
  refine .covered (.right (.mul (.mul (.lexeme _) (.lexeme _)) (.sup (.such ?_)
    (silent_signature _ _))) (reports_functionBody _))
  exact .prod fun a _ => a.silent_phrase

theorem ConstructorDefinition.reports_phrase (d : ConstructorDefinition) :
    d.phrase.Reports (markCauses (d.body.elim [] Block.errorMarks)) :=
  .covered (.right (.mul (.lexeme _) (silent_signature _ _)) (reports_functionBody _))

theorem FallbackDefinition.reports_phrase (d : FallbackDefinition) :
    d.phrase.Reports (markCauses (d.body.elim [] Block.errorMarks)) :=
  .covered (.right (.mul (.sup (.lexeme _) (.such (.lexeme _))) (silent_signature _ _))
    (reports_functionBody _))

theorem VariableAttribute.silent_phrase (a : VariableAttribute) : a.phrase.Silent := by
  cases a with
  | visibility | constant | immutable => exact .lexeme _
  | override o => exact o.silent_phrase

theorem StateVariable.silent_phrase (d : StateVariable) : d.phrase.Silent := by
  refine .covered (.mul (.mul (.mul (.mul d.type.silent_phrase ?_) (.lexeme _)) ?_) (.lexeme _))
  · exact .prod fun a _ => a.silent_phrase
  · exact .perhaps fun e => .mul (.lexeme _) e.silent_phrase

theorem ConstantDeclaration.silent_phrase (d : ConstantDeclaration) : d.phrase.Silent := by
  refine .covered (.mul (.mul (.mul (.mul (.mul d.type.silent_phrase (.lexeme _)) (.lexeme _))
    (.lexeme _)) ?_) (.lexeme _))
  exact d.value.silent_phrase

theorem StructMember.silent_phrase (m : StructMember) : m.phrase.Silent :=
  .covered (.mul (.mul m.type.silent_phrase (.lexeme _)) (.lexeme _))

theorem StructDeclaration.reports_phrase (d : StructDeclaration) : d.phrase.Reports d.causes := by
  refine .covered (.right (.mul (.mul (.mul (.mul (.lexeme _) (.lexeme _)) (.lexeme _))
    (.prod fun m _ => m.silent_phrase)) (.lexeme _)) ?_)
  rw [StructDeclaration.causes]
  split
  · rintro ts es rest ⟨-, rfl⟩
    exact .singleton rfl
  · exact silent_one.reports

theorem EnumDeclaration.silent_phrase (d : EnumDeclaration) : d.phrase.Silent :=
  .covered (.mul (.mul (.mul (.mul (.lexeme _) (.lexeme _)) (.lexeme _))
    (.trailed fun _ _ => .lexeme _)) (.lexeme _))

theorem EventDefinition.silent_phrase (d : EventDefinition) : d.phrase.Silent := by
  refine .covered (.mul (.mul (.mul (.mul (.lexeme _) (.lexeme _)) (.parenthesized fun p _ => ?_))
    (.ite (.lexeme _) silent_one)) (.lexeme _))
  exact .covered (.mul (.mul p.type.silent_phrase (.ite (.lexeme _) silent_one))
    (.perhaps fun i => .lexeme _))

theorem Member.reports_phrase (m : Member) : m.phrase.Reports m.causes := by
  cases m with
  | function d => exact d.reports_phrase
  | modifier d => exact d.reports_phrase
  | constructor d => exact d.reports_phrase
  | fallback d => exact d.reports_phrase
  | stateVariable d => exact d.silent_phrase.reports
  | struct d => exact d.reports_phrase
  | enum d => exact d.silent_phrase.reports
  | event d => exact d.silent_phrase.reports
  | using_ d => exact d.silent_phrase.reports
  | error mark => exact mark.reports_phrase

theorem Member.reports_missing (m : Member) (around : Span) :
    (m.missing around).Reports m.causes := by
  cases m with
  | error mark => exact mark.reports_missing around
  | _ => exact fun _ _ _ h => h.elim

theorem ContractDeclaration.silent_header (d : ContractDeclaration) : d.header.Silent := by
  refine .such (.mul (.mul (.mul (.ite (.lexeme _) silent_one) (.lexeme _)) (.lexeme _))
    (.ite silent_one (.mul (.lexeme _) (.separated fun i _ => ?_))))
  exact .covered (.mul i.ancestor.silent_phrase (.perhaps fun as => as.silent_phrase))

theorem SourceUnit.reports_phrase (u : SourceUnit) : u.phrase.Reports u.causes := by
  cases u with
  | pragma d => exact d.reports_phrase
  | import_ d => exact d.silent_phrase.reports
  | contract d =>
    exact .covered (.right d.silent_header (.right (.lexeme _)
      (.body (fun m _ => m.reports_phrase) fun m _ => m.reports_missing d.span)))
  | struct d => exact d.reports_phrase
  | enum d => exact d.silent_phrase.reports
  | function d => exact d.reports_phrase
  | constant d => exact d.silent_phrase.reports
  | error mark => exact mark.reports_phrase

/-- The faults that are recorded for a source have the causes that its file shows. -/
theorem parse_account (source : String) :
    Cause.Account (parse source).file.causes (recordedErrors source) :=
  Reports.prod (fun u _ => u.reports_phrase) _ _ _ (parse_phrase source)

/-! ### Marks, structs and pragmas of a file -/

def Member.struct? : Member → Option StructDeclaration
  | .struct d => some d
  | _ => none

/-- The structs of a top-level item. -/
def SourceUnit.structs : SourceUnit → List StructDeclaration
  | .struct d => [d]
  | .contract d => d.members.filterMap Member.struct?
  | _ => []

def SourceFile.structs (f : SourceFile) : List StructDeclaration := f.items.flatMap SourceUnit.structs

/-- Whether this is a `pragma solidity` whose value stays text. -/
def PragmaDirective.isRawVersion (d : PragmaDirective) : Bool :=
  match d.value with
  | .raw .. => d.name.name == "solidity"
  | .version _ => false

theorem filterMap_markCauses (ms : List ErrorMark) :
    (markCauses ms).filterMap Cause.mark? = ms := by
  rw [markCauses, List.filterMap_map]
  exact List.filterMap_some

theorem StructDeclaration.filterMap_causes (d : StructDeclaration) :
    d.causes.filterMap Cause.mark? = [] := by
  rw [StructDeclaration.causes]
  split <;> rfl

theorem PragmaDirective.filterMap_causes (d : PragmaDirective) :
    d.causes.filterMap Cause.mark? = [] := by
  rw [PragmaDirective.causes]
  split
  · split <;> rfl
  · rfl

theorem Member.filterMap_causes (m : Member) : m.causes.filterMap Cause.mark? = m.errorMarks := by
  cases m with
  | struct d => exact d.filterMap_causes
  | _ => exact filterMap_markCauses _

theorem SourceUnit.filterMap_causes (u : SourceUnit) :
    u.causes.filterMap Cause.mark? = u.errorMarks := by
  cases u with
  | pragma d => exact d.filterMap_causes
  | struct d => exact d.filterMap_causes
  | contract d =>
    rw [SourceUnit.causes, List.filterMap_flatMap, SourceUnit.errorMarks]
    simp only [Member.filterMap_causes]
  | _ => exact filterMap_markCauses _

theorem SourceFile.filterMap_causes (f : SourceFile) :
    f.causes.filterMap Cause.mark? = f.errorMarks := by
  rw [SourceFile.causes, List.filterMap_flatMap, SourceFile.errorMarks]
  simp only [SourceUnit.filterMap_causes]

/-- A cause that is no mark is a struct without members or a pragma that stays text. -/
theorem StructDeclaration.length_causes (d : StructDeclaration) :
    d.causes.length = [d].countP (·.members.isEmpty) := by
  rw [StructDeclaration.causes]
  split <;> simp_all

theorem PragmaDirective.length_causes (d : PragmaDirective) :
    d.causes.length = [d].countP PragmaDirective.isRawVersion := by
  rw [PragmaDirective.causes, List.countP_singleton, PragmaDirective.isRawVersion]
  split
  · rename_i text span hvalue
    by_cases hname : d.name.name = "solidity" <;> simp [hname]
  · simp

theorem length_members_causes (ms : List Member) :
    (ms.flatMap Member.causes).length = (ms.flatMap Member.errorMarks).length
      + (ms.filterMap Member.struct?).countP (·.members.isEmpty) := by
  induction ms with
  | nil => rfl
  | cons m ms ih =>
    rw [List.flatMap_cons, List.flatMap_cons, List.length_append, List.length_append, ih]
    cases m with
    | struct d =>
      have hd := d.length_causes
      have hstruct : Member.struct? (.struct d) = some d := rfl
      rw [List.filterMap_cons_some hstruct, ← List.singleton_append, List.countP_append, ← hd]
      simp only [Member.causes, Member.errorMarks, Member.body?, Option.elim, List.length_nil]
      omega
    | _ =>
      rw [List.filterMap_cons_none rfl]
      simp only [Member.causes, markCauses, List.length_map]
      omega

theorem length_items_causes (us : List SourceUnit) :
    (us.flatMap SourceUnit.causes).length = (us.flatMap SourceUnit.errorMarks).length
      + (us.flatMap SourceUnit.structs).countP (·.members.isEmpty)
      + (us.filterMap SourceUnit.pragma?).countP PragmaDirective.isRawVersion := by
  induction us with
  | nil => rfl
  | cons u us ih =>
    simp only [List.flatMap_cons, List.length_append, List.countP_append, ih]
    cases u with
    | pragma d =>
      have hd := d.length_causes
      have hpragma : SourceUnit.pragma? (.pragma d) = some d := rfl
      rw [List.filterMap_cons_some hpragma, ← List.singleton_append, List.countP_append, ← hd]
      simp only [SourceUnit.causes, SourceUnit.errorMarks, SourceUnit.structs, List.length_nil,
        List.countP_nil]
      omega
    | struct d =>
      have hd := d.length_causes
      rw [List.filterMap_cons_none rfl]
      simp only [SourceUnit.causes, SourceUnit.errorMarks, SourceUnit.structs, List.length_nil, hd]
      omega
    | contract d =>
      have hmembers := length_members_causes d.members
      rw [List.filterMap_cons_none rfl]
      simp only [SourceUnit.causes, SourceUnit.errorMarks, SourceUnit.structs, hmembers]
      omega
    | _ =>
      rw [List.filterMap_cons_none rfl]
      simp only [SourceUnit.causes, SourceUnit.structs, markCauses, List.length_map,
        List.countP_nil]
      omega

/-- The marks among causes have their messages among those of the faults. -/
theorem Cause.map_message_sublist {cs : List Cause} {es : List SyntaxError}
    (h : List.SublistForall₂ Explains cs es) :
    ((cs.filterMap mark?).map ErrorMark.message).Sublist (es.map fun e => e.fault.summary) := by
  induction h with
  | nil => exact List.nil_sublist _
  | @cons c e cs es hc _ ih =>
    cases c with
    | mark m =>
      have hmark : mark? (.mark m) = some m := rfl
      have hmessage : m.message = e.fault.summary := hc
      rw [List.filterMap_cons_some hmark, List.map_cons, List.map_cons, hmessage]
      exact ih.cons_cons _
    | emptyStruct span | rawVersion span => exact ih.cons _
  | cons_right _ ih => exact ih.cons _

/-- The messages of the error marks of a file are, in their order, among those of the faults that
were recorded for its source; where it has no mark, the faults are as many as its structs without
members and its version pragmas that stay text. -/
theorem parse_marks_recorded (source : String) :
    (parse source).errors = SourceError.sorted (tokenize source).errors (recordedErrors source)
      ∧ ((parse source).file.errorMarks.map ErrorMark.message).Sublist
          ((recordedErrors source).map fun e => e.fault.summary)
      ∧ ((parse source).file.errorMarks = [] → (recordedErrors source).length
          = (parse source).file.structs.countP (·.members.isEmpty)
            + (parse source).file.pragmas.countP PragmaDirective.isRawVersion) := by
  obtain ⟨hsome, hall⟩ := parse_account source
  rw [SourceFile.filterMap_causes] at hall
  refine ⟨parse_errors source, ?_, fun hmarks => ?_⟩
  · have hmessages := Cause.map_message_sublist hsome
    rwa [SourceFile.filterMap_causes] at hmessages
  · have hlength := length_items_causes (parse source).file.items
    rw [← (hall hmarks).length_eq, SourceFile.causes, hlength]
    change (parse source).file.errorMarks.length + _ + _ = _
    rw [hmarks, List.length_nil, Nat.zero_add]
    rfl

theorem parse_marks_recorded_soft : (recordedErrors "struct S {} pragma solidity ?;").length
    = (parse "struct S {} pragma solidity ?;").file.structs.countP (·.members.isEmpty)
      + (parse "struct S {} pragma solidity ?;").file.pragmas.countP
        PragmaDirective.isRawVersion := by
  refine (parse_marks_recorded "struct S {} pragma solidity ?;").2.2 ?_
  have hnone : (parse "struct S {} pragma solidity ?;").file.errorMarks.isEmpty := by
    rw [parse_ofList]
    decide +kernel
  exact List.isEmpty_iff.1 hnone

end SolidityFrontend
