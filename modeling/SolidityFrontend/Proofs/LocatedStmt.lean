import SolidityFrontend.Proofs.AgreeingStmt
import SolidityFrontend.Proofs.LocatedExpr

/-!
# Statements within their text

Each parser for statements gives values and errors within the text, if the parsers one level deeper
do; so the parsers of every level do.
-/

namespace SolidityFrontend

open Phrase SolidityFrontend.Parser

variable {source : List Char}

namespace Grammar

section

variable {deeper : Nested} (hd : deeper.Fits source)
include hd

/-! ### Statements -/

omit hd in
theorem fits_errorStmt (m : ErrorMark) (h : Fits source m) : Fits source (Stmt.error m) :=
  fun f hf => by rw [respan_errorStmt, h.eq hf]

theorem located_block : Located source (block deeper) := by
  refine (located_symbol _).bind fun start hstart => ?_
  refine (located_body hd.statement fits_errorStmt).bind fun statements hstatements => ?_
  refine located_covered (fits_span.1 hstart) fun span hspan f hf => ?_
  rw [respan_block, hstatements.eq hf, hspan.eq hf]

theorem located_variableDeclaration : Located source (variableDeclaration deeper) := by
  refine located_here.bind fun start hstart => hd.typeName.bind fun type htype => ?_
  refine located_storageLocation?.bind fun location _ => located_identifier.bind fun name hname => ?_
  refine located_covered (fits_span.1 hstart) fun span hspan f hf => ?_
  rw [respan_variableDeclaration, htype.eq hf, hname.eq hf, hspan.eq hf]

theorem located_tupleDeclarator : Located source (tupleDeclarator deeper) := by
  refine (located_symbol _).bind fun start hstart => ?_
  refine (located_separated (located_tuplePlace (located_variableDeclaration hd))).bind
    fun elements helements => (located_symbol _).bind fun _ _ => ?_
  refine (located_spanFrom (fits_span.1 hstart)).bind fun span hspan => ?_
  rw [fits_span] at hspan
  refine locates_ite (fun _ => locates_violation _ hspan) fun _ => located_pure fun f hf => ?_
  rw [respan_tupleDeclarator, helements.eq hf, hspan.eq hf]

theorem located_declarator : Located source (declarator deeper) := by
  refine (peeks_nextIs _).locates fun _ => locates_ite (fun _ => located_tupleDeclarator hd)
    fun _ => (located_variableDeclaration hd).bind fun d hd => located_pure fun f hf => ?_
  rw [respan_single, hd.eq hf]

theorem located_declarationEnd {d : Declarator} {start : Span} (hdeclarator : Fits source d)
    (hstart : start.In source) : Located source (declarationEnd deeper d start) := by
  have hrest (value : Option Expr) (hvalue : Fits source value) : Located source
      (if value.isNone && !needsNoValue d then
        spanFrom start >>= fun span => violation .tupleWithoutValue span
      else symbol .semicolon >>= fun _ => spanFrom start >>= fun span =>
        pure (Stmt.variables d value span)) := by
    refine locates_ite (fun _ => ?_) fun _ => (located_symbol _).bind fun _ _ => ?_
    · exact (located_spanFrom hstart).bind fun span hspan => locates_violation _ (fits_span.1 hspan)
    · refine located_covered hstart fun span hspan f hf => ?_
      rw [respan_variables, hdeclarator.eq hf, hvalue.eq hf, hspan.eq hf]
  exact (located_accept _).bind fun _ _ => locates_ite (fun _ => hd.expression.some.bind hrest)
    fun _ => hrest none fits_none

omit hd in
theorem located_varPlace : Located source varPlace := by
  refine peeks_next.locates fun next => ?_
  split
  · exact located_pure fits_none
  · exact located_pure fits_none
  · exact located_identifier.bind fun i hi => located_pure hi.some

theorem located_varTupleDeclaration : Located source (varTupleDeclaration deeper) := by
  refine located_here.bind fun start hstart => located_advance.bind fun _ _ => ?_
  rw [fits_span] at hstart
  refine (located_symbol _).bind fun _ _ => (located_separated located_varPlace).bind
    fun names hnames => (located_symbol _).bind fun _ _ => (located_spanFrom hstart).bind
      fun span hspan => located_declarationEnd hd (fun f hf => ?_) hstart
  rw [respan_varTuple, hnames.eq hf, (fits_span.1 hspan).eq hf]

theorem located_expressionStatement : Located source (expressionStatement deeper) := by
  refine hd.expression.bind fun e he => (located_symbol _).bind fun _ _ => ?_
  refine located_covered (Expr.span_in he) fun span hspan f hf => ?_
  rw [respan_expressionStmt, he.eq hf, hspan.eq hf]

theorem located_declarationOrExpression : Located source (declarationOrExpression deeper) := by
  refine located_here.bind fun start hstart => ?_
  have hdeclarator : Located source (Sum.inl (β := Stmt) <$> declarator deeper) :=
    (located_declarator hd).map fun d hd f hf => by rw [respan_inl, hd.eq hf]
  have hexpression : Located source (Sum.inr (α := Declarator) <$> expressionStatement deeper) :=
    (located_expressionStatement hd).map fun s hs f hf => by rw [respan_inr, hs.eq hf]
  refine (located_either hdeclarator hexpression).bind fun x hx => ?_
  cases x with
  | inl d => exact located_declarationEnd hd (fun f hf => Sum.inl.inj (hx.eq hf)) (fits_span.1 hstart)
  | inr s => exact located_pure fun f hf => Sum.inr.inj (hx.eq hf)

theorem located_simpleStatement : Located source (simpleStatement deeper) := by
  refine peeks_varTupleBegins.locates fun _ => locates_ite
    (fun _ => located_varTupleDeclaration hd) fun _ => ?_
  exact peeks_next.locates fun _ => locates_ite (fun _ => located_declarationOrExpression hd)
    fun _ => located_expressionStatement hd

theorem located_condition : Located source (condition deeper) :=
  (located_symbol _).bind fun _ _ => hd.expression.bind fun _ he =>
    (located_symbol _).bind fun _ _ => located_pure he

theorem located_ifStatement : Located source (ifStatement deeper) := by
  refine (located_keyword _).bind fun start hstart => (located_condition hd).bind fun test htest => ?_
  refine hd.statement.bind fun thenBranch hthen => ?_
  have hrest (elseBranch : Option Stmt) (helse : Fits source elseBranch) : Located source
      (spanFrom start >>= fun span => pure (Stmt.ifElse test thenBranch elseBranch span)) :=
    located_covered (fits_span.1 hstart) fun span hspan f hf => by
      rw [respan_ifElse, htest.eq hf, hthen.eq hf, helse.eq hf, hspan.eq hf]
  exact (located_accept _).bind fun _ _ => locates_ite (fun _ => hd.statement.some.bind hrest)
    fun _ => hrest none fits_none

theorem located_optional (stop : Symbol) : Located source (optional deeper stop) :=
  (peeks_nextIs _).locates fun _ => locates_ite (fun _ => located_pure fits_none) fun _ =>
    hd.expression.bind fun _ he => located_pure he.some

theorem located_forStatement : Located source (forStatement deeper) := by
  refine (located_keyword _).bind fun start hstart => (located_symbol _).bind fun _ _ => ?_
  have hrest (init : Option Stmt) (hinit : Fits source init) : Located source
      (optional deeper .semicolon >>= fun test => symbol .semicolon >>= fun _ =>
        optional deeper .rightParen >>= fun update => symbol .rightParen >>= fun _ =>
          deeper.statement >>= fun inner => spanFrom start >>= fun span =>
            pure (Stmt.forLoop init test update inner span)) := by
    refine (located_optional hd _).bind fun test htest => (located_symbol _).bind fun _ _ => ?_
    refine (located_optional hd _).bind fun update hupdate => (located_symbol _).bind fun _ _ => ?_
    refine hd.statement.bind fun inner hinner => ?_
    refine located_covered (fits_span.1 hstart) fun span hspan f hf => ?_
    rw [respan_forLoop, hinit.eq hf, htest.eq hf, hupdate.eq hf, hinner.eq hf, hspan.eq hf]
  exact (located_accept _).bind fun _ _ => locates_ite (fun _ => hrest none fits_none)
    fun _ => (located_simpleStatement hd).some.bind hrest

theorem located_whileStatement : Located source (whileStatement deeper) := by
  refine (located_keyword _).bind fun start hstart => (located_condition hd).bind fun test htest => ?_
  refine hd.statement.bind fun inner hinner => ?_
  refine located_covered (fits_span.1 hstart) fun span hspan f hf => ?_
  rw [respan_whileLoop, htest.eq hf, hinner.eq hf, hspan.eq hf]

theorem located_doWhileStatement : Located source (doWhileStatement deeper) := by
  refine (located_keyword _).bind fun start hstart => hd.statement.bind fun inner hinner => ?_
  refine (located_keyword _).bind fun _ _ => (located_condition hd).bind fun test htest => ?_
  refine (located_symbol _).bind fun _ _ => ?_
  refine located_covered (fits_span.1 hstart) fun span hspan f hf => ?_
  rw [respan_doWhile, hinner.eq hf, htest.eq hf, hspan.eq hf]

omit hd in
theorem located_keywordStatement (k : Keyword) {make : Span → Stmt}
    (hmake : ∀ span : Span, span.In source → Fits source (make span)) :
    Located source (keywordStatement k make) :=
  (located_keyword _).bind fun _ hstart => (located_symbol _).bind fun _ _ =>
    located_covered (fits_span.1 hstart) hmake

theorem located_returnStatement : Located source (returnStatement deeper) := by
  refine (located_keyword _).bind fun start hstart => (located_optional hd _).bind
    fun value hvalue => (located_symbol _).bind fun _ _ => ?_
  refine located_covered (fits_span.1 hstart) fun span hspan f hf => ?_
  rw [respan_return, hvalue.eq hf, hspan.eq hf]

theorem located_emitStatement : Located source (emitStatement deeper) := by
  refine (located_keyword _).bind fun start hstart => located_path.bind fun event hevent => ?_
  refine (located_callArguments hd).bind fun as has => (located_symbol _).bind fun _ _ => ?_
  refine located_covered (fits_span.1 hstart) fun span hspan f hf => ?_
  rw [respan_emit, hevent.eq hf, has.eq hf, hspan.eq hf]

theorem located_catchClause : Located source (catchClause deeper) := by
  refine (located_keyword _).bind fun start hstart => located_identifier?.bind fun name hname => ?_
  have hrest (ps : Option (List Parameter)) (hps : Fits source ps) : Located source
      (block deeper >>= fun inner => spanFrom start >>= fun span =>
        pure (CatchClause.mk name ps inner span)) := by
    refine (located_block hd).bind fun inner hinner => ?_
    refine located_covered (fits_span.1 hstart) fun span hspan f hf => ?_
    rw [respan_catchClause, hname.eq hf, hps.eq hf, hinner.eq hf, hspan.eq hf]
  exact (peeks_nextIs _).locates fun _ => locates_ite
    (fun _ => (located_parameters hd).some.bind hrest) fun _ => hrest none fits_none

theorem located_tryStatement : Located source (tryStatement deeper) := by
  refine (located_keyword _).bind fun start hstart => hd.expression.structLiterals.bind
    fun call hcall => (located_returnParameters hd).bind fun returns hreturns => ?_
  refine (located_block hd).bind fun inner hinner => ?_
  refine Located.bind (located_many ?_) fun clauses hclauses => locates_ite (fun _ => ?_) fun _ => ?_
  · exact (peeks_nextIs _).locates fun _ => locates_ite
      (fun _ => (located_catchClause hd).bind fun _ h => located_pure h.some) fun _ =>
      located_pure fits_none
  · exact (located_spanFrom (fits_span.1 hstart)).bind fun span hspan =>
      locates_violation _ (fits_span.1 hspan)
  · refine located_covered (fits_span.1 hstart) fun span hspan f hf => ?_
    rw [respan_tryCatch, hcall.eq hf, hreturns.eq hf, hinner.eq hf, hclauses.eq hf, hspan.eq hf]

omit hd in
theorem located_closeBrace : Located source closeBrace := by
  intro c s hs _
  obtain ⟨⟨us, hrest, hprevious⟩, -⟩ := skips_skipBraces 1 s.previous s.rest
  rw [closeBrace, state_bind]
  rcases hr : skipBraces 1 s.previous s.rest with ⟨closed, previous, rest⟩
  rw [hr] at hrest hprevious
  have htook : s.Took us [] { s with previous, rest } := ⟨hrest, hprevious, by simp⟩
  dsimp only
  rw [goTo_bind, run_ite]
  split
  · exact (Answers.refl fits_unit).behind htook (by simp)
  · exact (Answers.fail hs.stop).behind htook (by simp)

omit hd in
theorem located_assemblyStatement : Located source assemblyStatement := by
  refine (located_keyword _).bind fun start hstart => peeks_next.locates fun next => ?_
  have hrest (dialect : Option String) : Located source
      (symbol .leftBrace >>= fun opening => closeBrace >>= fun _ =>
        spanFrom opening >>= fun inner => spanFrom start >>= fun span =>
          pure (Stmt.assembly dialect inner span)) := by
    refine (located_symbol _).bind fun opening hopening => located_closeBrace.bind fun _ _ => ?_
    refine (located_spanFrom (fits_span.1 hopening)).bind fun inner hinner => ?_
    refine located_covered (fits_span.1 hstart) fun span hspan f hf => ?_
    rw [respan_assembly, (fits_span.1 hinner).eq hf, hspan.eq hf]
  split
  · refine Located.bind (Located.some (located_stringText.map fun p _ f _ => ?_)) fun d _ => hrest d
    exact respan_text p.1
  · exact hrest none

theorem located_statement : Located source (statement deeper) := by
  refine peeks_next.locates fun next => ?_
  split
  · exact (located_block hd).bind fun b hb => located_pure fun f hf => by
      rw [respan_blockStmt, hb.eq hf]
  · exact located_ifStatement hd
  · exact located_forStatement hd
  · exact located_whileStatement hd
  · exact located_doWhileStatement hd
  · exact located_keywordStatement _ fun span hspan f hf => by rw [respan_continue, hspan.eq hf]
  · exact located_keywordStatement _ fun span hspan f hf => by rw [respan_break, hspan.eq hf]
  · exact located_keywordStatement _ fun span hspan f hf => by rw [respan_throw, hspan.eq hf]
  · exact located_returnStatement hd
  · exact located_emitStatement hd
  · exact located_tryStatement hd
  · exact located_assemblyStatement
  · exact located_simpleStatement hd

end

end Grammar

/-! ### Levels -/

theorem Nested.Fits.above {n : Nested} (h : n.Fits source) : n.above.Fits source where
  sound := h.sound.above
  expression := Grammar.located_expression h
  operand := Grammar.located_unaryExpr h
  exponent := Grammar.located_powerExpr h
  typeName := Grammar.located_typeName h
  statement := Grammar.located_statement h

theorem Nested.fits_ofDepth : ∀ n, (Nested.ofDepth n).Fits source
  | 0 => Nested.fits_none
  | n + 1 => (Nested.fits_ofDepth n).above

theorem Nested.fits_full : Nested.full.Fits source := Nested.fits_ofDepth _

end SolidityFrontend
