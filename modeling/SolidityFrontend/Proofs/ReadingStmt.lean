import SolidityFrontend.Proofs.ReadingOperator

/-!
# The phrases of statements

Each parser for statements reads the phrase of the statement it gives. Errors in the statements of a
block are recorded on the way, so nothing is said here of parsers that record none.
-/

namespace SolidityFrontend.Grammar

open Phrase SolidityFrontend.Parser

variable {q : Prop} {c : Context} {s₀ : State} {A : Phrase}

section

variable {deeper : Nested} (hd : deeper.Sound)
include hd

theorem reads_block : Reads False (block deeper) Block.phrase := by
  refine (reads_symbolAt _).first fun c s start => ?_
  refine bind_body_spanFrom Stmt.missing not_false hd.statement (fun m => ?_) (fun around m => ?_)
    (by simp) fun statements span => after_pure ?_
  · rw [Stmt.phrase]
  · exact le_rfl
  · rw [Block.phrase, stmtPhrases_eq]
    exact covered_mono (mul_mono tokenAt_le le_rfl)

/-! ### Declarations and expressions -/

theorem reads_variableDeclaration :
    Reads q (variableDeclaration deeper) VariableDeclaration.phrase := by
  refine reads_here.first fun c s start => (hd.typeName q).bind fun type => ?_
  refine reads_storageLocation?.bind fun location => reads_identifier.bind fun name => ?_
  refine (after_spanFrom (by simp [mul_assoc])).bind fun span => after_pure ?_
  rw [VariableDeclaration.phrase]
  gcongr
  exact opening_mul_le

theorem reads_tupleDeclarator : Reads q (tupleDeclarator deeper) Declarator.phrase := by
  refine (reads_symbolAt _).first fun c s start => ?_
  refine (reads_separated (reads_tuplePlace (reads_variableDeclaration hd))).bind fun elements => ?_
  refine (reads_symbol _).bind fun _ => (after_spanFrom (by simp [mul_assoc])).bind fun span => ?_
  refine after_ite (fun _ => after_violation _ _) fun hsome => after_pure ?_
  rw [Declarator.phrase]
  refine le_such (by simpa using hsome) ?_
  rw [parenthesized]
  gcongr
  exact tokenAt_le

theorem reads_declarator : Reads q (declarator deeper) Declarator.phrase := by
  refine (peeks_nextIs _).looks.first fun _ => reads_ite (fun _ => reads_tupleDeclarator hd) ?_
  intro _
  exact (reads_variableDeclaration hd).first fun c s d => after_pure le_rfl

/-- The value of a declaration, behind what is declared. -/
theorem after_declarationEnd {d : Declarator} {start : Span} (hA : A.Opens start)
    (hd' : A ≤ d.phrase) : ReadsAfter q c s₀ A (declarationEnd deeper d start)
      fun s => such s.isSimple s.phrase := by
  refine if_accept_bind (M := fun value => A * perhaps (value.map fun e =>
    Phrase.symbol .assign * e.phrase)) (hd.expression q).after_some
    (after_pure (mul_mono le_rfl before_le_one)) fun value => ?_
  refine after_ite (fun _ => ?_) fun hvalue => (reads_symbol _).bind fun _ => ?_
  · exact (after_spanFrom (hA.mul _)).bind fun span => after_violation _ _
  · refine (after_spanFrom ((hA.mul _).mul _)).bind fun span => after_pure (le_such trivial ?_)
    rw [Stmt.phrase]
    refine le_such ?_ (by gcongr)
    cases value <;> simp_all

omit hd in
/-- A vacant place or a name, in a tuple whose types are inferred. -/
theorem reads_varPlace : Reads q varPlace fun o => perhaps (o.map Identifier.phrase) := by
  refine peeks_next.looks.first fun next => ?_
  split
  · exact reads_pure le_rfl
  · exact reads_pure le_rfl
  · exact reads_identifier.first fun c s i => after_pure le_rfl

theorem after_varTupleDeclaration :
    ReadsAfter q c s₀ (before fun rest => rest[0]?.map Lexeme.token = some (.elementaryType "var"))
      (varTupleDeclaration deeper) fun s => such s.isSimple s.phrase := by
  refine reads_here.bind fun start => ?_
  refine ((after_advance_token _).weaken opening_next).bind fun _ => (reads_symbol _).bind fun _ => ?_
  refine (reads_separated reads_varPlace).bind fun names => (reads_symbol _).bind fun _ => ?_
  refine (after_spanFrom (by simp [mul_assoc])).bind fun span => ?_
  refine after_declarationEnd hd (Opens.covered (by simp [mul_assoc]) span) ?_
  rw [Declarator.phrase, parenthesized]
  refine covered_mono ?_
  simp only [mul_assoc]
  exact opening_mul_le

theorem reads_expressionStatement :
    Reads q (expressionStatement deeper) fun s => such s.isSimple s.phrase := by
  refine (hd.expression q).first fun c s e => (reads_symbol _).bind fun _ => ?_
  refine (after_spanFrom (by simp)).bind fun span => after_pure (le_such trivial ?_)
  rw [Stmt.phrase]

/-- What begins like a type is read from its start, as a declaration or as an expression. -/
theorem reads_declarationOrExpression :
    Reads q (declarationOrExpression deeper) fun s => such s.isSimple s.phrase := by
  have hdeclarator : Reads q (Sum.inl <$> declarator deeper)
      (Sum.elim Declarator.phrase fun s : Stmt => such s.isSimple s.phrase) :=
    (reads_declarator hd).map fun d => le_rfl
  have hexpression : Reads q (Sum.inr <$> expressionStatement deeper)
      (Sum.elim Declarator.phrase fun s : Stmt => such s.isSimple s.phrase) :=
    (reads_expressionStatement hd).map fun s => le_rfl
  refine reads_here.first fun c s start => (reads_either hdeclarator hexpression).bind fun x => ?_
  cases x with
  | inl d => exact after_declarationEnd hd (opens_opening_mul d.takes_phrase) opening_mul_le
  | inr s => exact after_pure opening_mul_le

omit hd in
theorem peeks_varTupleBegins : Peeks varTupleBegins fun rest =>
    rest[0]?.map Lexeme.token == some (.elementaryType "var")
      && rest[1]?.map Lexeme.token == some (.symbol .leftParen) := fun _ _ => rfl

theorem reads_simpleStatement :
    Reads q (simpleStatement deeper) fun s => such s.isSimple s.phrase := by
  refine peeks_varTupleBegins.first fun c s b => after_ite (fun hb => ?_) fun _ => ?_
  · refine (after_varTupleDeclaration hd).weaken (before_mono fun rest hrest => ?_)
    rw [hb, Bool.and_eq_true] at hrest
    simpa using hrest.1
  · refine ReadsAfter.weaken (A := 1) ?_ before_le_one
    have hreads {p : Parser Stmt} (h : Reads q p fun s => such s.isSimple s.phrase) :
        ReadsAfter q c s 1 p fun s => such s.isSimple s.phrase :=
      (h.after c s 1).mono le_rfl fun s => (one_mul _).le
    refine peeks_next.looks.bind fun next => after_ite (fun _ => ?_) fun _ => ?_
    · exact hreads (reads_declarationOrExpression hd)
    · exact hreads (reads_expressionStatement hd)

/-! ### Control -/

theorem reads_condition : Reads q (condition deeper) fun e =>
    Phrase.symbol .leftParen * e.phrase * Phrase.symbol .rightParen := by
  refine (reads_symbol _).first fun c s _ => (hd.expression q).bind fun e => ?_
  exact (reads_symbol _).bind fun _ => after_pure le_rfl

theorem reads_ifStatement : Reads False (ifStatement deeper) Stmt.phrase := by
  refine (reads_keywordAt _).first fun c s start => (reads_condition hd).bind fun test => ?_
  refine hd.statement.bind fun thenBranch => ?_
  refine if_accept_bind (M := fun elseBranch => tokenAt (.keyword .if_) start
    * (Phrase.symbol .leftParen * test.phrase * Phrase.symbol .rightParen) * thenBranch.phrase
    * elsePhrase elseBranch) ?_ ?_ fun elseBranch => ?_
  · refine hd.statement.bind fun s => after_pure ?_
    rw [elsePhrase]
    exact (mul_assoc _ _ _).le
  · refine after_pure ?_
    rw [elsePhrase]
  · refine (after_spanFrom (by simp [mul_assoc])).bind fun span => after_pure ?_
    rw [Stmt.phrase]
    gcongr
    exact tokenAt_le

theorem reads_optional (stop : Symbol) :
    Reads q (optional deeper stop) fun o => perhaps (o.map Expr.phrase) := by
  refine (peeks_nextIs _).looks.first fun _ => reads_ite (fun _ => reads_pure le_rfl) fun _ => ?_
  exact (hd.expression q).first fun c s e => after_pure le_rfl

theorem reads_forStatement : Reads False (forStatement deeper) Stmt.phrase := by
  refine (reads_keywordAt _).first fun c s start => (reads_symbol _).bind fun _ => ?_
  refine if_accept_bind (M := fun init => tokenAt (.keyword .for_) start * Phrase.symbol .leftParen
    * initPhrase init) ?_ ?_ fun init => ?_
  · refine after_pure ?_
    rw [initPhrase]
    exact le_rfl
  · refine ((reads_simpleStatement hd).after c s _).weaken mul_before_le |>.bind fun s => after_pure ?_
    rw [initPhrase]
  · refine (reads_optional hd _).bind fun test => (reads_symbol _).bind fun _ => ?_
    refine (reads_optional hd _).bind fun update => (reads_symbol _).bind fun _ => ?_
    refine hd.statement.bind fun inner => ?_
    refine (after_spanFrom (by simp [mul_assoc])).bind fun span => after_pure ?_
    rw [Stmt.phrase]
    gcongr
    exact tokenAt_le

theorem reads_whileStatement : Reads False (whileStatement deeper) Stmt.phrase := by
  refine (reads_keywordAt _).first fun c s start => (reads_condition hd).bind fun test => ?_
  refine hd.statement.bind fun inner => ?_
  refine (after_spanFrom (by simp [mul_assoc])).bind fun span => after_pure ?_
  rw [Stmt.phrase]
  gcongr
  exact tokenAt_le

theorem reads_doWhileStatement : Reads False (doWhileStatement deeper) Stmt.phrase := by
  refine (reads_keywordAt _).first fun c s start => hd.statement.bind fun inner => ?_
  refine (reads_keyword _).bind fun _ => (reads_condition hd).bind fun test => ?_
  refine (reads_symbol _).bind fun _ => ?_
  refine (after_spanFrom (by simp [mul_assoc])).bind fun span => after_pure ?_
  rw [Stmt.phrase]
  gcongr
  exact tokenAt_le

omit hd in
theorem reads_keywordStatement {k : Keyword} {make : Span → Stmt}
    (h : ∀ span, (make span).phrase = covered span (Phrase.keyword k * Phrase.symbol .semicolon)) :
    Reads q (keywordStatement k make) Stmt.phrase := by
  refine (reads_keywordAt _).first fun c s start => (reads_symbol _).bind fun _ => ?_
  refine (after_spanFrom (by simp)).bind fun span => after_pure ?_
  rw [h]
  gcongr
  exact tokenAt_le

theorem reads_returnStatement : Reads q (returnStatement deeper) Stmt.phrase := by
  refine (reads_keywordAt _).first fun c s start => (reads_optional hd _).bind fun value => ?_
  refine (reads_symbol _).bind fun _ => ?_
  refine (after_spanFrom (by simp [mul_assoc])).bind fun span => after_pure ?_
  rw [Stmt.phrase]
  gcongr
  exact tokenAt_le

theorem reads_emitStatement : Reads q (emitStatement deeper) Stmt.phrase := by
  refine (reads_keywordAt _).first fun c s start => reads_path.bind fun event => ?_
  refine (reads_callArguments hd).bind fun arguments => (reads_symbol _).bind fun _ => ?_
  refine (after_spanFrom (by simp [mul_assoc])).bind fun span => after_pure ?_
  rw [Stmt.phrase]
  gcongr
  exact tokenAt_le

/-! ### Failing calls and assembly -/

theorem reads_catchClause : Reads False (catchClause deeper) CatchClause.phrase := by
  refine (reads_keywordAt _).first fun c s start => reads_identifier?.bind fun name => ?_
  refine (peeks_nextIs _).looks.bind fun _ => bind_ite (M := fun ps : Option (List Parameter) =>
    tokenAt (.keyword .catch_) start * perhaps (name.map Identifier.phrase)
      * perhaps (ps.map fun ps => parenthesized (ps.map Parameter.phrase)))
    (fun _ => (reads_parameters hd).some.after c s _) (fun _ => after_pure (mul_one _).ge) ?_
  refine fun ps => (reads_block hd).bind fun inner => ?_
  refine (after_spanFrom (by simp [mul_assoc])).bind fun span => after_pure ?_
  rw [CatchClause.phrase]
  gcongr
  exact tokenAt_le

theorem reads_tryStatement : Reads False (tryStatement deeper) Stmt.phrase := by
  refine (reads_keywordAt _).first fun c s start => ?_
  refine (hd.expression False).structLiterals.bind fun call => ?_
  refine (reads_returnParameters hd).bind fun returns => (reads_block hd).bind fun inner => ?_
  have hclause : Reads False (nextIs (.keyword .catch_) >>= fun b => if b = true then
      catchClause deeper >>= fun clause => pure (some clause) else pure none)
      fun o => perhaps (o.map CatchClause.phrase) := by
    refine (peeks_nextIs _).looks.first fun _ => reads_ite (fun _ => ?_) fun _ => reads_pure le_rfl
    exact (reads_catchClause hd).first fun c s clause => after_pure le_rfl
  refine (reads_many hclause).bind fun clauses => after_ite (fun _ => ?_) fun hclauses => ?_
  · exact (after_spanFrom (by simp [mul_assoc])).bind fun span => after_violation _ _
  · refine (after_spanFrom (by simp [mul_assoc])).bind fun span => after_pure ?_
    rw [Stmt.phrase, clausePhrases_eq]
    refine le_such (by simpa using hclauses) ?_
    gcongr
    exact tokenAt_le

omit hd in
/-- The tokens up to a closing brace end with one. -/
theorem skips_skipBraces (depth : Nat) (previous : Option Lexeme) (rest : List Lexeme) :
    Skips previous rest (skipBraces depth previous rest).2
      ∧ ((skipBraces depth previous rest).1 → 0 < depth → ∃ (us : List Lexeme) (t : Lexeme),
        t.token = .symbol .rightBrace
          ∧ rest = us ++ [t] ++ (skipBraces depth previous rest).2.2) := by
  fun_induction skipBraces depth previous rest with
  | case1 => exact ⟨.refl _ _, fun _ h => absurd h (by simp)⟩
  | case2 => exact ⟨.refl _ _, fun h => absurd h (by simp)⟩
  | case3 depth previous t rest ht ih =>
    refine ⟨.cons ih.1, fun h _ => ?_⟩
    obtain ⟨us, u, hu, hrest⟩ := ih.2 h (by omega)
    exact ⟨t :: us, u, hu, congrArg (t :: ·) hrest⟩
  | case4 depth previous t rest ht ih =>
    refine ⟨.cons ih.1, fun h _ => ?_⟩
    cases depth with
    | zero => exact ⟨[], t, ht, by simp [skipBraces]⟩
    | succ depth =>
      obtain ⟨us, u, hu, hrest⟩ := ih.2 h (by omega)
      exact ⟨t :: us, u, hu, congrArg (t :: ·) hrest⟩
  | case5 depth previous t rest _ _ ih =>
    refine ⟨.cons ih.1, fun h _ => ?_⟩
    obtain ⟨us, u, hu, hrest⟩ := ih.2 h (by omega)
    exact ⟨t :: us, u, hu, congrArg (t :: ·) hrest⟩

omit hd in
theorem reads_closeBrace :
    Reads q closeBrace fun _ => tokens (fun _ => True) * Phrase.symbol .rightBrace := by
  intro c s hs
  have hskips := skips_skipBraces 1 s.previous s.rest
  rw [closeBrace, state_bind]
  rcases hr : skipBraces 1 s.previous s.rest with ⟨closed, previous, rest⟩
  rw [hr] at hskips
  obtain ⟨⟨us, hrest, hprevious⟩, hclosed⟩ := hskips
  have htook : s.Took us [] { s with previous, rest } := ⟨hrest, hprevious, by simp⟩
  dsimp only
  rw [goTo_bind, run_ite]
  split
  · rename_i h
    obtain ⟨vs, t, ht, hrest'⟩ := hclosed h Nat.one_pos
    obtain rfl : us = vs ++ [t] := List.append_cancel_right (hrest.symm.trans hrest')
    have hread : (tokens (fun _ => True) * Phrase.symbol .rightBrace) (vs ++ [t]) ([] ++ []) rest :=
      mul_intro ⟨rfl, fun _ _ => trivial⟩ ⟨t, rfl, rfl, ht⟩
    exact .ok ⟨_, _, htook, hread, fun _ => rfl⟩
  · exact .error ⟨_, _, htook, trivial, fun _ => rfl⟩

omit hd in
theorem reads_assemblyStatement : Reads q assemblyStatement Stmt.phrase := by
  refine (reads_keywordAt _).first fun c s start => peeks_next.looks.bind fun next => ?_
  let dialectPhrase (dialect : Option String) : Phrase := perhaps (dialect.map fun text =>
    lexeme fun l => ∃ bytes, l.token = .string bytes
      ∧ text = String.ofList (Text.Utf8.decodeLossy bytes))
  have hrest : ∀ dialect, ReadsAfter q c s (tokenAt (.keyword .assembly) start
      * dialectPhrase dialect) (Parser.symbol .leftBrace >>= fun opening => closeBrace >>= fun _ =>
        spanFrom opening >>= fun body => spanFrom start >>= fun span =>
          pure (.assembly dialect body span)) Stmt.phrase := by
    intro dialect
    refine (reads_symbolAt _).bind fun opening => (reads_closeBrace).bind fun _ => ?_
    have hbody : ReadsAfter q c s (tokenAt (.keyword .assembly) start * dialectPhrase dialect
        * (tokenAt (.symbol .leftBrace) opening * (tokens (fun _ => True)
          * Phrase.symbol .rightBrace))) (spanFrom opening) _ := after_spanFrom_last (by simp)
    refine (hbody.weaken (mul_assoc _ _ _).le).bind fun body => ?_
    refine (after_spanFrom (by simp [mul_assoc])).bind fun span => after_pure ?_
    have hbraces : tokenAt (.symbol .leftBrace) opening * (tokens (fun _ => True)
        * Phrase.symbol .rightBrace) ≤ Phrase.symbol .leftBrace * tokens (fun _ => True)
          * Phrase.symbol .rightBrace := by
      rw [← mul_assoc]
      gcongr
      exact tokenAt_le
    rw [Stmt.phrase]
    exact covered_mono (mul_mono (mul_mono tokenAt_le le_rfl) (covered_mono hbraces))
  split
  · refine ReadsAfter.bind (M := fun dialect => tokenAt (.keyword .assembly) start
      * dialectPhrase dialect) ?_ hrest
    have htext : Reads q (Prod.fst <$> stringText) fun text => lexeme fun l => ∃ bytes,
        l.token = .string bytes ∧ text = String.ofList (Text.Utf8.decodeLossy bytes) := by
      refine reads_stringText.map fun p => ?_
      rintro ts es rest ⟨l, rfl, rfl, bytes, hl, -, htext⟩
      exact ⟨l, rfl, rfl, bytes, hl, htext⟩
    exact htext.some.after c s _
  · exact hrest none |>.weaken (mul_one _).ge

theorem reads_statement : Reads False (statement deeper) Stmt.phrase := by
  refine peeks_next.looks.first fun next => ?_
  split
  · refine (reads_block hd).first fun c s b => after_pure ?_
    rw [Stmt.phrase]
  · exact reads_ifStatement hd
  · exact reads_forStatement hd
  · exact reads_whileStatement hd
  · exact reads_doWhileStatement hd
  · exact reads_keywordStatement fun span => by rw [Stmt.phrase]
  · exact reads_keywordStatement fun span => by rw [Stmt.phrase]
  · exact reads_keywordStatement fun span => by rw [Stmt.phrase]
  · exact reads_returnStatement hd
  · exact reads_emitStatement hd
  · exact reads_tryStatement hd
  · exact reads_assemblyStatement
  · exact (reads_simpleStatement hd).mono fun s => such_le

end

end SolidityFrontend.Grammar
