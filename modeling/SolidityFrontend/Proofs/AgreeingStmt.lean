import SolidityFrontend.Proofs.AgreeingExpr
import SolidityFrontend.Proofs.ReadingStmt

/-!
# Statements in two readings

The parser for statements gives the same in both readings of a passage where a brace is open, if the
parsers of the level below do.
-/

namespace SolidityFrontend.Grammar

open SolidityFrontend.Parser

variable {H : Passage} [H.Braced] {k n : Nat}

section

variable {deeper : Nested} (hd : deeper.Agreed)
include hd

theorem agrees_block : Agrees H (n + 1) n (H.before n) (block deeper) (block deeper)
    fun _ => H.behind n := by
  refine (agrees_symbol rfl Passage.leads_leftBrace).bind fun start => ?_
  have hstatement : Follows H (n + 1) (H.before (n + 1)) deeper.statement deeper.statement
      fun _ => H.behind (n + 1) := (hd.statement_agreed H n).follows fun h => absurd h (by simp)
  refine (agrees_body hstatement fun _ => rfl).bind fun statements => ?_
  exact agrees_spanFrom fun span => agrees_value (by simp)

/-- A block that stands in another one. -/
theorem agrees_innerBlock : Parser.Agreed H (n + 1) (block deeper) :=
  (agrees_block hd).loosen (Nat.le_succ _)

/-! ### Declarations and expressions -/

theorem agrees_variableDeclaration : Parser.Agreed H n (variableDeclaration deeper) := by
  refine agrees_here fun start => (hd.typeName_agreed H n).bind fun type => ?_
  refine (agrees_storageLocation?.amid fun _ _ _ => inside_of_stepped).bind fun location => ?_
  refine agrees_identifier.bind fun name => ?_
  exact agrees_spanFrom fun span => agrees_value (by simp)

omit [H.Braced] hd in
theorem all_isNone_move {α : Type} [Placed α] (elements : List (Option α)) :
    (H.move elements).all Option.isNone = elements.all Option.isNone := by
  rw [Passage.move, respan_list, List.all_map]
  exact congrArg (elements.all ·) (funext isNone_respan)

theorem agrees_tupleDeclarator : Parser.Agreed H n (tupleDeclarator deeper) := by
  refine (agrees_symbol rfl (Passage.leads_inner rfl)).bind fun start => ?_
  refine (agrees_separated (agrees_tuplePlace (agrees_variableDeclaration hd).of_before)).bind
    fun elements => ?_
  refine (agrees_closing (Passage.leads_inner rfl)).bind fun _ => agrees_spanFrom fun span => ?_
  rw [all_isNone_move]
  exact agrees_ite (fun _ => agrees_violation le_rfl _ span) fun _ => agrees_value (by simp)

theorem agrees_declarator : Parser.Agreed H n (declarator deeper) := by
  refine agrees_if_nextIs (agrees_tupleDeclarator hd).of_before ?_
  exact (agrees_variableDeclaration hd).bind fun d => agrees_value rfl

omit [H.Braced] hd in
theorem needsNoValue_move (d : Declarator) : needsNoValue (H.move d) = needsNoValue d := by
  cases d <;> rfl

theorem agrees_declarationEnd (d : Declarator) (start : Span) : Agrees H (n + 1) (n + 1)
    (H.amid (n + 1)) (declarationEnd deeper d start)
    (declarationEnd deeper (H.move d) (H.motion.span start)) fun _ => H.amid (n + 1) := by
  refine agrees_if_accept_bind (M := fun _ => H.amid (n + 1)) (Passage.leads_inner rfl)
    ((hd.expression_agreed H _).of_before.map (fun _ => rfl) fun _ _ _ => id) (agrees_value rfl)
    fun value => ?_
  dsimp only
  rw [isNone_respan, needsNoValue_move]
  refine agrees_ite (fun _ => ?_) fun _ => ?_
  · exact agrees_spanFrom fun span => agrees_violation le_rfl _ span
  · refine (agrees_closing Passage.leads_semicolon).bind fun _ => ?_
    exact agrees_spanFrom fun span => agrees_value (by simp)

omit [H.Braced] hd in
theorem agrees_varPlace : Agrees H n n (H.amid n) varPlace varPlace fun _ => H.amid n := by
  refine agrees_next fun next => ?_
  split
  · exact agrees_pure rfl fun _ _ => And.left
  · exact agrees_pure rfl fun _ _ => And.left
  · exact agrees_identifier.bind fun i => agrees_value rfl

theorem agrees_varTupleDeclaration : Agrees H (n + 1) (n + 1)
    (seeing (H.before (n + 1)) (some (.elementaryType "var"))) (varTupleDeclaration deeper)
    (varTupleDeclaration deeper) fun _ => H.amid (n + 1) := by
  refine agrees_here fun start => (agrees_advance (Passage.leads_inner rfl)).bind fun _ => ?_
  refine (agrees_symbol rfl (Passage.leads_inner rfl)).bind fun _ => ?_
  refine (agrees_separated agrees_varPlace).bind fun names => ?_
  refine (agrees_closing (Passage.leads_inner rfl)).bind fun _ => agrees_spanFrom fun span => ?_
  exact agrees_declarationEnd hd (.varTuple names span) start

theorem agrees_expressionStatement : Parser.Agreed H (n + 1) (expressionStatement deeper) := by
  refine (hd.expression_agreed H _).bind fun e => ?_
  refine (agrees_closing Passage.leads_semicolon).bind fun _ => ?_
  rw [Expr.span_respan]
  exact agrees_spanFrom fun span => agrees_value (by simp)

theorem agrees_declarationOrExpression :
    Parser.Agreed H (n + 1) (declarationOrExpression deeper) := by
  have hdeclarator : Parser.Agreed H (n + 1)
      (Sum.inl <$> declarator deeper : Parser (Declarator ⊕ Stmt)) :=
    (agrees_declarator hd).map (fun _ => rfl) fun _ _ _ => id
  have hstatement : Parser.Agreed H (n + 1)
      (Sum.inr <$> expressionStatement deeper : Parser (Declarator ⊕ Stmt)) :=
    (agrees_expressionStatement hd).map (fun _ => rfl) fun _ _ _ => id
  have hquiet : Quiet (Sum.inl <$> declarator deeper : Parser (Declarator ⊕ Stmt)) :=
    ((reads_declarator hd.toSound).map (N := fun _ => ⊤) fun _ => le_top).quiet
  have hquiet' : Quiet (Sum.inr <$> expressionStatement deeper : Parser (Declarator ⊕ Stmt)) :=
    ((reads_expressionStatement hd.toSound).map (N := fun _ => ⊤) fun _ => le_top).quiet
  refine agrees_here fun start => ?_
  refine (agrees_either hdeclarator hstatement hquiet hquiet').bind fun x => ?_
  cases x with
  | inl d => exact agrees_declarationEnd hd d start
  | inr s => exact agrees_value rfl

omit [H.Braced] hd in
/-- Both readings see the word `var` before a parenthesis or neither does. -/
theorem agrees_if_varTupleBegins {α : Type} [Placed α] {p p' q q' : Parser α} {O : α → Stage}
    {I : Stage} [Within H n I]
    (h : Agrees H k n (seeing I (some (.elementaryType "var"))) p p' O)
    (h' : Agrees H k n I q q' O) :
    Agrees H k n I (varTupleBegins >>= fun b => if b = true then p else q)
      (varTupleBegins >>= fun b => if b = true then p' else q') O := by
  refine peeks_varTupleBegins.agrees (fun {w₀ w} hw => ?_) fun b => agrees_ite (fun hb => ?_) ?_
  · have hin : H.inside n w := Within.inside hw
    rcases w with _ | ⟨t, w⟩
    · obtain ⟨h₁, h₂⟩ := H.ends_of_inside hin
      simp [h₁, h₂]
    · by_cases ht : t.token = .elementaryType "var"
      · rcases w with _ | ⟨u, w⟩
        · have hin' := H.inner hin (by simp [ht]) (by simp [ht]) (by simp [ht])
          obtain ⟨h₁, h₂⟩ := H.ends_of_inside hin'
          simp [h₁, h₂, Passage.move, Placed.respan]
        · simp [Passage.move, Placed.respan]
      · have ht' : (some t.token == some (.elementaryType "var")) = false := by simpa using ht
        simp only [Passage.move, respan_cons, List.cons_append, List.getElem?_cons_zero,
          Option.map_some, token_respan, ht', Bool.false_and]
  · refine h.weaken fun w₀ w hw => ⟨hw.1, ?_⟩
    have hbegins := hw.2
    rw [hb] at hbegins
    simp only [Bool.and_eq_true, beq_iff_eq] at hbegins
    rcases w with _ | ⟨t, w⟩
    · obtain ⟨h₁, -⟩ := H.ends_of_inside (Within.inside hw.1)
      simp [h₁] at hbegins
    · simpa using hbegins.1
  · exact fun _ => h'.weaken fun _ _ => And.left

theorem agrees_simpleStatement : Parser.Agreed H (n + 1) (simpleStatement deeper) := by
  refine agrees_if_varTupleBegins (agrees_varTupleDeclaration hd) ?_
  refine agrees_next fun next => agrees_ite (fun _ => ?_) fun _ => ?_
  · exact (agrees_declarationOrExpression hd).of_before
  · exact (agrees_expressionStatement hd).of_before

/-! ### Control -/

theorem agrees_condition : Agrees H n n (H.amid n) (condition deeper) (condition deeper)
    fun _ => H.amid n := by
  refine (agrees_symbol rfl (Passage.leads_inner rfl)).bind fun _ => ?_
  refine (hd.expression_agreed H n).then fun e => ?_
  exact (agrees_closing (Passage.leads_inner rfl)).bind fun _ => agrees_value rfl

theorem agrees_ifStatement : Parser.Agreed H (n + 1) (ifStatement deeper) := by
  refine (agrees_keyword .if_).bind fun start => (agrees_condition hd).bind fun test => ?_
  refine (hd.statement_agreed H n).then fun thenBranch => ?_
  refine agrees_if_accept_bind (M := fun _ => H.amid (n + 1)) (Passage.leads_inner rfl)
    ((hd.statement_agreed H n).of_before.map (fun _ => rfl) fun _ _ _ => id) (agrees_value rfl)
    fun elseBranch => ?_
  exact agrees_spanFrom fun span => agrees_value (by simp)

theorem agrees_optional (stop : Symbol) : Agrees H n n (H.amid n) (optional deeper stop)
    (optional deeper stop) fun _ => H.amid n := by
  refine agrees_if_nextIs (agrees_pure rfl fun _ _ => And.left) ?_
  exact (hd.expression_agreed H n).then fun e => agrees_value rfl

theorem agrees_forStatement : Parser.Agreed H (n + 1) (forStatement deeper) := by
  refine (agrees_keyword .for_).bind fun start => ?_
  refine (agrees_symbol rfl (Passage.leads_inner rfl)).bind fun _ => ?_
  refine agrees_if_accept_bind (M := fun _ => H.amid (n + 1)) Passage.leads_semicolon
    (agrees_value rfl) ((agrees_simpleStatement hd).of_before.map (fun _ => rfl) fun _ _ _ => id)
    fun init => ?_
  refine (agrees_optional hd .semicolon).bind fun test => ?_
  refine (agrees_closing Passage.leads_semicolon).bind fun _ => ?_
  refine (agrees_optional hd .rightParen).bind fun update => ?_
  refine (agrees_closing (Passage.leads_inner rfl)).bind fun _ => ?_
  refine (hd.statement_agreed H n).then fun inner => ?_
  exact agrees_spanFrom fun span => agrees_value (by simp)

theorem agrees_whileStatement : Parser.Agreed H (n + 1) (whileStatement deeper) := by
  refine (agrees_keyword .while_).bind fun start => (agrees_condition hd).bind fun test => ?_
  refine (hd.statement_agreed H n).then fun inner => ?_
  exact agrees_spanFrom fun span => agrees_value (by simp)

theorem agrees_doWhileStatement : Parser.Agreed H (n + 1) (doWhileStatement deeper) := by
  refine (agrees_keyword .do_).bind fun start => (hd.statement_agreed H n).then fun inner => ?_
  refine (agrees_keyword .while_).bind fun _ => (agrees_condition hd).bind fun test => ?_
  refine (agrees_closing Passage.leads_semicolon).bind fun _ => ?_
  exact agrees_spanFrom fun span => agrees_value (by simp)

omit hd in
theorem agrees_keywordStatement (word : Keyword) {make : Span → Stmt}
    (hmake : ∀ span, make (H.motion.span span) = H.move (make span)) :
    Parser.Agreed H (n + 1) (keywordStatement word make) := by
  refine (agrees_keyword word).bind fun start => ?_
  refine (agrees_closing Passage.leads_semicolon).bind fun _ => ?_
  exact agrees_spanFrom fun span => agrees_value (hmake span)

theorem agrees_returnStatement : Parser.Agreed H (n + 1) (returnStatement deeper) := by
  refine (agrees_keyword .return_).bind fun start => ?_
  refine (agrees_optional hd .semicolon).bind fun value => ?_
  refine (agrees_closing Passage.leads_semicolon).bind fun _ => ?_
  exact agrees_spanFrom fun span => agrees_value (by simp)

theorem agrees_emitStatement : Parser.Agreed H (n + 1) (emitStatement deeper) := by
  refine (agrees_keyword .emit).bind fun start => agrees_path.then fun event => ?_
  refine (agrees_callArguments hd).then fun arguments => ?_
  refine (agrees_closing Passage.leads_semicolon).bind fun _ => ?_
  exact agrees_spanFrom fun span => agrees_value (by simp)

/-! ### Failing calls and assembly -/

theorem agrees_catchClause : Parser.Agreed H (n + 1) (catchClause deeper) := by
  refine (agrees_keyword .catch_).bind fun start => ?_
  have hname : Agrees H (n + 1) (n + 1) (H.amid (n + 1)) identifier? identifier?
      fun _ => H.amid (n + 1) := agrees_identifier?.amid fun _ _ _ => inside_of_stepped
  refine hname.bind fun name => ?_
  refine agrees_if_nextIs_bind (M := fun _ => H.amid (n + 1))
    ((agrees_parameters hd).of_before.map (fun _ => rfl) fun _ _ _ => id) (agrees_value rfl)
    fun ps => ?_
  refine (agrees_innerBlock hd).then fun inner => ?_
  exact agrees_spanFrom fun span => agrees_value (by simp)

theorem agrees_tryStatement : Parser.Agreed H (n + 1) (tryStatement deeper) := by
  refine (agrees_keyword .try_).bind fun start => ?_
  refine ((hd.expression_agreed H (n + 1)).structLiterals fun h => absurd h (by simp)).then
    fun call => ?_
  refine ((agrees_returnParameters hd).amid fun _ _ _ => id).bind fun returns => ?_
  refine (agrees_innerBlock hd).then fun inner => ?_
  have hclause : Agrees H (n + 1) (n + 1) (H.before (n + 1))
      (nextIs (.keyword .catch_) >>= fun b =>
        if b = true then catchClause deeper >>= fun clause => pure (some clause) else pure none)
      (nextIs (.keyword .catch_) >>= fun b =>
        if b = true then catchClause deeper >>= fun clause => pure (some clause) else pure none)
      fun o => stepped H (n + 1) o.isSome := by
    refine agrees_if_nextIs ?_ (agrees_pure rfl fun _ _ => id)
    exact (agrees_catchClause hd).then fun clause => agrees_pure rfl fun _ _ => id
  refine ((agrees_many hclause).amid fun _ _ _ => id).bind fun clauses => ?_
  rw [isEmpty_respan]
  refine agrees_ite (fun _ => ?_) fun _ => ?_
  · exact agrees_spanFrom fun span => agrees_violation le_rfl _ span
  · exact agrees_spanFrom fun span => agrees_value (by simp)

omit hd [H.Braced] in
theorem closeBrace_of_some {c : Context} {s : State} {count : Nat}
    (h : closingBrace 1 (s.rest.map Lexeme.token) = some count) :
    closeBrace c s = (.ok (), { s with
      previous := (s.rest.take count).getLast?.or s.previous, rest := s.rest.drop count }) := by
  rw [closeBrace, state_bind, skipBraces_eq, h]
  rfl

omit hd [H.Braced] in
theorem closeBrace_of_none {c : Context} {s : State}
    (h : closingBrace 1 (s.rest.map Lexeme.token) = none) :
    closeBrace c s = (.error ⟨.missing .rightBrace, c.stop⟩, { s with
      previous := (s.rest.take s.rest.length).getLast?.or s.previous,
      rest := s.rest.drop s.rest.length }) := by
  rw [closeBrace, state_bind, skipBraces_eq, h, List.take_length, List.drop_length]
  rfl

omit hd [H.Braced] in
theorem onward_closeBrace : Onward closeBrace := by
  intro c s
  have htook (count : Nat) : s.Took (s.rest.take count) [] { s with
      previous := (s.rest.take count).getLast?.or s.previous, rest := s.rest.drop count } :=
    ⟨(List.take_append_drop _ _).symm, rfl, (List.append_nil _).symm⟩
  rcases h : closingBrace 1 (s.rest.map Lexeme.token) with _ | count
  · rw [closeBrace_of_none h]
    exact ⟨_, _, htook _⟩
  · rw [closeBrace_of_some h]
    exact ⟨_, _, htook _⟩

omit hd in
/-- Both readings find the closing brace of an assembly block at the same place, or neither does. -/
theorem agrees_closeBrace : Agrees H k (n + 1) (H.amid (n + 2)) closeBrace closeBrace
    fun _ => H.amid (n + 1) where
  onward := onward_closeBrace
  run c c' hc w₀ w s s' hs hw := by
    have htokens : s'.rest.map Lexeme.token = (w ++ H.next₂).map Lexeme.token := by
      rw [hs.rest₂, List.map_append, List.map_append, map_token_move]
    refine .inl ?_
    rcases Passage.Braced.closes hw.1 with ⟨count, hle, h₁, h₂, hin⟩ | ⟨h₁, h₂, hnext₁, hnext₂, hin⟩
    · rw [← hs.rest₁] at h₁
      rw [← htokens] at h₂
      rw [closeBrace_of_some h₁, closeBrace_of_some h₂]
      exact .ok rfl (at_drop hs hle)
        ⟨hin, ne_of_suffix hs.suffix (List.drop_suffix count w) hw.2⟩
    · rw [← hs.rest₁] at h₁
      rw [← htokens] at h₂
      have hlength : s.rest.length = w.length ∧ s'.rest.length = w.length := by
        simp [hs.rest₁, hs.rest₂, hnext₁, hnext₂]
      rw [closeBrace_of_none h₁, closeBrace_of_none h₂, hlength.1, hlength.2]
      refine .error ?_ (at_drop hs le_rfl) ?_
      · obtain ⟨m, -, hm⟩ := hin
        rw [hc.stop hm]
        rfl
      · rwa [List.drop_length]

omit hd in
theorem agrees_assemblyStatement : Parser.Agreed H (n + 1) assemblyStatement := by
  refine (agrees_keyword .assembly).bind fun start => agrees_next fun next => ?_
  have hrest (dialect : Option String) : Agrees H (n + 1) (n + 1) (H.amid (n + 1))
      (symbol .leftBrace >>= fun opening => closeBrace >>= fun _ => spanFrom opening >>= fun body =>
        spanFrom start >>= fun span => pure (Stmt.assembly dialect body span))
      (symbol .leftBrace >>= fun opening => closeBrace >>= fun _ => spanFrom opening >>= fun body =>
        spanFrom (H.motion.span start) >>= fun span => pure (Stmt.assembly dialect body span))
      fun _ => H.amid (n + 1) := by
    refine (agrees_symbol rfl Passage.leads_leftBrace).bind fun opening => ?_
    refine agrees_closeBrace.bind fun _ => agrees_spanFrom fun body => ?_
    exact agrees_spanFrom fun span => agrees_value (by simp)
  split
  · have htext : Agrees H (n + 1) (n + 1) (H.amid (n + 1)) (Prod.fst <$> stringText)
        (Prod.fst <$> stringText) fun _ => H.amid (n + 1) :=
      agrees_stringText.map (fun _ => rfl) fun _ _ _ => id
    have hdialect : Agrees H (n + 1) (n + 1) (H.amid (n + 1)) (some <$> Prod.fst <$> stringText)
        (some <$> Prod.fst <$> stringText) fun _ => H.amid (n + 1) :=
      htext.map (fun _ => rfl) fun _ _ _ => id
    refine (hdialect.weaken fun _ _ => And.left).bind fun dialect => ?_
    rw [show H.move dialect = dialect from respan_text? dialect]
    exact hrest dialect
  · exact (hrest none).weaken fun _ _ => And.left

theorem agrees_statement : Parser.Agreed H (n + 1) (statement deeper) := by
  refine agrees_next fun next => ?_
  split
  · exact (agrees_innerBlock hd).then fun b => agrees_value rfl
  · exact (agrees_ifStatement hd).of_before
  · exact (agrees_forStatement hd).of_before
  · exact (agrees_whileStatement hd).of_before
  · exact (agrees_doWhileStatement hd).of_before
  · exact (agrees_keywordStatement _ fun _ => rfl).of_before
  · exact (agrees_keywordStatement _ fun _ => rfl).of_before
  · exact (agrees_keywordStatement _ fun _ => rfl).of_before
  · exact (agrees_returnStatement hd).of_before
  · exact (agrees_emitStatement hd).of_before
  · exact (agrees_tryStatement hd).of_before
  · exact agrees_assemblyStatement.of_before
  · exact (agrees_simpleStatement hd).of_before

end

end SolidityFrontend.Grammar
