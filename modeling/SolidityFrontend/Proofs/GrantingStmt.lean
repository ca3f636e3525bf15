import SolidityFrontend.Proofs.GrantingExpr

/-!
# The fragments of statements and declarations stand

Statements grant that their fragments stand, if the level of nesting below them does; by induction over
the levels all fragments of what is nested stand (`Nested.granted_ofDepth`). The parts of a file that was
read without errors therefore have only fragments that stand.
-/

namespace SolidityFrontend

open SolidityFrontend.Parser

theorem Stmt.fragments_eq (x : Stmt) : x.fragments = .stmt x :: x.fragments.tail := by
  cases x <;> simp [Stmt.fragments]

namespace Grammar

variable {V : List Lexeme} {c : Context} {d : Nested}

section

variable (hd : d.Granted V)
include hd

/-! ### Declarations and expressions -/

theorem grants_variableDeclaration :
    Grants V c (variableDeclaration d) fun v => Stand V v.fragments :=
  grants_here fun _ => (hd.typeName c).bind fun _ => onward_storageLocation?.bind_grants fun _ =>
    onward_identifier.bind_grants fun _ => grants_spanFrom fun _ => grants_pure id

theorem grants_declarator : Grants V c (declarator d) fun v => Stand V v.fragments := by
  refine grants_if_nextIs ?_ ?_
  · refine grants_symbol fun _ => ?_
    refine (grants_separated (grants_tuplePlace (grants_variableDeclaration hd))).bind fun vs => ?_
    refine grants_symbol fun _ => grants_spanFrom fun _ => (grants_violation _ _).ite ?_
    refine grants_pure fun hvs f hf => ?_
    obtain ⟨o, ho, hf⟩ := List.mem_flatMap.1 hf
    cases o with
    | none => simp at hf
    | some v => exact hvs _ ho v rfl f hf
  · exact (grants_variableDeclaration hd).bind fun _ => grants_pure id

theorem grants_declarationEnd (v : Declarator) (start : Span) :
    Grants V c (declarationEnd d v start) fun x => Stand V v.fragments → Stand V x.fragments.tail := by
  have hend (value : Option Expr) : Grants V c
      (if value.isNone && !needsNoValue v then spanFrom start >>= fun span =>
          violation .tupleWithoutValue span
        else symbol .semicolon >>= fun _ => spanFrom start >>= fun span =>
          pure (Stmt.variables v value span))
      fun x => Stand V (optionFragments value) → Stand V v.fragments → Stand V x.fragments.tail := by
    refine (grants_spanFrom fun _ => grants_violation _ _).ite ?_
    refine grants_symbol fun _ => grants_spanFrom fun _ => grants_pure fun hvalue hv => ?_
    rw [Stmt.fragments]
    exact List.forall_mem_append.2 ⟨hv, hvalue⟩
  refine grants_if_accept (Grants.bind ?_ hend) ((grants_pure (by simp)).bind hend)
  exact (hd.expression c).map fun e he => by simpa using he

theorem grants_expressionStatement :
    Grants V c (expressionStatement d) fun x => Stand V x.fragments.tail :=
  (hd.expression c).bind fun _ => grants_symbol fun _ => grants_spanFrom fun _ =>
    grants_pure fun h => by rwa [Stmt.fragments]

theorem grants_simpleStatement_parts :
    Grants V c (simpleStatement d) fun x => Stand V x.fragments.tail := by
  refine (peeks_next.looks.onward.bind fun _ => (peeks_peek 1).looks.onward.bind fun _ =>
    onward_pure _ : Onward varTupleBegins).bind_grants fun _ => Grants.ite ?_ ?_
  · refine grants_here fun start => onward_advance.bind_grants fun _ => grants_symbol fun _ => ?_
    have hplace : Onward varPlace :=
      (echoes_varPlace (H := .ofPrefix [] [] []) (I := anywhere) (k := 0)).onward
    refine (grants_separated (hplace.grants (P := fun _ => True) fun _ => trivial)).bind fun _ => ?_
    refine grants_symbol fun _ => grants_spanFrom fun _ => ?_
    exact (grants_declarationEnd hd _ start).mono fun x hx _ => hx (by simp [Stand, Declarator.fragments])
  · refine grants_next fun next => Grants.ite ?_ (grants_expressionStatement hd)
    refine grants_here fun start => ?_
    refine Grants.bind (P := fun r : Declarator ⊕ Stmt => r.elim (fun v => Stand V v.fragments)
      fun x => Stand V x.fragments.tail) ?_ fun r => ?_
    · exact grants_either ((grants_declarator hd).map fun _ => id)
        ((grants_expressionStatement hd).map fun _ => id)
    · cases r with
      | inl v => exact grants_declarationEnd hd v start
      | inr x => exact grants_pure id

omit hd in
/-- What the outermost level of statements completes stands with its parts. -/
theorem grants_stmt {p p' : Parser Stmt} {L : Stmt → Phrase} (hc : c.structLiterals = true)
    (hparts : Grants V c p fun x => Stand V x.fragments.tail)
    (hreads : Reads False p L) (hL : ∀ x, L x ≤ x.phrase)
    (hechoes : ∀ H : Setting, H.Closed 0 → Echoes H unrestricted anywhere 1 0 p p')
    (hcompletes : Completes p' (statement .inner)) : Grants V c p fun x => Stand V x.fragments := by
  have hwhole : Grants V c p fun x => (Fragment.stmt x).Stands V :=
    grants_stands (P := fun _ => unrestricted) hreads (fun x => (hL x).trans x.phrase_le)
      (fun _ _ => hechoes _ Setting.closed_ofPrefix) (fun _ _ _ => hc)
      fun _ _ hx => hcompletes.alone hx
  refine (hparts.and hwhole).mono ?_
  rintro x ⟨hinner, hx⟩
  rw [x.fragments_eq]
  exact List.forall_mem_cons.2 ⟨hx, hinner⟩

theorem grants_simpleStatement (hw : d.Within) (hc : c.structLiterals = true) :
    Grants V c (simpleStatement d) fun x => Stand V x.fragments := by
  refine grants_stmt hc (grants_simpleStatement_parts hd) (reads_simpleStatement hw.sound)
    (fun _ => Phrase.such_le) (fun H _ => ?_) (completes_statement (n := nestingLimit - 1))
  exact (echoes_simpleStatement (hw.echoed H).toEchoed (hw.echoed H).exclusive).lower (Nat.le_succ _)

/-! ### Control -/

theorem grants_condition : Grants V c (condition d) fun e => Stand V e.fragments :=
  grants_symbol fun _ => (hd.expression c).bind fun _ => grants_symbol fun _ => grants_pure id

theorem grants_optional (stop : Symbol) :
    Grants V c (optional d stop) fun o => ∀ e ∈ o, Stand V e.fragments :=
  grants_if_nextIs grants_none (hd.expression c).some

theorem grants_block (hc : c.structLiterals = true) :
    Grants V c (block d) fun b => Stand V b.fragments := by
  refine grants_symbol fun _ => (grants_body (hd.statement c hc)).bind fun xs => ?_
  refine grants_spanFrom fun _ => grants_pure fun hxs => ?_
  rw [Block.fragments]
  exact forall_stmtFragments.2 hxs

theorem grants_ifStatement (hc : c.structLiterals = true) :
    Grants V c (ifStatement d) fun x => Stand V x.fragments.tail := by
  refine grants_keyword fun start => (grants_condition hd).bind fun test => ?_
  refine (hd.statement c hc).bind fun thenBranch => ?_
  have hend (elseBranch : Option Stmt) : Grants V c
      (spanFrom start >>= fun span => pure (Stmt.ifElse test thenBranch elseBranch span))
      fun x => Stand V (branchFragments elseBranch) → Stand V thenBranch.fragments →
        Stand V test.fragments → Stand V x.fragments.tail := by
    refine grants_spanFrom fun _ => grants_pure fun helse hthen htest => ?_
    rw [Stmt.fragments]
    exact List.forall_mem_append.2 ⟨List.forall_mem_append.2 ⟨htest, hthen⟩, helse⟩
  refine grants_if_accept (Grants.bind ?_ hend) ((grants_pure (by simp)).bind hend)
  exact (hd.statement c hc).map fun x hx => by simpa using hx

theorem grants_forStatement (hw : d.Within) (hc : c.structLiterals = true) :
    Grants V c (forStatement d) fun x => Stand V x.fragments.tail := by
  refine grants_keyword fun start => grants_symbol fun _ => ?_
  have hend (init : Option Stmt) : Grants V c
      (optional d .semicolon >>= fun test => symbol .semicolon >>= fun _ =>
        optional d .rightParen >>= fun update => symbol .rightParen >>= fun _ =>
          d.statement >>= fun inner => spanFrom start >>= fun span =>
            pure (Stmt.forLoop init test update inner span))
      fun x => Stand V (branchFragments init) → Stand V x.fragments.tail := by
    refine (grants_optional hd _).bind fun test => grants_symbol fun _ => ?_
    refine (grants_optional hd _).bind fun update => grants_symbol fun _ => ?_
    refine (hd.statement c hc).bind fun inner => grants_spanFrom fun _ => grants_pure ?_
    intro hinner hupdate htest hinit
    rw [Stmt.fragments]
    exact List.forall_mem_append.2 ⟨List.forall_mem_append.2 ⟨List.forall_mem_append.2 ⟨hinit,
      forall_optionFragments.2 htest⟩, forall_optionFragments.2 hupdate⟩, hinner⟩
  refine grants_if_accept ((grants_pure (by simp)).bind hend) (Grants.bind ?_ hend)
  exact (grants_simpleStatement hd hw hc).map fun x hx => by simpa using hx

theorem grants_whileStatement (hc : c.structLiterals = true) :
    Grants V c (whileStatement d) fun x => Stand V x.fragments.tail := by
  refine grants_keyword fun _ => (grants_condition hd).bind fun test => ?_
  refine (hd.statement c hc).bind fun inner => grants_spanFrom fun _ => grants_pure ?_
  intro hinner htest
  rw [Stmt.fragments]
  exact List.forall_mem_append.2 ⟨htest, hinner⟩

theorem grants_doWhileStatement (hc : c.structLiterals = true) :
    Grants V c (doWhileStatement d) fun x => Stand V x.fragments.tail := by
  refine grants_keyword fun _ => (hd.statement c hc).bind fun inner => grants_keyword fun _ => ?_
  refine (grants_condition hd).bind fun test => grants_symbol fun _ => grants_spanFrom fun _ => ?_
  refine grants_pure fun htest hinner => ?_
  rw [Stmt.fragments]
  exact List.forall_mem_append.2 ⟨hinner, htest⟩

theorem grants_returnStatement : Grants V c (returnStatement d) fun x => Stand V x.fragments.tail := by
  refine grants_keyword fun _ => (grants_optional hd _).bind fun value => grants_symbol fun _ => ?_
  refine grants_spanFrom fun _ => grants_pure fun hvalue => ?_
  rw [Stmt.fragments]
  exact forall_optionFragments.2 hvalue

theorem grants_emitStatement : Grants V c (emitStatement d) fun x => Stand V x.fragments.tail := by
  refine grants_keyword fun _ => onward_path.bind_grants fun _ => (grants_callArguments hd).bind ?_
  exact fun _ => grants_symbol fun _ => grants_spanFrom fun _ => grants_pure fun h => by
    rwa [Stmt.fragments]

theorem grants_catchClause (hc : c.structLiterals = true) :
    Grants V c (catchClause d) fun x => Stand V x.fragments := by
  refine grants_keyword fun start => onward_identifier?.bind_grants fun name => ?_
  have hend (ps : Option (List Parameter)) : Grants V c (block d >>= fun inner => spanFrom start >>=
      fun span => pure (⟨name, ps, inner, span⟩ : CatchClause))
      fun x => Stand V (ps.elim [] parameterFragments) → Stand V x.fragments := by
    refine (grants_block hd hc).bind fun inner => grants_spanFrom fun _ => grants_pure ?_
    intro hinner hps
    rw [CatchClause.fragments]
    exact List.forall_mem_append.2 ⟨hps, hinner⟩
  refine grants_if_nextIs (Grants.bind ?_ hend) ((grants_pure (by simp [Stand])).bind hend)
  exact (grants_parameters hd).map fun _ => id

theorem grants_tryStatement (hc : c.structLiterals = true) :
    Grants V c (tryStatement d) fun x => Stand V x.fragments.tail := by
  refine grants_keyword fun start => ?_
  refine ((hd.expression _).structLiterals (hd.expression c).onward).bind fun call => ?_
  refine (grants_returnParameters hd).bind fun returns => (grants_block hd hc).bind fun inner => ?_
  refine (grants_many (grants_if_nextIs (grants_catchClause hd hc).some grants_none)).bind fun xs => ?_
  refine (grants_spanFrom fun _ => grants_violation _ _).ite ?_
  refine grants_spanFrom fun _ => grants_pure fun hxs hinner hreturns hcall => ?_
  rw [Stmt.fragments]
  exact List.forall_mem_append.2 ⟨List.forall_mem_append.2 ⟨List.forall_mem_append.2 ⟨hcall,
    hreturns⟩, hinner⟩, forall_clauseFragments.2 hxs⟩

omit hd in
theorem grants_keywordStatement {k : Keyword} {make : Span → Stmt}
    (h : ∀ span, (make span).fragments.tail = []) :
    Grants V c (keywordStatement k make) fun x => Stand V x.fragments.tail :=
  grants_keyword fun _ => grants_symbol fun _ => grants_spanFrom fun span =>
    grants_pure (by simp [Stand, h span])

omit hd in
theorem grants_assemblyStatement :
    Grants V c assemblyStatement fun x => Stand V x.fragments.tail := by
  refine grants_keyword fun start => ?_
  have hend (dialect : Option String) : Grants V c
      (symbol .leftBrace >>= fun opening => closeBrace >>= fun _ => spanFrom opening >>= fun inner =>
        spanFrom start >>= fun span => pure (Stmt.assembly dialect inner span))
      fun x => Stand V x.fragments.tail := by
    refine grants_symbol fun _ => onward_closeBrace.bind_grants fun _ => ?_
    exact grants_spanFrom fun _ => grants_spanFrom fun _ => grants_pure (by simp [Stand, Stmt.fragments])
  have htext : Onward stringText :=
    (echoes_stringText (H := .ofPrefix [] [] []) (I := anywhere) (k := 0) (P := always)).onward
  refine grants_next fun next => ?_
  dsimp only
  split
  · have hdialect : Onward (some <$> Prod.fst <$> stringText) :=
      (htext.bind fun _ => onward_pure _).bind fun _ => onward_pure _
    exact hdialect.bind_grants hend
  · exact (onward_pure none).bind_grants hend

theorem grants_statement (hw : d.Within) (hc : c.structLiterals = true) :
    Grants V c (statement d) fun x => Stand V x.fragments := by
  refine grants_stmt hc ?_ (reads_statement hw.sound) (fun _ => le_rfl)
    (fun H hH => echoes_statement (hw.echoed H) hH) fun h _ => h
  refine grants_next fun next => ?_
  split
  · refine (grants_block hd hc).bind fun b => grants_pure fun hb => ?_
    rwa [Stmt.fragments]
  · exact grants_ifStatement hd hc
  · exact grants_forStatement hd hw hc
  · exact grants_whileStatement hd hc
  · exact grants_doWhileStatement hd hc
  · exact grants_keywordStatement fun _ => by simp [Stmt.fragments]
  · exact grants_keywordStatement fun _ => by simp [Stmt.fragments]
  · exact grants_keywordStatement fun _ => by simp [Stmt.fragments]
  · exact grants_returnStatement hd
  · exact grants_emitStatement hd
  · exact grants_tryStatement hd hc
  · exact grants_assemblyStatement
  · exact grants_simpleStatement_parts hd

end

end Grammar

/-! ### Levels of nesting -/

namespace Nested

variable {V : List Lexeme} {d : Nested}

theorem Granted.above (hd : d.Granted V) (hw : d.Within) : d.above.Granted V where
  expression _ := Grammar.grants_expression hd hw
  operand _ := Grammar.grants_unaryExpr hd hw
  exponent _ := Grammar.grants_powerExpr hd hw
  typeName _ := Grammar.grants_typeName hd hw
  statement _ hc := Grammar.grants_statement hd hw hc

theorem grants_tooDeep {α : Type} {c : Context} {P : α → Prop} : Grants V c tooDeep P :=
  grants_here fun _ => grants_violation _ _

theorem granted_ofDepth : ∀ {n : Nat}, n ≤ nestingLimit → (ofDepth n).Granted V
  | 0, _ => ⟨fun _ => grants_tooDeep, fun _ => grants_tooDeep, fun _ => grants_tooDeep,
      fun _ => grants_tooDeep, fun _ _ => grants_tooDeep⟩
  | _ + 1, h => (granted_ofDepth (Nat.le_of_succ_le h)).above (within_ofDepth h)

theorem granted_full : full.Granted V := granted_ofDepth le_rfl

end Nested

end SolidityFrontend
