import SolidityFrontend.Proofs.Standing

/-!
# A declaration or an expression

A statement may begin like a type name and like an expression alike. What stands before its semicolon
decides: an expression is a statement of its own, since no declarator comes to that semicolon, and a
type name with a name behind it declares a variable, whether a location stands between them and a
value behind them or not (`declaration_or_expression`).
-/

namespace SolidityFrontend

open SolidityFrontend.Parser SolidityFrontend.Grammar SolidityFrontend.Session

namespace Grammar

variable {d : Nested} {c : Context} {s t : State} {ts us k : List Token} {name : String}

/-! ### Type names at the beginning -/

/-- A type name begins with a token that may begin a declaration, and not with a parenthesis. -/
theorem mayDeclare_of_typeName {T : TypeName} (h : typeName d c s = (.ok T, t)) :
    ∃ a, s.tokens.head? = some a ∧ mayDeclare a ∧ a ≠ .symbol .leftParen := by
  by_contra hnone
  push Not at hnone
  have hhead {a : Token} (ha : mayDeclare a) (hparen : a ≠ .symbol .leftParen) :
      s.tokens.head? ≠ some a := fun h => hparen (hnone a h ha)
  have hname : s.tokens.head?.bind Token.identifier? = none := by
    refine Option.eq_none_iff_forall_not_mem.2 fun name hmem => ?_
    obtain ⟨a, ha, hword⟩ := Option.bind_eq_some_iff.1 hmem
    cases a with
    | identifier w => exact hhead rfl (by simp) ha
    | _ => simp [Token.identifier?] at hword
  obtain ⟨error, herror⟩ := typeName_of_nameless_head (d := d) (c := c) hname
    (fun w => hhead rfl (by simp)) (hhead rfl (by simp)) (hhead rfl (by simp))
  exact absurd (herror.symm.trans h) (by simp)

/-- A type name before a name does not begin like a declaration of inferred types. -/
theorem not_varTupleAhead_of_typeName {T : TypeName} (h : typeName d c s = (.ok T, t))
    (hname : ¬nameless t.tokens) : varTupleAhead s.tokens = false := by
  by_contra hahead
  rw [Bool.not_eq_false, varTupleAhead, Bool.and_eq_true, beq_iff_eq, beq_iff_eq,
    ← List.head?_eq_getElem?] at hahead
  obtain ⟨hvar, hparen⟩ := hahead
  have hparen' : s.advance.tokens.head? = some (.symbol .leftParen) := by
    rw [tokens_advance, ← List.drop_one, List.head?_drop, hparen]
  obtain ⟨kind, hkind⟩ : ∃ kind, ElementaryType.ofWord? "var" = some kind := ⟨_, rfl⟩
  obtain ⟨T', hT'⟩ := typeName_of_elementary (d := d) (c := c) hvar hkind
    (nameless_of_symbol hparen')
  rw [iterateOver_of_idle (arraySuffix?_of_ne (by simp [hparen']))] at hT'
  obtain ⟨-, rfl⟩ := Prod.mk.inj (hT'.symm.trans h)
  exact hname (nameless_of_symbol hparen')

/-! ### Variables -/

/-- The words for a location, if there is one. -/
def locationTokens (location : Option StorageLocation) : List Token :=
  location.toList.map (Token.identifier ·.text)

/-- A location before a name is read as such, and so is that there is none. -/
theorem accepts_storageLocation? (location : Option StorageLocation)
    (hname : StorageLocation.ofWord? name = none) : Accepts c storageLocation?
      (locationTokens location) (.identifier name :: k) (· = location) := by
  rw [storageLocation?]
  refine sees_nextWord.accepts ?_
  cases location with
  | none =>
    have hbind : ((locationTokens none ++ .identifier name :: k).head?.bind
        Token.identifier?).bind StorageLocation.ofWord? = none := hname
    simp only [hbind]
    exact accepts_pure rfl
  | some location =>
    have hbind : ((locationTokens (some location) ++ .identifier name :: k).head?.bind
        Token.identifier?).bind StorageLocation.ofWord? = some location := by
      change StorageLocation.ofWord? location.text = some location
      cases location <;> decide
    simp only [hbind]
    exact accepts_advance (accepts_pure rfl)

/-- A type name, perhaps a location, and a name. -/
theorem accepts_variableDeclaration {T : TypeName} {location : Option StorageLocation}
    (hT : Accepts c d.typeName ts (locationTokens location ++ Token.identifier name :: k) (Alike T))
    (hname : StorageLocation.ofWord? name = none) :
    Accepts c (variableDeclaration d) (ts ++ (locationTokens location ++ [Token.identifier name])) k
      (Alike ⟨T, location, ⟨name, .origin⟩, .origin⟩) := by
  refine looks_here.accepts fun start => Accepts.bind (by simpa using hT) fun T' hT' => ?_
  refine (accepts_storageLocation? location hname).bind fun location' hlocation => ?_
  refine accepts_identifier fun i hi => accepts_spanFrom fun span => accepts_pure ?_
  have hi' : respan (fun _ => Span.origin) i = ⟨name, .origin⟩ := by rw [← hi]; rfl
  simp [Alike, hT', hlocation, hi']

/-! ### Values -/

/-- The tokens of a value, if there is one, and of the sign before it. -/
def valueTokens (value : Option (List Token × Expr)) : List Token :=
  value.elim [] fun v => .symbol .assign :: v.1

/-- Perhaps a value, before a semicolon. -/
theorem accepts_value {β : Type} {f : Option Expr → Parser β} {Q : β → Prop}
    (value : Option (List Token × Expr)) (hvalue : ∀ v ∈ value,
      ReadBefore d.expression (· = some (.symbol .semicolon)) v.1 v.2) (hc : c.structLiterals = true)
    (hf : ∀ v, Alike (value.map Prod.snd) v → Accepts c (f v) (.symbol .semicolon :: ts) k Q) :
    Accepts c (accept (.symbol .assign) >>= fun b =>
        if b = true then some <$> d.expression >>= f else pure none >>= f)
      (valueTokens value ++ .symbol .semicolon :: ts) k Q := by
  cases value with
  | none => exact accepts_without (by simp [valueTokens]) (hf none rfl)
  | some v =>
    refine accepts_accept (Accepts.bind (P := Alike (some v.2)) ?_ fun v' hv' => hf v' hv')
    refine (hvalue v rfl c _ hc rfl).bind_last fun e he => accepts_pure ?_
    exact congrArg some he

/-- A single variable may have a value. -/
theorem accepts_declarationEnd {v : VariableDeclaration} (start : Span)
    (value : Option (List Token × Expr)) (hvalue : ∀ v ∈ value,
      ReadBefore d.expression (· = some (.symbol .semicolon)) v.1 v.2)
    (hc : c.structLiterals = true) :
    Accepts c (declarationEnd d (.single v) start)
      (valueTokens value ++ [Token.symbol .semicolon]) k
      (Alike (Stmt.variables (.single v) (value.map Prod.snd) .origin)) := by
  refine accepts_value value hvalue hc fun v' hv' => ?_
  simp only [needsNoValue, Bool.not_true, Bool.and_false, Bool.false_eq_true, if_false]
  refine accepts_symbol fun _ => accepts_spanFrom fun span => accepts_pure ?_
  simp [Alike, hv']

theorem accepts_expressionStatement {e : Expr} (hc : c.structLiterals = true)
    (h : ReadBefore d.expression (· = some (.symbol .semicolon)) ts e) :
    Accepts c (expressionStatement d) (ts ++ [Token.symbol .semicolon]) k
      (Alike (Stmt.expression e .origin)) := by
  refine (h c _ hc rfl).bind fun e' he' => accepts_symbol fun _ => ?_
  exact accepts_spanFrom fun span => accepts_pure (by simp [Alike, he'])

/-! ### Statements -/

variable {m : Nat}

/-- An expression before a semicolon is a statement, unless it begins like a declaration of inferred
types. -/
theorem accepts_statement_of_expression {e : Expr} (hc : c.structLiterals = true)
    (h : ReadBefore (Nested.ofDepth m).expression (· = some (.symbol .semicolon)) ts e)
    (hvar : varTupleAhead ts = false) :
    Accepts c (Nested.ofDepth (m + 1)).statement (ts ++ [Token.symbol .semicolon]) k
      (Alike (Stmt.expression e .origin)) := by
  intro s hs
  obtain ⟨x, t, hx, halike, ht⟩ := accepts_expressionStatement hc h s hs
  refine ⟨x, t, ?_, halike, ht⟩
  obtain ⟨a, ha⟩ : ∃ a, s.tokens.head? = some a := by
    rw [hs]
    cases ts <;> exact ⟨_, rfl⟩
  have hopens : a.opensExpression = true := by
    by_contra hnot
    obtain ⟨error, herror⟩ := Nested.expression_of_unopened (by simpa using hnot) m c s ha
    obtain ⟨e', u, he, -⟩ := bind_eq_ok hx
    exact absurd (herror.symm.trans he) (by simp)
  have hvar' : varTupleAhead s.tokens = false := by
    rw [hs]
    rcases ts with _ | ⟨a, _ | ⟨b, ts⟩⟩
    · rfl
    · simp [varTupleAhead]
    · exact hvar
  change statement (Nested.ofDepth m) c s = _
  rw [statement_eq_simpleStatement ha (.inl hopens), simpleStatement,
    bind_ok (sees_varTupleBegins c s), run_ite, hvar', if_neg Bool.false_ne_true, next_bind, run_ite]
  split
  · -- No declarator comes to the semicolon of the expression.
    obtain ⟨error, v, hv⟩ := halts_of_expressionStatement (Nested.exclusive_ofDepth m) hc hx
    have hfirst : (Sum.inl <$> declarator (Nested.ofDepth m) : Parser (Declarator ⊕ Stmt)) c s
        = (.error error, v) := bind_error hv
    have hsecond : (Sum.inr <$> expressionStatement (Nested.ofDepth m) : Parser (Declarator ⊕ Stmt)) c s
        = (.ok (.inr x), t) := bind_ok hx
    rw [declarationOrExpression, bind_ok (looks_here c s), bind_ok (by rw [either_eq, hfirst, hsecond])]
    rfl
  · exact hx

/-- A type name with a name behind it declares a variable. -/
theorem accepts_statement_of_typeName {T : TypeName} {name : String}
    {value : Option (List Token × Expr)} (location : Option StorageLocation)
    (hc : c.structLiterals = true)
    (hT : ReadBefore (Nested.ofDepth m).typeName wordEndsType ts T)
    (hlocation : StorageLocation.ofWord? name = none) (hname : Token.endsType (.identifier name))
    (hvalue : ∀ v ∈ value,
      ReadBefore (Nested.ofDepth m).expression (· = some (.symbol .semicolon)) v.1 v.2) :
    Accepts c (Nested.ofDepth (m + 1)).statement
      (ts ++ (locationTokens location ++ [Token.identifier name]) ++ (valueTokens value
        ++ [Token.symbol .semicolon])) k
      (Alike (Stmt.variables (.single ⟨T, location, ⟨name, .origin⟩, .origin⟩)
        (value.map Prod.snd) .origin)) := by
  intro s hs
  set us := valueTokens value ++ Token.symbol .semicolon :: k with hus
  have hword : wordEndsType (locationTokens location ++ Token.identifier name :: us).head? := by
    cases location with
    | none => exact ⟨name, rfl, hname⟩
    | some location => exact ⟨location.text, rfl, by cases location <;> decide⟩
  have hs' : s.tokens = ts ++ (locationTokens location ++ [Token.identifier name]) ++ us := by
    simp [hs, hus]
  obtain ⟨T', r, hr, -, hrest, -⟩ := hT c _ hc hword s (by simpa using hs')
  obtain ⟨v, u, hv, halike, hu, herrors⟩ :=
    accepts_variableDeclaration (hT c _ hc hword) hlocation s hs'
  obtain ⟨x, t, hx, halike', ht, herrors'⟩ :=
    accepts_declarationEnd (v := v) (s.nextSpan c.stop) value hvalue hc u (by simpa [hus] using hu)
  refine ⟨x, t, ?_, halike'.trans (by simp_all [Alike]), ht, herrors'.trans herrors⟩
  cases m with
  | zero => exact absurd hr Nested.tooDeep_ne_ok
  | succ m =>
    obtain ⟨a, ha, hdeclare, hparen⟩ := mayDeclare_of_typeName (d := Nested.ofDepth m) hr
    have hnamed : ¬nameless r.tokens := by
      obtain ⟨w, hhead, -⟩ := hword
      rw [nameless, hrest, hhead]
      simp [Token.identifier?]
    have hfirst : (Sum.inl <$> declarator (Nested.ofDepth (m + 1)) : Parser (Declarator ⊕ Stmt)) c s
        = (.ok (.inl (.single v)), u) := by
      refine bind_ok ?_
      rw [declarator, bind_ok (sees_nextIs _ c s), run_ite, if_neg (by simpa [ha] using hparen)]
      exact bind_ok hv
    change statement (Nested.ofDepth (m + 1)) c s = _
    rw [statement_eq_simpleStatement ha (.inr hdeclare), simpleStatement,
      bind_ok (sees_varTupleBegins c s), run_ite,
      not_varTupleAhead_of_typeName (d := Nested.ofDepth m) hr hnamed, if_neg Bool.false_ne_true, next_bind,
      run_ite, if_pos (by simp [ha, hdeclare]), declarationOrExpression, bind_ok (looks_here c s),
      bind_ok (by rw [either_eq, hfirst])]
    exact hx

end Grammar

/-! ### Texts -/

/-- A source whose tokens are read as a statement. -/
theorem readsStatement_of_accepts {source : String} {x : Stmt} {ts : List Token}
    (hclean : (tokenize source).errors = []) (htokens : tokensOf source = ts)
    (h : Accepts (ofSource source).context Nested.full.statement ts [] (Alike x)) :
    ∃ x', ReadsStatement source x' ∧ erase x' = erase x := by
  obtain ⟨x', next, hrun, halike, herrors⟩ := run_whole hclean (htokens ▸ h)
  exact ⟨x', ⟨next, hrun, herrors⟩, halike⟩

/-- Perhaps a value, and a semicolon. -/
def valueLines (value : Option String) : List String :=
  (value.elim [] fun E => ["=", E]) ++ [";"]

theorem tokenize_valueLines {n : Nat} {value : Option (String × Expr)}
    (h : ∀ v ∈ value, IsExpression n v.1 v.2) :
    (valueLines (value.map Prod.fst)).flatMap tokensOf
        = valueTokens (value.map fun v => (tokensOf v.1, v.2)) ++ [Token.symbol .semicolon]
      ∧ ∀ text ∈ valueLines (value.map Prod.fst), (tokenize text).errors = [] := by
  have hassign' : tokensOf "=" = [.symbol .assign] := tokensOf_symbol .assign
  have hsemicolon' : tokensOf ";" = [.symbol .semicolon] := tokensOf_symbol .semicolon
  have hassign := faultless_of_symbol hassign'
  have hsemicolon := faultless_of_symbol hsemicolon'
  cases value with
  | none => exact ⟨by simp [valueLines, valueTokens, hsemicolon'], by simp [valueLines, hsemicolon]⟩
  | some v =>
    have hclean := (h v rfl).faultless
    exact ⟨by simp [valueLines, valueTokens, hassign', hsemicolon'],
      by simp [valueLines, hassign, hsemicolon, hclean]⟩

/-- A type name, perhaps a location, a name, and perhaps a value, one below the other. -/
def declarationLines (T : String) (location : Option StorageLocation) (x : String)
    (value : Option String) : List String :=
  T :: (location.toList.map StorageLocation.text ++ x :: valueLines value)

theorem tokenize_location (location : Option StorageLocation) :
    (location.toList.map StorageLocation.text).flatMap tokensOf = locationTokens location
      ∧ ∀ text ∈ location.toList.map StorageLocation.text, (tokenize text).errors = [] := by
  have hword (location : StorageLocation) : tokensOf location.text = [.identifier location.text]
      ∧ (tokenize location.text).errors = [] := by
    cases location <;> rw [StorageLocation.text, tokensOf, tokenize_ofList] <;> decide
  cases location with
  | none => exact ⟨rfl, by simp⟩
  | some location =>
    obtain ⟨htokens, hclean⟩ := hword location
    exact ⟨by simp [locationTokens, htokens], by simp [hclean]⟩

/-- An expression with a semicolon below it is read as a statement of its own. A type name, perhaps a
location, a name that is no location and no attribute, perhaps a value and a semicolon are read as the
declaration of one variable. -/
theorem declaration_or_expression {n : Nat} (hn : n < nestingLimit) :
    (∀ (E : String) (e : Expr), IsExpression n E e → varTupleAhead (tokensOf E) = false →
        ∃ x, ReadsStatement (lines [E, ";"]) x ∧ erase x = erase (Stmt.expression e .origin))
      ∧ ∀ (A : String) (T : TypeName) (location : Option StorageLocation) (x name : String)
          (value : Option (String × Expr)), IsTypeName n A T → tokensOf x = [.identifier name] →
        StorageLocation.ofWord? name = none → Visibility.ofWord? name = none →
        Mutability.ofWord? name = none → (∀ v ∈ value, IsExpression n v.1 v.2) →
          ∃ y, ReadsStatement (lines (declarationLines A location x (value.map Prod.fst))) y
            ∧ erase y = erase (Stmt.variables (.single ⟨T, location, ⟨name, .origin⟩, .origin⟩)
              (value.map Prod.snd) .origin) := by
  have hlevel : n ≤ 127 := Nat.le_of_lt_succ hn
  constructor
  · intro E e hE hvar
    have hsemicolon : tokensOf ";" = [.symbol .semicolon] := tokensOf_symbol .semicolon
    obtain ⟨htokens, hclean⟩ := tokenize_lines [E, ";"] (by
      simp [hE.faultless, faultless_of_symbol hsemicolon])
    rw [List.flatMap_cons, List.flatMap_singleton, hsemicolon] at htokens
    exact readsStatement_of_accepts hclean htokens
      (accepts_statement_of_expression rfl (hE.readBefore hn.le hlevel) hvar)
  · intro A T location x name value hA hx hlocation hvisibility hmutability hvalue
    obtain ⟨hlocationTokens, hlocationClean⟩ := tokenize_location location
    obtain ⟨hvalueTokens, hvalueClean⟩ := tokenize_valueLines hvalue
    obtain ⟨htokens, hclean⟩ :=
      tokenize_lines (declarationLines A location x (value.map Prod.fst)) (by
        simp only [declarationLines, List.forall_mem_cons, List.forall_mem_append]
        exact ⟨hA.faultless, hlocationClean, faultless_of_word hx, hvalueClean⟩)
    have htexts : (declarationLines A location x (value.map Prod.fst)).flatMap tokensOf
        = tokensOf A ++ (locationTokens location ++ [Token.identifier name])
          ++ (valueTokens (value.map fun v => (tokensOf v.1, v.2))
            ++ [Token.symbol .semicolon]) := by
      rw [declarationLines, List.flatMap_cons, List.flatMap_append, List.flatMap_cons,
        hlocationTokens, hvalueTokens, hx]
      simp
    have hname : Token.endsType (.identifier name) := by
      simp [Token.endsType, isTypeAttribute_of_none hvisibility hmutability]
    have hread : ∀ v ∈ value.map (fun v => (tokensOf v.1, v.2)),
        ReadBefore (Nested.ofDepth 127).expression (· = some (.symbol .semicolon)) v.1 v.2 := by
      simp only [Option.mem_def, Option.map_eq_some_iff]
      rintro _ ⟨v, hv, rfl⟩
      exact (hvalue v hv).readBefore hn.le hlevel
    have haccepts := accepts_statement_of_typeName (k := [])
      (c := (ofSource (lines (declarationLines A location x (value.map Prod.fst)))).context) location
      rfl (hA.readBefore hn.le hlevel) hlocation hname hread
    rw [Option.map_map] at haccepts
    exact readsStatement_of_accepts hclean (htokens.trans htexts) haccepts

example : (ofSource "a[1] b;").statement.1.toBool := by
  rw [ofSource_ofList]
  decide +kernel

/-- A call of a member, and an array of functions in memory with a value. -/
theorem declaration_or_expression_call :
    126 < nestingLimit
      ∧ (∃ e, IsExpression 126 "a[1].f // a\n(2)" e ∧ ∃ x,
        ReadsStatement (lines ["a[1].f // a\n(2)", ";"]) x
          ∧ erase x = erase (Stmt.expression e .origin))
      ∧ ∃ T e, IsTypeName 126 "function(uint) view[]" T ∧ IsExpression 126 "g[0]" e ∧ ∃ y,
        ReadsStatement (lines ["function(uint) view[]", "memory", "f", "=", "g[0]", ";"]) y
          ∧ erase y = erase (Stmt.variables (.single ⟨T, some .memory, ⟨"f", .origin⟩, .origin⟩)
            (some e) .origin) := by
  have hn : 126 < nestingLimit := by decide
  obtain ⟨e, he⟩ : ∃ e, IsExpression 126 "a[1].f // a\n(2)" e := exists_isExpression (by
    rw [ofSource_ofList]
    decide +kernel)
  obtain ⟨T, hT⟩ : ∃ T, IsTypeName 126 "function(uint) view[]" T := exists_isTypeName (by
    rw [ofSource_ofList]
    decide +kernel)
  obtain ⟨e', he'⟩ : ∃ e, IsExpression 126 "g[0]" e := exists_isExpression (by
    rw [ofSource_ofList]
    decide +kernel)
  have htuple : varTupleAhead (tokensOf "a[1].f // a\n(2)") = false := by
    rw [tokensOf_ofList]
    decide
  have hf : tokensOf "f" = [.identifier "f"] := by
    rw [tokensOf_ofList]
    decide
  obtain ⟨hstatement, hdeclaration⟩ := declaration_or_expression hn
  exact ⟨hn, ⟨e, he, hstatement _ e he htuple⟩, T, e', hT, he',
    hdeclaration _ T (some .memory) "f" "f" (some ("g[0]", e')) hT hf (by decide)
      (by decide) (by decide) fun v hv => Option.some.inj hv ▸ he'⟩

end SolidityFrontend
