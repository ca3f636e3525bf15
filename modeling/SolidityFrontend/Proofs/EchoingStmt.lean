import SolidityFrontend.Proofs.Brackets
import SolidityFrontend.Proofs.Choosing
import SolidityFrontend.Proofs.AgreeingStmt

/-!
# Statements in an echo

The parsers for statements echo each other, if those of the level below do. A statement ends with a
semicolon or a brace, so behind the passage the second text may go on with anything that is no further
branch of the last statement. Of the two readings of a statement that begins like a type the second
text gives the same one, since no tokens are both a declaration and an expression.
-/

namespace SolidityFrontend

open SolidityFrontend.Parser

/-- Named fields are allowed behind an expression, as everywhere outside of the call of a `try`. -/
abbrev Parser.unrestricted {α : Type} : Proviso α := givenContext fun c => c.structLiterals = true

/-- Behind the passage the second text has no further branch of a statement. -/
structure Setting.Closed (H : Setting) (k : Nat) : Prop where
  elseBranch : H.Bars k (.keyword .else_)
  catchClause : H.Bars k (.keyword .catch_)

theorem Setting.closed_succ {H : Setting} {k : Nat} : H.Closed (k + 1) := ⟨bars_succ, bars_succ⟩

/-- Whether a name and a colon are ahead. -/
def labelAhead (ts : List Token) : Bool :=
  (ts[0]?.bind Token.identifier?).isSome && ts[1]? == some (Token.symbol .colon)

/-- Where an expression stands before something else than a name nothing is declared. -/
def Nested.Exclusive (d : Nested) : Prop :=
  ∀ {c s e t}, c.structLiterals = true → d.expression c s = (.ok e, t) → nameless t.tokens →
    Halts t (Grammar.declarator d c s)

/-- The parsers of a level of nesting are echoed by those of another one. -/
structure Nested.EchoedWhole (H : Setting) (d d' : Nested) : Prop extends d.Echoed H d' where
  statement : ∀ k, H.Closed k → Echoes H unrestricted anywhere (k + 1) k d.statement d'.statement
  exclusive : d'.Exclusive
  fieldless : ∀ {c s x t}, d.statement c s = (.ok x, t) → ¬labelAhead s.tokens

namespace Parser

variable {α : Type} [Placed α] {H : Setting} {j k : Nat} {p p' q q' : Parser α}
  {I : List Lexeme → Prop}

/-- Two readings, where behind an echo of the second one the second text is read in the first way only
if the first text is. -/
theorem echoes_either_if {r : Reading} {P : Proviso α} (h : Echoes H always I j k p p')
    (h' : Echoes H P I j k q q')
    (hback : ∀ {c c'}, Setting.Knows k c c' → ∀ {w s s'}, H.At w s s' → ∀ {x t}, P x c t →
      H.Kept k t → ∀ {x' t' v}, q' c' s' = (.ok x', t') → H.At v t t' →
      ∀ {y' u'}, p' c' s' = (.ok y', u') → ∃ y u, p c s = (.ok y, u)) :
    Echoes H P I j k (either r p q) (either r p' q') where
  onward := h.onward.either r h'.onward
  steps c s x t hs hx := by
    rw [either_eq] at hx
    rcases hp : p c s with ⟨e | y, u⟩ <;> rw [hp] at hx
    · rcases hq : q c s with ⟨e' | y, u'⟩ <;> rw [hq] at hx
      · dsimp only at hx
        split at hx <;> simp at hx
      · exact h'.steps c s x t hs (hq.trans hx)
    · exact h.steps c s x t hs (hp.trans hx)
  run {c c'} hc w s s' hs hI x t hx hk hP := by
    rw [either_eq] at hx
    rcases hp : p c s with ⟨e | y, u⟩ <;> rw [hp] at hx
    · rcases hq : q c s with ⟨e' | y, u'⟩ <;> rw [hq] at hx
      · dsimp only at hx
        split at hx <;> simp at hx
      · obtain ⟨x', t', v, hx', halike, ht⟩ := h'.run hc hs hI (hq.trans hx) hk hP
        refine ⟨x', t', v, ?_, halike, ht⟩
        rcases hp' : p' c' s' with ⟨error | y', u₁⟩
        · rw [either_eq, hp', hx']
        · obtain ⟨y, u₂, hy⟩ := hback hc hs hP hk hx' ht hp'
          exact absurd (hp.symm.trans hy) (by simp)
    · obtain ⟨x', t', v, hx', halike, ht⟩ := h.run hc hs hI (hp.trans hx) hk trivial
      exact ⟨x', t', v, by rw [either_eq, hx'], halike, ht⟩

/-- Two readings, where the second text cannot be read in the first way if it can be in the second. -/
theorem echoes_either {r : Reading} (h : Echoes H always I j k p p')
    (h' : Echoes H always I j k q q')
    (hexclusive : ∀ {c s x t}, c.structLiterals = true → q' c s = (.ok x, t) →
      ∃ error u, p' c s = (.error error, u)) :
    Echoes H unrestricted I j k (either r p q) (either r p' q') := by
  refine echoes_either_if h (h'.proviso fun _ _ _ _ => trivial) ?_
  intro c c' hc w s s' hs x t hP hk x' t' v hx' ht y' u' hy'
  obtain ⟨error, u, hp'⟩ := hexclusive (hc.structLiterals hP) hx'
  exact absurd (hp'.symm.trans hy') (by simp)

/-- A choice by tokens of which both readings have enough. -/
theorem Sees.echoes_ite {g : List Token → Bool} {look : Parser Bool} {n : Nat} (hl : Sees look g)
    (hlocal : ∀ ts us us' : List Token, n ≤ ts.length → g (ts ++ us) = g (ts ++ us'))
    {P : Proviso α} (h : Echoes H P (fun rest => I rest ∧ g (rest.map Lexeme.token)) (k + n) k p p')
    (h' : Echoes H P I (k + n) k q q') :
    Echoes H P I (k + n) k (look >>= fun b => if b = true then p else q)
      (look >>= fun b => if b = true then p' else q') where
  onward := by
    intro c s
    rw [bind_ok (hl c s)]
    exact Onward.ite (fun _ => h.onward) (fun _ => h'.onward) c s
  steps c s x t hs hx := by
    rw [bind_ok (hl c s), run_ite] at hx
    split at hx
    · exact h.steps c s x t ⟨hs, ‹_›⟩ hx
    · exact h'.steps c s x t hs hx
  run {c c'} hc w s s' hs hI x t hx hk hP := by
    have hsame (hle : t.rest.length + (k + n) ≤ s.rest.length + k) : g s'.tokens = g s.tokens := by
      rw [hs.tokens₁, hs.tokens₂]
      refine hlocal _ _ _ ?_
      have hlength := hs.length₁
      have hkept := hk.2
      rw [List.length_map]
      omega
    rw [bind_ok (hl c s), run_ite] at hx
    rw [bind_ok (hl c' s'), run_ite]
    split at hx
    · rename_i hg
      rw [if_pos ((hsame (h.steps c s x t ⟨hI, hg⟩ hx)).trans hg)]
      exact h.run hc hs ⟨hI, hg⟩ hx hk hP
    · rename_i hg
      rw [if_neg (by rwa [hsame (h'.steps c s x t hI hx)])]
      exact h'.run hc hs hI hx hk hP

end Parser

namespace Grammar

variable {H : Setting} {k : Nat} {I : List Lexeme → Prop} {d d' : Nested}

section

variable (hd : d.Echoed H d')
include hd

/-! ### Declarations and expressions -/

theorem echoes_variableDeclaration :
    Echoes H always I (k + 2) k (variableDeclaration d) (variableDeclaration d') := by
  refine echoes_here fun start start' => ?_
  refine (hd.typeName _ (Setting.mild_succ (k := k))).at.bind fun type type' htype => ?_
  refine echoes_storageLocation?.bind fun location location' hlocation => ?_
  refine echoes_identifier.bind fun name name' hname => ?_
  exact echoes_spanFrom fun _ _ => echoes_pure (by simp_all [Alike])

omit hd in
theorem all_isNone_of_alike {α : Type} [Placed α] {elements elements' : List (Option α)}
    (h : Alike elements elements') :
    elements'.all Option.isNone = elements.all Option.isNone := by
  have hmove (elements : List (Option α)) :
      (respan (fun _ => Span.origin) elements).all Option.isNone = elements.all Option.isNone := by
    rw [respan_list, List.all_map]
    exact congrArg (elements.all ·) (funext isNone_respan)
  rw [← hmove elements', h, hmove]

theorem echoes_tupleDeclarator :
    Echoes H always I (k + 2) k (tupleDeclarator d) (tupleDeclarator d') := by
  refine (echoes_symbol (k := k + 1) _).bind fun start start' _ => ?_
  have hplace := echoes_tuplePlace (I := anywhere) (k := k)
    ((echoes_variableDeclaration (I := anywhere) (k := k + 1) hd).lower (Nat.le_succ _))
  refine (echoes_separated hplace Setting.bars_succ).bind fun elements elements' h => ?_
  refine (echoes_symbol _).bind fun _ _ _ => echoes_spanFrom fun span span' => ?_
  rw [all_isNone_of_alike h]
  exact echoes_ite (fun _ => echoes_violation _ _) fun _ => echoes_pure (by simp [Alike, h])

theorem echoes_declarator :
    Echoes H always I (k + 2) k (declarator d) (declarator d') := by
  refine echoes_if_nextIs_inside (echoes_tupleDeclarator hd) ?_
  exact (echoes_variableDeclaration hd).bind fun v v' h => echoes_pure (by simp [Alike, h])

omit hd in
theorem needsNoValue_of_alike {v v' : Declarator} (h : Alike v v') :
    needsNoValue v' = needsNoValue v := by
  have hmove (v : Declarator) : needsNoValue (respan (fun _ => Span.origin) v) = needsNoValue v := by
    cases v <;> rfl
  rw [← hmove v', h, hmove]

omit hd in
theorem isNone_of_alike {α : Type} [Placed α] {o o' : Option α} (h : Alike o o') :
    o'.isNone = o.isNone := by
  have hmove (o : Option α) : (respan (fun _ => Span.origin) o).isNone = o.isNone := isNone_respan o
  rw [← hmove o', h, hmove]

theorem echoes_declarationEnd {v v' : Declarator} (hv : Alike v v') (start start' : Span) :
    Echoes H unrestricted I (k + 1) k (declarationEnd d v start) (declarationEnd d' v' start') := by
  have hend (value value' : Option Expr) (hvalue : Alike value value') :
      Echoes H unrestricted anywhere (k + 1) k
        (if value.isNone && !needsNoValue v then
          spanFrom start >>= fun span => violation .tupleWithoutValue span
        else symbol .semicolon >>= fun _ => spanFrom start >>= fun span =>
          pure (Stmt.variables v value span))
        (if value'.isNone && !needsNoValue v' then
          spanFrom start' >>= fun span => violation .tupleWithoutValue span
        else symbol .semicolon >>= fun _ => spanFrom start' >>= fun span =>
          pure (Stmt.variables v' value' span)) := by
    rw [needsNoValue_of_alike hv, isNone_of_alike hvalue]
    refine echoes_ite (fun _ => echoes_spanFrom fun _ _ => echoes_violation _ _) fun _ => ?_
    refine (echoes_symbol _).bind fun _ _ _ => ?_
    exact echoes_spanFrom fun _ _ => echoes_pure (by simp [Alike, hv, hvalue])
  have hvalue : Echoes H unrestricted anywhere (k + 1) (k + 1) (some <$> d.expression)
      (some <$> d'.expression) :=
    (hd.expression _ Setting.calm_succ).perhaps.map (fun _ _ h => congrArg some h)
      fun _ _ _ h => .inl h
  refine echoes_if_accept_inside (m := k + 1) ?_ ?_
  · exact (hvalue.bind_if hend fun _ _ _ _ _ _ h => h).lower (by omega)
  · exact (echoes_pure rfl).bind hend

omit hd in
theorem echoes_varPlace : Echoes H always I (k + 1) (k + 1) varPlace varPlace := by
  refine echoes_next fun next => ?_
  split
  · exact echoes_pure rfl
  · exact echoes_pure rfl
  · exact (echoes_identifier.bind fun i i' hi => echoes_pure (congrArg some hi)).perhaps

theorem echoes_varTupleDeclaration :
    Echoes H unrestricted (fun rest => I rest ∧ rest ≠ []) (k + 2) k (varTupleDeclaration d)
      (varTupleDeclaration d') := by
  refine echoes_here fun start start' => ?_
  refine (echoes_advance (k := k + 1) fun _ => And.right).bind_if (R := always) (fun _ _ _ => ?_)
    fun _ _ _ _ _ _ _ => trivial
  refine (echoes_symbol (k := k + 1) _).perhaps.bind fun _ _ _ => ?_
  refine (echoes_separated echoes_varPlace Setting.bars_succ).bind fun names names' hnames => ?_
  refine (echoes_symbol (k := k + 1) _).perhaps.bind fun _ _ _ =>
    echoes_spanFrom fun span span' => ?_
  exact (echoes_declarationEnd hd (by simp [Alike, hnames]) start start')

theorem echoes_expressionStatement :
    Echoes H always I (k + 2) k (expressionStatement d) (expressionStatement d') := by
  refine (hd.expression _ (Setting.calm_succ (k := k))).at.bind_if (fun e e' he => ?_)
    fun _ _ _ _ _ h _ => uncut_of_symbol (by simp) h
  refine (echoes_symbol _).bind fun _ _ _ => ?_
  exact echoes_spanFrom fun _ _ => echoes_pure (by simp [Alike, he])

omit hd in
/-- Behind an expression with a semicolon nothing is declared. -/
theorem halts_of_expressionStatement (hexclusive : d.Exclusive) {c : Context} {s t : State}
    {x : Stmt} (hc : c.structLiterals = true) (h : expressionStatement d c s = (.ok x, t)) :
    ∃ error u, declarator d c s = (.error error, u) := by
  obtain ⟨e, u, he, hrest⟩ := bind_eq_ok h
  have hsemicolon := head_of_symbol hrest
  obtain ⟨error, v, hv, -⟩ := hexclusive hc he (nameless_of_symbol hsemicolon)
  exact ⟨error, v, hv⟩

theorem echoes_declarationOrExpression (hexclusive : d'.Exclusive) :
    Echoes H unrestricted I (k + 2) k (declarationOrExpression d) (declarationOrExpression d') := by
  have hdeclarator : Echoes H always I (k + 2) k
      (Sum.inl <$> declarator d : Parser (Declarator ⊕ Stmt)) (Sum.inl <$> declarator d') :=
    (echoes_declarator hd).map (fun _ _ h => congrArg Sum.inl h) fun _ _ _ _ => trivial
  have hexpression : Echoes H always I (k + 2) k
      (Sum.inr <$> expressionStatement d : Parser (Declarator ⊕ Stmt))
      (Sum.inr <$> expressionStatement d') :=
    (echoes_expressionStatement hd).map (fun _ _ h => congrArg Sum.inr h) fun _ _ _ _ => trivial
  have hnone {c : Context} {s t : State} {x : Declarator ⊕ Stmt} (hc : c.structLiterals = true)
      (hx : (Sum.inr <$> expressionStatement d') c s = (.ok x, t)) :
      ∃ error u, (Sum.inl <$> declarator d' : Parser (Declarator ⊕ Stmt)) c s = (.error error, u) := by
    obtain ⟨y, u, hy, hpure⟩ := bind_eq_ok hx
    obtain ⟨-, rfl⟩ := pure_eq_ok (c := c) hpure
    obtain ⟨error, v, hv⟩ := halts_of_expressionStatement hexclusive hc hy
    exact ⟨error, v, bind_error hv⟩
  refine echoes_here fun start start' => (echoes_either hdeclarator hexpression hnone).bind_if
    (fun x x' h => ?_) fun _ _ _ _ _ _ h => h
  rcases x with v | e <;> rcases x' with v' | e'
  · exact (echoes_declarationEnd hd (Sum.inl.inj h) start start').perhaps
  · exact absurd h Sum.inr_ne_inl
  · exact absurd h Sum.inl_ne_inr
  · exact echoes_pure (Sum.inr.inj h)

/-- Whether the word `var` and a parenthesis are ahead. -/
def varTupleAhead (ts : List Token) : Bool :=
  ts[0]? == some (Token.elementaryType "var") && ts[1]? == some (Token.symbol .leftParen)

omit hd in
theorem sees_varTupleBegins : Sees varTupleBegins varTupleAhead := by
  intro c s
  rw [varTupleBegins, bind_ok (sees_next c s), bind_ok (sees_peek 1 c s), varTupleAhead,
    List.head?_eq_getElem?]
  rfl

theorem echoes_simpleStatement (hexclusive : d'.Exclusive) :
    Echoes H unrestricted I (k + 2) k (simpleStatement d) (simpleStatement d') := by
  refine sees_varTupleBegins.echoes_ite (n := 2) (fun ts us us' hlength => ?_) ?_ ?_
  · obtain ⟨a, b, ts, rfl⟩ : ∃ a b us, ts = a :: b :: us := by
      rcases ts with _ | ⟨a, _ | ⟨b, ts⟩⟩
      · simp at hlength
      · simp at hlength
      · exact ⟨a, b, ts, rfl⟩
    rfl
  · refine (echoes_varTupleDeclaration hd).weaken fun rest h => ⟨h.1, ?_⟩
    rintro rfl
    simp [varTupleAhead] at h
  · refine echoes_next fun next => echoes_ite (fun _ => ?_) fun _ => ?_
    · exact echoes_declarationOrExpression hd hexclusive
    · exact (echoes_expressionStatement hd).any

/-! ### Control -/

theorem echoes_condition :
    Echoes H always I (k + 2) k (condition d) (condition d') := by
  refine (echoes_symbol (k := k + 1) _).bind fun _ _ _ => ?_
  refine (hd.expression _ (Setting.calm_succ (k := k))).perhaps.bind_if (fun e e' he => ?_)
    fun _ _ _ _ _ h _ => uncut_of_symbol (by simp) h
  exact (echoes_symbol _).bind fun _ _ _ => echoes_pure he

/-- An expression that may be left out stands before other tokens of the passage. -/
theorem echoes_optional (stop : Symbol) :
    Echoes H unrestricted I (k + 1) (k + 1) (optional d stop) (optional d' stop) := by
  refine echoes_if_nextIs_inside (echoes_pure rfl) ?_
  refine (hd.expression _ (Setting.calm_succ (k := k))).at.perhaps.bind_if (fun e e' he => ?_)
    fun _ _ _ _ _ _ h => .inl h
  exact echoes_pure (congrArg some he)

omit hd in
theorem echoes_keywordStatement (word : Keyword) {make : Span → Stmt}
    (hmake : ∀ span span', Alike (make span) (make span')) :
    Echoes H always I (k + 2) k (keywordStatement word make) (keywordStatement word make) := by
  refine (echoes_keyword (k := k + 1) _).bind fun start start' _ => ?_
  refine (echoes_symbol _).bind fun _ _ _ => ?_
  exact echoes_spanFrom fun span span' => echoes_pure (hmake span span')

theorem echoes_returnStatement :
    Echoes H unrestricted I (k + 1) k (returnStatement d) (returnStatement d') := by
  refine (echoes_keyword (k := k + 1) _).perhaps.bind fun start start' _ => ?_
  refine (echoes_optional hd .semicolon).bind_if (fun value value' hvalue => ?_)
    fun _ _ _ _ _ _ h => h
  refine (echoes_symbol _).bind fun _ _ _ => ?_
  exact echoes_spanFrom fun _ _ => echoes_pure (by simp [Alike, hvalue])

theorem echoes_emitStatement :
    Echoes H always I (k + 1) k (emitStatement d) (emitStatement d') := by
  refine (echoes_keyword (k := k + 1) _).perhaps.bind fun start start' _ => ?_
  refine (echoes_path (k := k + 1) Setting.lacks_succ).perhaps.bind fun event event' hevent => ?_
  refine ((echoes_callArguments (k := k + 1) hd).lower (by omega)).bind fun arguments arguments' h => ?_
  refine (echoes_symbol _).bind fun _ _ _ => ?_
  exact echoes_spanFrom fun _ _ => echoes_pure (by simp [Alike, hevent, h])

end

section

variable (hd : d.EchoedWhole H d')
include hd

theorem echoes_block : Echoes H unrestricted I (k + 1) k (block d) (block d') := by
  refine (echoes_symbol _).bind fun start start' _ => ?_
  refine (echoes_body (hd.statement (k + 1) Setting.closed_succ)).bind_if (fun parts parts' h => ?_)
    fun _ _ _ _ _ _ h => h
  exact echoes_spanFrom fun _ _ => echoes_pure (by simp [Alike, h])

theorem echoes_ifStatement (hk : H.Closed k) :
    Echoes H unrestricted I (k + 1) k (ifStatement d) (ifStatement d') := by
  refine (echoes_keyword (k := k + 1) _).perhaps.bind fun start start' _ => ?_
  refine ((echoes_condition (k := k + 1) hd.toEchoed).lower (by omega)).bind
    fun test test' htest => ?_
  refine (hd.statement k hk).bind_if (fun thenBranch thenBranch' hthen => ?_)
    fun _ _ _ _ _ _ h => h
  have hend (elseBranch elseBranch' : Option Stmt) (h : Alike elseBranch elseBranch') :
      Echoes H unrestricted anywhere k k (spanFrom start >>= fun span =>
        pure (Stmt.ifElse test thenBranch elseBranch span))
        (spanFrom start' >>= fun span =>
          pure (Stmt.ifElse test' thenBranch' elseBranch' span)) :=
    echoes_spanFrom fun _ _ => echoes_pure (by simp [Alike, htest, hthen, h])
  have helse : Echoes H unrestricted anywhere k k (some <$> d.statement) (some <$> d'.statement) :=
    (hd.statement k hk).perhaps.map (fun _ _ h => congrArg some h) fun _ _ _ => id
  refine echoes_if_accept ?_ ?_ hk.elseBranch
  · exact helse.bind_if hend fun _ _ _ _ _ _ h => h
  · exact (echoes_pure rfl).bind hend

theorem echoes_forStatement (hk : H.Closed k) :
    Echoes H unrestricted I (k + 1) k (forStatement d) (forStatement d') := by
  refine (echoes_keyword (k := k + 1) _).perhaps.bind fun start start' _ => ?_
  refine (echoes_symbol (k := k + 1) _).perhaps.bind fun _ _ _ => ?_
  have hend (init init' : Option Stmt) (hinit : Alike init init') :
      Echoes H unrestricted anywhere (k + 1) k
        (optional d .semicolon >>= fun test => symbol .semicolon >>= fun _ =>
          optional d .rightParen >>= fun update => symbol .rightParen >>= fun _ =>
            d.statement >>= fun inner => spanFrom start >>= fun span =>
              pure (Stmt.forLoop init test update inner span))
        (optional d' .semicolon >>= fun test => symbol .semicolon >>= fun _ =>
          optional d' .rightParen >>= fun update => symbol .rightParen >>= fun _ =>
            d'.statement >>= fun inner => spanFrom start' >>= fun span =>
              pure (Stmt.forLoop init' test update inner span)) := by
    refine (echoes_optional hd.toEchoed .semicolon).bind_if (fun test test' htest => ?_)
      fun _ _ _ _ _ _ h => h
    refine (echoes_symbol (k := k + 1) _).perhaps.bind fun _ _ _ => ?_
    refine (echoes_optional hd.toEchoed .rightParen).bind_if (fun update update' hupdate => ?_)
      fun _ _ _ _ _ _ h => h
    refine (echoes_symbol (k := k + 1) _).perhaps.bind fun _ _ _ => ?_
    refine (hd.statement k hk).bind_if (fun inner inner' hinner => ?_) fun _ _ _ _ _ _ h => h
    exact echoes_spanFrom fun _ _ =>
      echoes_pure (by simp [Alike, hinit, htest, hupdate, hinner])
  refine echoes_if_accept_inside (m := k + 1) ((echoes_pure rfl).bind hend) ?_
  have hinit : Echoes H unrestricted anywhere (k + 1) (k + 1) (some <$> simpleStatement d)
      (some <$> simpleStatement d') :=
    ((echoes_simpleStatement hd.toEchoed hd.exclusive).lower (by omega)).map
      (fun _ _ h => congrArg some h) fun _ _ _ => id
  exact hinit.at.bind_if hend fun _ _ _ _ _ _ h => h

theorem echoes_whileStatement (hk : H.Closed k) :
    Echoes H unrestricted I (k + 1) k (whileStatement d) (whileStatement d') := by
  refine (echoes_keyword (k := k + 1) _).perhaps.bind fun start start' _ => ?_
  refine ((echoes_condition (k := k + 1) hd.toEchoed).lower (by omega)).bind
    fun test test' htest => ?_
  refine (hd.statement k hk).bind_if (fun inner inner' hinner => ?_) fun _ _ _ _ _ _ h => h
  exact echoes_spanFrom fun _ _ => echoes_pure (by simp [Alike, htest, hinner])

theorem echoes_doWhileStatement :
    Echoes H unrestricted I (k + 1) k (doWhileStatement d) (doWhileStatement d') := by
  refine (echoes_keyword (k := k + 1) _).perhaps.bind fun start start' _ => ?_
  refine (hd.statement (k + 1) Setting.closed_succ).perhaps.bind_if (fun inner inner' hinner => ?_)
    fun _ _ _ _ _ _ h => h
  refine (echoes_keyword (k := k + 1) _).perhaps.bind fun _ _ _ => ?_
  refine ((echoes_condition (k := k + 1) hd.toEchoed).lower (by omega)).bind
    fun test test' htest => ?_
  refine (echoes_symbol _).bind fun _ _ _ => ?_
  exact echoes_spanFrom fun _ _ => echoes_pure (by simp [Alike, htest, hinner])

/-! ### Failing calls and assembly -/

theorem echoes_catchClause :
    Echoes H unrestricted I (k + 1) k (catchClause d) (catchClause d') := by
  refine (echoes_keyword (k := k + 1) _).perhaps.bind fun start start' _ => ?_
  refine echoes_identifier?.bind fun name name' hname => ?_
  have hend (ps ps' : Option (List Parameter)) (hps : Alike ps ps') :
      Echoes H unrestricted anywhere (k + 1) k (block d >>= fun inner => spanFrom start >>=
        fun span => pure (⟨name, ps, inner, span⟩ : CatchClause))
        (block d' >>= fun inner => spanFrom start' >>= fun span => pure ⟨name', ps', inner, span⟩) := by
    refine (echoes_block hd).bind_if (fun inner inner' hinner => ?_) fun _ _ _ _ _ _ h => h
    exact echoes_spanFrom fun _ _ => echoes_pure (by simp [Alike, hname, hps, hinner])
  refine echoes_if_nextIs_inside ?_ ((echoes_pure rfl).bind hend)
  have hps : Echoes H always anywhere (k + 1) (k + 1) (some <$> parameters d)
      (some <$> parameters d') :=
    (echoes_parameters hd.toEchoed).perhaps.map (fun _ _ h => congrArg some h) fun _ _ _ => id
  exact hps.at.bind hend

/-- Named fields do not begin a block: no statement begins with a name and a colon. -/
theorem size_lt_of_fieldsAhead {c : Context} {s t : State} {b : Block}
    (h : block d c s = (.ok b, t)) (hahead : fieldsAhead s.tokens) :
    s.errors.size < t.errors.size := by
  by_contra hle
  obtain ⟨_, u, hopen, hrest⟩ := bind_eq_ok h
  obtain ⟨-, rfl⟩ := symbol_eq_ok hopen
  obtain ⟨parts, v, hbody, hpure⟩ := bind_eq_ok hrest
  rw [bind_ok (looks_spanFrom _ c v)] at hpure
  obtain ⟨-, rfl⟩ := pure_eq_ok hpure
  have hstatement : Onward d.statement := (hd.statement 1 Setting.closed_succ).onward
  obtain ⟨w, _, hparts, -, hclose⟩ := body_ok hstatement hbody (by rw [errors_advance]; omega)
  obtain ⟨-, rfl⟩ := symbol_eq_ok hclose
  obtain ⟨l₁, l₂, l₃, rest, hs, hname⟩ := cons_of_fieldsAhead hahead
  have hadvance : s.advance.rest = l₂ :: l₃ :: rest := by rw [State.advance, hs]
  have htokens : s.advance.tokens = l₂.token :: l₃.token :: rest.map Lexeme.token := by
    rw [State.tokens, hadvance]
    rfl
  have hcolon : l₃.token = .symbol .colon := by
    rw [fieldsAhead, State.tokens, hs, Bool.and_eq_true] at hahead
    simpa using hahead.2
  rw [hadvance, partsOver, bind_ok (sees_atEnd c s.advance), htokens] at hparts
  change (nextIs (.symbol .rightBrace) >>= _) c s.advance = _ at hparts
  rw [bind_ok (sees_nextIs _ c s.advance), htokens, run_ite, if_neg] at hparts
  · obtain ⟨x, w₁, hpart, hothers⟩ := bind_eq_ok hparts
    rcases hx : d.statement c s.advance with ⟨error | x', w₂⟩
    · have hlt := size_lt_recovering Stmt.error hstatement hx
      have hothers' := ((onward_partsOver (onward_recovering Stmt.error hstatement)
        (l₃ :: rest)).bind fun xs => onward_pure (x :: xs)).errors_size_le c w₁
      rw [hpart, errors_advance] at hlt
      rw [hothers] at hothers'
      rw [errors_advance] at hle
      dsimp only at hlt hothers'
      omega
    · refine hd.fieldless hx ?_
      rw [htokens, labelAhead]
      simpa [hcolon] using hname
  · intro hbrace
    change (some l₂.token == some (Token.symbol .rightBrace)) = true at hbrace
    rw [Option.some.inj (beq_iff_eq.1 hbrace)] at hname
    simp [Token.identifier?] at hname

/-- A clause for a failing call, if there is one. -/
def catchClause? (deeper : Nested) : Parser (Option CatchClause) := do
  if ← nextIs (.keyword .catch_) then return some (← catchClause deeper) else return none

/-- What stands behind the body of a `try`. -/
def tryEnd (deeper : Nested) (start : Span) (call : Expr) (returns : List Parameter)
    (inner : Block) : Parser Stmt := do
  let clauses ← many (catchClause? deeper)
  if clauses.isEmpty then violation .tryWithoutCatch (← spanFrom start)
  else return .tryCatch call returns inner clauses (← spanFrom start)

theorem echoes_tryEnd (hk : H.Closed k) {start start' : Span} {call call' : Expr}
    {returns returns' : List Parameter} {inner inner' : Block} (hcall : Alike call call')
    (hreturns : Alike returns returns') (hinner : Alike inner inner') :
    Echoes H unrestricted I k k (tryEnd d start call returns inner)
      (tryEnd d' start' call' returns' inner') := by
  have hclause : Rounds H unrestricted k (catchClause? d) (catchClause? d') := by
    refine rounds_if_nextIs ?_ hk.catchClause
    exact (echoes_catchClause hd).bind_if (fun _ _ h => echoes_pure (congrArg some h))
      fun _ _ _ _ _ _ h => h
  refine hclause.many_given.bind_if (fun clauses clauses' hclauses => ?_) fun _ _ _ _ _ _ h => h
  have hempty : clauses'.isEmpty = clauses.isEmpty := by
    have hmove (clauses : List CatchClause) :
        (respan (fun _ => Span.origin) clauses).isEmpty = clauses.isEmpty := isEmpty_respan clauses
    rw [← hmove clauses', hclauses, hmove]
  rw [hempty]
  refine echoes_ite (fun _ => echoes_spanFrom fun _ _ => echoes_violation _ _) fun _ => ?_
  exact echoes_spanFrom fun _ _ =>
    echoes_pure (by simp [Alike, hcall, hreturns, hinner, hclauses])

theorem echoes_tryStatement (hk : H.Closed k) :
    Echoes H unrestricted I (k + 1) k (tryStatement d) (tryStatement d') := by
  refine (echoes_keyword (k := k + 1) _).perhaps.bind fun start start' _ => ?_
  have hcall : Echoes H (fun _ _ t => fieldsAhead t.tokens = false) anywhere (k + 1) (k + 1)
      (structLiterals false d.expression) (structLiterals false d'.expression) :=
    (hd.expression _ Setting.calm_succ).perhaps.structLiterals (fun _ _ _ h => .inr (.inl h))
      fun h => absurd h (Nat.succ_ne_zero k)
  refine hcall.bind_leaving (fun call call' hcall => Echoes.at ?_) fun call c t y u hy hle _ => ?_
  · refine (echoes_returnParameters hd.toEchoed Setting.lacks_succ).bind fun returns returns' h => ?_
    refine (echoes_block hd).bind_if (fun inner inner' hinner => ?_) fun _ _ _ _ _ _ h => h
    exact echoes_tryEnd hd hk hcall h hinner
  · -- Named fields behind the call would have been taken for the body, which they are not.
    by_contra hahead
    rw [Bool.not_eq_false] at hahead
    have hbrace : t.tokens.head? = some (.symbol .leftBrace) := by
      by_contra hne
      rw [fieldsAhead_eq_false hne] at hahead
      simp at hahead
    have hreturns : returnParameters d c t = (.ok [], t) := by
      rw [returnParameters, bind_ok (accept_eq_false (by simp [hbrace]))]
      rfl
    rw [bind_ok hreturns] at hy
    obtain ⟨inner, v, hinner, hrest⟩ := bind_eq_ok hy
    have hend : tryEnd d start call [] inner c v = (.ok y, u) := hrest
    have hlt := size_lt_of_fieldsAhead hd hinner hahead
    have hecho : Echoes H unrestricted anywhere _ _ (tryEnd d start call [] inner)
        (tryEnd d' start call [] inner) := echoes_tryEnd hd hk rfl rfl rfl
    have hle' := hecho.onward.errors_size_le c v
    rw [hend] at hle'
    dsimp only at hle'
    omega

end

theorem closingBrace_of_append {depth n : Nat} {ts us : List Token}
    (h : closingBrace depth (ts ++ us) = some n) (hn : n ≤ ts.length) :
    closingBrace depth ts = some n := by
  induction ts generalizing depth n with
  | nil =>
    obtain rfl : n = 0 := by simpa using hn
    cases depth with
    | zero => rfl
    | succ depth =>
      cases us with
      | nil => simpa using h
      | cons u us =>
        obtain ⟨depth', -, hcount⟩ := closingBrace_cons depth 0 u
        rw [List.nil_append, hcount] at h
        simp at h
  | cons t ts ih =>
    cases depth with
    | zero => simpa [closingBrace] using h
    | succ depth =>
      obtain ⟨depth', -, hcount⟩ := closingBrace_cons depth 0 t
      rw [List.cons_append, hcount, Option.map_eq_some_iff] at h
      obtain ⟨m, hm, rfl⟩ := h
      rw [hcount, ih hm (by simpa using hn)]
      rfl

/-- An open brace is closed by at least one token. -/
theorem pos_of_closingBrace {depth n : Nat} {ts : List Token}
    (h : closingBrace (depth + 1) ts = some n) : 0 < n := by
  cases ts with
  | nil => simp [closingBrace] at h
  | cons t ts =>
    obtain ⟨depth', -, hcount⟩ := closingBrace_cons depth 0 t
    rw [hcount, Option.map_eq_some_iff] at h
    obtain ⟨m, -, rfl⟩ := h
    exact Nat.succ_pos m

/-- The brace that closes an assembly block of the passage closes it in the second text. -/
theorem echoes_closeBrace {P : Proviso Unit} :
    Echoes H P I (k + 1) k closeBrace closeBrace where
  onward := onward_closeBrace
  steps c s x t _ hx := by
    rcases hclosing : closingBrace 1 (s.rest.map Lexeme.token) with _ | n
    · rw [closeBrace_of_none hclosing] at hx
      simp at hx
    · rw [closeBrace_of_some hclosing] at hx
      obtain ⟨-, rfl⟩ := Prod.mk.inj hx
      have hpos := pos_of_closingBrace hclosing
      have hle := closingBrace_le hclosing
      rw [List.length_map] at hle
      simp only [List.length_drop]
      omega
  run {c c'} _ w s s' hs _ x t hx hk _ := by
    rcases hclosing : closingBrace 1 (s.rest.map Lexeme.token) with _ | n
    · rw [closeBrace_of_none hclosing] at hx
      simp at hx
    rw [closeBrace_of_some hclosing] at hx
    obtain ⟨-, rfl⟩ := Prod.mk.inj hx
    have hkept := hk.2
    have hlength := hs.length₁
    have hle := closingBrace_le hclosing
    rw [List.length_map] at hle
    simp only [List.length_drop] at hkept
    have hn : n ≤ w.length := by omega
    obtain ⟨w', hw', hrest⟩ := hs.rest₂
    have hlength' : w'.length = w.length := by simpa using congrArg List.length hw'
    have hclosing' : closingBrace 1 (s'.rest.map Lexeme.token) = some n := by
      rw [hs.rest₁, List.map_append] at hclosing
      rw [hrest, List.map_append, hw']
      exact closingBrace_append _ (closingBrace_of_append hclosing (by simpa using hn))
    refine ⟨(), _, w.drop n, closeBrace_of_some hclosing', rfl, ?_, ?_, ?_, hs.errors₁, hs.errors₂⟩
    · rw [List.map_drop]
      exact (List.drop_suffix n _).trans hs.suffix
    · rw [hs.rest₁, List.drop_append_of_le_length hn]
    · refine ⟨w'.drop n, by rw [List.map_drop, List.map_drop, hw'], ?_⟩
      rw [hrest, List.drop_append_of_le_length (by omega)]

theorem eq_of_alike_option {α : Type} [Placed α]
    (hα : ∀ x : α, respan (fun _ => Span.origin) x = x) {o o' : Option α} (h : Alike o o') :
    o' = o := by
  have hmove (o : Option α) : respan (fun _ => Span.origin) o = o := by
    cases o with
    | none => rfl
    | some x => exact congrArg some (hα x)
  rw [← hmove o', h, hmove]

theorem echoes_assemblyStatement :
    Echoes H always I (k + 1) k assemblyStatement assemblyStatement := by
  refine (echoes_keyword (k := k + 1) _).perhaps.bind fun start start' _ => ?_
  have hend (dialect : Option String) : Echoes H always anywhere (k + 1) k
      (symbol .leftBrace >>= fun opening => closeBrace >>= fun _ => spanFrom opening >>= fun inner =>
        spanFrom start >>= fun span => pure (Stmt.assembly dialect inner span))
      (symbol .leftBrace >>= fun opening => closeBrace >>= fun _ => spanFrom opening >>= fun inner =>
        spanFrom start' >>= fun span => pure (Stmt.assembly dialect inner span)) := by
    refine (echoes_symbol (k := k + 1) _).perhaps.bind fun opening opening' _ => ?_
    refine echoes_closeBrace.bind fun _ _ _ => ?_
    exact echoes_spanFrom fun _ _ => echoes_spanFrom fun _ _ => echoes_pure (by simp [Alike])
  have hdialect : Echoes H always anywhere (k + 1) (k + 1) (some <$> Prod.fst <$> stringText)
      (some <$> Prod.fst <$> stringText) := by
    refine Echoes.map (P := always) ?_ (fun _ _ h => congrArg some h) fun _ _ _ _ => trivial
    refine Echoes.map (P := always) echoes_stringText.perhaps (fun x x' h => ?_)
      fun _ _ _ _ => trivial
    exact (Prod.mk.inj h).1
  refine echoes_next fun next => ?_
  dsimp only
  split
  · refine hdialect.at.bind fun dialect dialect' h => ?_
    rw [eq_of_alike_option (fun _ => rfl) h]
    exact hend dialect
  · have hnone : Echoes H always anywhere (k + 1) (k + 1) (pure none : Parser (Option String))
        (pure none) := echoes_pure rfl
    refine hnone.at.bind fun dialect dialect' h => ?_
    rw [eq_of_alike_option (fun _ => rfl) h]
    exact hend dialect

/-! ### Statements -/

section

variable (hd : d.EchoedWhole H d')
include hd

theorem echoes_statement (hk : H.Closed k) :
    Echoes H unrestricted I (k + 1) k (statement d) (statement d') := by
  have hsimple {I : List Lexeme → Prop} :
      Echoes H unrestricted I (k + 1) k (simpleStatement d) (simpleStatement d') :=
    (echoes_simpleStatement hd.toEchoed hd.exclusive).lower (Nat.le_succ _)
  have hword {I : List Lexeme → Prop} (word : Keyword) {make : Span → Stmt}
      (hmake : ∀ span span', Alike (make span) (make span')) :
      Echoes H unrestricted I (k + 1) k (keywordStatement word make) (keywordStatement word make) :=
    ((echoes_keywordStatement word hmake).lower (Nat.le_succ _)).any
  refine echoes_next fun next => ?_
  split
  · exact (echoes_block hd).bind_if (fun b b' h => echoes_pure (by simp [Alike, h]))
      fun _ _ _ _ _ _ h => h
  · exact echoes_ifStatement hd hk
  · exact echoes_forStatement hd hk
  · exact echoes_whileStatement hd hk
  · exact echoes_doWhileStatement hd
  · exact hword _ fun _ _ => by simp [Alike]
  · exact hword _ fun _ _ => by simp [Alike]
  · exact hword _ fun _ _ => by simp [Alike]
  · exact echoes_returnStatement hd.toEchoed
  · exact (echoes_emitStatement hd.toEchoed).any
  · exact echoes_tryStatement hd hk
  · exact echoes_assemblyStatement.any
  · exact hsimple

end

/-! ### Beginnings -/

/-- A token that may begin an expression or a declaration begins no other statement. -/
theorem statement_eq_simpleStatement {c : Context} {s : State} {a : Token}
    (ha : s.tokens.head? = some a) (h : a.opensExpression ∨ mayDeclare a) :
    statement d c s = simpleStatement d c s := by
  rw [statement, next_bind, ha]
  cases a with
  | keyword k => cases k <;> first | rfl | exact absurd h (by decide)
  | symbol b => cases b <;> first | rfl | exact absurd h (by decide)
  | _ => rfl

/-- No declaration and no expression begins with a token that opens neither. -/
theorem simpleStatement_of_unopened {n : Nat} {c : Context} {s t : State} {x : Stmt} {a : Token}
    (ha : s.tokens.head? = some a) (hopens : a.opensExpression = false)
    (hdeclares : mayDeclare a = false) : simpleStatement (.ofDepth n) c s ≠ (.ok x, t) := by
  intro h
  have hvar : varTupleAhead s.tokens = false := by
    rw [varTupleAhead, ← List.head?_eq_getElem?, ha]
    cases a <;> first | rfl | simp [mayDeclare] at hdeclares
  rw [simpleStatement, bind_ok (sees_varTupleBegins c s), run_ite, hvar, if_neg Bool.false_ne_true,
    next_bind, run_ite, ha, if_neg (by simp [hdeclares])] at h
  obtain ⟨e, u, he, -⟩ := bind_eq_ok h
  obtain ⟨error, herror⟩ := Nested.expression_of_unopened hopens n c s ha
  exact absurd (he.symm.trans herror) (by simp)

/-! ### Names and colons -/

section

variable {c : Context} {s t : State} {e : Expr}

/-- A name and a colon, one by one. -/
theorem heads_of_labelAhead (h : labelAhead s.tokens) :
    ∃ name, s.tokens.head? = some (.identifier name)
      ∧ s.tokens[1]? = some (Token.symbol .colon)
      ∧ s.advance.tokens.head? = some (.symbol .colon) := by
  rw [labelAhead, Bool.and_eq_true, ← List.head?_eq_getElem?] at h
  obtain ⟨name, hname⟩ := Option.isSome_iff_exists.1 h.1
  obtain ⟨t, ht, hidentifier⟩ := Option.bind_eq_some_iff.1 hname
  have hcolon := beq_iff_eq.1 h.2
  refine ⟨name, ?_, hcolon, ?_⟩
  · cases t with
    | identifier w =>
      obtain rfl := Option.some.inj hidentifier
      exact ht
    | _ => simp [Token.identifier?] at hidentifier
  · rw [tokens_advance, ← List.drop_one, List.head?_drop, hcolon]

/-- Before a colon a name is an expression of its own. -/
theorem expression_of_labelAhead (hd : d.Echoed H d') (h : labelAhead s.tokens)
    (he : expression d c s = (.ok e, t)) : t = s.advance := by
  obtain ⟨name, hname, hone, hcolon⟩ := heads_of_labelAhead h
  have hended : Ended s.advance.tokens := by
    intro b hb
    rw [hcolon] at hb
    obtain rfl : Symbol.colon = b := by simpa using hb
    rfl
  obtain ⟨e₁, u, hunary, -, hsame⟩ := beyond_expression hd he
  have hsuffixed : suffixedExpr d c s = (.ok e₁, u) := by
    rw [unaryExpr, bind_ok (looks_here c s), next_bind, hname] at hunary
    simpa [UnaryOp.ofToken?, UnaryOp.all, UnaryOp.token, UpdateOp.ofToken?] using hunary
  obtain ⟨e₀, v₀, hprimary, hsuffixes⟩ := bind_eq_ok hsuffixed
  rw [primaryExpr, next_bind, hname] at hprimary
  change identifierExpr d name c s = _ at hprimary
  have hword : s.tokens.head?.bind Token.identifier? = some name := by rw [hname]; rfl
  obtain ⟨span, hidentifier⟩ := identifier_of_head (c := c) hword
  rw [identifierExpr, bind_ok (sees_peek 1 c s), run_ite, if_neg (by simp [hone]),
    bind_ok hidentifier] at hprimary
  obtain ⟨rfl, rfl⟩ := pure_eq_ok hprimary
  obtain ⟨-, rfl⟩ := Prod.mk.inj
    (hsuffixes.symm.trans (iterateOver_of_idle (suffix?_of_ended hended) s.advance.rest))
  exact (hsame hended).2

theorem typeName_of_labelAhead (h : labelAhead s.tokens) : Lags s.advance (typeName d c s) := by
  obtain ⟨name, hname, -, hcolon⟩ := heads_of_labelAhead h
  obtain ⟨T, hT⟩ := typeName_of_path (d := d) (c := c) hname
    (manyOver_of_idle (by rw [pathSegment?_eq, pathAhead_eq_false (by simp [hcolon])]; rfl) _)
  rw [hT]
  exact lags_of_no_bracket hcolon (by decide) le_rfl

end

end Grammar

namespace Nested

open Grammar

variable {H : Setting} {d d' : Nested} {c : Context} {s t : State}

theorem exclusive_ofDepth (n : Nat) : (ofDepth n).Exclusive :=
  fun hc h hnameless => halts_declarator n hc h (.inl hnameless)

/-- A name and a colon are no statement. -/
theorem fieldless_ofDepth : ∀ (n : Nat) {c : Context} {s t : State} {x : Stmt},
    (ofDepth n).statement c s = (.ok x, t) → ¬labelAhead s.tokens
  | 0, _, _, _, _, h, _ => tooDeep_ne_ok h
  | n + 1, c, s, t, x, h, hlabel => by
    obtain ⟨name, hname, -, hcolon⟩ := heads_of_labelAhead hlabel
    have hdeclarator : Halts s.advance (declarator (ofDepth n) c s) := by
      rw [declarator, bind_ok (sees_nextIs _ c s), run_ite, if_neg (by simp [hname])]
      refine (halts_variableDeclaration (d := ofDepth n) ?_).bind
      cases n with
      | zero => exact lags_of_error ⟨_, rfl⟩ (length_advance_le s)
      | succ n => exact typeName_of_labelAhead hlabel
    have hexpression {y : Stmt} {u : State} :
        expressionStatement (ofDepth n) c s ≠ (.ok y, u) := by
      intro hy
      obtain ⟨e, v, he, hrest⟩ := bind_eq_ok hy
      have hsemicolon := head_of_symbol hrest
      cases n with
      | zero => exact tooDeep_ne_ok he
      | succ n =>
        rw [expression_ofDepth] at he
        rw [expression_of_labelAhead (echoed_ofDepth (H := .alone s) le_rfl) hlabel he,
          hcolon] at hsemicolon
        simp at hsemicolon
    have hstatement : simpleStatement (ofDepth n) c s = (.ok x, t) := by
      rw [statement_ofDepth, Grammar.statement, next_bind, hname] at h
      exact h
    have hahead : varTupleAhead s.tokens = false := by
      rw [varTupleAhead, ← List.head?_eq_getElem?, hname]
      rfl
    rw [simpleStatement, bind_ok (sees_varTupleBegins c s), run_ite, hahead,
      if_neg Bool.false_ne_true, next_bind, hname] at hstatement
    change declarationOrExpression (ofDepth n) c s = _ at hstatement
    rw [declarationOrExpression, bind_ok (looks_here c s)] at hstatement
    obtain ⟨y, u, heither, -⟩ := bind_eq_ok hstatement
    obtain ⟨error, v, hv, -⟩ := hdeclarator
    have hfirst : (Sum.inl <$> declarator (ofDepth n) : Parser (Declarator ⊕ Stmt)) c s
        = (.error error, v) := bind_error hv
    rw [either_eq, hfirst] at heither
    rcases hsecond : (Sum.inr <$> expressionStatement (ofDepth n) : Parser (Declarator ⊕ Stmt)) c s
      with ⟨error' | z, w⟩ <;> rw [hsecond] at heither
    · dsimp only at heither
      split at heither <;> simp at heither
    · obtain ⟨z', w', hz', -⟩ := bind_eq_ok hsecond
      exact hexpression hz'

theorem EchoedWhole.above (hd : d.EchoedWhole H d') (hexclusive : d'.above.Exclusive)
    (hfieldless : ∀ {c s x t}, d.above.statement c s = (.ok x, t) → ¬labelAhead s.tokens) :
    d.above.EchoedWhole H d'.above where
  toEchoed := hd.toEchoed.above
  statement _ hk := echoes_statement hd hk
  exclusive := hexclusive
  fieldless := hfieldless

/-- What may nest deeper echoes what may nest less, statements included. -/
theorem echoedWhole_ofDepth : ∀ {m n : Nat}, m ≤ n → (ofDepth m).EchoedWhole H (ofDepth n)
  | 0, n, _ => ⟨echoed_none, fun _ _ => echoes_tooDeep, exclusive_ofDepth n, fieldless_ofDepth 0⟩
  | _ + 1, 0, h => absurd h (by simp)
  | m + 1, n + 1, h =>
    (echoedWhole_ofDepth (Nat.le_of_succ_le_succ h)).above (exclusive_ofDepth (n + 1))
      (fieldless_ofDepth (m + 1))

theorem echoedWhole_full : full.EchoedWhole H full := echoedWhole_ofDepth le_rfl

end Nested

end SolidityFrontend
