import SolidityFrontend.Proofs.Deciding
import SolidityFrontend.Proofs.Indifferent
import SolidityFrontend.Proofs.ReadingBackType

/-!
# Expressions in brackets behind `try`

A brace behind the call of a `try` opens the body, so named fields are not read there unless they are
the options of a call. In parentheses and brackets inside the call they are read as everywhere: what
is an expression by itself is the same expression there (`try_brackets`). The brackets of an array type
behind `new` are an exception: they are read as what stands outside them. So a size is the same
expression if there is no brace in it, but with named fields at its end it is not read
(`try_size_without_fields`).
-/

namespace SolidityFrontend

open SolidityFrontend.Parser SolidityFrontend.Grammar SolidityFrontend.Session

/-! ### Before a block -/

/-- Tokens that begin with a brace that opens no named fields. -/
def OpensBlock (k : List Token) : Prop :=
  k.head? = some (.symbol .leftBrace) ∧ fieldsAhead k = false

namespace Grammar

variable {c : Context} {d : Nested} {ts us k : List Token} {P : Expr → Prop} {e x : Expr} {s : State}

theorem head_ne_of_opensBlock (h : OpensBlock k) {b : Symbol} (hb : b ≠ .leftBrace) :
    k.head? ≠ some (.symbol b) := by
  rw [h.1]
  simpa using hb.symm

theorem suffix?_of_opensBlock (h : OpensBlock s.tokens) : suffix? d e c s = (.ok none, s) := by
  have hfields : fieldsBegin c s = (.ok false, s) := by
    rw [sees_fieldsBegin c s, h.2]
  rw [suffix?, bind_ok (sees_next c s), h.1]
  exact bind_ok hfields

theorem operatorStep_of_opensBlock {ops : List BinaryOp} {operand : Parser Expr}
    (h : OpensBlock s.tokens) : operatorStep ops operand e c s = (.ok none, s) := by
  have hnone : BinaryOp.ofToken? ops (.symbol .leftBrace) = none := by
    refine Option.eq_none_iff_forall_not_mem.2 fun op hop => ?_
    obtain ⟨hop, -⟩ := BinaryOp.ofToken?_eq_some hop
    cases op <;> simp [BinaryOp.symbol] at hop
  rw [operatorStep, bind_ok (sees_next c s), h.1, Option.bind_some, hnone]
  rfl

/-- What an operand and the suffixes behind it come to is the whole expression before a block. -/
theorem accepts_expression_of_opensBlock (hk : OpensBlock k) {a : Token} (hts : ts.head? = some a)
    (ha : UnaryOp.ofToken? a = none ∧ UpdateOp.ofToken? a = none)
    (h : Grows c (primaryExpr d) (suffix? d) ts k P) : Accepts c (expression d) ts k P := by
  obtain ⟨us, rfl⟩ := List.head?_eq_some_iff.1 hts
  have hunary : Accepts c (unaryExpr d) (a :: us) k P := by
    refine accepts_unaryExpr ha.1 ha.2 ?_
    rw [suffixedExpr_eq]
    exact h.accepts fun x s hs => suffix?_of_opensBlock (hs ▸ hk)
  have hpower : Accepts c (powerExpr d) (a :: us) k P :=
    hunary.bind_last fun _ hx => accepts_without (head_ne_of_opensBlock hk (by decide)) (accepts_pure hx)
  have hbinary : ∀ tiers, Accepts c (binaryExpr d tiers) (a :: us) k P := by
    intro tiers
    induction tiers with
    | nil => exact hpower
    | cons ops tiers ih =>
      rw [binaryExpr, leftAssociative_eq]
      exact ih.grows.accepts fun x s hs => operatorStep_of_opensBlock (hs ▸ hk)
  have hconditional : Accepts c (conditionalExpr d) (a :: us) k P :=
    accepts_conditionalExpr (head_ne_of_opensBlock hk (by decide)) (hbinary _)
  have hnone : AssignOp.ofToken? (.symbol .leftBrace) = none := by decide
  refine hconditional.bind_last fun x hx => sees_next.accepts ?_
  rw [List.nil_append, hk.1, Option.bind_some, hnone]
  exact accepts_pure hx

/-! ### Brackets around an expression -/

/-- The one item before a closing symbol. -/
theorem accepts_itemsUntil_one {α : Type} [Placed α] {close : Symbol} {continues : Parser Bool}
    {item : Parser α} {x : α} (hhead : ts.head? ≠ some (.symbol close)) (hne : ts ≠ [])
    (hitem : Accepts c item ts (.symbol close :: k) (Alike x))
    (hcontinues : ∃ b, Accepts c continues [] (.symbol close :: k) (· = b)) :
    Accepts c (itemsUntil close continues item) ts (.symbol close :: k) (Alike [x]) := by
  obtain ⟨b, hb⟩ := hcontinues
  have hstop : ∀ clock, Accepts c (itemsOver close continues item clock) [] (.symbol close :: k)
      (· = []) := by
    rintro (_ | ⟨l, clock⟩)
    · exact accepts_pure rfl
    · exact sees_atEnd.accepts (accepts_nextIs rfl (accepts_pure rfl))
  have hover (l : Lexeme) (clock : List Lexeme) :
      Accepts c (itemsOver close continues item (l :: clock)) ts (.symbol close :: k)
        (Alike [x]) := by
    have hempty : (ts ++ .symbol close :: k).isEmpty = false := by simp
    refine sees_atEnd.accepts ?_
    rw [hempty, if_neg (by decide)]
    refine accepts_nextIs_ne (by rwa [List.head?_append_of_ne_nil _ hne]) ?_
    refine hitem.bind_last fun x' hx => hb.bind_nil fun b' _ => ?_
    cases b' with
    | true =>
      refine (hstop clock).bind_nil fun xs hxs => accepts_pure ?_
      rw [hxs]
      exact congrArg (fun y => [y]) hx
    | false => exact accepts_pure (congrArg (fun y => [y]) hx)
  intro s hs
  obtain ⟨l, clock, hrest⟩ : ∃ l clock, s.rest = l :: clock := by
    refine List.exists_cons_of_ne_nil ?_
    rintro hnil
    simp [State.tokens, hnil] at hs
  rw [itemsUntil, state_bind, hrest]
  exact hover l clock s hs

/-- The tokens are the expression before each symbol that closes what they stand in. -/
def Closed (d : Nested) (ts : List Token) (e : Expr) : Prop :=
  ReadBefore d.expression (fun o => ∃ b, isClosing b ∧ o = some (.symbol b)) ts e

theorem Closed.accepts (h : Closed d ts e) (hc : c.structLiterals = true) {b : Symbol}
    (hb : isClosing b) : Accepts c d.expression ts (.symbol b :: k) (Alike e) :=
  h c _ hc ⟨b, hb, rfl⟩

theorem Closed.inside (h : Closed d ts e) {b : Symbol} (hb : isClosing b) :
    Accepts c (inside d) ts (.symbol b :: k) (Alike e) :=
  Accepts.structLiterals (h.accepts rfl hb)

/-- No comma stands before a closing symbol. -/
theorem accepts_noComma {b : Symbol} (hb : isClosing b) :
    Accepts c (accept (.symbol .comma)) [] (.symbol b :: k) (· = false) := by
  refine fun s hs => ⟨false, s, accept_eq_false ?_, rfl, hs, rfl⟩
  rw [hs]
  rintro heq
  obtain rfl : b = .comma := by simpa using heq
  exact absurd hb (by decide)

theorem accepts_inlineArray (hts : BeginsExpr ts) (h : Closed d ts e) :
    Accepts c (primaryExpr d) (.symbol .leftBracket :: (ts ++ [Token.symbol .rightBracket])) k
      (Alike (.inlineArray [e] .origin)) := by
  have hitems := accepts_itemsUntil_one (c := c) (k := k) (hts.2 .rightBracket (by decide)) hts.1
    (h.inside rfl) ⟨false, accepts_noComma rfl⟩
  refine sees_next.accepts (accepts_symbol fun start => Accepts.bind hitems fun es hes => ?_)
  refine accepts_symbol fun _ => accepts_spanFrom fun span => accepts_pure ?_
  simp [Alike, hes]

theorem accepts_conversion (h : Closed d ts e) {w : String} {kind : ElementaryType}
    (hw : ElementaryType.ofWord? w = some kind) :
    Accepts c (primaryExpr d)
      (.elementaryType w :: .symbol .leftParen :: (ts ++ [Token.symbol .rightParen])) k
      (Alike (.cast ⟨kind, .origin⟩ e .origin)) := by
  have htype : Accepts c (elementaryTypeName false) [.elementaryType w]
      (Token.symbol .leftParen :: (ts ++ [Token.symbol .rightParen]) ++ k)
      (Alike (⟨kind, .origin⟩ : ElementaryTypeName)) := by
    refine looks_here.accepts fun start => sees_next.accepts ?_
    simp only [List.cons_append, List.head?_cons, hw]
    refine accepts_advance ?_
    rw [if_neg (by simp)]
    exact accepts_spanFrom fun span => accepts_pure rfl
  have hexpr : Accepts c (elementaryExpr d)
      (.elementaryType w :: .symbol .leftParen :: (ts ++ [Token.symbol .rightParen])) k
      (Alike (.cast ⟨kind, .origin⟩ e .origin)) := by
    refine htype.bind_cons fun type htype => accepts_accept ?_
    refine Accepts.bind (h.inside rfl) fun x hx => accepts_symbol fun _ => ?_
    refine accepts_spanFrom fun span => accepts_pure ?_
    simp [Alike, htype, hx]
  exact sees_next.accepts hexpr

/-- An argument by position. -/
theorem accepts_argument (hts : BeginsExpr ts) (h : Closed d ts e) {callee f : Expr}
    (hf : Alike callee f) :
    Accepts c (suffix? d f) (.symbol .leftParen :: (ts ++ [Token.symbol .rightParen])) k
      fun o => ∃ y, o = some y ∧ Alike (.call callee (.positional [e] .origin) .origin) y := by
  have hitems := accepts_itemsUntil_one (c := c) (k := k) (hts.2 .rightParen (by decide)) hts.1
    (h.inside rfl) ⟨true, accepts_argumentsContinue_end⟩
  have harguments : Accepts c (callArguments d)
      (.symbol .leftParen :: (ts ++ [Token.symbol .rightParen])) k
      (Alike (Arguments.positional [e] .origin)) := by
    refine accepts_symbol fun start => accepts_nextIs_ne ?_ (Accepts.bind hitems fun es hes => ?_)
    · rw [List.append_assoc]
      exact hts.head_ne (by decide)
    · refine accepts_symbol fun _ => accepts_spanFrom fun span => accepts_pure ?_
      simp [Alike, hes]
  refine sees_next.accepts (harguments.bind_last fun as has => ?_)
  refine accepts_spanFrom fun span => accepts_pure ⟨_, rfl, ?_⟩
  simp [Alike, hf, has]

/-- A call without arguments. -/
theorem accepts_noArguments {callee f : Expr} (hf : Alike callee f) :
    Accepts c (suffix? d f) [.symbol .leftParen, .symbol .rightParen] k
      fun o => ∃ y, o = some y ∧ Alike (.call callee (.positional [] .origin) .origin) y := by
  have hcall : Accepts c (suffix? d f) (inParens (exprTokens [])) k fun o =>
      ∃ y, o = some y ∧ (Expr.call callee (.positional [] .origin) .origin).Same y :=
    accepts_call hf (by simp)
  exact hcall

/-- An option for a call, wherever it stands. -/
theorem accepts_option (h : Closed d ts e) {callee f : Expr} (hf : Alike callee f) {key : String}
    (hk : k.head? = some (.symbol .leftParen)) :
    Accepts c (suffix? d f)
      (.symbol .leftBrace :: .identifier key :: .symbol .colon
        :: (ts ++ [Token.symbol .rightBrace])) k
      fun o => ∃ y, o = some y
        ∧ Alike (.struct callee [⟨⟨key, .origin⟩, e, .origin⟩] .origin) y := by
  have hargument : Accepts { c with structLiterals := true } (namedArgument d)
      (.identifier key :: .symbol .colon :: ts) (.symbol .rightBrace :: k)
      (Alike (⟨⟨key, .origin⟩, e, .origin⟩ : NamedArgument)) := by
    refine accepts_identifier fun i hi => accepts_symbol fun _ => ?_
    refine (h.accepts rfl rfl).bind_last fun x hx => accepts_spanFrom fun span => accepts_pure ?_
    have hi' : respan (fun _ => Span.origin) i = ⟨key, .origin⟩ := by rw [← hi]; rfl
    simp [Alike, hi', hx]
  have hitems : Accepts { c with structLiterals := true } (commaItems .rightBrace (namedArgument d))
      (.identifier key :: .symbol .colon :: ts) (.symbol .rightBrace :: k)
      (Alike [(⟨⟨key, .origin⟩, e, .origin⟩ : NamedArgument)]) :=
    accepts_itemsUntil_one (by simp) (by simp) hargument ⟨false, accepts_noComma rfl⟩
  have hfields : Accepts c (namedArguments d)
      (.symbol .leftBrace :: .identifier key :: .symbol .colon
        :: (ts ++ [Token.symbol .rightBrace])) k
      (Alike [(⟨⟨key, .origin⟩, e, .origin⟩ : NamedArgument)]) := by
    refine Accepts.structLiterals (accepts_symbol fun _ => ?_)
    exact Accepts.bind hitems fun as has => accepts_symbol fun _ => accepts_pure has
  have hread : Accepts c (structFields? d f)
      (.symbol .leftBrace :: .identifier key :: .symbol .colon
        :: (ts ++ [Token.symbol .rightBrace])) k
      fun o => ∃ y, o = some y
        ∧ Alike (.struct callee [⟨⟨key, .origin⟩, e, .origin⟩] .origin) y := by
    refine looks_state.accepts fun before => hfields.bind_last fun as has => ?_
    refine looks_context.accepts fun context => (sees_nextIs _).accepts ?_
    rw [if_pos (by simp [hk])]
    refine accepts_spanFrom fun span => accepts_pure ⟨_, rfl, ?_⟩
    simp [Alike, hf, has]
  refine sees_next.accepts (sees_fieldsBegin.accepts ?_)
  rw [if_pos (by simp [fieldsAhead, Token.identifier?])]
  exact hread

/-- Before a symbol that closes what it stands in, an expression without braces is the same whether
named fields are allowed or not. -/
theorem Closed.accepts_of_braceless (h : Closed d ts e) (hd : d.Indifferent)
    (hts : .symbol .leftBrace ∉ ts) {b : Symbol} (hb : isClosing b) :
    Accepts c d.expression ts (.symbol b :: k) (Alike e) := by
  intro s hs
  obtain ⟨x, t, hx, halike, ht, herrors⟩ := h.accepts (c := c.allow true) rfl hb s hs
  have hrun := hd.expression.run (c := c.allow true) c.structLiterals hx
  refine ⟨x, t, hrun fun _ rest hrest ht' => ?_, halike, ht, herrors⟩
  obtain ⟨before, hbefore⟩ := hrest
  obtain ⟨between, rfl⟩ := ht'
  have htokens : ts ++ .symbol b :: k = before.map Lexeme.token
      ++ (between.map Lexeme.token ++ .symbol b :: k) := by
    rw [← hs, State.tokens, ← hbefore, List.map_append, List.map_append]
    exact congrArg (fun us => _ ++ (_ ++ us)) ht
  rw [← List.append_assoc] at htokens
  rw [← List.head?_map, List.map_append]
  change (between.map Lexeme.token ++ t.tokens).head? ≠ _
  rw [ht]
  rcases between with _ | ⟨l, between⟩
  · rintro heq
    obtain rfl : b = .leftBrace := by simpa using heq
    exact absurd hb (by decide)
  · rintro heq
    refine hts ?_
    rw [List.append_cancel_right htokens]
    simp_all

/-- A new array whose size has no brace. -/
theorem accepts_newArray (hts : BeginsExpr ts) (h : Closed d ts e) (hd : d.Indifferent)
    (hbrace : .symbol .leftBrace ∉ ts) (name : String) (hk : k.head? ≠ some (.symbol .leftBracket)) :
    Accepts c (primaryExpr d.above) (.keyword .new :: .identifier name
      :: .symbol .leftBracket :: (ts ++ [Token.symbol .rightBracket])) k
      (Alike (.new (.array (.userDefined ⟨[⟨name, .origin⟩], .origin⟩) (some e) .origin) .origin)) := by
  let T : TypeName := .userDefined ⟨[⟨name, .origin⟩], .origin⟩
  have hbase : Accepts c (baseType d) [.identifier name]
      (Token.symbol .leftBracket :: (ts ++ [Token.symbol .rightBracket]) ++ k) (Alike T) := by
    refine sees_next.accepts ((accepts_path (p := ⟨[⟨name, .origin⟩], .origin⟩) (by simp)
      (by simp)).bind_last fun x hx => accepts_pure ?_)
    simpa [T, Alike, erase] using hx
  have hsize (T' : TypeName) (hT' : Alike T T') : Accepts c (arraySuffix? d T')
      (.symbol .leftBracket :: (ts ++ [Token.symbol .rightBracket])) k
      fun o => ∃ U, o = some U ∧ Alike (.array T (some e) .origin) U := by
    refine accepts_accept (accepts_nextIs_ne ?_ ?_)
    · rw [List.append_assoc]
      exact hts.head_ne (by decide)
    · refine Accepts.bind ((h.accepts_of_braceless hd hbrace rfl).bind_last (Q := Alike (some e))
        fun x hx => accepts_pure (congrArg some hx)) fun size hsize => ?_
      refine accepts_symbol fun _ => accepts_spanFrom fun _ => accepts_pure ⟨_, rfl, ?_⟩
      simp [Alike, hT', hsize]
  have htype : Accepts c (typeName d) (.identifier name
      :: .symbol .leftBracket :: (ts ++ [Token.symbol .rightBracket])) k
      (Alike (.array T (some e) .origin)) := by
    refine (hbase.grows.step (by simp) hsize).accepts fun U s hs => ?_
    rw [arraySuffix?, bind_ok (accept_eq_false (by rw [hs]; exact hk))]
    rfl
  refine sees_next.accepts (accepts_keyword.bind_cons fun start _ => htype.bind_last fun U hU => ?_)
  refine accepts_spanFrom fun span => accepts_pure ?_
  simp [Alike, T, hU]

/-! ### The statement -/

theorem accepts_emptyBlock {n : Nested} :
    Accepts c (block n) [.symbol .leftBrace, .symbol .rightBrace] k (Alike ⟨[], .origin⟩) := by
  have hbody : Accepts c (body Stmt.error n.statement) [.symbol .rightBrace] k (· = []) := by
    have hparts (clock : List Lexeme) : Accepts c
        (partsOver (recovering Stmt.error n.statement) clock) [] (.symbol .rightBrace :: k) (· = []) := by
      rcases clock with _ | ⟨l, clock⟩
      · exact accepts_pure rfl
      · exact sees_atEnd.accepts (accepts_nextIs rfl (accepts_pure rfl))
    refine looks_state.accepts fun s => (hparts s.rest).bind_nil fun parts hnil => ?_
    exact sees_atEnd.accepts (accepts_symbol fun _ => accepts_pure hnil)
  refine accepts_symbol fun start => hbody.bind_last fun statements hnil => ?_
  refine accepts_spanFrom fun span => accepts_pure ?_
  rw [hnil]
  rfl

/-- An empty body and an empty clause behind the call. -/
theorem accepts_tryStatement {n : Nested} {call : Expr} (hk : k.head? ≠ some (.keyword .catch_))
    (h : ∀ us, Accepts { c with structLiterals := false } n.expression ts
      (.symbol .leftBrace :: .symbol .rightBrace :: us) (Alike call)) :
    Accepts c (tryStatement n) (.keyword .try_ :: (ts ++ [Token.symbol .leftBrace,
      .symbol .rightBrace, .keyword .catch_, .symbol .leftBrace, .symbol .rightBrace])) k
      (Alike (.tryCatch call [] ⟨[], .origin⟩ [⟨none, none, ⟨[], .origin⟩, .origin⟩] .origin)) := by
  have hclause : Accepts c (catchClause n)
      [.keyword .catch_, .symbol .leftBrace, .symbol .rightBrace] k
      (Alike (⟨none, none, ⟨[], .origin⟩, .origin⟩ : CatchClause)) := by
    refine accepts_keyword.bind_cons fun start _ => ?_
    have hname : Accepts c identifier? [] (.symbol .leftBrace :: .symbol .rightBrace :: k)
        (· = none) := sees_nextWord.accepts (accepts_pure rfl)
    refine hname.bind_nil fun name hname => ?_
    refine accepts_nextIs_ne (by simp) (accepts_emptyBlock.bind_last fun inner hinner => ?_)
    refine accepts_spanFrom fun span => accepts_pure ?_
    simp [Alike, hname, hinner]
  let clause : CatchClause := ⟨none, none, ⟨[], .origin⟩, .origin⟩
  have hclauses : Accepts c (many do
        if ← nextIs (.keyword .catch_) then return some (← catchClause n) else return none)
      ([clause].flatMap fun _ => [.keyword .catch_, .symbol .leftBrace, .symbol .rightBrace]) k
      (Alike [clause]) := by
    refine accepts_rounds (fun s hs => ?_) [clause] fun x rest hx => ?_
    · rw [bind_ok (sees_nextIs _ c s), hs, run_ite, if_neg (by simpa using hk)]
      rfl
    · obtain rfl : rest = [] := List.eq_nil_of_length_eq_zero (Nat.le_zero.1
        (Nat.le_of_succ_le_succ hx.length_le))
      obtain rfl : x = clause := by simpa using hx.eq_of_length rfl
      exact ⟨by simp, accepts_nextIs rfl (hclause.bind_last fun y hy => accepts_pure ⟨y, rfl, hy⟩)⟩
  refine accepts_keyword.bind_cons fun start _ => ?_
  refine Accepts.bind (Accepts.structLiterals (h _)) fun call' hcall => ?_
  refine Accepts.bind_nil (P := (· = [])) (accepts_without (by simp) (accepts_pure rfl)) fun ps hps => ?_
  change Accepts c _ ([Token.symbol .leftBrace, .symbol .rightBrace] ++ [Token.keyword .catch_,
    .symbol .leftBrace, .symbol .rightBrace]) k _
  refine accepts_emptyBlock.bind fun inner hinner => hclauses.bind_last fun clauses hclauses => ?_
  have hsome : clauses.isEmpty = false := by
    have hempty := congrArg List.isEmpty hclauses
    simpa using hempty
  rw [if_neg (by simp [hsome])]
  refine accepts_spanFrom fun span => accepts_pure ?_
  simp [Alike, hcall, hps, hinner, hclauses, clause]

end Grammar

/-! ### The beginning of an expression -/

section

variable {c : Context} {d : Nested} {s t : State} {e : Expr}

/-- An expression begins with one of the operands with operators in front. -/
theorem exists_unaryExpr (h : expression d c s = (.ok e, t)) :
    ∃ e₀ u, unaryExpr d c s = (.ok e₀, u) := by
  have hbinary : ∀ tiers {e t}, binaryExpr d tiers c s = (.ok e, t) →
      ∃ e₀ u, unaryExpr d c s = (.ok e₀, u) := by
    intro tiers
    induction tiers with
    | nil =>
      intro e t h
      obtain ⟨e₀, u, hunary, -⟩ := bind_eq_ok h
      exact ⟨e₀, u, hunary⟩
    | cons ops tiers ih =>
      intro e t h
      obtain ⟨e₀, u, hoperand, -⟩ := bind_eq_ok h
      exact ih hoperand
  rw [Grammar.expression] at h
  obtain ⟨e₁, u, hconditional, -⟩ := bind_eq_ok h
  rw [conditionalExpr] at hconditional
  obtain ⟨e₂, v, hcondition, -⟩ := bind_eq_ok hconditional
  exact hbinary _ hcondition

theorem beginsExpr_of_expression (h : expression d c s = (.ok e, t)) : BeginsExpr s.tokens := by
  obtain ⟨e₀, u, hunary⟩ := exists_unaryExpr h
  rw [unaryExpr, bind_ok (looks_here c s), next_bind] at hunary
  have hprimary {e : Expr} {t : State} (h : suffixedExpr d c s = (.ok e, t)) :
      ∃ e₀ u, primaryExpr d c s = (.ok e₀, u) := by
    obtain ⟨e₀, u, hprimary, -⟩ := bind_eq_ok h
    exact ⟨e₀, u, hprimary⟩
  constructor
  · rintro hnil
    rw [hnil] at hunary
    obtain ⟨e₁, v, hv⟩ := hprimary hunary
    rw [primaryExpr, next_bind, hnil] at hv
    exact unexpected_ne_ok _ c s e₁ v hv
  · intro b hb hhead
    rw [hhead] at hunary
    simp only [List.mem_cons, List.not_mem_nil, or_false] at hb
    have hsuffixed : suffixedExpr d c s = (.ok e₀, u) := by
      rcases hb with rfl | rfl | rfl | rfl | rfl <;> exact hunary
    obtain ⟨e₁, v, hv⟩ := hprimary hsuffixed
    rw [primaryExpr, next_bind, hhead] at hv
    rcases hb with rfl | rfl | rfl | rfl | rfl <;> exact unexpected_ne_ok _ c s e₁ v hv

end

theorem IsExpression.beginsExpr {n : Nat} {X : String} {e : Expr} (h : IsExpression n X e) :
    BeginsExpr (tokensOf X) := by
  obtain ⟨next, hrun⟩ : ∃ next, (ofSource X).run (whole Nested.full.expression) = (.ok e, next) :=
    exists_run_eq_ok h.read
  obtain ⟨hread, -, -⟩ := run_whole_eq_ok hrun
  have hfull : Nested.full = .above (.ofDepth 127) := rfl
  rw [hfull, Nested.above] at hread
  dsimp only at hread
  have hbegins : BeginsExpr (ofSource X).state.tokens := beginsExpr_of_expression hread
  exact hbegins

/-! ### Brackets -/

/-- A text that is one name. -/
structure Name where
  text : String
  reads : tokensOf text = [.identifier text]

/-- The name where it does not matter where it stands. -/
def Name.identifier (name : Name) : Identifier := ⟨name.text, .origin⟩

/-- Brackets around an expression, with what stands before them. Before the parenthesis of a call two
names are no functions but conversions. -/
inductive Brackets where
  | parentheses
  | array
  | index (base : Name)
  | argument (callee : Name) (hpayable : callee.text ≠ "payable") (htype : callee.text ≠ "type")
  | conversion
  | option (callee key : Name)
  | size (element : Name) {N : String} {n : Expr} (argument : IsExpression 120 N n)

namespace Brackets

/-- What stands before the expression. -/
def before : Brackets → List String
  | parentheses => ["("]
  | array => ["["]
  | index base => [base.text, "["]
  | argument callee _ _ => [callee.text, "("]
  | conversion => ["uint", "("]
  | option callee key => [callee.text, "\x7b", key.text, ":"]
  | size element _ => ["new", element.text, "["]

/-- What stands behind the expression. -/
def behind : Brackets → List String
  | parentheses | argument .. | conversion => [")"]
  | array | index _ => ["]"]
  | option .. => ["\x7d", "(", ")"]
  | @size _ N _ _ => ["]", "(", N, ")"]

/-- The expression with the brackets around it. -/
def around (e : Expr) : Brackets → Expr
  | parentheses => .parenthesized e .origin
  | array => .inlineArray [e] .origin
  | index base => .index (.identifier base.identifier) (some e) .origin
  | argument callee _ _ => .call (.identifier callee.identifier) (.positional [e] .origin) .origin
  | conversion => .cast ⟨.uint 256, .origin⟩ e .origin
  | option callee key =>
    .call (.struct (.identifier callee.identifier) [⟨key.identifier, e, .origin⟩] .origin)
      (.positional [] .origin) .origin
  | @size element _ n _ =>
    .call (.new (.array (.userDefined ⟨[element.identifier], .origin⟩) (some e) .origin) .origin)
      (.positional [n] .origin) .origin

/-- Whether the brackets hold the size of a new array. -/
def isSize : Brackets → Bool
  | size .. => true
  | _ => false

end Brackets

/-- A call, with an empty body and an empty clause behind it. -/
def tryLines (call : List String) : List String :=
  "try" :: (call ++ ["\x7b", "\x7d", "catch", "\x7b", "\x7d"])

theorem tokensOf_marks : tokensOf "(" = [.symbol .leftParen] ∧ tokensOf ")" = [.symbol .rightParen]
    ∧ tokensOf "[" = [.symbol .leftBracket] ∧ tokensOf "]" = [.symbol .rightBracket]
    ∧ tokensOf "\x7b" = [.symbol .leftBrace] ∧ tokensOf "\x7d" = [.symbol .rightBrace]
    ∧ tokensOf ":" = [.symbol .colon] ∧ tokensOf "uint" = [.elementaryType "uint"]
    ∧ tokensOf "try" = [.keyword .try_] ∧ tokensOf "catch" = [.keyword .catch_]
    ∧ tokensOf "new" = [.keyword .new] := by
  refine ⟨tokensOf_symbol .leftParen, tokensOf_symbol .rightParen, tokensOf_symbol .leftBracket,
    tokensOf_symbol .rightBracket, tokensOf_symbol .leftBrace, tokensOf_symbol .rightBrace,
    tokensOf_symbol .colon, ?_⟩
  rw [tokensOf_ofList, tokensOf_ofList, tokensOf_ofList, tokensOf_ofList]
  decide

theorem tokenize_marks :
    ∀ mark ∈ ["(", ")", "[", "]", "\x7b", "\x7d", ":", "uint", "try", "catch", "new"],
    (tokenize mark).errors = [] := by
  intro mark hmark
  rw [tokenize_errors_eq_nil_iff]
  simp only [List.mem_cons, List.not_mem_nil, or_false] at hmark
  rcases hmark with rfl | rfl | rfl | rfl | rfl | rfl | rfl | rfl | rfl | rfl | rfl
  all_goals simp [tokensOf_marks]

namespace Brackets

theorem faultless (b : Brackets) {X : String} (hX : (tokenize X).errors = []) :
    ∀ text ∈ tryLines (b.before ++ X :: b.behind), (tokenize text).errors = [] := by
  have hmark := tokenize_marks
  have hname (name : Name) : (tokenize name.text).errors = [] := faultless_of_word name.reads
  simp only [List.forall_mem_cons] at hmark
  cases b
  case size element N n h => simp [tryLines, before, behind, hmark, hname, hX, h.faultless]
  all_goals simp [tryLines, before, behind, hmark, hname, hX]

/-- The tokens before and behind the expression. -/
def tokens (b : Brackets) (ts : List Token) : List Token :=
  b.before.flatMap tokensOf ++ (ts ++ b.behind.flatMap tokensOf)

theorem accepts_name {c : Context} {d : Nested} {k : List Token} {name : Name}
    (h : k.head? = some (.symbol .leftParen) → name.text ≠ "payable" ∧ name.text ≠ "type") :
    Accepts c (primaryExpr d) [.identifier name.text] k (Alike (Expr.identifier name.identifier)) := by
  have hidentifier : Accepts c (identifier >>= fun i => pure (Expr.identifier i))
      [.identifier name.text] k (Alike (Expr.identifier name.identifier)) := by
    refine accepts_identifier fun i hi => accepts_pure ?_
    have hi' : respan (fun _ => Span.origin) i = name.identifier := by
      rw [Name.identifier, ← hi]
      rfl
    simp [Alike, hi', Name.identifier]
  refine sees_next.accepts ((sees_peek 1).accepts ?_)
  split
  · rename_i hparen
    obtain ⟨hpayable, htype⟩ := h (by rw [List.head?_eq_getElem?]; exact hparen)
    rw [if_neg hpayable, if_neg htype]
    exact hidentifier
  · exact hidentifier

variable {c : Context} {ts k : List Token} {e : Expr}

theorem head_tokens (b : Brackets) (ts : List Token) : ∃ a, (b.tokens ts).head? = some a
    ∧ UnaryOp.ofToken? a = none ∧ UpdateOp.ofToken? a = none := by
  obtain ⟨hparen, -, hbracket, -, -, -, -, huint, -, -, hnew⟩ := tokensOf_marks
  have hname (name : Name) : UnaryOp.ofToken? (.identifier name.text) = none
      ∧ UpdateOp.ofToken? (.identifier name.text) = none := ⟨rfl, rfl⟩
  have hhead {text : String} {texts : List String} {a : Token} (htext : tokensOf text = [a])
      (hbefore : b.before = text :: texts) : (b.tokens ts).head? = some a := by
    simp only [tokens, hbefore, List.flatMap_cons, htext, List.cons_append, List.head?_cons]
  cases b with
  | parentheses => exact ⟨.symbol .leftParen, hhead hparen rfl, by decide, by decide⟩
  | array => exact ⟨.symbol .leftBracket, hhead hbracket rfl, by decide, by decide⟩
  | conversion => exact ⟨.elementaryType "uint", hhead huint rfl, by decide, by decide⟩
  | size => exact ⟨.keyword .new, hhead hnew rfl, by decide, by decide⟩
  | index name | argument name _ _ | option name _ =>
    exact ⟨.identifier name.text, hhead name.reads rfl, hname name⟩

/-- The brackets are read behind the call of a `try` as they are elsewhere. -/
theorem grows (b : Brackets) (hts : BeginsExpr ts)
    (hclosed : ∀ m, 120 ≤ m → Grammar.Closed (.ofDepth m) ts e)
    (hsize : b.isSize → .symbol .leftBrace ∉ ts) {n : Nat} (hn : 120 ≤ n) :
    Grows c (primaryExpr (.ofDepth (n + 1))) (suffix? (.ofDepth (n + 1))) (b.tokens ts) k
      (Alike (b.around e)) := by
  obtain ⟨hparen, hparen', hbracket, hbracket', hbrace, hbrace', hcolon, huint, -, -, hnew⟩ :=
    tokensOf_marks
  have h := hclosed (n + 1) (hn.trans n.le_succ)
  cases b with
  | parentheses =>
    have htokens : tokens .parentheses ts = inParens [ts] := by
      simp [tokens, before, behind, hparen, hparen', inParens, commas]
    rw [htokens]
    exact (accepts_parenthesized hts (h.inside rfl) .origin).grows
  | array =>
    have htokens : array.tokens ts
        = Token.symbol .leftBracket :: (ts ++ [Token.symbol .rightBracket]) := by
      simp [tokens, before, behind, hbracket, hbracket']
    rw [htokens]
    exact (accepts_inlineArray hts h).grows
  | conversion =>
    have htokens : conversion.tokens ts = Token.elementaryType "uint"
        :: Token.symbol .leftParen :: (ts ++ [Token.symbol .rightParen]) := by
      simp [tokens, before, behind, hparen, hparen', huint]
    rw [htokens]
    exact (accepts_conversion h (by decide)).grows
  | index base =>
    have htokens : tokens (.index base) ts
        = [Token.identifier base.text] ++ Token.symbol .leftBracket
          :: (ts ++ [Token.symbol .rightBracket]) := by
      simp [tokens, before, behind, hbracket, hbracket', base.reads]
    rw [htokens]
    refine (accepts_name (by simp)).grows.step (by simp) fun x hx => ?_
    exact accepts_indexOrSlice hx (.inr ⟨e, rfl, hts, h.inside rfl⟩)
  | argument callee hpayable htype =>
    have htokens : tokens (.argument callee hpayable htype) ts
        = [Token.identifier callee.text] ++ Token.symbol .leftParen
          :: (ts ++ [Token.symbol .rightParen]) := by
      simp [tokens, before, behind, hparen, hparen', callee.reads]
    rw [htokens]
    refine (accepts_name fun _ => ⟨hpayable, htype⟩).grows.step (by simp) fun x hx => ?_
    exact accepts_argument hts h hx
  | option callee key =>
    have htokens : tokens (.option callee key) ts = [Token.identifier callee.text]
        ++ Token.symbol .leftBrace :: Token.identifier key.text :: Token.symbol .colon
          :: (ts ++ [Token.symbol .rightBrace])
        ++ [Token.symbol .leftParen, Token.symbol .rightParen] := by
      simp [tokens, before, behind, hparen, hparen', hbrace, hbrace', hcolon, callee.reads, key.reads]
    rw [htokens]
    have hoption : Grows c (primaryExpr (.ofDepth (n + 1))) (suffix? (.ofDepth (n + 1)))
        ([Token.identifier callee.text]
        ++ Token.symbol .leftBrace :: Token.identifier key.text :: Token.symbol .colon
          :: (ts ++ [Token.symbol .rightBrace]))
        ([Token.symbol .leftParen, Token.symbol .rightParen] ++ k)
        (Alike (.struct (.identifier callee.identifier) [⟨key.identifier, e, .origin⟩] .origin)) :=
      (accepts_name (by simp)).grows.step (by simp) fun x hx => accepts_option h hx rfl
    exact hoption.step (by simp) fun x hx => accepts_noArguments hx
  | @size element N value argument =>
    have htokens : tokens (.size element argument) ts = Token.keyword .new
        :: Token.identifier element.text :: Token.symbol .leftBracket
          :: (ts ++ [Token.symbol .rightBracket])
        ++ Token.symbol .leftParen :: (tokensOf N ++ [Token.symbol .rightParen]) := by
      simp [tokens, before, behind, hparen, hparen', hbracket, hbracket', hnew, element.reads]
    rw [htokens]
    have harray := accepts_newArray (c := c)
      (k := Token.symbol .leftParen :: (tokensOf N ++ [Token.symbol .rightParen]) ++ k) hts
      (hclosed n hn) (Nested.indifferent_ofDepth n) (hsize rfl) element.text (by simp)
    refine harray.grows.step (by simp) fun x hx => ?_
    exact accepts_argument argument.beginsExpr
      (argument.readBefore_closing (by decide) (hn.trans n.le_succ)) hx

end Brackets

/-! ### What stands behind `try` -/

/-- A call with an empty body and an empty clause. -/
def tryStmt (call : Expr) : Stmt :=
  .tryCatch call [] ⟨[], .origin⟩ [⟨none, none, ⟨[], .origin⟩, .origin⟩] .origin

/-- Lines whose tokens are a call with its body and its clause. -/
theorem readsStatement_tryLines {call : List String} {ts : List Token} {e : Expr} {a : Token}
    (hclean : ∀ text ∈ tryLines call, (tokenize text).errors = []) (hts : call.flatMap tokensOf = ts)
    (ha : ts.head? = some a) (hop : UnaryOp.ofToken? a = none ∧ UpdateOp.ofToken? a = none)
    (h : ∀ c k, k.head? = some (.symbol .leftBrace) →
      Grows c (primaryExpr (.ofDepth 126)) (suffix? (.ofDepth 126)) ts k (Alike e)) :
    ∃ x, ReadsStatement (lines (tryLines call)) x ∧ erase x = erase (tryStmt e) := by
  obtain ⟨htokens, hclean⟩ := tokenize_lines _ hclean
  obtain ⟨-, -, -, -, hbrace, hbrace', -, -, htry, hcatch, -⟩ := tokensOf_marks
  have htexts : (tryLines call).flatMap tokensOf = Token.keyword .try_ :: (ts
      ++ [Token.symbol .leftBrace, Token.symbol .rightBrace, Token.keyword .catch_,
        Token.symbol .leftBrace, Token.symbol .rightBrace]) := by
    simp [tryLines, hts, htry, hcatch, hbrace, hbrace']
  refine readsStatement_of_accepts hclean (htokens.trans htexts) ?_
  have hread : Accepts (ofSource (lines (tryLines call))).context (tryStatement (.ofDepth 127))
      (Token.keyword .try_ :: (ts ++ [Token.symbol .leftBrace, Token.symbol .rightBrace,
        Token.keyword .catch_, Token.symbol .leftBrace, Token.symbol .rightBrace])) []
      (Alike (tryStmt e)) :=
    accepts_tryStatement (by simp) fun us =>
      accepts_expression_of_opensBlock ⟨rfl, rfl⟩ ha hop (h _ _ rfl)
  have hfull : Nested.full.statement = statement (.ofDepth 127) := rfl
  rw [hfull]
  exact sees_next.accepts hread

example : (ofSource (lines (tryLines ["new C", "(", ")"]))).statement.1.toBool := by
  rw [lines_eq, ofSource_ofList]
  decide +kernel

/-- In brackets behind `try` each expression is read as the expression that it is by itself, but as the
size of an array behind `new` only if no brace is in it. -/
theorem try_brackets {X : String} {e : Expr} (h : IsExpression 120 X e) (b : Brackets)
    (hsize : b.isSize → .symbol .leftBrace ∉ tokensOf X) :
    ∃ x, ReadsStatement (lines (tryLines (b.before ++ X :: b.behind))) x
      ∧ erase x = erase (tryStmt (b.around e)) := by
  have hclosed (n : Nat) (hn : 120 ≤ n) : Grammar.Closed (.ofDepth n) (tokensOf X) e :=
    h.readBefore_closing (by decide) hn
  obtain ⟨a, ha, hop⟩ := b.head_tokens (tokensOf X)
  refine readsStatement_tryLines (b.faultless h.faultless) ?_ ha hop fun c k _ =>
    b.grows h.beginsExpr hclosed hsize (n := 125) (by decide)
  simp [Brackets.tokens]

theorem isExpression_fields : ∃ e, IsExpression 120 "S\x7ba: 1\x7d" e :=
  exists_isExpression (by
    rw [ofSource_ofList]
    decide +kernel)

/-- A struct with named fields in a list behind `try`, and a product as the size of an array. -/
theorem try_brackets_fields :
    (∃ e, IsExpression 120 "S\x7ba: 1\x7d" e ∧ ∃ x,
        ReadsStatement (lines (tryLines ["[", "S\x7ba: 1\x7d", "]"])) x
          ∧ erase x = erase (tryStmt (.inlineArray [e] .origin)))
      ∧ ∃ e, IsExpression 120 "2 * n" e ∧ Token.symbol .leftBrace ∉ tokensOf "2 * n"
        ∧ ∀ (T : Name) (N : String) (n : Expr), IsExpression 120 N n → ∃ x,
          ReadsStatement (lines (tryLines ["new", T.text, "[", "2 * n", "]", "(", N, ")"])) x
            ∧ erase x = erase (tryStmt (.call (.new (.array (.userDefined ⟨[T.identifier], .origin⟩)
              (some e) .origin) .origin) (.positional [n] .origin) .origin)) := by
  constructor
  · obtain ⟨e, he⟩ := isExpression_fields
    exact ⟨e, he, try_brackets he .array (by decide)⟩
  · obtain ⟨e, he⟩ : ∃ e, IsExpression 120 "2 * n" e := exists_isExpression (by
      rw [ofSource_ofList]
      decide +kernel)
    have hbrace : Token.symbol .leftBrace ∉ tokensOf "2 * n" := by
      rw [tokensOf_ofList]
      decide
    exact ⟨e, he, hbrace, fun T N n hN => try_brackets he (.size T hN) fun _ => hbrace⟩

/-- With named fields at the end of its size, an array behind `new` is an expression by itself, but not
behind `try`. -/
theorem try_size_without_fields :
    (∃ e, IsExpression 120 "S\x7ba: 1\x7d" e)
      ∧ (∃ e, IsExpression 120 "new T[S\x7ba: 1\x7d](n)" e)
      ∧ ∀ x, ¬ReadsStatement (lines (tryLines ["new T[", "S\x7ba: 1\x7d", "](n)"])) x := by
  have hfails : (ofSource (lines (tryLines ["new T[", "S\x7ba: 1\x7d", "](n)"]))).statement.1.toBool
      = false := by
    rw [lines_eq, ofSource_ofList]
    decide +kernel
  have halone : ∃ e, IsExpression 120 "new T[S\x7ba: 1\x7d](n)" e := exists_isExpression (by
    rw [ofSource_ofList]
    decide +kernel)
  refine ⟨isExpression_fields, halone, ?_⟩
  rintro x ⟨next, hx, -⟩
  rw [hx] at hfails
  simp [Except.toBool] at hfails

end SolidityFrontend
