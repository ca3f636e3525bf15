import SolidityFrontend.Proofs.Layout

/-!
# How parts end

A statement or a member that is read without errors ends with a semicolon or with a closing brace.
What is read behind such an end either takes no token or ends in the same way (`Rests`).
-/

namespace SolidityFrontend

open SolidityFrontend.Parser

/-- Whether a token ends statements and members. -/
def Token.endsPart : Token → Bool
  | .symbol .semicolon | .symbol .rightBrace => true
  | _ => false

theorem State.atBoundary_eq (s : State) :
    s.atBoundary = (s.previous.map Lexeme.token).any Token.endsPart := by
  rw [State.atBoundary]
  rcases s.previous with _ | ⟨token, span⟩
  · rfl
  · cases token with
    | symbol b => cases b <;> rfl
    | _ => rfl

namespace Parser

variable {α β : Type} {c : Context} {s t : State} {p q : Parser α} {f : α → Parser β}

/-- What the parser reads without errors ends with a semicolon or a closing brace. -/
def Ends (p : Parser α) : Prop :=
  ∀ c s x t, p c s = (.ok x, t) → t.errors = #[] → t.atBoundary

/-- What the parser reads without errors is nothing, or ends with a semicolon or a closing brace. -/
structure Rests (p : Parser α) : Prop where
  onward : Onward p
  run : ∀ c s x t, p c s = (.ok x, t) → t.errors = #[] → t.previous = s.previous ∨ t.atBoundary

theorem Ends.rests (h : Ends p) (ho : Onward p) : Rests p :=
  ⟨ho, fun c s x t hx herrors => .inr (h c s x t hx herrors)⟩

theorem Looks.rests {g : Context → State → α} (h : Looks p g) : Rests p :=
  ⟨h.onward, fun c s x t hx _ => .inl (by rw [(Prod.mk.inj ((h c s).symm.trans hx)).2])⟩

theorem rests_pure (x : α) : Rests (pure x) :=
  ⟨onward_pure x, fun _ _ _ _ h _ => .inl (by rw [(pure_eq_ok h).2])⟩

theorem rests_fail (e : SyntaxError) : Rests (fail e : Parser α) :=
  ⟨onward_fail e, fun _ _ _ _ h => by simp [fail] at h⟩

theorem Onward.errors_eq_empty {x : α} (h : Onward p) (hx : p c s = (.ok x, t))
    (ht : t.errors = #[]) : s.errors = #[] := by
  have hsize := h.errors_size_le c s
  rw [hx, ht] at hsize
  exact Array.eq_empty_of_size_eq_zero (Nat.le_zero.1 hsize)

theorem Rests.bind (h : Rests p) (hf : ∀ x, Rests (f x)) : Rests (p >>= f) where
  onward := h.onward.bind fun x => (hf x).onward
  run c s y t hy herrors := by
    obtain ⟨x, u, hx, hfx⟩ := bind_eq_ok hy
    rcases (hf x).run c u y t hfx herrors with hsame | hend
    · rw [hsame, State.atBoundary_eq, hsame, ← State.atBoundary_eq]
      exact h.run c s x u hx ((hf x).onward.errors_eq_empty hfx herrors)
    · exact .inr hend

theorem Rests.ite {b : Prop} [Decidable b] (hp : Rests p) (hq : Rests q) :
    Rests (if b then p else q) := by
  split
  · exact hp
  · exact hq

theorem rests_spanned (start : Span) (make : Span → α) :
    Rests (spanFrom start >>= fun span => pure (make span)) :=
  (looks_spanFrom start).rests.bind fun _ => rests_pure _

/-- A token that may be there, and what ends behind it. -/
theorem rests_if_accept {a : Token} (hp : Ends p) (ho : Onward p) (hq : Rests q) :
    Rests (accept a >>= fun b => if b = true then p else q) where
  onward := (onward_accept a).bind fun b => .ite (fun _ => ho) fun _ => hq.onward
  run c s x t hx herrors := by
    by_cases hhead : s.tokens.head? = some a
    · rw [bind_ok (accept_eq_true hhead)] at hx
      exact .inr (hp c _ x t hx herrors)
    · rw [bind_ok (accept_eq_false hhead)] at hx
      exact hq.run c s x t hx herrors

theorem rests_manyOver {more : Parser (Option α)} (h : Rests more) :
    ∀ clock, Rests (manyOver more clock)
  | [] => rests_pure []
  | _ :: clock => h.bind fun
    | none => rests_pure []
    | some _ => (rests_manyOver h clock).bind fun _ => rests_pure _

theorem rests_many {more : Parser (Option α)} (h : Rests more) : Rests (many more) :=
  ⟨onward_many h.onward, fun c s => (rests_manyOver h s.rest).run c s⟩

theorem Ends.bind (hf : ∀ x, Ends (f x)) : Ends (p >>= f) := by
  intro c s y t hy herrors
  obtain ⟨x, u, -, hfx⟩ := bind_eq_ok hy
  exact hf x c u y t hfx herrors

theorem Ends.before (h : Ends p) (hf : ∀ x, Rests (f x)) : Ends (p >>= f) := by
  intro c s y t hy herrors
  obtain ⟨x, u, hx, hfx⟩ := bind_eq_ok hy
  rcases (hf x).run c u y t hfx herrors with hsame | hend
  · rw [State.atBoundary_eq, hsame, ← State.atBoundary_eq]
    exact h c s x u hx ((hf x).onward.errors_eq_empty hfx herrors)
  · exact hend

theorem Ends.map (h : Ends p) (g : α → β) : Ends (g <$> p) :=
  h.before (f := fun x => pure (g x)) fun _ => rests_pure _

theorem Ends.spanned (h : Ends p) (start : Span) (make : α → Span → β) :
    Ends (p >>= fun x => spanFrom start >>= fun span => pure (make x span)) :=
  h.before fun _ => rests_spanned start _

theorem Ends.ite {b : Prop} [Decidable b] (hp : Ends p) (hq : Ends q) :
    Ends (if b then p else q) := by
  split
  · exact hp
  · exact hq

theorem ends_of_fails (h : ∀ c s x t, p c s ≠ (.ok x, t)) : Ends p :=
  fun c s x t hx => absurd hx (h c s x t)

theorem ends_violation (v : Violation) (span : Span) : Ends (violation v span : Parser α) :=
  ends_of_fails fun _ _ _ _ h => by simp [violation, fail] at h

theorem atBoundary_advance {a : Token} (h : s.tokens.head? = some a) (ha : a.endsPart) :
    s.advance.atBoundary := by
  rw [State.tokens, List.head?_map, Option.map_eq_some_iff] at h
  obtain ⟨l, hl, rfl⟩ := h
  obtain ⟨rest, hrest⟩ := List.head?_eq_some_iff.1 hl
  rw [State.atBoundary_eq, State.advance, hrest]
  simpa using ha

theorem ends_symbol {b : Symbol} (hb : Token.endsPart (.symbol b)) : Ends (symbol b) := by
  intro c s span t h _
  obtain ⟨hhead, rfl⟩ := symbol_eq_ok h
  exact atBoundary_advance hhead hb

/-- An end, or something else that ends. -/
theorem ends_if_accept {a : Token} (ha : a.endsPart) (hp : Rests p) (hq : Ends q) :
    Ends (accept a >>= fun b => if b = true then p else q) := by
  intro c s x t hx herrors
  by_cases hhead : s.tokens.head? = some a
  · rw [bind_ok (accept_eq_true hhead)] at hx
    rcases hp.run c _ x t hx herrors with hsame | hend
    · rw [State.atBoundary_eq, hsame, ← State.atBoundary_eq]
      exact atBoundary_advance hhead ha
    · exact hend
  · rw [bind_ok (accept_eq_false hhead)] at hx
    exact hq c s x t hx herrors

/-- A body without errors ends with its brace. -/
theorem ends_body [Placed α] {mark : ErrorMark → α} {part : Parser α} (ho : Onward part) :
    Ends (body mark part) := by
  intro c s parts t h herrors
  obtain ⟨u, span, -, -, hbrace⟩ := body_ok ho h (by rw [herrors]; exact Nat.zero_le _)
  exact ends_symbol rfl c u span t hbrace herrors

/-- The first of two readings, or else the second. -/
theorem either_eq_ok {r : Reading} {x : α} (h : either r p q c s = (.ok x, t)) :
    p c s = (.ok x, t) ∨ q c s = (.ok x, t) := by
  rw [either_eq] at h
  rcases hfirst : p c s with ⟨e | y, u⟩ <;> rw [hfirst] at h
  · rcases hsecond : q c s with ⟨e' | y, u'⟩ <;> rw [hsecond] at h
    · dsimp only at h
      split at h <;> simp at h
    · exact .inr h
  · exact .inl h

end Parser

namespace Grammar

variable {H : Setting} {d d' : Nested}

/-! ### Statements -/

theorem ends_declarationEnd (v : Declarator) (start : Span) : Ends (declarationEnd d v start) := by
  have hend (value : Option Expr) : Ends (if value.isNone && !needsNoValue v then
        spanFrom start >>= fun span => violation .tupleWithoutValue span
      else symbol .semicolon >>= fun _ => spanFrom start >>= fun span =>
        pure (Stmt.variables v value span)) :=
    .ite (Ends.bind fun span => ends_violation _ _)
      ((ends_symbol rfl).spanned start fun _ => Stmt.variables v value)
  exact Ends.bind fun b => .ite (Ends.bind hend) (Ends.bind hend)

theorem ends_expressionStatement : Ends (expressionStatement d) :=
  Ends.bind fun e => (ends_symbol rfl).spanned e.span fun _ => Stmt.expression e

theorem ends_declarationOrExpression : Ends (declarationOrExpression d) := by
  refine Ends.bind fun start => ?_
  intro c s x t h herrors
  obtain ⟨y, u, heither, hend⟩ := bind_eq_ok h
  rcases y with v | e
  · exact ends_declarationEnd v start c u x t hend herrors
  · obtain ⟨rfl, rfl⟩ := pure_eq_ok hend
    rcases either_eq_ok heither with hfirst | hsecond
    · obtain ⟨v, w, -, hpure⟩ := bind_eq_ok hfirst
      exact absurd (pure_eq_ok (c := c) hpure).1 (by simp)
    · exact ends_expressionStatement.map Sum.inr c s _ _ hsecond herrors

theorem ends_simpleStatement : Ends (simpleStatement d) := by
  refine Ends.bind fun b => .ite ?_ (Ends.bind fun next => .ite ?_ ends_expressionStatement)
  · exact Ends.bind fun start => Ends.bind fun _ => Ends.bind fun _ => Ends.bind fun names =>
      Ends.bind fun _ => Ends.bind fun span => ends_declarationEnd _ start
  · exact ends_declarationOrExpression

theorem ends_keywordStatement (word : Keyword) (make : Span → Stmt) :
    Ends (keywordStatement word make) :=
  Ends.bind fun start => (ends_symbol rfl).spanned start fun _ => make

/-- The braces are closed by a brace. -/
theorem skipBraces_eq_true {depth : Nat} {previous previous' : Option Lexeme}
    {rest rest' : List Lexeme} (h : skipBraces (depth + 1) previous rest = (true, previous', rest')) :
    previous'.map Lexeme.token = some (.symbol .rightBrace) := by
  induction rest generalizing depth previous with
  | nil => simp [skipBraces] at h
  | cons t rest ih =>
    rw [skipBraces] at h
    split at h
    · exact ih h
    · rename_i hbrace
      cases depth with
      | zero =>
        rw [skipBraces] at h
        obtain rfl : some t = previous' := congrArg (·.2.1) h
        exact congrArg some hbrace
      | succ depth => exact ih h
    · exact ih h

theorem ends_closeBrace : Ends closeBrace := by
  intro c s x t h _
  rw [closeBrace, state_bind] at h
  rcases hskip : skipBraces 1 s.previous s.rest with ⟨closed, previous, rest⟩
  rw [hskip] at h
  dsimp only at h
  cases closed with
  | false =>
    have hfst := congrArg Prod.fst h
    cases hfst
  | true =>
    obtain ⟨-, rfl⟩ := Prod.mk.inj h
    rw [State.atBoundary_eq]
    change (Option.map Lexeme.token previous).any Token.endsPart
    rw [skipBraces_eq_true hskip]
    rfl

theorem ends_assemblyStatement : Ends assemblyStatement := by
  have hend (start : Span) (dialect : Option String) : Ends (symbol .leftBrace >>= fun opening =>
      closeBrace >>= fun _ => spanFrom opening >>= fun inner => spanFrom start >>= fun span =>
        pure (Stmt.assembly dialect inner span)) :=
    Ends.bind fun opening => ends_closeBrace.before fun _ =>
      (looks_spanFrom opening).rests.bind fun inner => rests_spanned start _
  refine Ends.bind fun start => Ends.bind fun next => ?_
  dsimp only
  split
  · exact Ends.bind (hend start)
  · exact Ends.bind (hend start)

section

variable (hd : d.EchoedWhole H d') (hends : Ends d.statement)
include hd

theorem ends_block : Ends (block d) :=
  Ends.bind fun start =>
    (ends_body (hd.statement 1 Setting.closed_succ).onward).spanned start Block.mk

theorem ends_catchClause : Ends (catchClause d) := by
  have hend (start : Span) (name : Option Identifier) (ps : Option (List Parameter)) :
      Ends (block d >>= fun inner => spanFrom start >>= fun span =>
        pure (⟨name, ps, inner, span⟩ : CatchClause)) := (ends_block hd).spanned start _
  exact Ends.bind fun start => Ends.bind fun name => Ends.bind fun b =>
    .ite (Ends.bind (hend start name)) (Ends.bind (hend start name))

theorem rests_catchClause? : Rests (catchClause? d) where
  onward := peeks_nextIs _ |>.looks.onward.bind fun b =>
    .ite (fun _ => (echoes_catchClause (I := anywhere) (k := 0) hd).onward.bind fun _ => onward_pure _)
      fun _ => onward_pure _
  run c s x t hx herrors := by
    rw [catchClause?, bind_ok (sees_nextIs _ c s), run_ite] at hx
    split at hx
    · exact .inr ((ends_catchClause hd).map some c s x t hx herrors)
    · exact .inl (by rw [(pure_eq_ok hx).2])

theorem rests_tryEnd (start : Span) (call : Expr) (returns : List Parameter) (inner : Block) :
    Rests (tryEnd d start call returns inner) :=
  (rests_many (rests_catchClause? hd)).bind fun _ =>
    .ite ((looks_spanFrom start).rests.bind fun _ => rests_fail _) (rests_spanned start _)

theorem ends_tryStatement : Ends (tryStatement d) :=
  Ends.bind fun start => Ends.bind fun call => Ends.bind fun returns =>
    (ends_block hd).before (rests_tryEnd hd start call returns)

include hends

theorem ends_ifStatement : Ends (ifStatement d) := by
  refine Ends.bind fun start => Ends.bind fun test => hends.before fun thenBranch => ?_
  have hend (elseBranch : Option Stmt) : Rests (spanFrom start >>= fun span =>
      pure (Stmt.ifElse test thenBranch elseBranch span)) := rests_spanned start _
  refine rests_if_accept ?_ ?_ ((rests_pure none).bind hend)
  · exact (hends.map some).before hend
  · exact ((hd.statement 1 Setting.closed_succ).onward.bind fun _ => onward_pure _).bind fun _ =>
      (hend _).onward

omit hd in
theorem ends_forStatement : Ends (forStatement d) := by
  have hend (start : Span) (init : Option Stmt) :
      Ends (optional d .semicolon >>= fun test => symbol .semicolon >>= fun _ =>
        optional d .rightParen >>= fun update => symbol .rightParen >>= fun _ =>
          d.statement >>= fun inner => spanFrom start >>= fun span =>
            pure (Stmt.forLoop init test update inner span)) :=
    Ends.bind fun test => Ends.bind fun _ => Ends.bind fun update => Ends.bind fun _ =>
      hends.spanned start (Stmt.forLoop init test update)
  exact Ends.bind fun start => Ends.bind fun _ => Ends.bind fun b =>
    .ite (Ends.bind (hend start)) (Ends.bind (hend start))

theorem ends_statement : Ends (statement d) := by
  refine Ends.bind fun next => ?_
  split
  · exact (ends_block hd).map Stmt.block
  · exact ends_ifStatement hd hends
  · exact ends_forStatement hends
  · exact Ends.bind fun start => Ends.bind fun test => hends.spanned start (Stmt.whileLoop test)
  · exact Ends.bind fun start => Ends.bind fun inner => Ends.bind fun _ => Ends.bind fun test =>
      (ends_symbol rfl).spanned start fun _ => Stmt.doWhile inner test
  · exact ends_keywordStatement _ _
  · exact ends_keywordStatement _ _
  · exact ends_keywordStatement _ _
  · exact Ends.bind fun start => Ends.bind fun value =>
      (ends_symbol rfl).spanned start fun _ => Stmt.return_ value
  · exact Ends.bind fun start => Ends.bind fun event => Ends.bind fun arguments =>
      (ends_symbol rfl).spanned start fun _ => Stmt.emit event arguments
  · exact ends_tryStatement hd
  · exact ends_assemblyStatement
  · exact ends_simpleStatement

end

end Grammar

open Grammar

theorem Nested.ends_statement : ∀ n : Nat, Ends (ofDepth n).statement
  | 0 => ends_of_fails fun _ _ _ _ => tooDeep_ne_ok
  | n + 1 => Grammar.ends_statement (H := .whole []) (echoedWhole_ofDepth le_rfl) (ends_statement n)

namespace Grammar

/-! ### Members -/

section

variable {n : Nat}

theorem ends_functionBody : Ends (functionBody (.ofDepth n)) :=
  ends_if_accept rfl (rests_pure none)
    ((ends_block (H := .whole []) (Nested.echoedWhole_ofDepth le_rfl)).map some)

theorem ends_functionDefinition : Ends (functionDefinition (.ofDepth n)) :=
  Ends.bind fun start => Ends.bind fun _ => Ends.bind fun _ => Ends.bind fun _ => Ends.bind fun _ =>
    ends_functionBody.spanned start _

theorem ends_modifierDefinition : Ends (modifierDefinition (.ofDepth n)) := by
  have hend (start : Span) (name : Identifier) (ps : List Parameter) :
      Ends (functionAttributes (.ofDepth n) >>= fun attributes => functionBody (.ofDepth n) >>=
        fun inner => spanFrom start >>= fun span =>
          pure (⟨name, ps, attributes, inner, span⟩ : ModifierDefinition)) :=
    Ends.bind fun _ => ends_functionBody.spanned start _
  exact Ends.bind fun start => Ends.bind fun name => Ends.bind fun b =>
    .ite (Ends.bind (hend start name)) (Ends.bind (hend start name))

theorem ends_constructorDefinition : Ends (constructorDefinition (.ofDepth n)) :=
  Ends.bind fun start => Ends.bind fun _ => Ends.bind fun _ => ends_functionBody.spanned start _

theorem ends_fallbackRest (kind : FallbackKind) (start : Span) :
    Ends (fallbackRest (.ofDepth n) kind start) :=
  Ends.bind fun _ => Ends.bind fun _ => ends_functionBody.spanned start _

end

theorem ends_stateVariable : Ends (stateVariable d) := by
  have hend (start : Span) (type : TypeName) (attributes : List VariableAttribute)
      (name : Identifier) (value : Option Expr) : Ends (symbol .semicolon >>= fun _ =>
        spanFrom start >>= fun span =>
          pure (⟨type, attributes, name, value, span⟩ : StateVariable)) :=
    (ends_symbol rfl).spanned start _
  exact Ends.bind fun start => Ends.bind fun type => Ends.bind fun attributes => Ends.bind fun name =>
    Ends.bind fun b => .ite (Ends.bind (hend start type attributes name))
      (Ends.bind (hend start type attributes name))

theorem ends_structDeclaration : Ends (structDeclaration d) := by
  refine Ends.bind fun start => Ends.bind fun name => Ends.bind fun _ => Ends.bind fun members => ?_
  refine (ends_symbol rfl).before fun _ => (looks_spanFrom start).rests.bind fun span => ?_
  exact .ite ⟨(onward_record _).bind fun _ => onward_pure _, fun _ _ _ _ h _ =>
    .inl (congrArg (State.previous ∘ Prod.snd) h).symm⟩ (rests_pure _)

theorem ends_enumDeclaration : Ends enumDeclaration :=
  Ends.bind fun start => Ends.bind fun _ => Ends.bind fun _ => Ends.bind fun _ =>
    (ends_symbol rfl).spanned start _

theorem ends_eventDefinition : Ends (eventDefinition d) := by
  have hend (start : Span) (name : Identifier) (ps : List EventParameter) :
      Ends (symbol .rightParen >>= fun _ => acceptWord "anonymous" >>= fun isAnonymous =>
        symbol .semicolon >>= fun _ => spanFrom start >>= fun span =>
          pure (⟨name, ps, isAnonymous, span⟩ : EventDefinition)) :=
    Ends.bind fun _ => Ends.bind fun _ => (ends_symbol rfl).spanned start _
  exact Ends.bind fun start => Ends.bind fun name => Ends.bind fun _ => Ends.bind fun b =>
    .ite (Ends.bind (hend start name)) (Ends.bind (hend start name))

theorem ends_usingDirective : Ends (usingDirective d) :=
  Ends.bind fun start => Ends.bind fun _ => Ends.bind fun _ => Ends.bind fun _ =>
    (ends_symbol rfl).spanned start _

theorem ends_variableOrFallback {n : Nat} : Ends (variableOrFallback (.ofDepth n)) := by
  intro c s x t h herrors
  rcases either_eq_ok h with hvariable | hfallback
  · exact ends_stateVariable.map _ c s x t hvariable herrors
  · have hend : Ends (namelessFallback (.ofDepth n)) := Ends.bind (ends_fallbackRest _)
    exact hend.map _ c s x t hfallback herrors

theorem ends_member {n : Nat} : Ends (member (.ofDepth n)) := by
  refine Ends.bind fun next => ?_
  split
  · refine Ends.bind fun second => .ite ends_variableOrFallback ?_
    exact ends_functionDefinition.map Member.function
  · exact ends_modifierDefinition.map Member.modifier
  · exact ends_constructorDefinition.map Member.constructor
  · exact ends_eventDefinition.map Member.event
  · exact ends_structDeclaration.map Member.struct
  · exact ends_enumDeclaration.map Member.enum
  · exact ends_usingDirective.map Member.using_
  · refine Ends.bind fun second => ?_
    split
    · exact (Ends.bind (ends_fallbackRest _)).map Member.fallback
    · exact ends_stateVariable.map Member.stateVariable
  · exact ends_stateVariable.map Member.stateVariable
  · exact ends_stateVariable.map Member.stateVariable
  · exact ends_of_fails fun c s x t => unexpected_ne_ok _ c s x t

end Grammar

end SolidityFrontend
