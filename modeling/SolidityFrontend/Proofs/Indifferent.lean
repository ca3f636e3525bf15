import SolidityFrontend.Proofs.Yielding

/-!
# Readings that meet no brace

Whether named fields are allowed behind an expression matters only at a brace. A parser is `Indifferent`
to that if it reads the same in both cases wherever it gives a value without meeting a brace, neither
among the tokens that it takes nor behind them. What stands in parentheses and brackets is read as if
nothing stood around, so there it may even meet braces.
-/

namespace SolidityFrontend

open SolidityFrontend.Parser

/-- The context with named fields allowed or not. -/
abbrev Context.allow (c : Context) (allowed : Bool) : Context := { c with structLiterals := allowed }

/-- Between two places of a reading, and at both of them, no brace is opened. -/
def State.Braceless (s t : State) : Prop :=
  ∀ rest, rest <:+ s.rest → t.rest <:+ rest →
    rest.head?.map Lexeme.token ≠ some (.symbol .leftBrace)

namespace Parser

variable {α β : Type} {q : Prop} {c : Context} {s t : State} {p p' : Parser α} {f : α → Parser β}
  {x : α}

/-- A value is read whether named fields are allowed or not, under `q` if no brace is met. -/
structure Indifferent (q : Prop) (p : Parser α) : Prop where
  onward : Onward p
  run : ∀ allowed {c s x t}, p c s = (.ok x, t) → (q → s.Braceless t) →
    p (c.allow allowed) s = (.ok x, t)

/-! ### Steps -/

theorem Onward.suffix (h : Onward p) (hx : p c s = (.ok x, t)) : t.rest <:+ s.rest := by
  obtain ⟨ts, es, htook⟩ := h c s
  rw [hx] at htook
  exact htook.1 ▸ List.suffix_append ts t.rest

theorem Indifferent.bind (h : Indifferent q p) (hf : ∀ x, Indifferent q (f x)) :
    Indifferent q (p >>= f) where
  onward := h.onward.bind fun x => (hf x).onward
  run allowed {c s y u} hy hs := by
    obtain ⟨x, t, hx, hfx⟩ := bind_eq_ok hy
    have hfirst := h.onward.suffix hx
    have hlast := (hf x).onward.suffix hfx
    rw [bind_ok (h.run allowed hx fun hq rest hrest ht => hs hq rest hrest (hlast.trans ht))]
    exact (hf x).run allowed hfx fun hq rest hrest => hs hq rest (hrest.trans hfirst)

theorem indifferent_pure (x : α) : Indifferent q (pure x) := ⟨onward_pure x, fun _ _ _ _ _ hx _ => hx⟩

theorem Indifferent.map {g : α → β} (h : Indifferent q p) : Indifferent q (g <$> p) :=
  h.bind fun x => indifferent_pure (g x)

theorem Indifferent.ite {b : Prop} [Decidable b] (h : Indifferent q p) (h' : Indifferent q p') :
    Indifferent q (if b then p else p') := by
  split
  · exact h
  · exact h'

/-- What stands in brackets is read as if nothing stood around. -/
theorem Onward.indifferent_structLiterals (h : Onward p) (allowed : Bool) :
    Indifferent q (structLiterals allowed p) := ⟨fun _ s => h _ s, fun _ _ _ _ _ hx _ => hx⟩

theorem Peeks.indifferent {g : List Lexeme → α} (h : Peeks p g) : Indifferent q p :=
  ⟨h.looks.onward, fun _ _ s _ _ hx _ => ((h _ s).trans (h _ s).symm).trans hx⟩

theorem indifferent_fail (e : SyntaxError) : Indifferent q (fail e : Parser α) :=
  ⟨onward_fail e, fun _ _ _ _ _ hx => by simp [fail] at hx⟩

theorem indifferent_unexpected (e : Expected) : Indifferent q (unexpected e : Parser α) :=
  ⟨onward_unexpected e, fun _ _ _ _ _ hx => absurd hx (unexpected_ne_ok e _ _ _ _)⟩

theorem indifferent_here : Indifferent q here :=
  ⟨looks_here.onward, fun _ _ _ _ _ hx _ => hx⟩

theorem indifferent_spanFrom (start : Span) : Indifferent q (spanFrom start) :=
  ⟨onward_spanFrom start, fun _ _ _ _ _ hx _ => hx⟩

theorem indifferent_advance : Indifferent q advance := ⟨onward_advance, fun _ _ _ _ _ hx _ => hx⟩

theorem indifferent_next {l : Option Token → Parser β} (h : ∀ o, Indifferent q (l o)) :
    Indifferent q (next? >>= l) := peeks_next.indifferent.bind h

/-- A choice by the next token, which is no brace. -/
theorem indifferent_next_of_braceless {l : Option Token → Parser β}
    (h : ∀ o, o ≠ some (.symbol .leftBrace) → Indifferent True (l o))
    (hbrace : Onward (l (some (.symbol .leftBrace)))) : Indifferent True (next? >>= l) where
  onward := onward_next fun o => by
    by_cases ho : o = some (.symbol .leftBrace)
    · exact ho ▸ hbrace
    · exact (h o ho).onward
  run allowed {c s y t} hy hs := by
    have hl : Onward (l s.tokens.head?) := by
      by_cases ho : s.tokens.head? = some (.symbol .leftBrace)
      · exact ho ▸ hbrace
      · exact (h _ ho).onward
    rw [next_bind] at hy ⊢
    refine (h _ ?_).run allowed hy hs
    rw [State.tokens, List.head?_map]
    exact hs trivial s.rest List.suffix_rfl (hl.suffix hy)

theorem indifferent_if_nextIs {a : Token} (h : Indifferent q p) (h' : Indifferent q p') :
    Indifferent q (nextIs a >>= fun b => if b = true then p else p') :=
  (peeks_nextIs a).indifferent.bind fun _ => h.ite h'

theorem indifferent_accept (a : Token) : Indifferent q (accept a) :=
  indifferent_if_nextIs (indifferent_advance.bind fun _ => indifferent_pure _) (indifferent_pure _)

theorem indifferent_if_accept {a : Token} (h : Indifferent q p) (h' : Indifferent q p') :
    Indifferent q (accept a >>= fun b => if b = true then p else p') :=
  (indifferent_accept a).bind fun _ => h.ite h'

theorem indifferent_take (a : Token) (e : Expected) : Indifferent q (take a e) :=
  indifferent_here.bind fun _ => indifferent_if_accept (indifferent_pure _) (indifferent_unexpected e)

theorem indifferent_symbol (b : Symbol) : Indifferent q (symbol b) := by
  refine indifferent_here.bind fun _ => indifferent_if_accept (indifferent_pure _) (.ite ?_ ?_)
  · exact ⟨looks_previousSpan.onward.bind fun _ => onward_fail _, fun _ _ _ _ _ hx => by
      rw [bind_ok (looks_previousSpan _ _)] at hx
      simp [fail] at hx⟩
  · exact indifferent_unexpected _

/-- A span at the end of a value. -/
theorem indifferent_spanned {start : Span} {g : Span → α} :
    Indifferent q (spanFrom start >>= fun span => pure (g span)) :=
  (indifferent_spanFrom start).bind fun _ => indifferent_pure _

theorem indifferent_identifier : Indifferent q identifier := by
  refine indifferent_here.bind fun _ => peeks_nextWord.indifferent.bind fun o => ?_
  split
  · exact indifferent_advance.bind fun _ => indifferent_pure _
  · exact indifferent_unexpected _

/-! ### Repetition -/

theorem indifferent_many {more : Parser (Option α)} (h : Indifferent q more) :
    Indifferent q (many more) := by
  have hover (clock : List Lexeme) : Indifferent q (manyOver more clock) := by
    induction clock with
    | nil => exact indifferent_pure _
    | cons l clock ih =>
      refine h.bind fun o => ?_
      cases o with
      | none => exact indifferent_pure _
      | some x => exact ih.bind fun _ => indifferent_pure _
  exact ⟨onward_many h.onward, fun allowed {_ s _ _} hx => (hover s.rest).run allowed hx⟩

theorem indifferent_iterate {step : α → Parser (Option α)} (h : ∀ x, Indifferent q (step x)) (x : α) :
    Indifferent q (iterate step x) := by
  have hover (clock : List Lexeme) : ∀ x, Indifferent q (iterateOver step clock x) := by
    induction clock with
    | nil => exact indifferent_pure
    | cons l clock ih =>
      refine fun x => (h x).bind fun o => ?_
      cases o with
      | none => exact indifferent_pure _
      | some y => exact ih y
  exact ⟨onward_iterate (fun x => (h x).onward) x,
    fun allowed {_ s _ _} hx => (hover s.rest x).run allowed hx⟩

theorem indifferent_separated (h : Indifferent q p) : Indifferent q (separated p) :=
  h.bind fun _ => (indifferent_many (indifferent_if_accept (h.bind fun _ => indifferent_pure _)
    (indifferent_pure _))).bind fun _ => indifferent_pure _

theorem indifferent_itemsUntil {close : Symbol} {continues : Parser Bool} (h : Indifferent q p)
    (hcontinues : Indifferent q continues) : Indifferent q (itemsUntil close continues p) := by
  have hover (clock : List Lexeme) : Indifferent q (itemsOver close continues p clock) := by
    induction clock with
    | nil => exact indifferent_pure _
    | cons l clock ih =>
      refine peeks_atEnd.indifferent.bind fun _ => (indifferent_pure _).ite ?_
      refine indifferent_if_nextIs (indifferent_pure _) (h.bind fun x => hcontinues.bind fun _ => ?_)
      exact (ih.bind fun _ => indifferent_pure _).ite (indifferent_pure _)
  exact ⟨onward_itemsUntil h.onward hcontinues.onward,
    fun allowed {_ s _ _} hx => (hover s.rest).run allowed hx⟩

end Parser

/-! ### Levels of nesting -/

/-- What is nested in an expression is read indifferently. -/
structure Nested.Indifferent (d : Nested) : Prop where
  expression : Parser.Indifferent True d.expression
  operand : Parser.Indifferent True d.operand
  exponent : Parser.Indifferent True d.exponent
  typeName : Parser.Indifferent True d.typeName

namespace Grammar

variable {q : Prop} {d : Nested}

/-! ### Type names -/

theorem indifferent_path : Indifferent q path := by
  refine indifferent_identifier.bind fun first => (indifferent_many ?_).bind fun _ => indifferent_spanned
  refine indifferent_if_nextIs ((peeks_peek 1).indifferent.bind fun o => ?_) (indifferent_pure _)
  refine Indifferent.ite (indifferent_advance.bind fun _ => ?_) (indifferent_pure _)
  exact indifferent_identifier.bind fun _ => indifferent_pure _

theorem indifferent_elementaryTypeName (allowPayable : Bool) :
    Indifferent q (elementaryTypeName allowPayable) := by
  refine indifferent_here.bind fun _ => indifferent_next fun next => ?_
  split
  · split
    · exact indifferent_fail _
    · refine indifferent_advance.bind fun _ => .ite ?_ indifferent_spanned
      exact indifferent_if_accept indifferent_spanned indifferent_spanned
  · exact indifferent_unexpected _

theorem indifferent_storageLocation? : Indifferent q storageLocation? := by
  refine peeks_nextWord.indifferent.bind fun o => ?_
  split
  · exact indifferent_advance.bind fun _ => indifferent_pure _
  · exact indifferent_pure _

theorem indifferent_identifier? : Indifferent q identifier? := by
  refine peeks_nextWord.indifferent.bind fun o => ?_
  split
  · exact indifferent_identifier.bind fun _ => indifferent_pure _
  · exact indifferent_pure _

theorem indifferent_functionTypeAttributes : Indifferent q functionTypeAttributes := by
  refine indifferent_many (indifferent_here.bind fun _ => peeks_nextWord.indifferent.bind fun o => ?_)
  split
  · exact indifferent_advance.bind fun _ => indifferent_pure _
  · exact indifferent_pure _

theorem indifferent_mappingKey : Indifferent q mappingKey := by
  refine indifferent_next fun next => ?_
  split
  · exact (indifferent_elementaryTypeName false).bind fun _ => indifferent_pure _
  · exact indifferent_path.bind fun _ => indifferent_pure _
  · exact indifferent_here.bind fun _ => indifferent_fail _

section

variable (hd : d.Indifferent)
include hd

theorem indifferent_parameters : Indifferent True (parameters d) := by
  have hparameter : Indifferent True (parameter d) :=
    indifferent_here.bind fun _ => hd.typeName.bind fun _ => indifferent_storageLocation?.bind fun _ =>
      indifferent_identifier?.bind fun _ => indifferent_spanned
  refine (indifferent_symbol _).bind fun _ => indifferent_if_accept (indifferent_pure _) ?_
  refine (indifferent_separated hparameter).bind fun _ => ?_
  exact (indifferent_symbol _).bind fun _ => indifferent_pure _

theorem indifferent_mappingType : Indifferent True (mappingType d) :=
  (indifferent_take _ _).bind fun _ => (indifferent_symbol _).bind fun _ =>
    indifferent_mappingKey.bind fun _ => (indifferent_symbol _).bind fun _ =>
      hd.typeName.bind fun _ => (indifferent_symbol _).bind fun _ => indifferent_spanned

theorem indifferent_functionType : Indifferent True (functionType d) :=
  (indifferent_take _ _).bind fun _ => (indifferent_parameters hd).bind fun _ =>
    indifferent_functionTypeAttributes.bind fun _ =>
      (indifferent_if_accept (indifferent_parameters hd) (indifferent_pure _)).bind fun _ =>
        indifferent_spanned

theorem indifferent_baseType : Indifferent True (baseType d) := by
  refine indifferent_next fun next => ?_
  split
  · exact (indifferent_elementaryTypeName true).bind fun _ => indifferent_pure _
  · exact indifferent_mappingType hd
  · exact indifferent_functionType hd
  · exact indifferent_path.bind fun _ => indifferent_pure _
  · exact indifferent_unexpected _

theorem indifferent_arraySuffix? (T : TypeName) : Indifferent True (arraySuffix? d T) := by
  refine indifferent_if_accept ?_ (indifferent_pure _)
  have hclose (size : Option Expr) : Indifferent True (symbol .rightBracket >>= fun _ =>
      spanFrom T.span >>= fun span => pure (some (TypeName.array T size span))) :=
    (indifferent_symbol _).bind fun _ => indifferent_spanned
  exact indifferent_if_nextIs ((indifferent_pure none).bind hclose) (hd.expression.map.bind hclose)

theorem indifferent_typeName : Indifferent True (typeName d) :=
  (indifferent_baseType hd).bind (indifferent_iterate (indifferent_arraySuffix? hd))

/-! ### Brackets -/

theorem indifferent_inside : Indifferent q (inside d) :=
  hd.expression.onward.indifferent_structLiterals true

theorem indifferent_namedArguments : Indifferent q (namedArguments d) := by
  have hargument : Indifferent True (namedArgument d) :=
    indifferent_identifier.bind fun _ => (indifferent_symbol _).bind fun _ =>
      hd.expression.bind fun _ => indifferent_spanned
  have harguments : Indifferent True (symbol .leftBrace >>= fun _ =>
      commaItems .rightBrace (namedArgument d) >>= fun as => symbol .rightBrace >>= fun _ => pure as) :=
    (indifferent_symbol _).bind fun _ => (indifferent_itemsUntil hargument
      (indifferent_accept _)).bind fun _ => (indifferent_symbol _).bind fun _ => indifferent_pure _
  exact harguments.onward.indifferent_structLiterals true

theorem indifferent_callArguments : Indifferent q (callArguments d) := by
  refine (indifferent_symbol _).bind fun _ => indifferent_if_nextIs ?_ ?_
  · refine (indifferent_namedArguments hd).bind fun _ => ?_
    exact (indifferent_symbol _).bind fun _ => indifferent_spanned
  · have hcontinues : Indifferent q argumentsContinue :=
      indifferent_if_nextIs (indifferent_pure _) ((indifferent_symbol _).bind fun _ => indifferent_pure _)
    refine (indifferent_itemsUntil (indifferent_inside hd) hcontinues).bind fun _ => ?_
    exact (indifferent_symbol _).bind fun _ => indifferent_spanned

theorem indifferent_parenthesizedOrTuple : Indifferent q (parenthesizedOrTuple d) := by
  have hplace : Indifferent q (tuplePlace (inside d)) :=
    indifferent_if_nextIs (indifferent_pure _) (indifferent_if_nextIs (indifferent_pure _)
      ((indifferent_inside hd).bind fun _ => indifferent_pure _))
  refine (indifferent_symbol _).bind fun _ => indifferent_if_accept indifferent_spanned ?_
  refine (indifferent_separated hplace).bind fun elements => (indifferent_symbol _).bind fun _ => ?_
  refine (indifferent_spanFrom _).bind fun span => ?_
  split
  · exact indifferent_pure _
  · exact indifferent_pure _

theorem indifferent_inlineArray : Indifferent q (inlineArray d) :=
  (indifferent_symbol _).bind fun _ =>
    (indifferent_itemsUntil (indifferent_inside hd) (indifferent_accept _)).bind fun _ =>
      (indifferent_symbol _).bind fun _ => indifferent_spanned

theorem indifferent_indexOrSlice (base : Expr) : Indifferent q (indexOrSlice d base) := by
  have hbound (stop : Symbol) : Indifferent q (bound? d stop) :=
    indifferent_if_nextIs (indifferent_pure _) (indifferent_inside hd).map
  refine (indifferent_symbol _).bind fun _ => indifferent_if_accept indifferent_spanned ?_
  refine (hbound _).bind fun _ => indifferent_if_accept ?_ ?_
  · exact (hbound _).bind fun _ => (indifferent_symbol _).bind fun _ => indifferent_spanned
  · exact (indifferent_symbol _).bind fun _ => indifferent_spanned

/-! ### Primary expressions and what follows them -/

omit hd in
theorem indifferent_literal {a : Token} {p : Parser Literal} (h : literal? a = some p) :
    Indifferent q p := by
  have hword (value : Bool) : Indifferent q (here >>= fun span => advance >>= fun _ =>
      pure (Literal.boolean value span)) :=
    indifferent_here.bind fun _ => indifferent_advance.bind fun _ => indifferent_pure _
  have hnumber (value : String) (kind : NumberKind) : Indifferent q (numberLiteral value kind) := by
    refine indifferent_here.bind fun _ => indifferent_advance.bind fun _ => ?_
    refine peeks_nextWord.indifferent.bind fun o => .ite ?_ indifferent_spanned
    exact indifferent_advance.bind fun _ => indifferent_spanned
  have hparts {α : Type} (part? : Token → Option α) : Indifferent q (many (stringPart? part?)) := by
    refine indifferent_many (indifferent_here.bind fun _ => indifferent_next fun next => ?_)
    split
    · exact indifferent_advance.bind fun _ => indifferent_pure _
    · exact indifferent_pure _
  have hbytes (part? : Token → Option (List UInt8)) : Indifferent q (byteStrings part?) :=
    indifferent_here.bind fun _ => (hparts part?).bind fun _ => indifferent_spanned
  have hhex : Indifferent q hexStrings :=
    indifferent_here.bind fun _ => (hparts _).bind fun _ => indifferent_spanned
  unfold literal? at h
  split at h
  all_goals try cases h
  · exact hword true
  · exact hword false
  · exact hnumber _ _
  · exact hnumber _ _
  · exact (hbytes _).map
  · exact hhex.map
  · exact (hbytes _).map

theorem indifferent_identifierExpr (name : String) : Indifferent True (identifierExpr d name) := by
  have hname : Indifferent True (identifier >>= fun i => pure (Expr.identifier i)) :=
    indifferent_identifier.bind fun _ => indifferent_pure _
  refine (peeks_peek 1).indifferent.bind fun _ => .ite (.ite ?_ (.ite ?_ hname)) hname
  · exact (indifferent_take _ _).bind fun _ => (indifferent_callArguments hd).bind fun _ =>
      indifferent_spanned
  · exact (indifferent_take _ _).bind fun _ => (indifferent_symbol _).bind fun _ =>
      hd.typeName.bind fun _ => (indifferent_symbol _).bind fun _ => indifferent_spanned

theorem indifferent_primaryExpr : Indifferent True (primaryExpr d) := by
  refine indifferent_next fun next => ?_
  rcases next with _ | a
  · exact indifferent_unexpected _
  dsimp only
  cases hp : literal? a with
  | some p => exact (indifferent_literal hp).bind fun _ => indifferent_pure _
  | none =>
    dsimp only
    split
    · exact indifferent_identifierExpr hd _
    · refine (indifferent_elementaryTypeName false).bind fun _ => indifferent_if_accept ?_ ?_
      · exact (indifferent_inside hd).bind fun _ => (indifferent_symbol _).bind fun _ =>
          indifferent_spanned
      · exact indifferent_pure _
    · exact (indifferent_take _ _).bind fun _ => hd.typeName.bind fun _ => indifferent_spanned
    · exact indifferent_parenthesizedOrTuple hd
    · exact indifferent_inlineArray hd
    · exact indifferent_unexpected _

theorem indifferent_suffix? (e : Expr) : Indifferent True (suffix? d e) := by
  refine indifferent_next_of_braceless (fun next hnext => ?_) ?_
  · split
    · exact (indifferent_indexOrSlice hd e).map
    · exact indifferent_advance.bind fun _ => indifferent_identifier.bind fun _ => indifferent_spanned
    · exact (indifferent_callArguments hd).bind fun _ => indifferent_spanned
    · exact absurd rfl hnext
    · split
      · exact indifferent_advance.bind fun _ => indifferent_spanned
      · exact indifferent_pure _
    · exact indifferent_pure _
  · refine peeks_fieldsBegin.looks.onward.bind fun _ => .ite (fun _ => ?_) fun _ => onward_pure _
    exact onward_structFields? (indifferent_namedArguments (q := True) hd).onward

theorem indifferent_unaryExpr : Indifferent True (unaryExpr d) := by
  have hsuffixed : Indifferent True (suffixedExpr d) :=
    (indifferent_primaryExpr hd).bind (indifferent_iterate (indifferent_suffix? hd))
  refine indifferent_here.bind fun _ => indifferent_next fun next => ?_
  rcases next with _ | a
  · exact hsuffixed
  dsimp only
  split
  · exact indifferent_advance.bind fun _ => hd.operand.bind fun _ => indifferent_spanned
  · exact indifferent_advance.bind fun _ => hd.operand.bind fun _ => indifferent_spanned
  · exact hsuffixed

theorem indifferent_powerExpr : Indifferent True (powerExpr d) :=
  (indifferent_unaryExpr hd).bind fun _ => indifferent_if_accept
    (hd.exponent.bind fun _ => indifferent_pure _) (indifferent_pure _)

theorem indifferent_binaryExpr : ∀ tiers, Indifferent True (binaryExpr d tiers)
  | [] => indifferent_powerExpr hd
  | _ :: tighter => by
    have hoperand := indifferent_binaryExpr tighter
    refine hoperand.bind (indifferent_iterate fun left => indifferent_next fun next => ?_)
    split
    · exact indifferent_advance.bind fun _ => hoperand.bind fun _ => indifferent_pure _
    · exact indifferent_pure _

theorem indifferent_conditionalExpr : Indifferent True (conditionalExpr d) := by
  refine (indifferent_binaryExpr hd _).bind fun _ => indifferent_if_accept ?_ (indifferent_pure _)
  exact (indifferent_inside hd).bind fun _ => (indifferent_symbol _).bind fun _ =>
    hd.expression.bind fun _ => indifferent_pure _

theorem indifferent_expression : Indifferent True (expression d) := by
  refine (indifferent_conditionalExpr hd).bind fun _ => indifferent_next fun next => ?_
  split
  · exact indifferent_pure _
  · refine indifferent_advance.bind fun _ => .ite ?_ (indifferent_fail _)
    exact hd.expression.bind fun _ => indifferent_pure _

end

end Grammar

theorem Nested.indifferent_ofDepth : ∀ n, (Nested.ofDepth n).Indifferent
  | 0 => by
    have htooDeep {α : Type} : Parser.Indifferent True (tooDeep : Parser α) :=
      indifferent_here.bind fun _ => indifferent_fail _
    exact ⟨htooDeep, htooDeep, htooDeep, htooDeep⟩
  | n + 1 =>
    have hd := indifferent_ofDepth n
    ⟨Grammar.indifferent_expression hd, Grammar.indifferent_unaryExpr hd,
      Grammar.indifferent_powerExpr hd, Grammar.indifferent_typeName hd⟩

end SolidityFrontend
