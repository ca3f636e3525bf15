import SolidityFrontend.Proofs.EchoingExpr
import SolidityFrontend.Proofs.ReadingBack

/-!
# Parsers that record no error

Only statements, the parts of bodies and some directives record errors. The parsers for type names and
expressions leave the recorded errors as they are, whether they fail or not.
-/

namespace SolidityFrontend

open SolidityFrontend.Parser

namespace Parser

variable {α β : Type} {p q : Parser α} {f : α → Parser β}

/-- The parser leaves the recorded errors as they are. -/
def Silent (p : Parser α) : Prop := ∀ c s, (p c s).2.errors = s.errors

theorem Silent.eq {c : Context} {s t : State} {r : Except SyntaxError α} (h : Silent p)
    (hp : p c s = (r, t)) : t.errors = s.errors := by
  have hs := h c s
  rwa [hp] at hs

theorem Looks.silent {g : Context → State → α} (h : Looks p g) : Silent p :=
  fun c s => by rw [h c s]

theorem Sees.silent {g : List Token → α} (h : Sees p g) : Silent p := fun c s => by rw [h c s]

theorem silent_pure (x : α) : Silent (pure x) := fun _ _ => rfl

theorem silent_fail (e : SyntaxError) : Silent (fail e : Parser α) := fun _ _ => rfl

theorem silent_violation (v : Violation) (span : Span) : Silent (violation v span : Parser α) :=
  silent_fail _

theorem Silent.bind (h : Silent p) (hf : ∀ x, Silent (f x)) : Silent (p >>= f) := by
  intro c s
  rcases hp : p c s with ⟨e | x, t⟩
  · rw [bind_error hp]
    exact h.eq hp
  · rw [bind_ok hp, hf x c t]
    exact h.eq hp

theorem Silent.map {g : α → β} (h : Silent p) : Silent (g <$> p) :=
  h.bind fun _ => silent_pure _

theorem Silent.ite {b : Prop} [Decidable b] (h : Silent p) (h' : Silent q) :
    Silent (if b then p else q) := by
  split
  · exact h
  · exact h'

theorem Silent.structLiterals {allowed : Bool} (h : Silent p) :
    Silent (structLiterals allowed p) := fun _ s => h _ s

theorem silent_advance : Silent advance := by
  intro c s
  change s.advance.errors = s.errors
  rw [State.advance]
  cases s.rest <;> rfl

/-! ### Tokens -/

theorem silent_here {l : Span → Parser α} (h : ∀ a, Silent (l a)) : Silent (here >>= l) :=
  looks_here.silent.bind h

theorem silent_spanFrom {start : Span} {l : Span → Parser α} (h : ∀ a, Silent (l a)) :
    Silent (spanFrom start >>= l) := (looks_spanFrom start).silent.bind h

theorem silent_next {l : Option Token → Parser α} (h : ∀ o, Silent (l o)) : Silent (next? >>= l) :=
  sees_next.silent.bind h

theorem silent_if_nextIs {t : Token} (h : Silent p) (h' : Silent q) :
    Silent (nextIs t >>= fun b => if b = true then p else q) :=
  (sees_nextIs t).silent.bind fun _ => h.ite h'

theorem silent_accept (t : Token) : Silent (accept t) :=
  silent_if_nextIs (silent_advance.bind fun _ => silent_pure _) (silent_pure _)

theorem silent_if_accept {t : Token} (h : Silent p) (h' : Silent q) :
    Silent (accept t >>= fun b => if b = true then p else q) :=
  (silent_accept t).bind fun _ => h.ite h'

theorem silent_unexpected (e : Expected) : Silent (unexpected e : Parser α) :=
  silent_here fun _ => silent_next fun o => by cases o <;> exact silent_fail _

theorem silent_take (t : Token) (e : Expected) : Silent (take t e) :=
  silent_here fun _ => silent_if_accept (silent_pure _) (silent_unexpected e)

theorem silent_keyword (word : Keyword) : Silent (keyword word) := silent_take _ _

theorem silent_word (w : String) : Silent (word w) := silent_take _ _

theorem silent_symbol (t : Symbol) : Silent (symbol t) :=
  silent_here fun _ => silent_if_accept (silent_pure _)
    ((looks_previousSpan.silent.bind fun _ => silent_fail _).ite (silent_unexpected _))

theorem silent_identifier : Silent identifier :=
  silent_here fun _ => sees_nextWord.silent.bind fun o => by
    cases o with
    | none => exact silent_unexpected _
    | some name => exact silent_advance.bind fun _ => silent_pure _

theorem silent_identifier? : Silent identifier? :=
  sees_nextWord.silent.bind fun o => by
    cases o with
    | none => exact silent_pure _
    | some name => exact silent_identifier.bind fun _ => silent_pure _

/-! ### Repetition -/

theorem silent_iterate {step : α → Parser (Option α)} (h : ∀ x, Silent (step x)) (x : α) :
    Silent (iterate step x) := by
  have hover (clock : List Lexeme) (x : α) : Silent (iterateOver step clock x) := by
    induction clock generalizing x with
    | nil => exact silent_pure x
    | cons l clock ih =>
      refine (h x).bind fun o => ?_
      cases o with
      | none => exact silent_pure x
      | some y => exact ih y
  exact fun c s => hover s.rest x c s

theorem silent_many {more : Parser (Option α)} (h : Silent more) : Silent (many more) := by
  have hover (clock : List Lexeme) : Silent (manyOver more clock) := by
    induction clock with
    | nil => exact silent_pure []
    | cons l clock ih =>
      refine h.bind fun o => ?_
      cases o with
      | none => exact silent_pure []
      | some x => exact ih.bind fun _ => silent_pure _
  exact fun c s => hover s.rest c s

theorem silent_separated (h : Silent p) : Silent (separated p) :=
  h.bind fun _ => (silent_many (silent_if_accept (h.bind fun _ => silent_pure _)
    (silent_pure _))).bind fun _ => silent_pure _

theorem silent_itemsUntil {close : Symbol} {continues : Parser Bool} (h : Silent p)
    (hcontinues : Silent continues) : Silent (itemsUntil close continues p) := by
  have hover (clock : List Lexeme) : Silent (itemsOver close continues p clock) := by
    induction clock with
    | nil => exact silent_pure []
    | cons l clock ih =>
      refine sees_atEnd.silent.bind fun _ => (silent_pure _).ite ?_
      refine silent_if_nextIs (silent_pure _) (h.bind fun x => hcontinues.bind fun _ => ?_)
      exact (ih.bind fun _ => silent_pure _).ite (silent_pure _)
  exact fun c s => hover s.rest c s

end Parser

/-- The parsers for expressions and type names of a level record no error. -/
structure Nested.Silent (d : Nested) : Prop where
  expression : d.expression.Silent
  operand : d.operand.Silent
  exponent : d.exponent.Silent
  typeName : d.typeName.Silent

namespace Grammar

variable {d : Nested} (hd : d.Silent)

/-! ### Type names -/

theorem silent_elementaryTypeName (allowPayable : Bool) :
    Silent (elementaryTypeName allowPayable) := by
  refine silent_here fun start => silent_next fun next => ?_
  split
  · split
    · exact silent_violation _ _
    · refine silent_advance.bind fun _ => Silent.ite ?_ (silent_spanFrom fun _ => silent_pure _)
      exact silent_if_accept (silent_spanFrom fun _ => silent_pure _)
        (silent_spanFrom fun _ => silent_pure _)
  · exact silent_unexpected _

theorem silent_path : Silent path := by
  refine silent_identifier.bind fun first => (silent_many ?_).bind fun more =>
    silent_spanFrom fun _ => silent_pure _
  refine silent_if_nextIs ((sees_peek 1).silent.bind fun _ => Silent.ite ?_ (silent_pure _))
    (silent_pure _)
  exact silent_advance.bind fun _ => silent_identifier.bind fun _ => silent_pure _

theorem silent_storageLocation? : Silent storageLocation? :=
  sees_nextWord.silent.bind fun o => by
    cases o.bind StorageLocation.ofWord? with
    | none => exact silent_pure _
    | some location => exact silent_advance.bind fun _ => silent_pure _

theorem silent_functionTypeAttributes : Silent functionTypeAttributes := by
  refine silent_many (silent_here fun span => sees_nextWord.silent.bind fun o => ?_)
  cases o.bind (functionTypeAttribute? · span) with
  | none => exact silent_pure _
  | some a => exact silent_advance.bind fun _ => silent_pure _

theorem silent_mappingKey : Silent mappingKey := by
  refine silent_next fun next => ?_
  split
  · exact (silent_elementaryTypeName false).bind fun _ => silent_pure _
  · exact silent_path.bind fun _ => silent_pure _
  · exact silent_here fun _ => silent_violation _ _

include hd

theorem silent_parameter : Silent (parameter d) :=
  silent_here fun _ => hd.typeName.bind fun _ => silent_storageLocation?.bind fun _ =>
    silent_identifier?.bind fun _ => silent_spanFrom fun _ => silent_pure _

theorem silent_parameters : Silent (parameters d) :=
  (silent_symbol _).bind fun _ => silent_if_accept (silent_pure _)
    ((silent_separated (silent_parameter hd)).bind fun _ => (silent_symbol _).bind fun _ =>
      silent_pure _)

theorem silent_returnParameters : Silent (returnParameters d) :=
  silent_if_accept (silent_parameters hd) (silent_pure _)

theorem silent_mappingType : Silent (mappingType d) :=
  (silent_keyword _).bind fun _ => (silent_symbol _).bind fun _ => silent_mappingKey.bind fun _ =>
    (silent_symbol _).bind fun _ => hd.typeName.bind fun _ => (silent_symbol _).bind fun _ =>
      silent_spanFrom fun _ => silent_pure _

theorem silent_functionType : Silent (functionType d) :=
  (silent_keyword _).bind fun _ => (silent_parameters hd).bind fun _ =>
    silent_functionTypeAttributes.bind fun _ => (silent_returnParameters hd).bind fun _ =>
      silent_spanFrom fun _ => silent_pure _

theorem silent_arraySuffix? (type : TypeName) : Silent (arraySuffix? d type) := by
  have hclose (size : Option Expr) : Silent (symbol .rightBracket >>= fun _ =>
      spanFrom type.span >>= fun span => pure (some (TypeName.array type size span))) :=
    (silent_symbol _).bind fun _ => silent_spanFrom fun _ => silent_pure _
  refine silent_if_accept (silent_if_nextIs ((silent_pure _).bind hclose) ?_) (silent_pure _)
  exact (hd.expression.map (g := some)).bind hclose

theorem silent_typeName : Silent (typeName d) := by
  refine Silent.bind (silent_next fun next => ?_) (silent_iterate (silent_arraySuffix? hd))
  split
  · exact (silent_elementaryTypeName true).bind fun _ => silent_pure _
  · exact silent_mappingType hd
  · exact silent_functionType hd
  · exact silent_path.bind fun _ => silent_pure _
  · exact silent_unexpected _

/-! ### Expressions -/

omit hd in
theorem silent_stringPart? {α : Type} (part? : Token → Option α) : Silent (stringPart? part?) := by
  refine silent_here fun span => silent_next fun o => ?_
  cases o.bind part? with
  | none => exact silent_pure _
  | some part => exact silent_advance.bind fun _ => silent_pure _

omit hd in
theorem silent_literal {t : Token} {p : Parser Literal} (h : literal? t = some p) : Silent p := by
  have hboolean (value : Bool) : Silent (here >>= fun span => advance >>= fun _ =>
      pure (Literal.boolean value span)) :=
    silent_here fun _ => silent_advance.bind fun _ => silent_pure _
  have hnumber (value : String) (kind : NumberKind) : Silent (numberLiteral value kind) := by
    refine silent_here fun _ => silent_advance.bind fun _ => sees_nextWord.silent.bind fun o => ?_
    exact Silent.ite (silent_advance.bind fun _ => silent_spanFrom fun _ => silent_pure _)
      (silent_spanFrom fun _ => silent_pure _)
  have hbytes (part? : Token → Option (List UInt8)) : Silent (byteStrings part?) :=
    silent_here fun _ => (silent_many (silent_stringPart? part?)).bind fun _ =>
      silent_spanFrom fun _ => silent_pure _
  have hhex : Silent hexStrings :=
    silent_here fun _ => (silent_many (silent_stringPart? hexPart?)).bind fun _ =>
      silent_spanFrom fun _ => silent_pure _
  unfold literal? at h
  split at h
  · exact Option.some.inj h ▸ hboolean true
  · exact Option.some.inj h ▸ hboolean false
  · exact Option.some.inj h ▸ hnumber _ _
  · exact Option.some.inj h ▸ hnumber _ _
  · exact Option.some.inj h ▸ (hbytes _).map
  · exact Option.some.inj h ▸ hhex.map
  · exact Option.some.inj h ▸ (hbytes _).map
  · simp at h

theorem silent_inside : Silent (inside d) := hd.expression.structLiterals

theorem silent_namedArguments : Silent (namedArguments d) := by
  have hargument : Silent (namedArgument d) :=
    silent_identifier.bind fun _ => (silent_symbol _).bind fun _ => hd.expression.bind fun _ =>
      silent_spanFrom fun _ => silent_pure _
  refine Silent.structLiterals ((silent_symbol _).bind fun _ => ?_)
  exact (silent_itemsUntil hargument (silent_accept _)).bind fun _ => (silent_symbol _).bind fun _ =>
    silent_pure _

theorem silent_callArguments : Silent (callArguments d) := by
  have hcontinues : Silent argumentsContinue :=
    silent_if_nextIs (silent_pure _) ((silent_symbol _).bind fun _ => silent_pure _)
  refine (silent_symbol _).bind fun _ => silent_if_nextIs ?_ ?_
  · exact (silent_namedArguments hd).bind fun _ => (silent_symbol _).bind fun _ =>
      silent_spanFrom fun _ => silent_pure _
  · exact (silent_itemsUntil (silent_inside hd) hcontinues).bind fun _ =>
      (silent_symbol _).bind fun _ => silent_spanFrom fun _ => silent_pure _

theorem silent_callArguments? : Silent (callArguments? d) :=
  silent_if_nextIs ((silent_callArguments hd).bind fun _ => silent_pure _) (silent_pure _)

theorem silent_identifierExpr (name : String) : Silent (identifierExpr d name) := by
  have hname : Silent (identifier >>= fun i => pure (Expr.identifier i)) :=
    silent_identifier.bind fun _ => silent_pure _
  have hpayable : Silent (payableExpr d) :=
    (silent_word _).bind fun _ => (silent_callArguments hd).bind fun _ =>
      silent_spanFrom fun _ => silent_pure _
  have htype : Silent (metaTypeExpr d) :=
    (silent_word _).bind fun _ => (silent_symbol _).bind fun _ => hd.typeName.bind fun _ =>
      (silent_symbol _).bind fun _ => silent_spanFrom fun _ => silent_pure _
  exact (sees_peek 1).silent.bind fun _ => (hpayable.ite (htype.ite hname)).ite hname

theorem silent_primaryExpr : Silent (primaryExpr d) := by
  have hplace : Silent (tuplePlace (inside d)) :=
    silent_if_nextIs (silent_pure _) (silent_if_nextIs (silent_pure _)
      ((silent_inside hd).bind fun _ => silent_pure _))
  refine silent_next fun o => ?_
  rcases o with _ | t
  · exact silent_unexpected _
  dsimp only
  cases hliteral : literal? t with
  | some p => exact (silent_literal hliteral).bind fun _ => silent_pure _
  | none =>
    dsimp only
    split
    · exact silent_identifierExpr hd _
    · exact (silent_elementaryTypeName false).bind fun _ => silent_if_accept
        ((silent_inside hd).bind fun _ => (silent_symbol _).bind fun _ =>
          silent_spanFrom fun _ => silent_pure _) (silent_pure _)
    · exact (silent_keyword _).bind fun _ => hd.typeName.bind fun _ =>
        silent_spanFrom fun _ => silent_pure _
    · refine (silent_symbol _).bind fun _ => silent_if_accept
        (silent_spanFrom fun _ => silent_pure _) ?_
      refine (silent_separated hplace).bind fun elements => (silent_symbol _).bind fun _ =>
        silent_spanFrom fun span => ?_
      split <;> exact silent_pure _
    · exact (silent_symbol _).bind fun _ => (silent_itemsUntil (silent_inside hd)
        (silent_accept _)).bind fun _ => (silent_symbol _).bind fun _ =>
          silent_spanFrom fun _ => silent_pure _
    · exact silent_unexpected _

theorem silent_structFields? (type : Expr) : Silent (structFields? d type) := by
  intro c s
  rw [structFields?_eq]
  rcases hfields : namedArguments d c s with ⟨e | fields, t⟩
  · exact (silent_namedArguments hd).eq hfields
  · dsimp only
    split
    · rw [silent_spanFrom (fun _ => silent_pure _) c t]
      exact (silent_namedArguments hd).eq hfields
    · rfl

theorem silent_suffix? (e : Expr) : Silent (suffix? d e) := by
  have hbound (stop : Symbol) : Silent (bound? d stop) :=
    silent_if_nextIs (silent_pure _) ((silent_inside hd).bind fun _ => silent_pure _)
  have hindex : Silent (indexOrSlice d e) := by
    refine (silent_symbol _).bind fun _ => silent_if_accept
      (silent_spanFrom fun _ => silent_pure _) ((hbound _).bind fun lower => silent_if_accept ?_ ?_)
    · exact (hbound _).bind fun _ => (silent_symbol _).bind fun _ =>
        silent_spanFrom fun _ => silent_pure _
    · exact (silent_symbol _).bind fun _ => silent_spanFrom fun _ => silent_pure _
  refine silent_next fun o => ?_
  split
  · exact hindex.bind fun _ => silent_pure _
  · exact silent_advance.bind fun _ => silent_identifier.bind fun _ =>
      silent_spanFrom fun _ => silent_pure _
  · exact (silent_callArguments hd).bind fun _ => silent_spanFrom fun _ => silent_pure _
  · exact sees_fieldsBegin.silent.bind fun _ => (silent_structFields? hd e).ite (silent_pure _)
  · split
    · exact silent_advance.bind fun _ => silent_spanFrom fun _ => silent_pure _
    · exact silent_pure _
  · exact silent_pure _

theorem silent_unaryExpr : Silent (unaryExpr d) := by
  have hsuffixed : Silent (suffixedExpr d) :=
    (silent_primaryExpr hd).bind (silent_iterate (silent_suffix? hd))
  refine silent_here fun start => silent_next fun o => ?_
  split
  · exact hsuffixed
  · split
    · exact silent_advance.bind fun _ => hd.operand.bind fun _ =>
        silent_spanFrom fun _ => silent_pure _
    · exact silent_advance.bind fun _ => hd.operand.bind fun _ =>
        silent_spanFrom fun _ => silent_pure _
    · exact hsuffixed

theorem silent_powerExpr : Silent (powerExpr d) :=
  (silent_unaryExpr hd).bind fun _ => silent_if_accept (hd.exponent.bind fun _ => silent_pure _)
    (silent_pure _)

theorem silent_binaryExpr : ∀ tiers, Silent (binaryExpr d tiers)
  | [] => silent_powerExpr hd
  | ops :: tighter => by
    refine (silent_binaryExpr tighter).bind (silent_iterate fun left => silent_next fun o => ?_)
    cases o.bind (BinaryOp.ofToken? ops) with
    | none => exact silent_pure _
    | some op => exact silent_advance.bind fun _ => (silent_binaryExpr tighter).bind fun _ =>
        silent_pure _

theorem silent_expression : Silent (expression d) := by
  refine Silent.bind ((silent_binaryExpr hd _).bind fun _ => silent_if_accept
    ((silent_inside hd).bind fun _ => (silent_symbol _).bind fun _ => hd.expression.bind fun _ =>
      silent_pure _) (silent_pure _)) fun left => silent_next fun o => ?_
  cases o.bind AssignOp.ofToken? with
  | none => exact silent_pure _
  | some op =>
    refine silent_advance.bind fun _ => Silent.ite ?_ (silent_violation _ _)
    exact hd.expression.bind fun _ => silent_pure _

end Grammar

/-! ### Levels of nesting -/

theorem Nested.silent_tooDeep {α : Type} : (tooDeep : Parser α).Silent :=
  silent_here fun _ => silent_violation _ _

theorem Nested.silent_ofDepth : ∀ n, (ofDepth n).Silent
  | 0 => ⟨silent_tooDeep, silent_tooDeep, silent_tooDeep, silent_tooDeep⟩
  | n + 1 => ⟨Grammar.silent_expression (silent_ofDepth n), Grammar.silent_unaryExpr (silent_ofDepth n),
    Grammar.silent_powerExpr (silent_ofDepth n), Grammar.silent_typeName (silent_ofDepth n)⟩

end SolidityFrontend
