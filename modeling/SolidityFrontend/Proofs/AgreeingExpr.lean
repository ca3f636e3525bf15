import SolidityFrontend.Grammar.Level
import SolidityFrontend.Proofs.ReadingOperator
import SolidityFrontend.Proofs.Resuming

/-!
# Type names and expressions in two readings

The parsers for type names and expressions give the same in both readings of a passage, if those of
the level below do.
-/

namespace SolidityFrontend

open SolidityFrontend.Parser

/-- The parsers of a level of nesting are sound, and agree in the readings of every passage with
braces. Statements are read only where a brace is open. -/
structure Nested.Agreed (deeper : Nested) : Prop extends deeper.Sound where
  expression_agreed : ∀ (H : Passage) [H.Braced] n, Parser.Agreed H n deeper.expression
  operand_agreed : ∀ (H : Passage) [H.Braced] n, Parser.Agreed H n deeper.operand
  exponent_agreed : ∀ (H : Passage) [H.Braced] n, Parser.Agreed H n deeper.exponent
  typeName_agreed : ∀ (H : Passage) [H.Braced] n, Parser.Agreed H n deeper.typeName
  statement_agreed : ∀ (H : Passage) [H.Braced] n, Parser.Agreed H (n + 1) deeper.statement

namespace Grammar

variable {H : Passage} {k n : Nat}

/-! ### Type names -/

theorem agrees_elementaryTypeName (allowPayable : Bool) :
    Parser.Agreed H n (elementaryTypeName allowPayable) := by
  refine agrees_here fun start => agrees_next fun next => ?_
  split
  · rename_i word
    cases ElementaryType.ofWord? word with
    | none => exact agrees_violation le_rfl _ start
    | some kind =>
      refine (agrees_advance (Passage.leads_inner rfl)).bind fun _ => agrees_ite (fun _ => ?_) ?_
      · refine agrees_if_accept (Passage.leads_inner rfl) ?_ ?_
        · exact agrees_spanFrom fun span => agrees_value rfl
        · exact agrees_spanFrom fun span => agrees_value rfl
      · exact fun _ => agrees_spanFrom fun span => agrees_value rfl
  · exact agrees_unexpected le_rfl _

theorem agrees_pathSegment? :
    Agrees H n n (H.before n) pathSegment? pathSegment? fun o => stepped H n o.isSome := by
  refine agrees_if_nextIs ?_ (agrees_pure rfl fun _ _ => id)
  refine agrees_peek_one (Passage.leads_inner rfl) fun next => agrees_ite (fun _ => ?_) fun _ => ?_
  · refine (agrees_advance (Passage.leads_inner rfl)).bind fun _ => ?_
    exact agrees_identifier.bind fun i => agrees_pure rfl fun _ _ => id
  · exact agrees_pure rfl fun _ _ => And.left

theorem agrees_path : Parser.Agreed H n path := by
  refine agrees_identifier.bind fun first => ?_
  refine ((agrees_many agrees_pathSegment?).amid fun _ _ _ => id).bind fun more => ?_
  exact agrees_spanFrom fun span => agrees_value rfl

theorem agrees_storageLocation? : Agrees H n n (H.before n) storageLocation? storageLocation?
    fun o => stepped H n o.isSome := by
  refine agrees_nextWord (fun name => ?_) (agrees_pure rfl fun _ _ => id)
  split
  · refine (agrees_advance (Passage.leads_inner rfl)).bind fun _ => ?_
    exact agrees_pure rfl fun _ _ => id
  · exact agrees_pure rfl fun _ _ => And.left

theorem functionTypeAttribute?_move (word : String) (span : Span) :
    functionTypeAttribute? word (H.motion.span span)
      = H.move (functionTypeAttribute? word span) := by
  unfold functionTypeAttribute?
  split
  · rfl
  · rfl
  · cases Mutability.ofWord? word <;> rfl

theorem agrees_functionTypeAttributes : Agrees H n n (H.before n) functionTypeAttributes
    functionTypeAttributes fun _ => H.before n := by
  refine agrees_many (agrees_here fun span => ?_)
  refine agrees_nextWord (fun name => ?_) (agrees_pure rfl fun _ _ => id)
  simp only [Option.bind_some, functionTypeAttribute?_move]
  cases functionTypeAttribute? name span with
  | none => exact agrees_pure rfl fun _ _ => And.left
  | some a =>
    refine (agrees_advance (Passage.leads_inner rfl)).bind fun _ => ?_
    exact agrees_pure rfl fun _ _ => id

theorem agrees_mappingKey : Parser.Agreed H n mappingKey := by
  refine agrees_next fun next => ?_
  split
  · refine (agrees_elementaryTypeName false).then fun type => agrees_value rfl
  · exact agrees_path.then fun p => agrees_value rfl
  · exact agrees_here fun span => agrees_violation le_rfl _ span

section

variable {deeper : Nested} (hd : deeper.Agreed) [H.Braced]
include hd

theorem agrees_parameter : Parser.Agreed H n (parameter deeper) := by
  refine agrees_here fun start => (hd.typeName_agreed H n).bind fun type => ?_
  refine (agrees_storageLocation?.amid fun _ _ _ => inside_of_stepped).bind fun location => ?_
  refine (agrees_identifier?.amid fun _ _ _ => inside_of_stepped).bind fun name => ?_
  exact agrees_spanFrom fun span => agrees_value (by simp)

theorem agrees_parameters : Parser.Agreed H n (parameters deeper) := by
  refine (agrees_symbol rfl (Passage.leads_inner rfl)).bind fun _ => ?_
  refine agrees_if_accept (Passage.leads_inner rfl) (agrees_value rfl) ?_
  refine (agrees_separated (agrees_parameter hd).of_before).bind fun items => ?_
  exact (agrees_closing (Passage.leads_inner rfl)).bind fun _ => agrees_value rfl

theorem agrees_returnParameters : Agrees H n n (H.before n) (returnParameters deeper)
    (returnParameters deeper) fun _ => H.before n := by
  refine agrees_if_accept (Passage.leads_inner rfl) ?_ (agrees_value rfl)
  exact (agrees_parameters hd).mono (fun _ _ => And.left) fun _ _ _ => And.left

theorem agrees_mappingType : Parser.Agreed H n (mappingType deeper) := by
  refine (agrees_keyword .mapping).bind fun start => ?_
  refine (agrees_symbol rfl (Passage.leads_inner rfl)).bind fun _ => ?_
  refine agrees_mappingKey.then fun key => ?_
  refine (agrees_symbol rfl (Passage.leads_inner rfl)).bind fun _ => ?_
  refine (hd.typeName_agreed H n).then fun value => ?_
  refine (agrees_closing (Passage.leads_inner rfl)).bind fun _ => ?_
  exact agrees_spanFrom fun span => agrees_value rfl

theorem agrees_functionType : Parser.Agreed H n (functionType deeper) := by
  refine (agrees_keyword .function).bind fun start => ?_
  refine (agrees_parameters hd).then fun ps => ?_
  refine (agrees_functionTypeAttributes.amid fun _ _ _ => id).bind fun attributes => ?_
  refine ((agrees_returnParameters hd).amid fun _ _ _ => id).bind fun returns => ?_
  exact agrees_spanFrom fun span => agrees_value (by simp)

theorem agrees_arraySuffix? (type : TypeName) :
    Agrees H n n (H.before n) (arraySuffix? deeper type) (arraySuffix? deeper (H.move type))
      fun o => stepped H n o.isSome := by
  refine agrees_if_accept (Passage.leads_inner rfl) ?_ (agrees_pure rfl fun _ _ => id)
  refine agrees_if_nextIs_bind (M := fun _ => H.amid n) (agrees_pure rfl fun _ _ => And.left)
    ((hd.expression_agreed H n).of_before.map (fun _ => rfl) fun _ _ _ => id) fun size => ?_
  refine (agrees_closing (Passage.leads_inner rfl)).bind fun _ => ?_
  rw [TypeName.span_respan]
  exact agrees_spanFrom fun span => agrees_pure (by simp) fun _ _ => id

theorem agrees_baseType : Parser.Agreed H n (baseType deeper) := by
  refine agrees_next fun next => ?_
  split
  · exact (agrees_elementaryTypeName true).then fun type => agrees_value rfl
  · exact (agrees_mappingType hd).of_before
  · exact (agrees_functionType hd).of_before
  · exact agrees_path.then fun p => agrees_value rfl
  · exact agrees_unexpected le_rfl _

theorem agrees_typeName : Parser.Agreed H n (typeName deeper) :=
  (agrees_baseType hd).bind fun type => agrees_iterate type (agrees_arraySuffix? hd)

end

/-! ### Literals -/

theorem agrees_numberLiteral (value : String) (kind : NumberKind) {t : Token}
    (ht : Passage.isInner t) : Agrees H n n (seeing (H.before n) (some t)) (numberLiteral value kind)
      (numberLiteral value kind) fun _ => H.amid n := by
  refine agrees_here fun start => (agrees_advance (Passage.leads_inner ht)).bind fun _ => ?_
  refine agrees_nextWord (fun name => ?_) ?_
  · dsimp only
    refine agrees_ite (fun _ => ?_) fun _ =>
      agrees_spanFrom fun span => agrees_pure rfl fun _ _ => And.left
    refine (agrees_advance (Passage.leads_inner rfl)).bind fun _ => ?_
    exact agrees_spanFrom fun span => agrees_value rfl
  · exact agrees_spanFrom fun span => agrees_value rfl

section

variable {α : Type} [Placed α] {part? : Token → Option α}

/-- Strings of one kind are tokens that stand in any text alike. -/
def Plain (H : Passage) (part? : Token → Option α) : Prop :=
  ∀ t part, part? t = some part → Passage.isInner t ∧ H.move part = part

theorem agrees_stringPart? (hpart : Plain H part?) :
    Agrees H n n (H.before n) (stringPart? part?) (stringPart? part?)
      fun o => stepped H n o.isSome := by
  refine agrees_here fun span => agrees_next fun next => ?_
  cases hbind : next.bind part? with
  | none => exact agrees_pure rfl fun _ _ => And.left
  | some part =>
    obtain ⟨t, rfl, ht⟩ := Option.bind_eq_some_iff.1 hbind
    obtain ⟨hinner, hmove⟩ := hpart t part ht
    refine (agrees_advance (Passage.leads_inner hinner)).bind fun _ => ?_
    refine agrees_pure ?_ fun _ _ => id
    exact congrArg (fun x => some (x, H.motion.span span)) hmove.symm

/-- Where such a string was seen, it is taken. -/
theorem agrees_stringPart (hpart : Plain H part?) {t : Token} {part : α}
    (ht : part? t = some part) :
    Agrees H n n (seeing (H.before n) (some t)) (stringPart? part?) (stringPart? part?)
      fun o w₀ w => o.isSome ∧ H.amid n w₀ w where
  onward := (agrees_stringPart? (n := n) hpart).onward
  run c c' hc w₀ w s s' hs hw := by
    obtain ⟨hin, hnext⟩ := hw
    refine ((agrees_stringPart? hpart).same hc hs hin).imp_left fun hsame => ?_
    have hhead : s.rest[0]?.map Lexeme.token = some t := by
      rw [← List.head?_eq_getElem?, (hs.head hin).1, hnext]
    have hread : stringPart? part? c s = (.ok (some (part, s.nextSpan c.stop)), s.advance) := by
      rw [stringPart?, bind_ok (looks_here c s), bind_ok (peeks_next c s)]
      dsimp only
      rw [hhead, Option.bind_some, ht]
      rfl
    rw [hread] at hsame ⊢
    generalize stringPart? part? c' s' = a' at hsame ⊢
    cases hsame with
    | ok hx ht hO => exact .ok hx ht ⟨rfl, hO⟩

/-- Adjacent strings, the first of which was seen. -/
theorem agrees_stringParts (hpart : Plain H part?) {t : Token} {part : α}
    (ht : part? t = some part) :
    Agrees H n n (seeing (H.before n) (some t)) (many (stringPart? part?))
      (many (stringPart? part?)) fun _ => H.amid n :=
  agrees_many_cons (agrees_stringPart hpart ht) (agrees_stringPart? hpart)

end

theorem map_fst_move {α : Type} [Placed α] (h : ∀ x : α, H.move x = x) (parts : List (α × Span)) :
    (H.move parts).map Prod.fst = parts.map Prod.fst := by
  rw [Passage.move, respan_list, List.map_map]
  exact List.map_congr_left fun p _ => h p.1

theorem map_snd_move {α : Type} [Placed α] (parts : List (α × Span)) :
    (H.move parts).map Prod.snd = H.move (parts.map Prod.snd) := by
  rw [Passage.move, Passage.move, respan_list, respan_list, List.map_map, List.map_map]
  rfl

theorem agrees_byteStrings {part? : Token → Option (List UInt8)} (hpart : Plain H part?) {t : Token}
    {bytes : List UInt8} (ht : part? t = some bytes) :
    Agrees H n n (seeing (H.before n) (some t)) (byteStrings part?) (byteStrings part?)
      fun _ => H.amid n := by
  refine agrees_here fun start => (agrees_stringParts hpart ht).bind fun parts => ?_
  have hbytes : (H.move parts).flatMap Prod.fst = parts.flatMap Prod.fst := by
    rw [List.flatMap_def, List.flatMap_def, map_fst_move respan_bytes]
  rw [hbytes, map_snd_move]
  exact agrees_spanFrom fun span => agrees_value rfl

theorem agrees_hexStrings {t : Token} {digits : String} (ht : hexPart? t = some digits) :
    Agrees H n n (seeing (H.before n) (some t)) hexStrings hexStrings fun _ => H.amid n := by
  have hpart : Plain H hexPart? := by
    intro t part ht
    cases t with
    | hexString digits => exact ⟨rfl, rfl⟩
    | _ => simp [hexPart?] at ht
  refine agrees_here fun start => (agrees_stringParts hpart ht).bind fun parts => ?_
  rw [map_fst_move respan_text, map_snd_move]
  exact agrees_spanFrom fun span => agrees_value rfl

/-- A literal whose first token was seen. -/
theorem agrees_literal {t : Token} {p : Parser Literal} (h : literal? t = some p) :
    Agrees H n n (seeing (H.before n) (some t)) p p fun _ => H.amid n := by
  have hplain : Plain H plainPart? := by
    intro t part ht
    cases t with
    | string bytes => exact ⟨rfl, respan_bytes part⟩
    | _ => simp [plainPart?] at ht
  have hunicode : Plain H unicodePart? := by
    intro t part ht
    cases t with
    | unicodeString bytes => exact ⟨rfl, respan_bytes part⟩
    | _ => simp [unicodePart?] at ht
  have hboolean (value : Bool) {t : Token} (ht : Passage.isInner t) :
      Agrees H n n (seeing (H.before n) (some t))
        (here >>= fun span => advance >>= fun _ => pure (Literal.boolean value span))
        (here >>= fun span => advance >>= fun _ => pure (Literal.boolean value span))
        fun _ => H.amid n := by
    refine agrees_here fun span => (agrees_advance (Passage.leads_inner ht)).bind fun _ => ?_
    exact agrees_value rfl
  unfold literal? at h
  split at h
  · obtain rfl := Option.some.inj h
    exact hboolean true rfl
  · obtain rfl := Option.some.inj h
    exact hboolean false rfl
  · obtain rfl := Option.some.inj h
    exact agrees_numberLiteral _ _ rfl
  · obtain rfl := Option.some.inj h
    exact agrees_numberLiteral _ _ rfl
  · obtain rfl := Option.some.inj h
    exact (agrees_byteStrings hplain rfl).map (fun _ => rfl) fun _ _ _ => id
  · obtain rfl := Option.some.inj h
    exact (agrees_hexStrings rfl).map (fun _ => rfl) fun _ _ _ => id
  · obtain rfl := Option.some.inj h
    exact (agrees_byteStrings hunicode rfl).map (fun _ => rfl) fun _ _ _ => id
  · simp at h

/-! ### Arguments -/

theorem agrees_argumentsContinue :
    Agrees H n n (H.before n) argumentsContinue argumentsContinue fun _ => H.before n := by
  refine agrees_if_nextIs (agrees_pure rfl fun _ _ => And.left) ?_
  refine (agrees_symbol rfl (Passage.leads_inner rfl)).bind fun _ => ?_
  exact agrees_pure rfl fun _ _ => And.left

/-- A place of a tuple, which may be vacant. -/
theorem agrees_tuplePlace {α : Type} [Placed α] {item : Parser α}
    (h : Agrees H n n (H.amid n) item item fun _ => H.amid n) :
    Agrees H n n (H.amid n) (tuplePlace item) (tuplePlace item) fun _ => H.amid n := by
  refine agrees_if_nextIs (agrees_pure rfl fun _ _ => And.left) ?_
  refine agrees_if_nextIs (agrees_pure rfl fun _ _ => And.left) ?_
  exact h.bind fun x => agrees_value rfl

section

variable {deeper : Nested} (hd : deeper.Agreed) [H.Braced]
include hd

theorem agrees_inside : Parser.Agreed H n (inside deeper) :=
  (hd.expression_agreed H n).structLiterals fun _ => rfl

theorem agrees_namedArgument : Parser.Agreed H n (namedArgument deeper) := by
  refine agrees_identifier.bind fun name => ?_
  refine (agrees_symbol rfl (Passage.leads_inner rfl)).bind fun _ => ?_
  refine (hd.expression_agreed H n).then fun value => ?_
  exact agrees_spanFrom fun span => agrees_value (by simp)

theorem agrees_namedArguments : Parser.Agreed H n (namedArguments deeper) := by
  refine Agrees.structLiterals (fun _ => rfl) ?_
  refine (agrees_symbol rfl Passage.leads_leftBrace).bind fun _ => ?_
  refine (((agrees_commaItems (agrees_namedArgument hd)).lower (Nat.le_succ n)).loosen
    (Nat.le_succ n)).bind fun arguments => ?_
  exact agrees_rightBrace.bind fun _ => agrees_value rfl

theorem agrees_callArguments : Parser.Agreed H n (callArguments deeper) := by
  refine (agrees_symbol rfl (Passage.leads_inner rfl)).bind fun start => ?_
  refine agrees_if_nextIs ?_ ?_
  · refine (agrees_namedArguments hd).then fun arguments => ?_
    refine (agrees_closing (Passage.leads_inner rfl)).bind fun _ => ?_
    exact agrees_spanFrom fun span => agrees_value (by simp)
  · refine (agrees_itemsUntil (agrees_inside hd) agrees_argumentsContinue).bind fun arguments => ?_
    refine (agrees_closing (Passage.leads_inner rfl)).bind fun _ => ?_
    exact agrees_spanFrom fun span => agrees_value (by simp)

theorem agrees_callArguments? : Agrees H n n (H.before n) (callArguments? deeper)
    (callArguments? deeper) fun o => stepped H n o.isSome := by
  refine agrees_if_nextIs ?_ (agrees_pure rfl fun _ _ => id)
  exact (agrees_callArguments hd).then fun arguments => agrees_pure rfl fun _ _ => id

/-! ### Primary expressions -/

theorem agrees_elementaryExpr : Parser.Agreed H n (elementaryExpr deeper) := by
  refine (agrees_elementaryTypeName false).bind fun type => ?_
  refine agrees_if_accept (Passage.leads_inner rfl) ?_ (agrees_value rfl)
  refine (agrees_inside hd).then fun argument => ?_
  refine (agrees_closing (Passage.leads_inner rfl)).bind fun _ => ?_
  exact agrees_spanFrom fun span => agrees_value (by simp)

theorem agrees_payableExpr : Parser.Agreed H n (payableExpr deeper) := by
  refine (agrees_word "payable").bind fun start => ?_
  refine (agrees_callArguments hd).then fun arguments => ?_
  exact agrees_spanFrom fun span => agrees_value (by simp)

theorem agrees_metaTypeExpr : Parser.Agreed H n (metaTypeExpr deeper) := by
  refine (agrees_word "type").bind fun start => ?_
  refine (agrees_symbol rfl (Passage.leads_inner rfl)).bind fun _ => ?_
  refine (hd.typeName_agreed H n).then fun type => ?_
  refine (agrees_closing (Passage.leads_inner rfl)).bind fun _ => ?_
  exact agrees_spanFrom fun span => agrees_value (by simp)

theorem agrees_newExpr : Parser.Agreed H n (newExpr deeper) := by
  refine (agrees_keyword .new).bind fun start => (hd.typeName_agreed H n).then fun type => ?_
  exact agrees_spanFrom fun span => agrees_value (by simp)

theorem agrees_parenthesizedOrTuple : Parser.Agreed H n (parenthesizedOrTuple deeper) := by
  refine (agrees_symbol rfl (Passage.leads_inner rfl)).bind fun start => ?_
  refine agrees_if_accept (Passage.leads_inner rfl) ?_ ?_
  · exact agrees_spanFrom fun span => agrees_value (by simp)
  · refine (agrees_separated (agrees_tuplePlace (agrees_inside hd).of_before)).bind fun elements => ?_
    refine (agrees_closing (Passage.leads_inner rfl)).bind fun _ => agrees_spanFrom fun span => ?_
    match elements with
    | [] => exact agrees_value (by simp)
    | [none] => exact agrees_value (by simp)
    | [some e] => exact agrees_value (by simp)
    | none :: e' :: elements => exact agrees_value (by simp)
    | some e :: e' :: elements => exact agrees_value (by simp)

theorem agrees_inlineArray : Parser.Agreed H n (inlineArray deeper) := by
  refine (agrees_symbol rfl (Passage.leads_inner rfl)).bind fun start => ?_
  refine (agrees_commaItems (agrees_inside hd)).bind fun elements => ?_
  refine (agrees_closing (Passage.leads_inner rfl)).bind fun _ => ?_
  exact agrees_spanFrom fun span => agrees_value (by simp)

theorem agrees_identifierExpr (name : String) :
    Agrees H n n (seeing (H.before n) (some (.identifier name))) (identifierExpr deeper name)
      (identifierExpr deeper name) fun _ => H.amid n := by
  have hname : Agrees H n n (seeing (H.before n) (some (.identifier name)))
      (identifier >>= fun i => pure (Expr.identifier i))
      (identifier >>= fun i => pure (Expr.identifier i)) fun _ => H.amid n :=
    agrees_identifier.bind fun i => agrees_value rfl
  refine agrees_peek_one (Passage.leads_inner rfl) fun next => ?_
  refine agrees_ite (fun _ => ?_) fun _ => hname
  refine agrees_ite (fun _ => (agrees_payableExpr hd).of_before) fun _ => ?_
  exact agrees_ite (fun _ => (agrees_metaTypeExpr hd).of_before) fun _ => hname

theorem agrees_primaryExpr : Parser.Agreed H n (primaryExpr deeper) := by
  refine agrees_next fun next => ?_
  split
  · exact agrees_unexpected le_rfl _
  · rename_i t
    split
    · rename_i p hp
      exact (agrees_literal hp).bind fun l => agrees_value rfl
    · split
      · exact agrees_identifierExpr hd _
      · exact (agrees_elementaryExpr hd).of_before
      · exact (agrees_newExpr hd).of_before
      · exact (agrees_parenthesizedOrTuple hd).of_before
      · exact (agrees_inlineArray hd).of_before
      · exact agrees_unexpected le_rfl _

/-! ### What follows a primary expression -/

theorem agrees_bound? (stop : Symbol) : Agrees H n n (H.amid n) (bound? deeper stop)
    (bound? deeper stop) fun _ => H.amid n := by
  refine agrees_if_nextIs (agrees_pure rfl fun _ _ => And.left) ?_
  exact (agrees_inside hd).then fun e => agrees_value rfl

theorem agrees_indexOrSlice (base : Expr) : Agrees H n n (H.before n) (indexOrSlice deeper base)
    (indexOrSlice deeper (H.move base)) fun _ => H.amid n := by
  unfold indexOrSlice
  rw [Expr.span_respan]
  refine (agrees_symbol rfl (Passage.leads_inner rfl)).bind fun _ => ?_
  refine agrees_if_accept (Passage.leads_inner rfl) ?_ ?_
  · exact agrees_spanFrom fun span => agrees_value (by simp)
  · refine (agrees_bound? hd .colon).bind fun lower => ?_
    refine agrees_if_accept (Passage.leads_inner rfl) ?_ ?_
    · refine (agrees_bound? hd .rightBracket).bind fun upper => ?_
      refine (agrees_closing (Passage.leads_inner rfl)).bind fun _ => ?_
      exact agrees_spanFrom fun span => agrees_value (by simp)
    · refine (agrees_closing (Passage.leads_inner rfl)).bind fun _ => ?_
      exact agrees_spanFrom fun span => agrees_value (by simp)

omit hd [H.Braced] in
theorem structFields?_eq (deeper : Nested) (type : Expr) (c : Context) (s : State) :
    structFields? deeper type c s = match namedArguments deeper c s with
      | (.error e, t) => (.error e, t)
      | (.ok fields, t) =>
        if (c.structLiterals || t.rest[0]?.map Lexeme.token == some (.symbol .leftParen)) = true then
          (spanFrom type.span >>= fun span => pure (some (.struct type fields span))) c t
        else (.ok none, s) := by
  rw [structFields?, state_bind]
  rcases hr : namedArguments deeper c s with ⟨e | fields, t⟩
  · rw [bind_error hr]
  · rw [bind_ok hr, bind_ok (looks_context c t), bind_ok (peeks_nextIs _ c t), run_ite]
    rfl

/-- Named fields are given back only in a statement, which is lost only by an error. -/
theorem agrees_structFields? (type : Expr) :
    Agrees H n n (H.before n) (structFields? deeper type) (structFields? deeper (H.move type))
      fun o => stepped H n o.isSome := by
  have hfields := agrees_namedArguments (H := H) (n := n) hd
  have hspan (fields : List NamedArgument) : Agrees H n n (H.amid n)
      (spanFrom type.span >>= fun span => pure (some (Expr.struct type fields span)))
      (spanFrom (H.move type).span >>= fun span =>
        pure (some (Expr.struct (H.move type) (H.move fields) span)))
      fun o => stepped H n o.isSome := by
    rw [Expr.span_respan]
    exact agrees_spanFrom fun span => agrees_pure (by simp) fun _ _ => id
  refine ⟨fun c s => ?_, fun c c' hc w₀ w s s' hs hw => ?_⟩
  · obtain ⟨ts, es, ht⟩ := hfields.onward c s
    rw [structFields?_eq]
    generalize namedArguments deeper c s = a at ht ⊢
    rcases a with ⟨e | fields, t⟩
    · exact ⟨ts, es, ht⟩
    · dsimp only
      split
      · obtain ⟨us, ds, hu⟩ := (hspan fields).onward c t
        exact ⟨ts ++ us, es ++ ds, ht.trans hu⟩
      · exact ⟨[], [], .refl s⟩
  · have hquiet := (reads_namedArguments (q := True) hd.toSound).quiet c s hs.ordered
    rw [structFields?_eq, structFields?_eq, hc.structLiterals]
    rcases hfields.same hc hs hw with hsame | hlost
    · generalize namedArguments deeper c s = a, namedArguments deeper c' s' = a' at hsame ⊢
      cases hsame with
      | error he ht hv => exact .inl (.error he ht hv)
      | @ok fields fields' t t' v hx ht hv =>
        subst hx
        have hnext : t'.rest[0]?.map Lexeme.token = t.rest[0]?.map Lexeme.token := by
          rw [← List.head?_eq_getElem?, ← List.head?_eq_getElem?, (ht.head hv.1).1,
            (ht.head hv.1).2]
          cases v.head? <;> rfl
        dsimp only
        rw [hnext]
        split
        · exact (hspan fields).same hc ht hv
        · exact .inl (.ok rfl hs hw)
    · refine .inr ⟨hlost.1, ?_⟩
      rcases hr : namedArguments deeper c s with ⟨e | fields, t⟩
      · rw [hr] at hlost
        exact hlost.2
      · rw [hr] at hlost hquiet
        dsimp only
        split
        · exact ((hspan fields).onward.lost hlost).2
        · rename_i hforbidden
          rcases hlost.2 with herrors | ⟨hn, -⟩
          · exact .inl (hquiet ▸ herrors)
          · simp [hc.toplevel hn] at hforbidden

omit hd in
/-- Both readings see named fields or none. -/
theorem agrees_fieldsBegin {I : Stage} [Within H n I] {α : Type} [Placed α]
    {l l' : Bool → Parser α} {O : α → Stage} (hl : ∀ b, Agrees H k n I (l b) (l' b) O) :
    Agrees H k n I (fieldsBegin >>= l) (fieldsBegin >>= l') O := by
  refine peeks_fieldsBegin.agrees (fun {w₀ w} hw => ?_) fun b => (hl b).weaken fun _ _ => And.left
  have hin : H.inside n w := Within.inside hw
  rcases w with _ | ⟨t, w⟩
  · obtain ⟨h₁, h₂⟩ := H.ends_of_inside hin
    simp [h₁, h₂]
  · by_cases ht : t.token = .symbol .leftBrace
    · have hin' := Passage.Braced.opened hin ht
      rcases w with _ | ⟨u, w⟩
      · obtain ⟨h₁, h₂⟩ := H.ends_of_inside hin'
        simp [h₁, h₂, Passage.move, Placed.respan]
      · rcases hu : u.token.identifier? with _ | name
        · simp [Passage.move, Placed.respan, hu]
        · have hinner : H.inside (n + 1) w := by
            cases hut : u.token with
            | identifier name => exact H.inner hin' (by simp [hut]) (by simp [hut]) (by simp [hut])
            | _ => simp [hut, Token.identifier?] at hu
          rcases w with _ | ⟨x, w⟩
          · obtain ⟨h₁, h₂⟩ := H.ends_of_inside hinner
            simp [h₁, h₂, Passage.move, Placed.respan]
          · simp [Passage.move, Placed.respan]
    · have ht' : (some t.token == some (.symbol .leftBrace)) = false := by simpa using ht
      simp only [Passage.move, respan_cons, List.cons_append, List.getElem?_cons_zero,
        Option.map_some, token_respan, ht', Bool.false_and]

theorem agrees_suffix? (e : Expr) : Agrees H n n (H.before n) (suffix? deeper e)
    (suffix? deeper (H.move e)) fun o => stepped H n o.isSome := by
  unfold suffix?
  rw [Expr.span_respan]
  refine agrees_next fun next => ?_
  split
  · refine (agrees_indexOrSlice hd e).of_before.bind fun e' => agrees_pure rfl fun _ _ => id
  · refine (agrees_advance (Passage.leads_inner rfl)).bind fun _ => ?_
    refine agrees_identifier.bind fun name => ?_
    exact agrees_spanFrom fun span => agrees_pure (by simp) fun _ _ => id
  · refine (agrees_callArguments hd).then fun arguments => ?_
    exact agrees_spanFrom fun span => agrees_pure (by simp) fun _ _ => id
  · refine Agrees.weaken (I := H.before n) ?_ fun _ _ => And.left
    refine agrees_fieldsBegin fun b => agrees_ite (fun _ => agrees_structFields? hd e) fun _ => ?_
    exact agrees_pure rfl fun _ _ => id
  · rename_i t _ _ _ _
    split
    · rename_i op hop
      obtain rfl := UpdateOp.ofToken?_eq_some hop
      have hinner : Passage.isInner (.symbol op.symbol) := by cases op <;> rfl
      refine (agrees_advance (Passage.leads_inner hinner)).bind fun _ => ?_
      exact agrees_spanFrom fun span => agrees_pure (by simp) fun _ _ => id
    · exact agrees_pure rfl fun _ _ => And.left
  · exact agrees_pure rfl fun _ _ => And.left

theorem agrees_suffixedExpr : Parser.Agreed H n (suffixedExpr deeper) :=
  (agrees_primaryExpr hd).bind fun e => agrees_iterate e (agrees_suffix? hd)

/-! ### Operators -/

theorem agrees_unaryExpr : Parser.Agreed H n (unaryExpr deeper) := by
  refine agrees_here fun start => agrees_next fun next => ?_
  split
  · exact (agrees_suffixedExpr hd).of_before
  · rename_i t
    split
    · rename_i op hop
      obtain rfl := UnaryOp.ofToken?_eq_some hop
      have hinner : Passage.isInner op.token := by cases op <;> rfl
      refine (agrees_advance (Passage.leads_inner hinner)).bind fun _ => ?_
      refine (hd.operand_agreed H n).then fun operand => ?_
      exact agrees_spanFrom fun span => agrees_value (by simp)
    · rename_i op _ hop
      obtain rfl := UpdateOp.ofToken?_eq_some hop
      have hinner : Passage.isInner (.symbol op.symbol) := by cases op <;> rfl
      refine (agrees_advance (Passage.leads_inner hinner)).bind fun _ => ?_
      refine (hd.operand_agreed H n).then fun operand => ?_
      exact agrees_spanFrom fun span => agrees_value (by simp)
    · exact (agrees_suffixedExpr hd).of_before

omit hd [H.Braced] in
theorem binary_move (left right : Expr) (op : BinaryOp) :
    binary (H.move left) op (H.move right) = H.move (binary left op right) := by
  simp [binary]

theorem agrees_powerExpr : Parser.Agreed H n (powerExpr deeper) := by
  refine (agrees_unaryExpr hd).bind fun base => ?_
  refine agrees_if_accept (Passage.leads_inner rfl) ?_ (agrees_value rfl)
  refine (hd.exponent_agreed H n).then fun exponent => ?_
  exact agrees_value (binary_move base exponent .pow)

omit hd [H.Braced] in
theorem agrees_leftAssociative {ops : List BinaryOp} {operand : Parser Expr}
    (h : Parser.Agreed H n operand) : Parser.Agreed H n (leftAssociative ops operand) := by
  refine h.bind fun left => agrees_iterate left fun left => agrees_next fun next => ?_
  cases hbind : next.bind (BinaryOp.ofToken? ops) with
  | none => exact agrees_pure rfl fun _ _ => And.left
  | some op =>
    obtain ⟨t, rfl, ht⟩ := Option.bind_eq_some_iff.1 hbind
    obtain ⟨rfl, -⟩ := BinaryOp.ofToken?_eq_some ht
    have hinner : Passage.isInner (.symbol op.symbol) := by cases op <;> rfl
    refine (agrees_advance (Passage.leads_inner hinner)).bind fun _ => ?_
    refine h.then fun right => agrees_pure ?_ fun _ _ => id
    exact congrArg some (binary_move left right op)

theorem agrees_binaryExpr : ∀ tiers, Parser.Agreed H n (binaryExpr deeper tiers)
  | [] => agrees_powerExpr hd
  | _ :: tighter => agrees_leftAssociative (agrees_binaryExpr tighter)

theorem agrees_conditionalExpr : Parser.Agreed H n (conditionalExpr deeper) := by
  refine (agrees_binaryExpr hd _).bind fun condition => ?_
  refine agrees_if_accept (Passage.leads_inner rfl) ?_ (agrees_value rfl)
  refine (agrees_inside hd).then fun ifTrue => ?_
  refine (agrees_symbol rfl (Passage.leads_inner rfl)).bind fun _ => ?_
  refine (hd.expression_agreed H n).then fun ifFalse => agrees_value ?_
  simp

theorem agrees_expression : Parser.Agreed H n (expression deeper) := by
  refine (agrees_conditionalExpr hd).bind fun left => agrees_next fun next => ?_
  cases hbind : next.bind AssignOp.ofToken? with
  | none => exact agrees_pure rfl fun _ _ => And.left
  | some op =>
    obtain ⟨t, rfl, ht⟩ := Option.bind_eq_some_iff.1 hbind
    obtain rfl := AssignOp.ofToken?_eq_some ht
    have hinner : Passage.isInner (.symbol op.symbol) := by cases op <;> rfl
    refine (agrees_advance (Passage.leads_inner hinner)).bind fun _ => ?_
    simp only [isAssignable_respan, Expr.span_respan]
    refine agrees_ite (fun _ => ?_) fun _ => agrees_violation le_rfl _ left.span
    refine (hd.expression_agreed H n).then fun right => agrees_value ?_
    simp

end

end Grammar

end SolidityFrontend
