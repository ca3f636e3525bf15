import SolidityFrontend.Proofs.ReadingType

/-!
# The phrases of expressions

Each parser for expressions reads the phrase of the expression it gives, if the parsers one level
deeper read theirs. The tiers of binary operators give expressions of their tier or tighter, which
is what the loops over a tier keep up.
-/

namespace SolidityFrontend

theorem UpdateOp.ofToken?_eq_some {t : Token} {op : UpdateOp} (h : ofToken? t = some op) :
    t = .symbol op.symbol := by
  unfold ofToken? at h
  split at h
  · exact Option.some.inj h ▸ rfl
  · exact Option.some.inj h ▸ rfl
  · exact absurd h (by simp)

namespace Grammar

open Phrase SolidityFrontend.Parser

variable {q : Prop} {c : Context} {s₀ : State} {A : Phrase}

/-! ### Literals -/

theorem reads_stringPart? {α : Type} (part? : Token → Option α) :
    Reads q (stringPart? part?) fun o => match o with
      | none => before fun rest => (rest[0]?.map Lexeme.token).bind part? = none
      | some p => lexeme fun l => part? l.token = some p.1 ∧ l.span = p.2 := by
  refine reads_here.first fun c s span => peeks_next.bind fun next => ?_
  split
  · rename_i part hpart
    obtain ⟨t, rfl, ht⟩ := Option.bind_eq_some_iff.1 hpart
    refine (after_advance_token t).bind fun _ => after_pure ?_
    refine opening_mul_token.trans ?_
    rintro ts es rest ⟨l, rfl, rfl, rfl, rfl⟩
    exact ⟨l, rfl, rfl, ht, rfl⟩
  · rename_i hnone
    refine after_pure (opening_mul_le.trans (before_mono fun rest hrest => ?_))
    rw [hrest, hnone]

theorem perhaps_stringPart {α : Type} (part? : Token → Option α) :
    Reads q (stringPart? part?) fun o => perhaps (o.map fun p =>
      lexeme fun l => part? l.token = some p.1 ∧ l.span = p.2) := by
  refine (reads_stringPart? part?).mono fun o => ?_
  cases o
  · exact before_le_one
  · exact le_rfl

/-- The strings of a literal, the first of which was seen to be there. -/
theorem after_stringParts {α : Type} {part? : Token → Option α} {t : Token} {x : α}
    (ht : part? t = some x) :
    ReadsAfter q c s₀ (A * before fun rest => rest[0]?.map Lexeme.token = some t)
      (many (stringPart? part?)) fun parts => such (parts ≠ []) (A * stringParts part? parts) := by
  refine after_many_ne_nil (by simp) ?_ (perhaps_stringPart part?)
  refine ((reads_stringPart? part?).after c s₀ _).mono le_rfl fun o => ?_
  cases o with
  | none =>
    rw [mul_assoc, before_mul_before]
    rintro ts es rest ⟨_, _, _, _, _, _, -, -, -, h, h'⟩
    simp [h, ht] at h'
  | some p => exact mul_mono mul_before_le le_rfl

theorem takes_stringParts {α : Type} {part? : Token → Option α} {parts : List (α × Span)}
    (h : parts ≠ []) : (stringParts part? parts).Takes := by
  obtain ⟨p, parts, rfl⟩ := List.exists_cons_of_ne_nil h
  rw [stringParts, List.map_cons, List.prod_cons]
  exact (takes_lexeme _).mul_right _

/-- The next token, seen before its place was. -/
theorem opening_next {t : Token} {span : Span} :
    (before fun rest => rest[0]?.map Lexeme.token = some t) * opening span
      ≤ opening span * before fun rest => rest[0]?.map Lexeme.token = some t :=
  (before_comm _ _).le

theorem after_numberLiteral {t : Token} {value : String} {kind : NumberKind}
    (ht : ∀ unit span, (NumberLiteral.mk value kind unit span).token = t) :
    ReadsAfter q c s₀ (before fun rest => rest[0]?.map Lexeme.token = some t)
      (numberLiteral value kind) Literal.phrase := by
  refine reads_here.bind fun start => ?_
  refine ((after_advance_token t).weaken opening_next).bind fun _ => peeks_nextWord.bind fun w => ?_
  have hrest : ∀ unit : Option NumberUnit, ReadsAfter q c s₀ (opening start * token t
      * perhaps (unit.map fun u => Phrase.word u.text)) (spanFrom start >>= fun span =>
        pure (.number ⟨value, kind, unit, span⟩)) Literal.phrase := by
    intro unit
    refine (after_spanFrom (by simp [mul_assoc])).bind fun span => after_pure (covered_mono ?_)
    rw [ht]
    exact mul_mono opening_mul_le le_rfl
  refine after_ite (fun hunit => ?_) fun hunit => ?_
  · obtain ⟨unit, hunit⟩ := Option.isSome_iff_exists.1 hunit
    obtain ⟨w, rfl, hw⟩ := Option.bind_eq_some_iff.1 hunit
    refine (after_advance_word w).bind fun _ => ?_
    rw [hunit, ← ofSpelling?_eq_some hw]
    exact hrest (some unit)
  · rw [Option.not_isSome_iff_eq_none.1 hunit]
    exact (hrest none).weaken (mul_mono le_rfl before_le_one)

theorem after_byteStrings {part? : Token → Option (List UInt8)} {t : Token} {bytes : List UInt8}
    (ht : part? t = some bytes) :
    ReadsAfter q c s₀ (before fun rest => rest[0]?.map Lexeme.token = some t) (byteStrings part?)
      fun l => l.phrase part? id joinedText := by
  refine reads_here.bind fun start => ?_
  refine ((after_stringParts ht).weaken opening_next).bind fun parts => after_such fun hparts => ?_
  refine (after_spanFrom (by simp [takes_stringParts hparts])).bind fun span => after_pure ?_
  refine covered_mono (opening_mul_le.trans ?_)
  intro ts es rest h
  exact ⟨parts, rfl, rfl, by simp [joinedText, List.flatMap_def], h⟩

theorem after_hexStrings {t : Token} {digits : String} (ht : hexPart? t = some digits) :
    ReadsAfter q c s₀ (before fun rest => rest[0]?.map Lexeme.token = some t) hexStrings
      fun l => l.phrase hexPart? (hexBytes ·.toList) ("".intercalate) := by
  refine reads_here.bind fun start => ?_
  refine ((after_stringParts ht).weaken opening_next).bind fun parts => after_such fun hparts => ?_
  refine (after_spanFrom (by simp [takes_stringParts hparts])).bind fun span => after_pure ?_
  refine covered_mono (opening_mul_le.trans ?_)
  intro ts es rest h
  exact ⟨parts, rfl, by simp [List.flatMap_map], rfl, h⟩

/-- The literal that begins with the next token. -/
theorem after_literal {t : Token} {p : Parser Literal} (h : literal? t = some p) :
    ReadsAfter q c s₀ (before fun rest => rest[0]?.map Lexeme.token = some t) p Literal.phrase := by
  have hboolean (k : Keyword) (value : Bool) (hk : (if value then Keyword.true_ else .false_) = k) :
      ReadsAfter q c s₀ (before fun rest => rest[0]?.map Lexeme.token = some (.keyword k))
        (here >>= fun span => advance >>= fun _ => pure (.boolean value span)) Literal.phrase := by
    refine reads_here.bind fun span => ?_
    refine ((after_advance_token _).weaken opening_next).bind fun _ => after_pure ?_
    rw [Literal.phrase, hk]
    exact opening_mul_token
  unfold literal? at h
  split at h
  · obtain rfl := Option.some.inj h
    exact hboolean .true_ true rfl
  · obtain rfl := Option.some.inj h
    exact hboolean .false_ false rfl
  · obtain rfl := Option.some.inj h
    exact after_numberLiteral fun _ _ => rfl
  · obtain rfl := Option.some.inj h
    exact after_numberLiteral fun _ _ => rfl
  · obtain rfl := Option.some.inj h
    exact (after_byteStrings rfl).bind fun _ => after_pure le_rfl
  · obtain rfl := Option.some.inj h
    exact (after_hexStrings rfl).bind fun _ => after_pure le_rfl
  · obtain rfl := Option.some.inj h
    exact (after_byteStrings rfl).bind fun _ => after_pure le_rfl
  · exact absurd h (by simp)

section

variable {deeper : Nested} (hd : deeper.Sound)
include hd

theorem reads_inside : Reads q (inside deeper) Expr.phrase := (hd.expression q).structLiterals

/-! ### Arguments -/

theorem reads_namedArgument : Reads q (namedArgument deeper) NamedArgument.phrase := by
  refine reads_identifier.first fun c s name => (reads_symbol _).bind fun _ => ?_
  refine (hd.expression q).bind fun value => ?_
  refine (after_spanFrom (by simp [mul_assoc])).bind fun span => after_pure ?_
  rw [NamedArgument.phrase]

theorem reads_namedArguments : Reads q (namedArguments deeper) fun as =>
    Phrase.symbol .leftBrace * trailed (namedPhrases as) * Phrase.symbol .rightBrace := by
  refine Reads.structLiterals ((reads_symbol _).first fun c s _ => ?_)
  refine (reads_commaItems (reads_namedArgument hd)).bind fun as => ?_
  refine (reads_symbol _).bind fun _ => after_pure ?_
  rw [namedPhrases_eq]

omit hd in
theorem reads_argumentsContinue : Reads q argumentsContinue fun b =>
    if b then Phrase.symbol .comma ⊔ before (isNext (.symbol .rightParen)) else 1 := by
  refine (peeks_nextIs _).first fun c s b => after_ite (fun hb => after_pure ?_) fun _ => ?_
  · refine le_trans (before_mono fun rest hrest => ?_) le_sup_right
    simpa [isNext, hb, List.head?_eq_getElem?] using hrest
  · refine (reads_symbol _).bind fun _ => after_pure (le_trans ?_ le_sup_left)
    exact (mul_mono before_le_one le_rfl).trans_eq (one_mul _)

theorem reads_callArguments : Reads q (callArguments deeper) Arguments.phrase := by
  refine (reads_symbolAt _).first fun c s start => (peeks_nextIs _).looks.bind fun _ => ?_
  refine after_ite (fun _ => ?_) fun _ => ?_
  · refine (reads_namedArguments hd).bind fun as => (reads_symbol _).bind fun _ => ?_
    refine (after_spanFrom (by simp [mul_assoc])).bind fun span => after_pure ?_
    rw [Arguments.phrase]
    gcongr
    exact tokenAt_le
  · refine (reads_itemsUntil (reads_inside hd) reads_argumentsContinue).bind fun as => ?_
    refine (reads_symbol _).bind fun _ => ?_
    refine (after_spanFrom (by simp [mul_assoc])).bind fun span => after_pure ?_
    rw [Arguments.phrase, exprPhrases_eq]
    gcongr
    exact tokenAt_le

theorem reads_callArguments? :
    Reads q (callArguments? deeper) fun o => perhaps (o.map Arguments.phrase) := by
  refine (peeks_nextIs _).looks.first fun _ => reads_ite (fun _ => ?_) fun _ => reads_pure le_rfl
  exact (reads_callArguments hd).first fun c s as => after_pure le_rfl

/-! ### Primary expressions -/

theorem reads_elementaryExpr : Reads q (elementaryExpr deeper) fun e =>
    such (e.tier = 13) e.phrase := by
  refine (reads_elementaryTypeName false).first_such fun c s type htype => ?_
  have hplain : type.kind ≠ .addressPayable := by simpa using htype
  refine if_accept ?_ (after_pure ?_)
  · refine (reads_inside hd).bind fun argument => (reads_symbol _).bind fun _ => ?_
    refine (after_spanFrom (by simp [mul_assoc])).bind fun span => after_pure (le_such rfl ?_)
    rw [Expr.phrase]
    exact le_such hplain le_rfl
  · refine le_such rfl (mul_before_le.trans ?_)
    rw [Expr.phrase]
    exact le_such hplain le_rfl

theorem reads_payableExpr : Reads q (payableExpr deeper) fun e => such (e.tier = 13) e.phrase := by
  refine (reads_take _ _).first fun c s start => (reads_callArguments hd).bind fun as => ?_
  refine (after_spanFrom (by simp)).bind fun span => after_pure (le_such rfl ?_)
  rw [Expr.phrase]
  gcongr
  exact tokenAt_le

theorem reads_metaTypeExpr : Reads q (metaTypeExpr deeper) fun e =>
    such (e.tier = 13) e.phrase := by
  refine (reads_take _ _).first fun c s start => (reads_symbol _).bind fun _ => ?_
  refine (hd.typeName q).bind fun type => (reads_symbol _).bind fun _ => ?_
  refine (after_spanFrom (by simp [mul_assoc])).bind fun span => after_pure (le_such rfl ?_)
  rw [Expr.phrase]
  gcongr
  exact tokenAt_le

theorem reads_newExpr : Reads q (newExpr deeper) fun e => such (e.tier = 13) e.phrase := by
  refine (reads_keywordAt _).first fun c s start => (hd.typeName q).bind fun type => ?_
  refine (after_spanFrom (by simp)).bind fun span => after_pure (le_such rfl ?_)
  rw [Expr.phrase]
  gcongr
  exact tokenAt_le

omit hd in
theorem reads_tuplePlace {α : Type} {item : Parser α} {L : α → Phrase} (h : Reads q item L) :
    Reads q (tuplePlace item) fun o => perhaps (o.map L) := by
  refine (peeks_nextIs _).looks.first fun _ => reads_ite (fun _ => reads_pure le_rfl) fun _ => ?_
  refine (peeks_nextIs _).looks.first fun _ => reads_ite (fun _ => reads_pure le_rfl) fun _ => ?_
  exact h.first fun c s x => after_pure le_rfl

omit hd in
/-- The places of a tuple are not a vacant one alone: where the first is vacant a comma follows. -/
theorem after_places {α : Type} {item : Parser α} {L : α → Phrase} (h : Reads q item L) :
    ReadsAfter q c s₀ (A * before (notNext (.symbol .rightParen)))
      (Parser.separated (tuplePlace item)) fun xs => such (xs ≠ [none]) (A * Phrase.separated
        (xs.map fun o => perhaps (o.map L))) := by
  have hfirst : ReadsAfter q c s₀ (A * before (notNext (.symbol .rightParen))) (tuplePlace item)
      fun o => o.elim (A * before (isNext (.symbol .comma))) fun x => A * L x := by
    refine (peeks_nextIs _).bind fun comma => after_ite (fun hcomma => after_pure ?_) fun _ => ?_
    · refine mul_mono mul_before_le (before_mono fun rest hrest => ?_)
      simpa [isNext, hcomma, List.head?_eq_getElem?] using hrest
    · refine (peeks_nextIs _).bind fun close => after_ite (fun hclose => after_pure ?_) fun _ => ?_
      · rw [mul_assoc, mul_assoc, before_mul_before, before_mul_before]
        rintro ts es rest ⟨_, _, _, _, -, -, -, -, -, hnot, -, hnext⟩
        rw [notNext, List.head?_eq_getElem?] at hnot
        exact absurd (by simpa [hclose] using hnext) hnot
      · refine h.bind fun x => after_pure (mul_mono ?_ le_rfl)
        exact mul_before_le.trans (mul_before_le.trans mul_before_le)
  have hmore : Reads q (accept (.symbol .comma) >>= fun b => if b = true then
      tuplePlace item >>= fun x => pure (some x) else pure none)
      fun o => perhaps (o.map fun x => Phrase.symbol .comma * perhaps (x.map L)) :=
    reads_if_accept (fun c s => (reads_tuplePlace h).bind fun x => after_pure le_rfl)
      (reads_pure le_rfl)
  refine hfirst.bind fun o => ?_
  cases o with
  | none =>
    refine (after_many_ne_nil (by simp [isNext]) ?_ hmore).bind fun xs => after_such fun hxs => ?_
    · refine if_accept ((reads_tuplePlace h).bind fun x => after_pure ?_) (after_pure ?_)
      · exact mul_mono (mul_mono mul_before_le le_rfl) le_rfl |>.trans_eq (mul_assoc _ _ _)
      · rw [mul_assoc, before_mul_before]
        rintro ts es rest ⟨_, _, _, _, -, -, -, -, -, hnext, hnot⟩
        exact hnot hnext
    · refine after_pure (le_such (by simpa using hxs) ?_)
      simp [Phrase.separated, Function.comp_def]
  | some x =>
    refine (reads_many hmore).bind fun xs => after_pure (le_such (by simp) ?_)
    simp [Phrase.separated, Function.comp_def, mul_assoc]

theorem reads_parenthesizedOrTuple : Reads q (parenthesizedOrTuple deeper) fun e =>
    such (e.tier = 13) e.phrase := by
  refine (reads_symbolAt _).first fun c s start => if_accept ?_ ?_
  · refine (after_spanFrom (by simp)).bind fun span => after_pure (le_such rfl ?_)
    rw [Expr.phrase, placePhrases, parenthesized, Phrase.separated, mul_one]
    refine le_such (by simp) (covered_mono (mul_mono tokenAt_le le_rfl))
  · refine (after_places (reads_inside hd)).bind fun elements => after_such fun hvacant => ?_
    refine (reads_symbol _).bind fun _ => ?_
    refine (after_spanFrom (by simp [mul_assoc])).bind fun span => ?_
    split
    · refine after_pure (le_such rfl ?_)
      rw [Expr.phrase]
      simp only [Phrase.separated, List.map_cons, List.map_nil, List.prod_nil, mul_one,
        Option.map_some, perhaps_some]
      gcongr
      exact tokenAt_le
    · rename_i hone
      refine after_pure (le_such rfl ?_)
      rw [Expr.phrase, placePhrases_eq]
      refine le_such (fun hlength => ?_) ?_
      · obtain ⟨x, rfl⟩ := List.length_eq_one_iff.1 hlength
        cases x with
        | none => exact hvacant rfl
        | some e => exact hone e rfl
      · rw [parenthesized]
        gcongr
        exact tokenAt_le

theorem reads_inlineArray : Reads q (inlineArray deeper) fun e =>
    such (e.tier = 13) e.phrase := by
  refine (reads_symbolAt _).first fun c s start => ?_
  refine (reads_commaItems (reads_inside hd)).bind fun elements => (reads_symbol _).bind fun _ => ?_
  refine (after_spanFrom (by simp [mul_assoc])).bind fun span => after_pure (le_such rfl ?_)
  rw [Expr.phrase, exprPhrases_eq]
  gcongr
  exact tokenAt_le

theorem reads_identifierExpr (name : String) : Reads q (identifierExpr deeper name) fun e =>
    such (e.tier = 13) e.phrase := by
  have hname : Reads q (identifier >>= fun i => pure (.identifier i)) fun e : Expr =>
      such (e.tier = 13) e.phrase := by
    refine reads_identifier.first fun c s i => after_pure (le_such rfl ?_)
    rw [Expr.phrase]
  refine (peeks_peek 1).looks.first fun _ => reads_ite (fun _ => ?_) fun _ => hname
  refine reads_ite (fun _ => reads_payableExpr hd) fun _ => ?_
  exact reads_ite (fun _ => reads_metaTypeExpr hd) fun _ => hname

theorem reads_primaryExpr : Reads q (primaryExpr deeper) fun e =>
    such (e.tier = 13) e.phrase := by
  refine peeks_next.first fun c s next => ?_
  split
  · exact after_unexpected _
  · rename_i t
    split
    · rename_i p hp
      refine (after_literal hp).bind fun l => after_pure (le_such rfl ?_)
      rw [Expr.phrase]
    · refine ReadsAfter.weaken (A := 1) ?_ before_le_one
      have hreads {p : Parser Expr} (h : Reads q p fun e => such (e.tier = 13) e.phrase) :
          ReadsAfter q c s 1 p fun e => such (e.tier = 13) e.phrase :=
        (h.after c s 1).mono le_rfl fun e => (one_mul _).le
      split
      · exact hreads (reads_identifierExpr hd _)
      · exact hreads (reads_elementaryExpr hd)
      · exact hreads (reads_newExpr hd)
      · exact hreads (reads_parenthesizedOrTuple hd)
      · exact hreads (reads_inlineArray hd)
      · exact after_unexpected _

/-! ### What follows a primary expression -/

theorem reads_bound? (stop : Symbol) :
    Reads q (bound? deeper stop) fun o => perhaps (optionPhrase o) := by
  refine (peeks_nextIs _).looks.first fun _ => reads_ite (fun _ => reads_pure le_rfl) fun _ => ?_
  exact (reads_inside hd).first fun c s e => after_pure le_rfl

theorem after_indexOrSlice {base : Expr} (hbase : base.tier = 13) :
    ReadsAfter q c s₀ base.phrase (indexOrSlice deeper base)
      fun e => such (e.tier = 13) e.phrase := by
  refine (reads_symbol _).bind fun _ => if_accept ?_ ?_
  · refine (after_spanFrom (by simp [mul_assoc])).bind fun span => after_pure (le_such rfl ?_)
    rw [Expr.phrase, optionPhrase, perhaps_none, mul_one]
    exact le_such hbase le_rfl
  · refine ((reads_bound? hd _).after c s₀ _).weaken mul_before_le |>.bind fun lower => if_accept ?_ ?_
    · refine (reads_bound? hd _).bind fun upper => (reads_symbol _).bind fun _ => ?_
      refine (after_spanFrom (by simp [mul_assoc])).bind fun span => after_pure (le_such rfl ?_)
      rw [Expr.phrase]
      exact le_such hbase le_rfl
    · refine ((reads_symbol _).after c s₀ _).weaken mul_before_le |>.bind fun _ => ?_
      refine (after_spanFrom (by simp [mul_assoc])).bind fun span => after_pure (le_such rfl ?_)
      rw [Expr.phrase]
      exact le_such hbase le_rfl

omit hd in
theorem peeks_fieldsBegin : Peeks fieldsBegin fun rest =>
    rest[0]?.map Lexeme.token == some (.symbol .leftBrace)
      && ((rest[1]?.map Lexeme.token).bind Token.identifier?).isSome
      && rest[2]?.map Lexeme.token == some (.symbol .colon) := fun _ _ => rfl

/-- Whether a name stands behind the next token. -/
def namesField (rest : List Lexeme) : Prop :=
  ((rest[1]?.map Lexeme.token).bind Token.identifier?).isSome

omit hd in
/-- Where a name stands behind the brace, the named fields are at least one. -/
theorem before_namesField_le {fields : List NamedArgument} :
    before namesField * (Phrase.symbol .leftBrace * trailed (namedPhrases fields)
        * Phrase.symbol .rightBrace)
      ≤ such (fields ≠ []) (Phrase.symbol .leftBrace * trailed (namedPhrases fields)
        * Phrase.symbol .rightBrace) := by
  rintro ts es rest ⟨_, b, _, e, rfl, rfl, ⟨rfl, rfl, hnames⟩, h⟩
  refine ⟨?_, h⟩
  rintro rfl
  rw [namedPhrases, trailed, mul_one] at h
  obtain ⟨_, _, _, _, rfl, rfl, ⟨opening, rfl, rfl, -⟩, closing, rfl, rfl, hclosing⟩ := h
  simp [namesField, hclosing, Token.identifier?] at hnames

/-- Fields that were read only to look for a parenthesis behind them are given back. -/
theorem after_structFields? {type : Expr} (htype : type.tier = 13) :
    ReadsAfter q c s₀ (type.phrase * before namesField) (structFields? deeper type)
      fun o => such ((o.getD type).tier = 13) (o.getD type).phrase := by
  refine bind_state fun s hs => ?_
  refine ((reads_namedArguments hd).after c s₀ _).bind fun fields => ?_
  refine looks_context.bind fun _ => (peeks_nextIs _).looks.bind fun _ => after_ite (fun _ => ?_) ?_
  · rw [mul_assoc]
    refine ReadsAfter.weaken (A := such (fields ≠ []) (type.phrase * (Phrase.symbol .leftBrace
      * trailed (namedPhrases fields) * Phrase.symbol .rightBrace))) ?_ ?_
    · refine after_such fun hfields => ?_
      refine (after_spanFrom (by simp [mul_assoc])).bind fun span => after_pure (le_such rfl ?_)
      rw [Option.getD_some, Expr.phrase]
      refine le_such ⟨htype, hfields⟩ (covered_mono ?_)
      simp only [mul_assoc]
      exact le_rfl
    · refine (mul_mono le_rfl before_namesField_le).trans ?_
      rintro ts es rest ⟨a, b, d, e, rfl, rfl, ha, hfields, hb⟩
      exact ⟨hfields, mul_intro ha hb⟩
  · intro _
    exact (after_goTo hs).bind fun _ => after_pure (le_such htype mul_before_le)

/-- What follows an expression of the tightest tier makes another one. -/
theorem after_suffix? {e : Expr} (he : e.tier = 13) : ReadsAfter q c s₀ e.phrase (suffix? deeper e)
    fun o => such ((o.getD e).tier = 13) (o.getD e).phrase := by
  have hnone : ReadsAfter q c s₀ e.phrase (pure none)
      fun o => such ((o.getD e).tier = 13) (o.getD e).phrase := after_pure (le_such he le_rfl)
  refine peeks_next.bind fun next => ?_
  split
  · refine ((after_indexOrSlice hd he).weaken mul_before_le).bind fun e' => after_such fun he' => ?_
    exact after_pure (le_such he' le_rfl)
  · refine (after_advance_token _).bind fun _ => reads_identifier.bind fun name => ?_
    refine (after_spanFrom (by simp [mul_assoc])).bind fun span => after_pure (le_such rfl ?_)
    rw [Option.getD_some, Expr.phrase]
    exact le_such he le_rfl
  · refine ((reads_callArguments hd).after c s₀ _).weaken mul_before_le |>.bind fun as => ?_
    refine (after_spanFrom (by simp)).bind fun span => after_pure (le_such rfl ?_)
    rw [Option.getD_some, Expr.phrase]
    exact le_such he le_rfl
  · refine ReadsAfter.weaken ?_ mul_before_le
    refine peeks_fieldsBegin.bind fun b => after_ite (fun hb => ?_) fun _ => hnone.weaken mul_before_le
    refine (after_structFields? hd he).weaken (mul_mono le_rfl (before_mono fun rest hrest => ?_))
    simp only [hb, Bool.and_eq_true] at hrest
    exact hrest.1.2
  · rename_i t _ _ _ _
    split
    · rename_i op hop
      obtain rfl := UpdateOp.ofToken?_eq_some hop
      refine (after_advance_token _).bind fun _ => ?_
      refine (after_spanFrom (by simp)).bind fun span => after_pure (le_such rfl ?_)
      rw [Option.getD_some, Expr.phrase]
      exact le_such he le_rfl
    · exact hnone.weaken mul_before_le
  · exact hnone.weaken mul_before_le

theorem reads_suffixedExpr : Reads q (suffixedExpr deeper) fun e =>
    such (e.tier = 13) e.phrase := by
  refine (reads_primaryExpr hd).first fun c s e => ?_
  have hstep (e : Expr) : ReadsAfter q c s (such (e.tier = 13) e.phrase) (suffix? deeper e)
      fun o => such ((o.getD e).tier = 13) (o.getD e).phrase :=
    after_such fun he => after_suffix? hd he
  exact after_iterate hstep e

end

end Grammar

end SolidityFrontend
