import SolidityFrontend.Proofs.AgreeingExpr
import SolidityFrontend.Proofs.Located

/-!
# Type names and expressions within their text

Each parser for type names and expressions gives values and errors within the text, if the parsers
one level deeper do. An operator between two operands has a span from the start of the one to the end
of the other: so a parser of operands also tells where it has come to (`Past`).
-/

namespace SolidityFrontend

open Phrase SolidityFrontend.Parser

variable {source : List Char}

/-- The parsers of a level give values and errors within a text. -/
structure Nested.Fits (source : List Char) (n : Nested) : Prop where
  sound : n.Sound
  expression : Located source n.expression
  operand : Located source n.operand
  exponent : Located source n.exponent
  typeName : Located source n.typeName
  statement : Located source n.statement

theorem located_tooDeep {α : Type} [Placed α] :
    Located source (Nested.tooDeep : Parser α) :=
  located_here.bind fun _ hspan => locates_violation _ (fits_span.1 hspan)

theorem Nested.fits_none : Nested.none.Fits source where
  sound := Nested.sound_none
  expression := located_tooDeep
  operand := located_tooDeep
  exponent := located_tooDeep
  typeName := located_tooDeep
  statement := located_tooDeep

/-! ### How far reading has come -/

/-- The token read last ends no earlier than an offset. -/
def State.Past (offset : Nat) (s : State) : Prop := offset ≤ s.previousSpan.stop.offset

theorem State.Past.of_took {offset : Nat} {s s' : State} {ts : List Lexeme}
    {es : List SyntaxError} (h : s.Past offset) (hs : s.Ordered) (ht : s.Took ts es s') :
    s'.Past offset := by
  have hprevious := ht.2.1
  unfold State.Past State.previousSpan at h ⊢
  rcases hlast : ts.getLast? with _ | t
  · rwa [hprevious, hlast, Option.none_or]
  · rw [hprevious, hlast, Option.some_or]
    rcases hp : s.previous with _ | u
    · rw [hp] at h
      exact (Nat.le_zero.1 h).le.trans (Nat.zero_le _)
    · rw [hp] at h
      refine le_trans h ?_
      have hmem := List.mem_of_getLast? hlast
      unfold State.Ordered at hs
      rw [hp, ht.1] at hs
      have hle := hs.stop_le_start List.mem_cons_self (List.mem_append_left _ hmem)
      have hpos := hs.right.1 t (List.mem_append_left _ hmem)
      exact hle.trans hpos.le

namespace Parser

variable {α β : Type} {W : β → State → Prop}

/-- What is known of a state and of values that are known before it. -/
theorem locates_and {P : Prop} {A : State → Prop} {q : Parser β}
    (h : P → Locates source A q W) : Locates source (fun s => P ∧ A s) q W :=
  fun c s hs hA => h hA.1 c s hs hA.2

/-- A step, behind which reading is as far as before, and the steps behind it. -/
theorem Located.pastBind [Placed α] {q : Parser α} {f : α → Parser β} {offset : Nat}
    (h : Located source q)
    (hf : ∀ x, Fits source x → Locates source (State.Past offset) (f x) W) :
    Locates source (State.Past offset) (q >>= f) W := by
  refine Locates.bind (V := fun x s => Fits source x ∧ s.Past offset) (fun c s hs hpast => ?_)
    fun x => locates_and (hf x)
  have hq := h c s hs trivial
  obtain ⟨ts, es, ht, -⟩ := hq.took
  exact ⟨hq.took, fun x hx => ⟨hq.ok x hx, hpast.of_took hs.ordered ht⟩, hq.error⟩

variable {p : Parser Expr} {L : Expr → Phrase} {f : Expr → Parser β}

/-- What an expression parser gives ends where reading has come to. -/
theorem Located.stop_eq (h : Located source p) (hr : Reads False p L) (hL : ∀ e, L e ≤ e.phrase) :
    Locates source (fun _ => True) p fun e s =>
      Fits source e ∧ e.span.stop = s.previousSpan.stop := by
  intro c s hs _
  have hp := h c s hs trivial
  refine ⟨hp.took, fun e he => ⟨hp.ok e he, ?_⟩, hp.error⟩
  obtain ⟨ts, es, ht, hread, -⟩ := hr.effect_ok hs.ordered (Prod.ext he rfl)
  obtain ⟨first, last, -, hlast, hspan⟩ := (e.phrase_le _ _ _ (hL e _ _ _ hread)).1
  rw [State.previousSpan, ht.2.1, hlast, hspan]
  rfl

/-- An operand on the left, past whose start reading has come. -/
theorem Located.leftBind (h : Located source p) (hr : Reads False p L) (hL : ∀ e, L e ≤ e.phrase)
    (hf : ∀ e, Fits source e → Locates source (State.Past e.span.start.offset) (f e) W) :
    Locates source (fun _ => True) (p >>= f) W := by
  refine (h.stop_eq hr hL).bind fun e => locates_and fun he => ?_
  refine (hf e he).mono (fun s hs => ?_) fun _ _ => id
  rw [State.Past, ← hs]
  exact (Expr.span_in he).le

/-- An operand on the right ends behind the start of the one on the left, if reading had come past
that. -/
theorem Located.rightBind {left : Expr} (h : Located source p) (hr : Reads False p L)
    (hL : ∀ e, L e ≤ e.phrase) (hleft : Fits source left)
    (hf : ∀ e, Fits source e → (left.span.through e.span).In source →
      Locates source (State.Past left.span.start.offset) (f e) W) :
    Locates source (State.Past left.span.start.offset) (p >>= f) W := by
  refine Locates.bind (V := fun e s => (Fits source e ∧ e.span.stop = s.previousSpan.stop)
    ∧ s.Past left.span.start.offset) (fun c s hs hpast => ?_) fun e c s hs h => ?_
  · have hp := h.stop_eq hr hL c s hs trivial
    obtain ⟨ts, es, ht, -⟩ := hp.took
    exact ⟨hp.took, fun e he => ⟨hp.ok e he, hpast.of_took hs.ordered ht⟩, hp.error⟩
  · obtain ⟨⟨he, hstop⟩, hpast⟩ := h
    refine hf e he (.through (Expr.span_in hleft).start (Expr.span_in he).stop ?_) c s hs hpast
    rw [hstop]
    exact hpast

end Parser

namespace Grammar

/-! ### Names -/

theorem located_elementaryTypeName (allowPayable : Bool) :
    Located source (elementaryTypeName allowPayable) := by
  refine located_here.bind fun start hstart => peeks_next.locates fun next => ?_
  rw [fits_span] at hstart
  split
  · split
    · exact locates_violation _ hstart
    · rename_i kind _
      have hplain (kind : ElementaryType) : Located source (spanFrom start >>= fun span =>
          pure (ElementaryTypeName.mk kind span)) :=
        located_covered hstart fun span hspan f hf => by simp [hspan.eq hf]
      refine located_advance.bind fun _ _ => locates_ite (fun _ => ?_) fun _ => hplain kind
      exact (located_accept _).bind fun b _ => locates_ite (fun _ => hplain _) fun _ => hplain kind
  · exact locates_unexpected _

theorem located_pathSegment? : Located source pathSegment? := by
  refine (peeks_nextIs _).locates fun _ => locates_ite (fun _ => ?_) fun _ => located_pure fits_none
  refine (peeks_peek 1).locates fun _ => locates_ite (fun _ => ?_) fun _ => located_pure fits_none
  exact located_advance.bind fun _ _ => located_identifier.bind fun i hi => located_pure hi.some

theorem located_path : Located source path := by
  refine located_identifier.bind fun first hfirst => ?_
  refine (located_many located_pathSegment?).bind fun more hmore => ?_
  refine located_covered (Identifier.span_in hfirst) fun span hspan f hf => ?_
  simp [hfirst.eq hf, hmore.eq hf, hspan.eq hf]

theorem located_storageLocation? : Located source storageLocation? := by
  refine peeks_nextWord.locates fun next => ?_
  split
  · exact located_advance.bind fun _ _ => located_pure fun _ _ => rfl
  · exact located_pure fits_none

theorem located_functionTypeAttributes : Located source functionTypeAttributes := by
  refine located_many (located_here.bind fun span hspan => peeks_nextWord.locates fun next => ?_)
  rw [fits_span] at hspan
  split
  · rename_i a ha
    refine located_advance.bind fun _ _ => located_pure (Fits.some fun f hf => ?_)
    obtain ⟨w, -, ha⟩ := Option.bind_eq_some_iff.1 ha
    unfold functionTypeAttribute? at ha
    split at ha
    · rw [← Option.some.inj ha, respan_typeVisibility, hspan.eq hf]
    · rw [← Option.some.inj ha, respan_typeVisibility, hspan.eq hf]
    · obtain ⟨m, -, rfl⟩ := Option.map_eq_some_iff.1 ha
      rw [respan_typeMutability, hspan.eq hf]
  · exact located_pure fits_none

/-! ### Literals -/

theorem located_numberLiteral (value : String) (kind : NumberKind) :
    Located source (numberLiteral value kind) := by
  refine located_here.bind fun start hstart => located_advance.bind fun _ _ => ?_
  rw [fits_span] at hstart
  have hnumber (unit : Option NumberUnit) : Located source (spanFrom start >>= fun span =>
      pure (Literal.number ⟨value, kind, unit, span⟩)) :=
    located_covered hstart fun span hspan f hf => by simp [hspan.eq hf]
  refine peeks_nextWord.locates fun word => locates_ite (fun _ => ?_) fun _ => hnumber _
  exact located_advance.bind fun _ _ => hnumber _

theorem located_stringPart? {α : Type} [Placed α] (part? : Token → Option α)
    (hpart : ∀ x : α, Fits source x) : Located source (stringPart? part?) := by
  refine located_here.bind fun span hspan => peeks_next.locates fun next => ?_
  split
  · rename_i x _
    refine located_advance.bind fun _ _ => located_pure (Fits.some fun f hf => ?_)
    rw [respan_pair, (hpart x).eq hf, hspan.eq hf]
  · exact located_pure fits_none

theorem fits_parts {α : Type} [Placed α] {parts : List (α × Span)} (h : Fits source parts) :
    Fits source (parts.map Prod.snd) := fun f hf => by
  have hparts := congrArg (List.map Prod.snd) (h.eq hf)
  rw [respan_list, List.map_map] at hparts
  rw [respan_list, List.map_map]
  exact hparts

theorem located_byteStrings (part? : Token → Option (List UInt8)) :
    Located source (byteStrings part?) := by
  refine located_here.bind fun start hstart => ?_
  have hmore : Located source (many (stringPart? part?)) :=
    located_many (located_stringPart? part? fun x f _ => respan_bytes x)
  refine hmore.bind fun parts hparts => located_covered (fits_span.1 hstart) fun span hspan f hf => ?_
  rw [respan_stringLiteral, (fits_parts hparts).eq hf, hspan.eq hf]

theorem located_hexStrings : Located source hexStrings := by
  refine located_here.bind fun start hstart => ?_
  have hmore : Located source (many (stringPart? hexPart?)) :=
    located_many (located_stringPart? hexPart? fun x f _ => rfl)
  refine hmore.bind fun parts hparts => located_covered (fits_span.1 hstart) fun span hspan f hf => ?_
  rw [respan_stringLiteral, (fits_parts hparts).eq hf, hspan.eq hf]

theorem located_literal {t : Token} {p : Parser Literal} (h : literal? t = some p) :
    Located source p := by
  have hboolean (value : Bool) : Located source (here >>= fun span => advance >>= fun _ =>
      pure (Literal.boolean value span)) :=
    located_here.bind fun span hspan => located_advance.bind fun _ _ => located_pure fun f hf => by
      rw [respan_boolean, (fits_span.1 hspan).eq hf]
  unfold literal? at h
  split at h
  · exact Option.some.inj h ▸ hboolean true
  · exact Option.some.inj h ▸ hboolean false
  · exact Option.some.inj h ▸ located_numberLiteral _ _
  · exact Option.some.inj h ▸ located_numberLiteral _ _
  · refine Option.some.inj h ▸ (located_byteStrings _).map fun l hl f hf => ?_
    rw [respan_string, hl.eq hf]
  · refine Option.some.inj h ▸ located_hexStrings.map fun l hl f hf => ?_
    rw [respan_hexString, hl.eq hf]
  · refine Option.some.inj h ▸ (located_byteStrings _).map fun l hl f hf => ?_
    rw [respan_unicodeString, hl.eq hf]
  · simp at h

section

variable {deeper : Nested} (hd : deeper.Fits source)
include hd

/-! ### Type names -/

theorem located_parameter : Located source (parameter deeper) := by
  refine located_here.bind fun start hstart => hd.typeName.bind fun type htype => ?_
  refine located_storageLocation?.bind fun location _ => located_identifier?.bind fun name hname => ?_
  refine located_covered (fits_span.1 hstart) fun span hspan f hf => ?_
  simp [htype.eq hf, hname.eq hf, hspan.eq hf]

theorem located_parameters : Located source (parameters deeper) := by
  refine (located_symbol _).bind fun _ _ => (located_accept _).bind fun _ _ =>
    locates_ite (fun _ => located_pure fits_nil) fun _ => ?_
  refine (located_separated (located_parameter hd)).bind fun ps hps => ?_
  exact (located_symbol _).bind fun _ _ => located_pure hps

theorem located_returnParameters : Located source (returnParameters deeper) :=
  (located_accept _).bind fun _ _ => locates_ite (fun _ => located_parameters hd) fun _ =>
    located_pure fits_nil

omit hd in
theorem located_mappingKey : Located source mappingKey := by
  refine peeks_next.locates fun next => ?_
  split
  · exact (located_elementaryTypeName false).bind fun t ht => located_pure fun f hf => by
      rw [respan_elementaryType, ht.eq hf]
  · exact located_path.bind fun p hp => located_pure fun f hf => by
      rw [respan_userDefined, hp.eq hf]
  · exact located_here.bind fun span hspan => locates_violation _ (fits_span.1 hspan)

theorem located_mappingType : Located source (mappingType deeper) := by
  refine (located_keyword _).bind fun start hstart => (located_symbol _).bind fun _ _ => ?_
  refine located_mappingKey.bind fun key hkey => (located_symbol _).bind fun _ _ => ?_
  refine hd.typeName.bind fun value hvalue => (located_symbol _).bind fun _ _ => ?_
  refine located_covered (fits_span.1 hstart) fun span hspan f hf => ?_
  rw [respan_mapping, hkey.eq hf, hvalue.eq hf, hspan.eq hf]

theorem located_functionType : Located source (functionType deeper) := by
  refine (located_keyword _).bind fun start hstart => (located_parameters hd).bind fun ps hps => ?_
  refine located_functionTypeAttributes.bind fun attributes hattributes => ?_
  refine (located_returnParameters hd).bind fun returns hreturns => ?_
  refine located_covered (fits_span.1 hstart) fun span hspan f hf => ?_
  rw [respan_function, hps.eq hf, hattributes.eq hf, hreturns.eq hf, hspan.eq hf]

theorem located_arraySuffix? {type : TypeName} (htype : Fits source type) :
    Located source (arraySuffix? deeper type) := by
  refine (located_accept _).bind fun _ _ => locates_ite (fun _ => ?_) fun _ =>
    located_pure fits_none
  have hrest (size : Option Expr) (hsize : Fits source size) :
      Located source (symbol .rightBracket >>= fun _ => spanFrom type.span >>= fun span =>
        pure (some (TypeName.array type size span))) := by
    refine (located_symbol _).bind fun _ _ => ?_
    refine located_covered (TypeName.span_in htype) fun span hspan => Fits.some fun f hf => ?_
    rw [respan_array, htype.eq hf, hsize.eq hf, hspan.eq hf]
  refine (peeks_nextIs _).locates fun _ => locates_ite (fun _ => hrest none fits_none) fun _ => ?_
  exact hd.expression.some.bind hrest

theorem located_baseType : Located source (baseType deeper) := by
  refine peeks_next.locates fun next => ?_
  split
  · exact (located_elementaryTypeName true).bind fun t ht => located_pure fun f hf => by
      rw [respan_elementaryType, ht.eq hf]
  · exact located_mappingType hd
  · exact located_functionType hd
  · exact located_path.bind fun p hp => located_pure fun f hf => by
      rw [respan_userDefined, hp.eq hf]
  · exact locates_unexpected _

theorem located_typeName : Located source (typeName deeper) :=
  (located_baseType hd).bind fun _ htype =>
    located_iterate (fun _ htype => located_arraySuffix? hd htype) htype

/-! ### Arguments -/

theorem located_inside : Located source (inside deeper) := hd.expression.structLiterals

theorem located_namedArgument : Located source (namedArgument deeper) := by
  refine located_identifier.bind fun name hname => (located_symbol _).bind fun _ _ => ?_
  refine hd.expression.bind fun value hvalue => ?_
  refine located_covered (Identifier.span_in hname) fun span hspan f hf => ?_
  rw [respan_namedArgument, hname.eq hf, hvalue.eq hf, hspan.eq hf]

theorem located_namedArguments : Located source (namedArguments deeper) := by
  refine Located.structLiterals ((located_symbol _).bind fun _ _ => ?_)
  refine (located_commaItems (located_namedArgument hd)).bind fun arguments harguments => ?_
  exact (located_symbol _).bind fun _ _ => located_pure harguments

omit hd in
theorem located_argumentsContinue : Located source argumentsContinue :=
  (peeks_nextIs _).locates fun _ => locates_ite (fun _ => located_pure (fits_bool _)) fun _ =>
    (located_symbol _).bind fun _ _ => located_pure (fits_bool _)

theorem located_callArguments : Located source (callArguments deeper) := by
  refine (located_symbol _).bind fun start hstart => (peeks_nextIs _).locates fun _ =>
    locates_ite (fun _ => ?_) fun _ => ?_
  · refine (located_namedArguments hd).bind fun arguments harguments => ?_
    refine (located_symbol _).bind fun _ _ => ?_
    refine located_covered (fits_span.1 hstart) fun span hspan f hf => ?_
    rw [respan_named, harguments.eq hf, hspan.eq hf]
  · refine (located_itemsUntil (located_inside hd) located_argumentsContinue).bind
      fun arguments harguments => (located_symbol _).bind fun _ _ => ?_
    refine located_covered (fits_span.1 hstart) fun span hspan f hf => ?_
    rw [respan_positional, harguments.eq hf, hspan.eq hf]

theorem located_callArguments? : Located source (callArguments? deeper) :=
  (peeks_nextIs _).locates fun _ => locates_ite
    (fun _ => (located_callArguments hd).bind fun _ h => located_pure h.some) fun _ =>
    located_pure fits_none

/-! ### Primary expressions -/

theorem located_elementaryExpr : Located source (elementaryExpr deeper) := by
  refine (located_elementaryTypeName false).bind fun type htype => ?_
  refine (located_accept _).bind fun _ _ => locates_ite (fun _ => ?_) fun _ => ?_
  · refine (located_inside hd).bind fun argument hargument => (located_symbol _).bind fun _ _ => ?_
    refine located_covered (ElementaryTypeName.span_in htype) fun span hspan f hf => ?_
    rw [respan_cast, htype.eq hf, hargument.eq hf, hspan.eq hf]
  · exact located_pure fun f hf => by rw [respan_elementary, htype.eq hf]

theorem located_payableExpr : Located source (payableExpr deeper) := by
  refine (located_word _).bind fun start hstart => (located_callArguments hd).bind fun as has => ?_
  refine located_covered (fits_span.1 hstart) fun span hspan f hf => ?_
  rw [respan_payable, has.eq hf, hspan.eq hf]

theorem located_metaTypeExpr : Located source (metaTypeExpr deeper) := by
  refine (located_word _).bind fun start hstart => (located_symbol _).bind fun _ _ => ?_
  refine hd.typeName.bind fun type htype => (located_symbol _).bind fun _ _ => ?_
  refine located_covered (fits_span.1 hstart) fun span hspan f hf => ?_
  rw [respan_metaType, htype.eq hf, hspan.eq hf]

theorem located_newExpr : Located source (newExpr deeper) := by
  refine (located_keyword _).bind fun start hstart => hd.typeName.bind fun type htype => ?_
  refine located_covered (fits_span.1 hstart) fun span hspan f hf => ?_
  rw [respan_new, htype.eq hf, hspan.eq hf]

omit hd in
theorem located_tuplePlace {α : Type} [Placed α] {item : Parser α} (h : Located source item) :
    Located source (tuplePlace item) := by
  refine (peeks_nextIs _).locates fun _ => locates_ite (fun _ => located_pure fits_none) fun _ => ?_
  refine (peeks_nextIs _).locates fun _ => locates_ite (fun _ => located_pure fits_none) fun _ => ?_
  exact h.bind fun x hx => located_pure hx.some

theorem located_parenthesizedOrTuple : Located source (parenthesizedOrTuple deeper) := by
  refine (located_symbol _).bind fun start hstart => (located_accept _).bind fun _ _ =>
    locates_ite (fun _ => ?_) fun _ => ?_
  · refine located_covered (fits_span.1 hstart) fun span hspan f hf => ?_
    rw [respan_tuple, respan_nil, hspan.eq hf]
  · refine (located_separated (located_tuplePlace (located_inside hd))).bind
      fun elements helements => (located_symbol _).bind fun _ _ => ?_
    refine (located_spanFrom (fits_span.1 hstart)).bind fun span hspan => ?_
    rw [fits_span] at hspan
    split
    · refine located_pure fun f hf => ?_
      have he := helements.eq hf
      simp only [respan_cons, respan_some, respan_nil, List.cons.injEq, Option.some.injEq] at he
      rw [respan_parenthesized, he.1, hspan.eq hf]
    · exact located_pure fun f hf => by rw [respan_tuple, helements.eq hf, hspan.eq hf]

theorem located_inlineArray : Located source (inlineArray deeper) := by
  refine (located_symbol _).bind fun start hstart => ?_
  refine (located_commaItems (located_inside hd)).bind fun elements helements => ?_
  refine (located_symbol _).bind fun _ _ => ?_
  refine located_covered (fits_span.1 hstart) fun span hspan f hf => ?_
  rw [respan_inlineArray, helements.eq hf, hspan.eq hf]

theorem located_identifierExpr (name : String) : Located source (identifierExpr deeper name) := by
  have hname : Located source (identifier >>= fun i => pure (Expr.identifier i)) :=
    located_identifier.bind fun i hi => located_pure fun f hf => by rw [respan_name, hi.eq hf]
  refine (peeks_peek 1).locates fun _ => locates_ite (fun _ => ?_) fun _ => hname
  exact locates_ite (fun _ => located_payableExpr hd) fun _ =>
    locates_ite (fun _ => located_metaTypeExpr hd) fun _ => hname

theorem located_primaryExpr : Located source (primaryExpr deeper) := by
  refine peeks_next.locates fun next => ?_
  split
  · exact locates_unexpected _
  · split
    · rename_i p hp
      exact (located_literal hp).bind fun l hl => located_pure fun f hf => by
        rw [respan_literal, hl.eq hf]
    · split
      · exact located_identifierExpr hd _
      · exact located_elementaryExpr hd
      · exact located_newExpr hd
      · exact located_parenthesizedOrTuple hd
      · exact located_inlineArray hd
      · exact locates_unexpected _

/-! ### What follows a primary expression -/

theorem located_bound? (stop : Symbol) : Located source (bound? deeper stop) :=
  (peeks_nextIs _).locates fun _ => locates_ite (fun _ => located_pure fits_none) fun _ =>
    (located_inside hd).bind fun _ he => located_pure he.some

theorem located_indexOrSlice {base : Expr} (hbase : Fits source base) :
    Located source (indexOrSlice deeper base) := by
  have hindex (index : Option Expr) (hindex : Fits source index) :
      Located source (spanFrom base.span >>= fun span => pure (Expr.index base index span)) :=
    located_covered (Expr.span_in hbase) fun span hspan f hf => by
      rw [respan_index, hbase.eq hf, hindex.eq hf, hspan.eq hf]
  refine (located_symbol _).bind fun _ _ => (located_accept _).bind fun _ _ =>
    locates_ite (fun _ => hindex none fits_none) fun _ => ?_
  refine (located_bound? hd _).bind fun lower hlower => (located_accept _).bind fun _ _ =>
    locates_ite (fun _ => ?_) fun _ => (located_symbol _).bind fun _ _ => hindex lower hlower
  refine (located_bound? hd _).bind fun upper hupper => (located_symbol _).bind fun _ _ => ?_
  refine located_covered (Expr.span_in hbase) fun span hspan f hf => ?_
  rw [respan_slice, hbase.eq hf, hlower.eq hf, hupper.eq hf, hspan.eq hf]

theorem located_structFields? {type : Expr} (htype : Fits source type) :
    Located source (structFields? deeper type) := by
  intro c s hs _
  have hfields := located_namedArguments hd c s hs trivial
  obtain ⟨ts, es, ht, hes⟩ := hfields.took
  rw [structFields?_eq]
  rcases hr : namedArguments deeper c s with ⟨e | fields, t⟩
  · rw [hr] at ht hfields
    exact ⟨⟨ts, es, ht, hes⟩, by simp, by simpa using hfields.error e rfl⟩
  · rw [hr] at ht hfields
    have hstruct : Located source (spanFrom type.span >>= fun span =>
        pure (some (Expr.struct type fields span))) :=
      located_covered (Expr.span_in htype) fun span hspan => Fits.some fun f hf => by
        rw [respan_struct, htype.eq hf, (hfields.ok fields rfl).eq hf, hspan.eq hf]
    dsimp only
    split
    · exact (hstruct c t (hs.of_took ht) trivial).behind ht hes
    · exact .refl fits_none

theorem located_suffix? {e : Expr} (he : Fits source e) : Located source (suffix? deeper e) := by
  have hspan_in := Expr.span_in he
  refine peeks_next.locates fun next => ?_
  split
  · exact (located_indexOrSlice hd he).bind fun e' he' => located_pure he'.some
  · refine located_advance.bind fun _ _ => located_identifier.bind fun name hname => ?_
    refine located_covered hspan_in fun span hspan => Fits.some fun f hf => ?_
    rw [respan_member, he.eq hf, hname.eq hf, hspan.eq hf]
  · refine (located_callArguments hd).bind fun arguments harguments => ?_
    refine located_covered hspan_in fun span hspan => Fits.some fun f hf => ?_
    rw [respan_call, he.eq hf, harguments.eq hf, hspan.eq hf]
  · exact peeks_fieldsBegin.locates fun _ => locates_ite (fun _ => located_structFields? hd he)
      fun _ => located_pure fits_none
  · split
    · refine located_advance.bind fun _ _ => ?_
      refine located_covered hspan_in fun span hspan => Fits.some fun f hf => ?_
      rw [respan_update, he.eq hf, hspan.eq hf]
    · exact located_pure fits_none
  · exact located_pure fits_none

theorem located_suffixedExpr : Located source (suffixedExpr deeper) :=
  (located_primaryExpr hd).bind fun _ he => located_iterate (fun _ he => located_suffix? hd he) he

/-! ### Operators -/

theorem located_unaryExpr : Located source (unaryExpr deeper) := by
  refine located_here.bind fun start hstart => peeks_next.locates fun next => ?_
  rw [fits_span] at hstart
  split
  · exact located_suffixedExpr hd
  · split
    · refine located_advance.bind fun _ _ => hd.operand.bind fun operand hoperand => ?_
      refine located_covered hstart fun span hspan f hf => ?_
      rw [respan_unary, hoperand.eq hf, hspan.eq hf]
    · refine located_advance.bind fun _ _ => hd.operand.bind fun operand hoperand => ?_
      refine located_covered hstart fun span hspan f hf => ?_
      rw [respan_update, hoperand.eq hf, hspan.eq hf]
    · exact located_suffixedExpr hd

omit hd in
theorem fits_binary {left right : Expr} (op : BinaryOp) (hleft : Fits source left)
    (hright : Fits source right) (hspan : (left.span.through right.span).In source) :
    Fits source (binary left op right) := fun f hf => by
  rw [binary, respan_binary, hleft.eq hf, hright.eq hf, hspan.eq hf]

theorem located_powerExpr : Located source (powerExpr deeper) := by
  refine (located_unaryExpr hd).leftBind (reads_unaryExpr hd.sound) (fun _ => such_le)
    fun base hbase => (located_accept _).pastBind fun _ _ => locates_ite (fun _ => ?_) fun _ => ?_
  · refine hd.exponent.rightBind (hd.sound.exponent False) (fun _ => such_le) hbase
      fun exponent hexponent hspan => ?_
    exact locates_pure fun _ _ => fits_binary .pow hbase hexponent hspan
  · exact locates_pure fun _ _ => hbase

omit hd in
theorem located_leftAssociative {ops : List BinaryOp} {operand : Parser Expr} {L : Expr → Phrase}
    (h : Located source operand) (hr : Reads False operand L) (hL : ∀ e, L e ≤ e.phrase) :
    Located source (leftAssociative ops operand) := by
  refine h.leftBind hr hL fun left hleft => Locates.mono (locates_iterate
    (V := fun e s => Fits source e ∧ s.Past e.span.start.offset) (fun left => ?_) left)
    (fun _ hpast => ⟨hleft, hpast⟩) fun _ _ => And.left
  refine locates_and fun hleft => peeks_next.locates fun next => ?_
  split
  · rename_i op _
    -- The whole starts where its left operand does, so reading is past its start too.
    refine located_advance.pastBind fun _ _ => h.rightBind hr hL hleft fun right hright hspan => ?_
    exact locates_pure fun _ hpast => ⟨fits_binary op hleft hright hspan, hpast⟩
  · exact locates_pure fun _ hpast => ⟨hleft, hpast⟩

theorem located_binaryExpr : ∀ (n : Nat) (tiers : List (List BinaryOp)), BinaryOp.Climbs n tiers →
    Located source (binaryExpr deeper tiers)
  | _, [], _ => located_powerExpr hd
  | n, _ :: tighter, h =>
    located_leftAssociative (located_binaryExpr (n + 1) tighter h.2)
      (reads_binaryExpr hd.sound (n + 1) tighter h.2).2 fun _ => such_le

theorem located_conditionalExpr : Located source (conditionalExpr deeper) := by
  have hclimbs := BinaryOp.climbs_tiers
  refine (located_binaryExpr hd 1 _ hclimbs).leftBind (reads_binaryExpr hd.sound 1 _ hclimbs).2
    (fun _ => such_le) fun condition hcondition => (located_accept _).pastBind fun _ _ =>
      locates_ite (fun _ => ?_) fun _ => locates_pure fun _ _ => hcondition
  refine (located_inside hd).pastBind fun ifTrue htrue => (located_symbol _).pastBind fun _ _ => ?_
  refine hd.expression.rightBind (hd.sound.expression False) (fun _ => le_rfl) hcondition
    fun ifFalse hfalse hspan => locates_pure fun _ _ f hf => ?_
  rw [respan_ternary, hcondition.eq hf, htrue.eq hf, hfalse.eq hf, hspan.eq hf]

theorem located_expression : Located source (expression deeper) := by
  refine (located_conditionalExpr hd).leftBind (reads_conditionalExpr hd.sound) (fun _ => le_rfl)
    fun left hleft => peeks_next.locates fun next => ?_
  split
  · exact locates_pure fun _ _ => hleft
  · refine located_advance.pastBind fun _ _ => locates_ite (fun _ => ?_) fun _ => ?_
    · refine hd.expression.rightBind (hd.sound.expression False) (fun _ => le_rfl) hleft
        fun right hright hspan => locates_pure fun _ _ f hf => ?_
      rw [respan_assignment, hleft.eq hf, hright.eq hf, hspan.eq hf]
    · exact locates_violation _ (Expr.span_in hleft)

end

end Grammar

end SolidityFrontend
