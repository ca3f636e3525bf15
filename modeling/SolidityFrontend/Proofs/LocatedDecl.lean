import SolidityFrontend.Proofs.LocatedStmt
import SolidityFrontend.Proofs.Segments
import SolidityFrontend.Proofs.VersionPlaces

/-!
# Directives, declarations and files within their text

Each parser for directives, declarations and files gives values and errors within the text. The value
of a pragma is read from the text behind its name, and its constraints begin and end between two
characters of that text.
-/

namespace SolidityFrontend

open SolidityFrontend.Parser SolidityFrontend.Text

variable {source : List Char}

/-! ### Places within a stretch of text -/

/-- The text has these characters behind a location. -/
def Stretch (source : List Char) (l : Location) (text : List Char) : Prop :=
  ∃ before rest, source = before ++ text ++ rest ∧ l = .advanceBy .origin before

theorem Location.advanceBy_eq (l : Location) (cs : List Char) :
    l.advanceBy cs = ⟨l.offset + byteLength cs, l.position.advanceBy cs⟩ := by
  rw [← l.offset_advanceBy, ← l.position_advanceBy]

theorem takeBytes_prefix {n : Nat} {cs ds : List Char} (h : takeBytes n cs = some ds) :
    ds <+: cs := by
  induction cs generalizing n ds with
  | nil =>
    cases n with
    | zero => exact Option.some.inj h ▸ List.nil_prefix
    | succ n => exact absurd h (by simp [takeBytes])
  | cons c cs ih =>
    cases n with
    | zero => exact Option.some.inj h ▸ List.nil_prefix
    | succ n =>
      rw [takeBytes] at h
      split at h
      · obtain ⟨es, hes, rfl⟩ := Option.map_eq_some_iff.1 h
        exact List.cons_prefix_cons.2 ⟨rfl, ih hes⟩
      · simp at h

/-- A slice of the text from a location of it on. -/
theorem stretch_slice {l : Location} (h : l.In source) (stop : Nat) :
    Stretch source l ((sliceBytes l.offset stop source).getD []) := by
  obtain ⟨before, ⟨rest, rfl⟩, rfl⟩ := h
  rw [Location.offset_advanceBy_origin, sliceBytes, dropBytes_byteLength]
  rcases hslice : (if byteLength before ≤ stop then (some rest).bind
      (takeBytes (stop - byteLength before)) else none) with _ | text
  · exact ⟨before, rest, by simp, rfl⟩
  · obtain ⟨-, htext⟩ := Option.ite_none_right_eq_some.1 hslice
    obtain ⟨more, rfl⟩ := takeBytes_prefix htext
    exact ⟨before, more, by simp, rfl⟩

namespace Version

theorem IsCut.takeWhile (p : Char → Bool) (text : List Char) :
    IsCut text (byteLength (text.takeWhile p)) := ⟨_, List.takeWhile_prefix p, rfl⟩

theorem isCut_trimEnd (text : List Char) : IsCut text (byteLength (trimEnd text)) := by
  refine ⟨_, ?_, rfl⟩
  have hsuffix := List.dropWhile_suffix isBlank (l := text.reverse)
  have hprefix := List.reverse_prefix.2 hsuffix
  rwa [List.reverse_reverse] at hprefix

theorem IsCut.max {text : List Char} {m n : Nat} (h : IsCut text m) (h' : IsCut text n) :
    IsCut text (max m n) := by
  rcases Nat.le_total m n with hle | hle
  · rwa [Nat.max_eq_right hle]
  · rwa [Nat.max_eq_left hle]

/-- Two cuts divide a text into three parts. -/
theorem IsCut.split {text : List Char} {m n : Nat} (h : IsCut text m) (h' : IsCut text n)
    (hle : m ≤ n) : ∃ x y z, text = x ++ y ++ z ∧ m = byteLength x ∧ n = byteLength (x ++ y) := by
  obtain ⟨x, hx, rfl⟩ := h
  obtain ⟨u, hu, rfl⟩ := h'
  rcases List.prefix_or_prefix_of_prefix hx hu with ⟨y, rfl⟩ | ⟨y, rfl⟩
  · obtain ⟨z, rfl⟩ := hu
    exact ⟨x, y, z, rfl, rfl, rfl⟩
  · rw [byteLength_append] at hle
    have hy : y = [] := by
      by_contra hne
      have hpos := byteLength_pos hne
      omega
    subst hy
    obtain ⟨z, rfl⟩ := hu
    exact ⟨u, [], z, by simp, by simp, by simp⟩

end Version

namespace Grammar

section

variable {l : Location} {text : List Char} (h : Stretch source l text)
include h

theorem spanWithin_in {a b : Nat} (ha : Version.IsCut text a) (hb : Version.IsCut text b)
    (hle : a ≤ b) : (spanWithin l text a b).In source := by
  obtain ⟨before, rest, rfl, rfl⟩ := h
  obtain ⟨x, y, z, rfl, rfl, rfl⟩ := ha.split hb hle
  have hinner := sliceBytes_byteLength x y z
  have htake : takeBytes (byteLength x) (x ++ y ++ z) = some x := by
    rw [List.append_assoc, takeBytes_byteLength]
  have hspan : spanWithin (.advanceBy .origin before) (x ++ y ++ z) (byteLength x)
      (byteLength (x ++ y))
        = ⟨.advanceBy .origin (before ++ x), .advanceBy .origin (before ++ x ++ y)⟩ := by
    unfold spanWithin
    rw [hinner, htake, Location.advanceBy_append _ (before ++ x), Location.advanceBy_append,
      Location.advanceBy_eq _ x, Location.advanceBy_eq _ y, byteLength_append, Nat.add_assoc]
    rfl
  rw [hspan]
  refine ⟨⟨before ++ x, ⟨y ++ z ++ rest, by simp⟩, rfl⟩,
    ⟨before ++ x ++ y, ⟨z ++ rest, by simp⟩, rfl⟩, ?_⟩
  simp only [Location.offset_advanceBy, byteLength_append]
  omega

theorem trimmedSpan_in : (trimmedSpan l text).In source :=
  spanWithin_in h (.takeWhile _ _) ((Version.IsCut.takeWhile _ _).max (Version.isCut_trimEnd _))
    (Nat.le_max_left _ _)

theorem fits_versionValue {value : PragmaValue} (hvalue : versionValue l text = .ok value) :
    Fits source value := by
  unfold versionValue at hvalue
  split at hvalue
  · simp at hvalue
  · split at hvalue
    · rename_i alternatives halternatives
      obtain rfl := Except.ok.inj hvalue
      have hcut := Version.parse_cut halternatives
      have hinside := (Version.parse_spec halternatives).2
      intro f hf
      have hconstraints : respan f (alternatives.map (·.map (placeConstraint l text)))
          = alternatives.map (·.map (placeConstraint l text)) := by
        rw [respan_list, List.map_map]
        refine List.map_congr_left fun ks hks => ?_
        rw [Function.comp_apply, respan_list, List.map_map]
        refine List.map_congr_left fun k hk => ?_
        obtain ⟨hstart, hstop⟩ := hcut ks hks k hk
        have hspan := spanWithin_in h hstart hstop (hinside ks hks k hk).2.1
        rw [Function.comp_apply, placeConstraint, respan_versionConstraint, hspan.eq hf]
      rw [respan_versionValue, respan_versionRequirement, hconstraints, (trimmedSpan_in h).eq hf]
    · simp at hvalue

end

/-! ### Directives -/

theorem located_skipPragmaValue : Located source skipPragmaValue := by
  refine Located.bind (located_many (α := Unit) ?_) fun _ _ => located_pure fits_unit
  refine peeks_next.locates fun next => ?_
  split
  · exact locates_ite (fun _ => located_pure fits_none) fun _ =>
      located_advance.bind fun _ _ => located_pure fits_unit.some
  · exact located_pure fits_none

theorem located_pragmaValue {name : Identifier} {text : List Char}
    (h : Stretch source name.span.stop text) : Located source (pragmaValue name text) := by
  have hspan := trimmedSpan_in h
  have hraw : Fits source (PragmaValue.raw (String.ofList (trim text))
      (trimmedSpan name.span.stop text)) := fun f hf => by rw [respan_rawValue, hspan.eq hf]
  refine locates_ite (fun _ => ?_) fun _ => located_pure hraw
  split
  · rename_i value hvalue
    exact located_pure (fits_versionValue h hvalue)
  · exact (located_record hspan).bind fun _ _ => located_pure hraw

/-- Behind a look at the text itself. -/
theorem locates_source {α : Type} {A : State → Prop} {V : α → State → Prop} {f : List Char → Parser α}
    (h : Locates source A (f source) V) :
    Locates source A (context >>= fun c => f c.source) V := by
  intro c s hs hA
  rw [bind_ok (looks_context c s), hs.text]
  exact h c s hs hA

theorem located_pragmaDirective : Located source pragmaDirective := by
  refine (located_keyword _).bind fun start hstart => located_identifier.bind fun name hname => ?_
  refine located_skipPragmaValue.bind fun _ _ => ?_
  have hrest (stop : Nat) : Located source (context >>= fun c =>
      symbol .semicolon >>= fun _ =>
        pragmaValue name ((sliceBytes name.span.stop.offset stop c.source).getD []) >>= fun value =>
          spanFrom start >>= fun span => pure (PragmaDirective.mk name value span)) := by
    refine locates_source (f := fun text => symbol .semicolon >>= fun _ =>
      pragmaValue name ((sliceBytes name.span.stop.offset stop text).getD []) >>= fun value =>
        spanFrom start >>= fun span => pure (PragmaDirective.mk name value span)) ?_
    have htext := stretch_slice (Identifier.span_in hname).stop stop
    refine (located_symbol _).bind fun _ _ => (located_pragmaValue htext).bind fun value hvalue => ?_
    refine located_covered (fits_span.1 hstart) fun span hspan f hf => ?_
    rw [respan_pragmaDirective, hname.eq hf, hvalue.eq hf, hspan.eq hf]
  refine (peeks_nextIs _).locates fun _ => locates_ite (fun _ => ?_) fun _ => ?_
  · exact looks_here.locates fun span => hrest span.start.offset
  · exact looks_previousSpan.locates fun span => hrest span.stop.offset

theorem located_importPath : Located source importPath :=
  located_stringText.bind fun p hp => located_pure fun f hf => by
    have hspan : f p.2 = p.2 := congrArg Prod.snd (hp.eq hf)
    rw [respan_importPath, hspan]

theorem located_renaming? : Located source renaming? :=
  (located_accept _).bind fun _ _ => locates_ite
    (fun _ => located_identifier.bind fun _ hi => located_pure hi.some) fun _ =>
    located_pure fits_none

theorem located_importAlias : Located source importAlias := by
  refine located_identifier.bind fun name hname => located_renaming?.bind fun renamed hrenamed => ?_
  refine located_covered (Identifier.span_in hname) fun span hspan f hf => ?_
  rw [respan_importAlias, hname.eq hf, hrenamed.eq hf, hspan.eq hf]

theorem located_wildcardImport : Located source wildcardImport := by
  refine (located_symbol _).bind fun star hstar => (located_word _).bind fun _ _ => ?_
  refine located_identifier.bind fun name hname => ?_
  refine located_covered (fits_span.1 hstar) fun span hspan f hf => ?_
  rw [respan_singleImport, respan_wildcardSymbol, (fits_span.1 hstar).eq hf, hname.some.eq hf,
    hspan.eq hf]

theorem located_multipleImport : Located source multipleImport := by
  refine (located_symbol _).bind fun start hstart => ?_
  refine (located_separated located_importAlias).bind fun symbols hsymbols => ?_
  refine (located_symbol _).bind fun _ _ => ?_
  refine located_covered (fits_span.1 hstart) fun span hspan f hf => ?_
  rw [respan_multipleImport, hsymbols.eq hf, hspan.eq hf]

theorem located_namedImport : Located source namedImport := by
  refine located_identifier.bind fun name hname => located_renaming?.bind fun renamed hrenamed => ?_
  refine located_covered (Identifier.span_in hname) fun span hspan f hf => ?_
  rw [respan_singleImport, respan_nameSymbol, hname.eq hf, hrenamed.eq hf, hspan.eq hf]

theorem fits_pair {α β : Type} [Placed α] [Placed β] {x : α} {y : β} (h : Fits source x)
    (h' : Fits source y) : Fits source (x, y) := fun f hf => by
  rw [respan_pair, h.eq hf, h'.eq hf]

theorem located_importFrom {clause : Parser ImportClause} (h : Located source clause) :
    Located source (importFrom clause) :=
  h.bind fun _ hc => (located_word _).bind fun _ _ => located_importPath.bind fun _ hp =>
    located_pure (fits_pair hp (fits_pair fits_none hc.some))

theorem located_importTarget : Located source importTarget := by
  refine peeks_next.locates fun next => ?_
  split
  · exact located_importPath.bind fun _ hp => located_renaming?.bind fun _ hr =>
      located_pure (fits_pair hp (fits_pair hr fits_none))
  · exact located_importFrom located_wildcardImport
  · exact located_importFrom located_multipleImport
  · exact located_importFrom located_namedImport
  · exact locates_unexpected _

theorem located_importDirective : Located source importDirective := by
  refine (located_keyword _).bind fun start hstart => located_importTarget.bind fun target ht => ?_
  obtain ⟨p, renamed, clause⟩ := target
  refine (located_symbol _).bind fun _ _ => ?_
  refine located_covered (fits_span.1 hstart) fun span hspan f hf => ?_
  have htarget := ht.eq hf
  simp only [respan_pair, Prod.mk.injEq] at htarget
  rw [respan_importDirective, htarget.1, htarget.2.1, htarget.2.2, hspan.eq hf]

theorem located_overrideSpecifier : Located source overrideSpecifier := by
  refine (located_word _).bind fun start hstart => ?_
  have hrest (overrides : List Path) (hoverrides : Fits source overrides) : Located source
      (spanFrom start >>= fun span => pure (OverrideSpecifier.mk overrides span)) :=
    located_covered (fits_span.1 hstart) fun span hspan f hf => by
      rw [respan_overrideSpecifier, hoverrides.eq hf, hspan.eq hf]
  refine (located_accept _).bind fun _ _ => locates_ite (fun _ => ?_) fun _ => hrest [] fits_nil
  exact (located_separated located_path).bind fun paths hpaths =>
    (located_symbol _).bind fun _ _ => hrest paths hpaths

theorem fits_variableAttribute {word : String} {span : Span} {a : VariableAttribute}
    (h : variableAttribute? word span = some a) (hspan : span.In source) : Fits source a := by
  intro f hf
  unfold variableAttribute? at h
  split at h
  · obtain rfl := Option.some.inj h
    rw [respan_variableVisibility, hspan.eq hf]
  · split at h
    · obtain rfl := Option.some.inj h
      rw [respan_constantAttribute, hspan.eq hf]
    · split at h
      · obtain rfl := Option.some.inj h
        rw [respan_immutable, hspan.eq hf]
      · simp at h

theorem located_variableAttributes : Located source variableAttributes := by
  refine located_many (located_here.bind fun span hspan => peeks_nextWord.locates fun next => ?_)
  rw [fits_span] at hspan
  split
  · exact located_pure fits_none
  · split
    · rename_i a ha
      exact located_advance.bind fun _ _ => located_pure (fits_variableAttribute ha hspan).some
    · refine locates_ite (fun _ => ?_) fun _ => located_pure fits_none
      exact located_overrideSpecifier.bind fun o ho => located_pure (Fits.some fun f hf => by
        rw [respan_variableOverride, ho.eq hf])

theorem fits_functionAttribute {word : String} {span : Span} {a : FunctionAttribute}
    (h : functionAttribute? word span = some a) (hspan : span.In source) : Fits source a := by
  intro f hf
  unfold functionAttribute? at h
  split at h
  · obtain rfl := Option.some.inj h
    rw [respan_functionVisibility, hspan.eq hf]
  · obtain rfl := Option.some.inj h
    rw [respan_functionMutability, hspan.eq hf]
  · split at h
    · obtain rfl := Option.some.inj h
      rw [respan_virtual, hspan.eq hf]
    · simp at h

theorem located_contractKind (isAbstract : Bool) : Located source (contractKind isAbstract) := by
  refine peeks_next.locates fun next => ?_
  split
  · exact locates_unexpected _
  · refine locates_ite (fun _ => ?_) fun _ => ?_
    · exact located_here.bind fun span hspan => locates_violation _ (fits_span.1 hspan)
    · exact located_advance.bind fun _ _ => located_pure fun _ _ => rfl

theorem located_enumDeclaration : Located source enumDeclaration := by
  refine (located_keyword _).bind fun start hstart => located_identifier.bind fun name hname => ?_
  refine (located_symbol _).bind fun _ _ => ?_
  refine (located_commaItems located_identifier).bind fun values hvalues => ?_
  refine (located_symbol _).bind fun _ _ => ?_
  refine located_covered (fits_span.1 hstart) fun span hspan f hf => ?_
  rw [respan_enumDeclaration, hname.eq hf, hvalues.eq hf, hspan.eq hf]

section

variable {deeper : Nested} (hd : deeper.Fits source)
include hd

theorem located_usingTarget : Located source (usingTarget deeper) := by
  refine located_here.bind fun span hspan => (located_accept _).bind fun _ _ =>
    locates_ite (fun _ => ?_) fun _ => ?_
  · exact located_pure fun f hf => by rw [respan_wildcardTarget, (fits_span.1 hspan).eq hf]
  · exact hd.typeName.bind fun t ht => located_pure fun f hf => by
      rw [respan_typeTarget, ht.eq hf]

theorem located_usingDirective : Located source (usingDirective deeper) := by
  refine (located_keyword _).bind fun start hstart => located_path.bind fun library hlibrary => ?_
  refine (located_keyword _).bind fun _ _ => (located_usingTarget hd).bind fun target ht => ?_
  refine (located_symbol _).bind fun _ _ => ?_
  refine located_covered (fits_span.1 hstart) fun span hspan f hf => ?_
  rw [respan_usingDirective, hlibrary.eq hf, ht.eq hf, hspan.eq hf]

/-! ### Functions -/

theorem located_modifierInvocation : Located source (modifierInvocation deeper) := by
  refine located_path.bind fun p hp => (located_callArguments? hd).bind fun arguments has => ?_
  refine located_covered (Path.span_in hp) fun span hspan f hf => ?_
  rw [respan_modifierInvocation, hp.eq hf, has.eq hf, hspan.eq hf]

theorem located_functionAttributes : Located source (functionAttributes deeper) := by
  refine located_many (located_here.bind fun span hspan => peeks_nextWord.locates fun next => ?_)
  rw [fits_span] at hspan
  split
  · exact located_pure fits_none
  · split
    · rename_i a ha
      exact located_advance.bind fun _ _ => located_pure (fits_functionAttribute ha hspan).some
    · refine locates_ite (fun _ => ?_) fun _ => ?_
      · exact located_overrideSpecifier.bind fun o ho => located_pure (Fits.some fun f hf => by
          rw [respan_functionOverride, ho.eq hf])
      · exact (located_modifierInvocation hd).bind fun m hm => located_pure (Fits.some fun f hf => by
          rw [respan_functionModifier, hm.eq hf])

theorem located_functionBody : Located source (functionBody deeper) :=
  (located_accept _).bind fun _ _ => locates_ite (fun _ => located_pure fits_none) fun _ =>
    (located_block hd).bind fun _ hb => located_pure hb.some

theorem located_functionDefinition : Located source (functionDefinition deeper) := by
  refine (located_keyword _).bind fun start hstart => located_identifier.bind fun name hname => ?_
  refine (located_parameters hd).bind fun ps hps => ?_
  refine (located_functionAttributes hd).bind fun attributes hattributes => ?_
  refine (located_returnParameters hd).bind fun returns hreturns => ?_
  refine (located_functionBody hd).bind fun inner hinner => ?_
  refine located_covered (fits_span.1 hstart) fun span hspan f hf => ?_
  rw [respan_functionDefinition, hname.eq hf, hps.eq hf, hattributes.eq hf, hreturns.eq hf,
    hinner.eq hf, hspan.eq hf]

theorem located_modifierDefinition : Located source (modifierDefinition deeper) := by
  refine (located_keyword _).bind fun start hstart => located_identifier.bind fun name hname => ?_
  have hrest (ps : List Parameter) (hps : Fits source ps) : Located source
      (functionAttributes deeper >>= fun attributes => functionBody deeper >>= fun inner =>
        spanFrom start >>= fun span =>
          pure (ModifierDefinition.mk name ps attributes inner span)) := by
    refine (located_functionAttributes hd).bind fun attributes hattributes => ?_
    refine (located_functionBody hd).bind fun inner hinner => ?_
    refine located_covered (fits_span.1 hstart) fun span hspan f hf => ?_
    rw [respan_modifierDefinition, hname.eq hf, hps.eq hf, hattributes.eq hf, hinner.eq hf,
      hspan.eq hf]
  exact (peeks_nextIs _).locates fun _ => locates_ite
    (fun _ => (located_parameters hd).bind hrest) fun _ => hrest [] fits_nil

theorem located_constructorDefinition : Located source (constructorDefinition deeper) := by
  refine (located_keyword _).bind fun start hstart => (located_parameters hd).bind fun ps hps => ?_
  refine (located_functionAttributes hd).bind fun attributes hattributes => ?_
  refine (located_functionBody hd).bind fun inner hinner => ?_
  refine located_covered (fits_span.1 hstart) fun span hspan f hf => ?_
  rw [respan_constructorDefinition, hps.eq hf, hattributes.eq hf, hinner.eq hf, hspan.eq hf]

theorem located_fallbackRest (kind : FallbackKind) {start : Span} (hstart : start.In source) :
    Located source (fallbackRest deeper kind start) := by
  refine (located_parameters hd).bind fun ps hps => ?_
  refine (located_functionAttributes hd).bind fun attributes hattributes => ?_
  refine (located_functionBody hd).bind fun inner hinner => ?_
  refine located_covered hstart fun span hspan f hf => ?_
  rw [respan_fallbackDefinition, hps.eq hf, hattributes.eq hf, hinner.eq hf, hspan.eq hf]

theorem located_namelessFallback : Located source (namelessFallback deeper) :=
  (located_keyword _).bind fun _ hstart => located_fallbackRest hd _ (fits_span.1 hstart)

theorem located_fallbackDefinition (kind : FallbackKind) :
    Located source (fallbackDefinition deeper kind) :=
  (located_word _).bind fun _ hstart => located_fallbackRest hd _ (fits_span.1 hstart)

/-! ### Variables, structs and events -/

theorem located_stateVariable : Located source (stateVariable deeper) := by
  refine located_here.bind fun start hstart => hd.typeName.bind fun type htype => ?_
  refine located_variableAttributes.bind fun attributes hattributes => ?_
  refine located_identifier.bind fun name hname => ?_
  have hrest (value : Option Expr) (hvalue : Fits source value) : Located source
      (symbol .semicolon >>= fun _ => spanFrom start >>= fun span =>
        pure (StateVariable.mk type attributes name value span)) := by
    refine (located_symbol _).bind fun _ _ => ?_
    refine located_covered (fits_span.1 hstart) fun span hspan f hf => ?_
    rw [respan_stateVariable, htype.eq hf, hattributes.eq hf, hname.eq hf, hvalue.eq hf,
      hspan.eq hf]
  exact (located_accept _).bind fun _ _ => locates_ite (fun _ => hd.expression.some.bind hrest)
    fun _ => hrest none fits_none

theorem located_constantDeclaration : Located source (constantDeclaration deeper) := by
  refine located_here.bind fun start hstart => hd.typeName.bind fun type htype => ?_
  refine (located_word _).bind fun _ _ => located_identifier.bind fun name hname => ?_
  refine (located_symbol _).bind fun _ _ => hd.expression.bind fun value hvalue => ?_
  refine (located_symbol _).bind fun _ _ => ?_
  refine located_covered (fits_span.1 hstart) fun span hspan f hf => ?_
  rw [respan_constantDeclaration, htype.eq hf, hname.eq hf, hvalue.eq hf, hspan.eq hf]

theorem located_structMember : Located source (structMember deeper) := by
  refine located_here.bind fun start hstart => hd.typeName.bind fun type htype => ?_
  refine located_identifier.bind fun name hname => (located_symbol _).bind fun _ _ => ?_
  refine located_covered (fits_span.1 hstart) fun span hspan f hf => ?_
  rw [respan_structMember, htype.eq hf, hname.eq hf, hspan.eq hf]

theorem located_structDeclaration : Located source (structDeclaration deeper) := by
  refine (located_keyword _).bind fun start hstart => located_identifier.bind fun name hname => ?_
  refine (located_symbol _).bind fun _ _ => ?_
  refine (located_itemsUntil (located_structMember hd) (located_pure (fits_bool _))).bind
    fun members hmembers => (located_symbol _).bind fun _ _ =>
      (located_spanFrom (fits_span.1 hstart)).bind fun span hspan => ?_
  rw [fits_span] at hspan
  have hvalue : Fits source (StructDeclaration.mk name members span) := fun f hf => by
    rw [respan_structDeclaration, hname.eq hf, hmembers.eq hf, hspan.eq hf]
  exact locates_ite (fun _ => (located_record hspan).bind fun _ _ => located_pure hvalue)
    fun _ => located_pure hvalue

theorem located_eventParameter : Located source (eventParameter deeper) := by
  refine located_here.bind fun start hstart => hd.typeName.bind fun type htype => ?_
  refine (located_accept _).bind fun isIndexed _ => located_identifier?.bind fun name hname => ?_
  refine located_covered (fits_span.1 hstart) fun span hspan f hf => ?_
  rw [respan_eventParameter, htype.eq hf, hname.eq hf, hspan.eq hf]

theorem located_eventDefinition : Located source (eventDefinition deeper) := by
  refine (located_keyword _).bind fun start hstart => located_identifier.bind fun name hname => ?_
  have hrest (ps : List EventParameter) (hps : Fits source ps) : Located source
      (symbol .rightParen >>= fun _ => acceptWord "anonymous" >>= fun isAnonymous =>
        symbol .semicolon >>= fun _ => spanFrom start >>= fun span =>
          pure (EventDefinition.mk name ps isAnonymous span)) := by
    refine (located_symbol _).bind fun _ _ => (located_accept _).bind fun isAnonymous _ => ?_
    refine (located_symbol _).bind fun _ _ => ?_
    refine located_covered (fits_span.1 hstart) fun span hspan f hf => ?_
    rw [respan_eventDefinition, hname.eq hf, hps.eq hf, hspan.eq hf]
  refine (located_symbol _).bind fun _ _ => (peeks_nextIs _).locates fun _ => locates_ite
    (fun _ => hrest [] fits_nil) fun _ => ?_
  exact (located_separated (located_eventParameter hd)).bind hrest

/-! ### Contracts and files -/

theorem located_variableOrFallback : Located source (variableOrFallback deeper) :=
  located_either
    ((located_stateVariable hd).map fun d hd f hf => by rw [respan_stateVariableMember, hd.eq hf])
    ((located_namelessFallback hd).map fun d hd f hf => by rw [respan_fallbackMember, hd.eq hf])

theorem located_member : Located source (member deeper) := by
  have hvariable : Located source (stateVariable deeper >>= fun d =>
      pure (Member.stateVariable d)) := (located_stateVariable hd).bind fun d hd =>
    located_pure fun f hf => by rw [respan_stateVariableMember, hd.eq hf]
  refine peeks_next.locates fun next => ?_
  split
  · refine (peeks_peek 1).locates fun _ => locates_ite (fun _ => located_variableOrFallback hd)
      fun _ => ?_
    exact (located_functionDefinition hd).bind fun d hd => located_pure fun f hf => by
      rw [respan_functionMember, hd.eq hf]
  · exact (located_modifierDefinition hd).bind fun d hd => located_pure fun f hf => by
      rw [respan_modifierMember, hd.eq hf]
  · exact (located_constructorDefinition hd).bind fun d hd => located_pure fun f hf => by
      rw [respan_constructorMember, hd.eq hf]
  · exact (located_eventDefinition hd).bind fun d hd => located_pure fun f hf => by
      rw [respan_eventMember, hd.eq hf]
  · exact (located_structDeclaration hd).bind fun d hd => located_pure fun f hf => by
      rw [respan_structOfMember, hd.eq hf]
  · exact located_enumDeclaration.bind fun d hd => located_pure fun f hf => by
      rw [respan_enumMember, hd.eq hf]
  · exact (located_usingDirective hd).bind fun d hd => located_pure fun f hf => by
      rw [respan_usingMember, hd.eq hf]
  · refine (peeks_peek 1).locates fun next => ?_
    split
    · exact (located_fallbackDefinition hd _).bind fun d hd => located_pure fun f hf => by
        rw [respan_fallbackMember, hd.eq hf]
    · exact hvariable
  · exact hvariable
  · exact hvariable
  · exact locates_unexpected _

theorem located_inheritanceSpecifier : Located source (inheritanceSpecifier deeper) := by
  refine located_path.bind fun ancestor hancestor => (located_callArguments? hd).bind
    fun arguments has => ?_
  refine located_covered (Path.span_in hancestor) fun span hspan f hf => ?_
  rw [respan_inheritanceSpecifier, hancestor.eq hf, has.eq hf, hspan.eq hf]

theorem located_inheritance (kind : ContractKind) : Located source (inheritance deeper kind) := by
  refine (peeks_nextIs _).locates fun _ => locates_ite (fun _ => ?_) fun _ => located_pure fits_nil
  refine locates_ite (fun _ => ?_) fun _ => located_advance.bind fun _ _ =>
    located_separated (located_inheritanceSpecifier hd)
  exact located_here.bind fun span hspan => locates_violation _ (fits_span.1 hspan)

omit hd in
theorem fits_errorMember (m : ErrorMark) (h : Fits source m) : Fits source (Member.error m) :=
  fun f hf => by rw [respan_errorMember, h.eq hf]

theorem located_contractDeclaration : Located source (contractDeclaration deeper) := by
  refine located_here.bind fun start hstart => (located_accept _).bind fun isAbstract _ => ?_
  refine (located_contractKind _).bind fun kind _ => located_identifier.bind fun name hname => ?_
  refine (located_inheritance hd kind).bind fun bases hbases => (located_symbol _).bind fun _ _ => ?_
  refine (located_body (located_member hd) fits_errorMember).bind fun members hmembers => ?_
  refine located_covered (fits_span.1 hstart) fun span hspan f hf => ?_
  rw [respan_contractDeclaration, hname.eq hf, hbases.eq hf, hmembers.eq hf, hspan.eq hf]

theorem located_sourceUnit : Located source (sourceUnit deeper) := by
  have hcontract : Located source (contractDeclaration deeper >>= fun d =>
      pure (SourceUnit.contract d)) := (located_contractDeclaration hd).bind fun d hd =>
    located_pure fun f hf => by rw [respan_contractUnit, hd.eq hf]
  have hconstant : Located source (constantDeclaration deeper >>= fun d =>
      pure (SourceUnit.constant d)) := (located_constantDeclaration hd).bind fun d hd =>
    located_pure fun f hf => by rw [respan_constantUnit, hd.eq hf]
  refine peeks_next.locates fun next => ?_
  split
  · exact located_pragmaDirective.bind fun d hd => located_pure fun f hf => by
      rw [respan_pragmaUnit, hd.eq hf]
  · exact located_importDirective.bind fun d hd => located_pure fun f hf => by
      rw [respan_importUnit, hd.eq hf]
  · exact hcontract
  · exact hcontract
  · exact hcontract
  · exact hcontract
  · exact (located_structDeclaration hd).bind fun d hd => located_pure fun f hf => by
      rw [respan_structUnit, hd.eq hf]
  · exact located_enumDeclaration.bind fun d hd => located_pure fun f hf => by
      rw [respan_enumUnit, hd.eq hf]
  · exact (located_functionDefinition hd).bind fun d hd => located_pure fun f hf => by
      rw [respan_functionUnit, hd.eq hf]
  · exact hconstant
  · exact hconstant
  · exact hconstant
  · exact locates_unexpected _

omit hd in
theorem fits_errorUnit (m : ErrorMark) (h : Fits source m) : Fits source (SourceUnit.error m) :=
  fun f hf => by rw [respan_errorUnit, h.eq hf]

theorem located_sourceUnits : Located source (sourceUnits deeper) := by
  refine located_many (peeks_atEnd.locates fun _ => locates_ite (fun _ => located_pure fits_none)
    fun _ => ?_)
  exact (located_recovering (located_sourceUnit hd) fits_errorUnit).bind fun _ h =>
    located_pure h.some

theorem located_sourceFile : Located source (sourceFile deeper) := by
  refine (located_sourceUnits hd).bind fun items hitems => ?_
  intro c s hs _
  rw [bind_ok (looks_context c s)]
  have hspan : (Span.origin.through c.stop).In source :=
    .through .origin hs.stop.stop (Nat.zero_le _)
  exact .refl fun f hf => by rw [respan_sourceFile, hitems.eq hf, hspan.eq hf]

end

end Grammar

end SolidityFrontend
