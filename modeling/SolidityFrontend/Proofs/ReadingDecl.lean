import SolidityFrontend.Proofs.ReadingStmt

/-!
# The phrases of directives and declarations

Each parser for directives, members and declarations reads the phrase of what it gives, and the
items of a file are read one behind the other until no token is left.
-/

namespace SolidityFrontend

open Phrase SolidityFrontend.Parser

theorem byteLength_takeBytes {n : Nat} {cs ds : List Char} (h : takeBytes n cs = some ds) :
    byteLength ds = n := by
  fun_induction takeBytes n cs generalizing ds with
  | case1 => exact Option.some.inj h ▸ rfl
  | case2 => exact absurd h (by simp)
  | case3 n c cs hc ih =>
    obtain ⟨es, hes, rfl⟩ := Option.map_eq_some_iff.1 h
    rw [byteLength, ih hes]
    omega
  | case4 => exact absurd h (by simp)

/-- A slice is no longer than the distance of its ends. -/
theorem byteLength_sliceBytes_le (start stop : Nat) (cs : List Char) :
    byteLength ((sliceBytes start stop cs).getD []) ≤ stop - start := by
  unfold sliceBytes
  split
  · rcases h : (dropBytes start cs).bind (takeBytes (stop - start)) with _ | ds
    · exact Nat.zero_le _
    · obtain ⟨rest, -, hds⟩ := Option.bind_eq_some_iff.1 h
      exact (byteLength_takeBytes hds).le
  · exact Nat.zero_le _

namespace Grammar

variable {q : Prop} {c : Context} {s₀ : State} {A : Phrase}

/-! ### Pragmas -/

theorem prod_lexeme_le_tokens {α : Type} (p : Token → Prop) (xs : List α) :
    (xs.map fun _ => lexeme fun l => p l.token).prod ≤ tokens p := by
  induction xs with
  | nil =>
    rintro ts es rest ⟨rfl, rfl⟩
    exact ⟨rfl, by simp⟩
  | cons x xs ih =>
    rw [List.map_cons, List.prod_cons]
    rintro ts es rest ⟨_, us, _, ds, rfl, rfl, ⟨l, rfl, rfl, hl⟩, h⟩
    obtain ⟨rfl, hus⟩ := ih _ _ _ h
    exact ⟨rfl, by simpa using ⟨hl, hus⟩⟩

theorem reads_skipPragmaValue :
    Reads q skipPragmaValue fun _ => tokens fun t => endsPragma t = false := by
  refine Reads.first (reads_many (L := fun _ => lexeme fun l => endsPragma l.token = false) ?_)
    fun c s xs => after_pure (prod_lexeme_le_tokens (fun t => endsPragma t = false) xs)
  refine peeks_next.first fun c s next => ?_
  split
  · rename_i t
    refine after_ite (fun _ => after_pure before_le_one) fun ht => ?_
    refine ((after_advance_token t).weaken (one_mul _).ge).bind fun _ => after_pure ?_
    rw [one_mul]
    rintro ts es rest ⟨l, rfl, rfl, rfl⟩
    exact ⟨l, rfl, rfl, by simpa using ht⟩
  · exact after_pure before_le_one

/-- The value of a pragma takes no token, and records the errors in its text. -/
theorem reads_pragmaValue (name : Identifier) (text : List Char) :
    Reads False (pragmaValue name text) fun value ts es _ =>
      ts = [] ∧ pragmaReading name text = (value, es) := by
  refine reads_of_after fun c s => after_ite (fun hname => ?_) fun hname => after_pure ?_
  · split
    · rename_i value hvalue
      refine after_pure ?_
      rintro ts es rest ⟨rfl, rfl⟩
      exact ⟨rfl, by simp [pragmaReading, hname, hvalue]⟩
    · rename_i v hv
      refine (after_record not_false _).bind fun _ => after_pure ?_
      rw [one_mul]
      rintro ts es rest ⟨rfl, rfl⟩
      exact ⟨rfl, by simp [pragmaReading, hname, hv]⟩
  · rintro ts es rest ⟨rfl, rfl⟩
    exact ⟨rfl, by simp [pragmaReading, hname]⟩

theorem reads_pragmaDirective : Reads False pragmaDirective PragmaDirective.phrase := by
  refine (reads_keywordAt _).first fun c s start => reads_identifier.bind fun name => ?_
  refine reads_skipPragmaValue.bind fun _ => ?_
  let front : Phrase := tokenAt (.keyword .pragma) start * name.phrase
    * tokens fun t => endsPragma t = false
  have hrest : ∀ (stop : Nat) (source : List Char), ReadsAfter False c s (front
      * lexeme fun l => l.token = .symbol .semicolon ∧ l.span.start.offset = stop)
      (pragmaValue name ((sliceBytes name.span.stop.offset stop source).getD []) >>= fun value =>
        spanFrom start >>= fun span => pure ⟨name, value, span⟩) PragmaDirective.phrase := by
    intro stop source
    refine (reads_pragmaValue name _).bind fun value => ?_
    refine (after_spanFrom (Opens.mul (by simp [front, mul_assoc]) _)).bind fun span =>
      after_pure (covered_mono ?_)
    rintro ts es rest ⟨us, _, ds, es, rfl, rfl, hread, rfl, hvalue⟩
    have hsilent : ds = [] := by
      obtain ⟨_, _, _, _, -, rfl, ⟨_, _, _, _, -, rfl, ⟨_, _, _, _, -, rfl, ⟨_, -, rfl, -⟩,
        ⟨_, -, rfl, -⟩⟩, rfl, -⟩, ⟨_, -, rfl, -⟩⟩ := hread
      rfl
    subst hsilent
    refine ⟨_, hvalue, ?_⟩
    simp only [List.append_nil, List.nil_append] at hread ⊢
    refine mul_mono (mul_mono (mul_mono tokenAt_le le_rfl) le_rfl) ?_ _ _ _ hread
    rintro ts es rest ⟨l, rfl, rfl, hl, rfl⟩
    exact ⟨l, rfl, rfl, hl, byteLength_sliceBytes_le _ _ _⟩
  let placed (stop : Nat) (rest : List Lexeme) : Prop :=
    ∀ t ∈ rest.head?, t.token = .symbol .semicolon → t.span.start.offset = stop
  refine (peeks_nextIs _).bind fun b => ?_
  extract_lets readValue
  have hread : ∀ stop, ReadsAfter False c s (front * before (placed stop)) (readValue stop)
      PragmaDirective.phrase := by
    refine fun stop => looks_context.bind fun c' => (reads_symbol _).bind fun _ => ?_
    refine (hrest stop c'.source).weaken ?_
    rw [mul_assoc]
    refine mul_mono le_rfl ?_
    rintro ts es rest ⟨_, _, _, _, rfl, rfl, ⟨rfl, rfl, hplaced⟩, l, rfl, rfl, hl⟩
    exact ⟨l, rfl, rfl, hl, hplaced l (by simp) hl⟩
  refine after_ite (fun _ => reads_here.bind fun span => ?_) fun hb =>
    looks_previousSpan.bind fun _ => ?_
  · refine ReadsAfter.bind (after_pure (mul_mono mul_before_le (before_mono ?_))) hread
    exact fun rest hrest t ht _ => congrArg (·.start.offset) (hrest t ht)
  · refine ReadsAfter.bind (after_pure (mul_mono le_rfl (before_mono ?_))) hread
    intro rest hrest t ht hsemicolon
    rw [List.head?_eq_getElem?] at ht
    simp only [Option.mem_def.1 ht, Option.map_some, hsemicolon, beq_self_eq_true] at hrest
    exact absurd hrest.symm hb

/-! ### Imports -/

theorem reads_importPath : Reads q importPath ImportPath.phrase :=
  reads_stringText.first fun _ _ _ => after_pure le_rfl

theorem reads_renaming? : Reads q renaming? renamingPhrase := by
  refine reads_if_accept (fun c s => ?_) (reads_pure le_rfl)
  exact reads_identifier.bind fun i => after_pure le_rfl

theorem reads_importAlias : Reads q importAlias ImportAlias.phrase := by
  refine reads_identifier.first fun c s name => reads_renaming?.bind fun renamed => ?_
  exact (after_spanFrom (by simp)).bind fun span => after_pure le_rfl

theorem reads_wildcardImport : Reads q wildcardImport ImportClause.phrase := by
  refine (reads_symbolAt _).first fun c s star => (reads_word _).bind fun _ => ?_
  refine reads_identifier.bind fun name => ?_
  refine (after_spanFrom (by simp [mul_assoc])).bind fun span => after_pure ?_
  refine le_such (by simp) (covered_mono ?_)
  exact (mul_assoc _ _ _).le

theorem reads_multipleImport : Reads q multipleImport ImportClause.phrase := by
  refine (reads_symbolAt _).first fun c s start => ?_
  refine (reads_separated_ne_nil reads_importAlias).bind_such fun symbols hsymbols => ?_
  refine (reads_symbol _).bind fun _ => ?_
  refine (after_spanFrom (by simp [mul_assoc])).bind fun span => after_pure ?_
  refine le_such hsymbols ?_
  gcongr
  exact tokenAt_le

theorem reads_namedImport : Reads q namedImport ImportClause.phrase := by
  refine reads_identifier.first fun c s name => reads_renaming?.bind fun renamed => ?_
  refine (after_spanFrom (by simp)).bind fun span => after_pure (le_such (by simp) ?_)
  exact le_rfl

theorem reads_importTarget : Reads q importTarget fun x =>
    perhaps (x.2.2.map fun clause => clause.phrase * Phrase.word "from") * x.1.phrase
      * renamingPhrase x.2.1 := by
  have hfrom {clause : Parser ImportClause} (h : Reads q clause ImportClause.phrase) :
      Reads q (importFrom clause) fun x => perhaps (x.2.2.map fun clause =>
        clause.phrase * Phrase.word "from") * x.1.phrase * renamingPhrase x.2.1 := by
    refine h.first fun c s clause => (reads_word _).bind fun _ => reads_importPath.bind fun p => ?_
    exact after_pure (mul_one _).ge
  refine peeks_next.looks.first fun next => ?_
  split
  · refine reads_importPath.first fun c s p => reads_renaming?.bind fun renamed => after_pure ?_
    exact (mul_assoc _ _ _).trans (one_mul _) |>.ge
  · exact hfrom reads_wildcardImport
  · exact hfrom reads_multipleImport
  · exact hfrom reads_namedImport
  · exact reads_of_after fun c s => after_unexpected _

theorem reads_importDirective : Reads q importDirective ImportDirective.phrase := by
  refine (reads_keywordAt _).first fun c s start => reads_importTarget.bind fun x => ?_
  obtain ⟨p, renamed, clause⟩ := x
  refine (reads_symbol _).bind fun _ => ?_
  refine (after_spanFrom (by simp [mul_assoc])).bind fun span => after_pure (covered_mono ?_)
  simp only [← mul_assoc]
  gcongr
  exact tokenAt_le

/-! ### Attributes -/

theorem reads_overrideSpecifier : Reads q overrideSpecifier OverrideSpecifier.phrase := by
  refine (reads_take _ _).first fun c s start => ?_
  have hspan : ∀ overrides : List Path, ReadsAfter q c s (tokenAt (.identifier "override") start
      * if overrides = [] then 1 else parenthesized (overrides.map Path.phrase))
      (spanFrom start >>= fun span => pure ⟨overrides, span⟩) OverrideSpecifier.phrase := by
    intro overrides
    refine (after_spanFrom ((opens_tokenAt _ _).mul _)).bind fun span => after_pure ?_
    rw [OverrideSpecifier.phrase]
    gcongr
    exact tokenAt_le
  refine if_accept ?_ ?_
  · refine (reads_separated_ne_nil reads_path).bind_such fun paths hpaths => ?_
    refine (reads_symbol _).bind fun _ => ReadsAfter.bind (after_pure ?_) hspan
    rw [if_neg hpaths, parenthesized]
    simp only [mul_assoc]
    exact le_rfl
  · refine ReadsAfter.bind (after_pure ?_) hspan
    rw [if_pos rfl, mul_one]
    exact mul_before_le

theorem variableAttribute?_phrase {w : String} {span : Span} {a : VariableAttribute}
    (h : variableAttribute? w span = some a) : tokenAt (.identifier w) span ≤ a.phrase := by
  unfold variableAttribute? at h
  split at h
  · rename_i hv
    obtain rfl := ofSpelling?_eq_some hv
    obtain rfl := Option.some.inj h
    exact le_rfl
  · split at h
    · rename_i hw
      obtain rfl := Option.some.inj h
      exact hw ▸ le_rfl
    · split at h
      · rename_i hw
        obtain rfl := Option.some.inj h
        exact hw ▸ le_rfl
      · exact absurd h (by simp)

theorem functionAttribute?_phrase {w : String} {span : Span} {a : FunctionAttribute}
    (h : functionAttribute? w span = some a) : tokenAt (.identifier w) span ≤ a.phrase := by
  unfold functionAttribute? at h
  split at h
  · rename_i v hv
    obtain rfl := ofSpelling?_eq_some hv
    obtain rfl := Option.some.inj h
    exact le_rfl
  · rename_i m _ hm
    obtain rfl := ofSpelling?_eq_some hm
    obtain rfl := Option.some.inj h
    exact le_rfl
  · split at h
    · rename_i hw
      obtain rfl := Option.some.inj h
      exact hw ▸ le_rfl
    · exact absurd h (by simp)

theorem reads_variableAttributes : Reads q variableAttributes
    fun attributes => (attributes.map VariableAttribute.phrase).prod := by
  refine reads_many (reads_here.first fun c s span => peeks_nextWord.bind fun next => ?_)
  split
  · exact after_pure (mul_before_le.trans before_le_one)
  · rename_i w
    split
    · rename_i a ha
      refine (after_advance_word w).bind fun _ => after_pure ?_
      exact opening_mul_token.trans (variableAttribute?_phrase ha)
    · refine ReadsAfter.weaken (A := 1) ?_ (mul_before_le.trans before_le_one)
      refine after_ite (fun _ => ?_) fun _ => after_pure le_rfl
      exact reads_overrideSpecifier.bind fun o => after_pure (one_mul _).le

section

variable {deeper : Nested} (hd : deeper.Sound)
include hd

theorem reads_modifierInvocation :
    Reads q (modifierInvocation deeper) ModifierInvocation.phrase := by
  refine reads_path.first fun c s p => (reads_callArguments? hd).bind fun arguments => ?_
  exact (after_spanFrom (by simp)).bind fun span => after_pure le_rfl

theorem reads_functionAttributes : Reads q (functionAttributes deeper)
    fun attributes => (attributes.map FunctionAttribute.phrase).prod := by
  refine reads_many (reads_here.first fun c s span => peeks_nextWord.bind fun next => ?_)
  split
  · exact after_pure (mul_before_le.trans before_le_one)
  · rename_i w
    split
    · rename_i a ha
      refine (after_advance_word w).bind fun _ => after_pure ?_
      exact opening_mul_token.trans (functionAttribute?_phrase ha)
    · refine ReadsAfter.weaken (A := 1) ?_ (mul_before_le.trans before_le_one)
      refine after_ite (fun _ => ?_) fun _ => ?_
      · exact reads_overrideSpecifier.bind fun o => after_pure (one_mul _).le
      · exact (reads_modifierInvocation hd).bind fun m => after_pure (one_mul _).le

/-! ### Functions -/

theorem reads_functionBody : Reads False (functionBody deeper) functionBodyPhrase := by
  refine reads_if_accept (fun c s => after_pure le_rfl) ?_
  exact (reads_block hd).first fun c s b => after_pure le_rfl

theorem reads_functionDefinition :
    Reads False (functionDefinition deeper) FunctionDefinition.phrase := by
  refine (reads_keywordAt _).first fun c s start => reads_identifier.bind fun name => ?_
  refine (reads_parameters hd).bind fun ps => (reads_functionAttributes hd).bind fun attributes => ?_
  refine (reads_returnParameters hd).bind fun returns => (reads_functionBody hd).bind fun inner => ?_
  refine (after_spanFrom (by simp [mul_assoc])).bind fun span => after_pure (covered_mono ?_)
  simp only [signaturePhrase, ← mul_assoc]
  gcongr
  exact tokenAt_le

theorem reads_modifierDefinition :
    Reads False (modifierDefinition deeper) ModifierDefinition.phrase := by
  refine (reads_keywordAt _).first fun c s start => reads_identifier.bind fun name => ?_
  refine (peeks_nextIs _).looks.bind fun _ => bind_ite (M := fun ps =>
    tokenAt (.keyword .modifier) start * name.phrase * (such (ps = []) 1
      ⊔ parenthesized (ps.map Parameter.phrase))) (fun _ => ?_) (fun _ => after_pure ?_) ?_
  · exact ((reads_parameters hd).after c s _).mono le_rfl fun ps => mul_mono le_rfl le_sup_right
  · exact (mul_one _).ge.trans (mul_mono le_rfl ((le_such rfl le_rfl).trans le_sup_left))
  intro ps
  refine (reads_functionAttributes hd).bind fun attributes => (reads_functionBody hd).bind fun inner => ?_
  refine (after_spanFrom (by simp [mul_assoc])).bind fun span => after_pure (covered_mono ?_)
  refine mul_mono ?_ le_rfl
  rw [mul_assoc, sup_mul]
  refine mul_mono (mul_mono tokenAt_le le_rfl) (sup_le_sup ?_ le_rfl)
  rintro ts es rest ⟨_, _, _, _, rfl, rfl, ⟨hps, rfl, rfl⟩, hread⟩
  exact ⟨hps, hread⟩

theorem reads_constructorDefinition :
    Reads False (constructorDefinition deeper) ConstructorDefinition.phrase := by
  refine (reads_keywordAt _).first fun c s start => (reads_parameters hd).bind fun ps => ?_
  refine (reads_functionAttributes hd).bind fun attributes => (reads_functionBody hd).bind fun inner => ?_
  refine (after_spanFrom (by simp [mul_assoc])).bind fun span => after_pure (covered_mono ?_)
  simp only [signaturePhrase, ← mul_assoc]
  gcongr
  exact tokenAt_le

theorem after_fallbackRest {kind : FallbackKind} {start : Span} (hA : A.Opens start)
    (hkind : A ≤ Phrase.word kind.text ⊔ such (kind = .fallback) (Phrase.keyword .function)) :
    ReadsAfter False c s₀ A (fallbackRest deeper kind start) FallbackDefinition.phrase := by
  refine (reads_parameters hd).bind fun ps => (reads_functionAttributes hd).bind fun attributes => ?_
  refine (reads_functionBody hd).bind fun inner => ?_
  refine (after_spanFrom (((hA.mul _).mul _).mul _)).bind fun span => after_pure (covered_mono ?_)
  simp only [signaturePhrase, ← mul_assoc]
  gcongr

theorem reads_namelessFallback :
    Reads False (namelessFallback deeper) FallbackDefinition.phrase := by
  refine (reads_keywordAt _).first fun c s start => after_fallbackRest hd (by simp) ?_
  exact le_trans (le_such rfl tokenAt_le) le_sup_right

theorem reads_fallbackDefinition (kind : FallbackKind) :
    Reads False (fallbackDefinition deeper kind) FallbackDefinition.phrase := by
  refine (reads_take _ _).first fun c s start => after_fallbackRest hd (by simp) ?_
  exact tokenAt_le.trans le_sup_left

/-! ### Variables, structs, enumerations and events -/

theorem reads_stateVariable : Reads q (stateVariable deeper) StateVariable.phrase := by
  refine reads_here.first fun c s start => (hd.typeName q).bind fun type => ?_
  refine reads_variableAttributes.bind fun attributes => reads_identifier.bind fun name => ?_
  refine if_accept_bind (M := fun value => opening start * type.phrase
    * (attributes.map VariableAttribute.phrase).prod * name.phrase * perhaps (value.map fun e =>
      Phrase.symbol .assign * e.phrase)) (hd.expression q).after_some
    (after_pure (mul_mono le_rfl before_le_one)) fun value => (reads_symbol _).bind fun _ => ?_
  refine (after_spanFrom (by simp [mul_assoc])).bind fun span => after_pure (covered_mono ?_)
  gcongr
  exact opening_mul_le

theorem reads_constantDeclaration :
    Reads q (constantDeclaration deeper) ConstantDeclaration.phrase := by
  refine reads_here.first fun c s start => (hd.typeName q).bind fun type => ?_
  refine (reads_word _).bind fun _ => reads_identifier.bind fun name => ?_
  refine (reads_symbol _).bind fun _ => (hd.expression q).bind fun value => ?_
  refine (reads_symbol _).bind fun _ => ?_
  refine (after_spanFrom (by simp [mul_assoc])).bind fun span => after_pure (covered_mono ?_)
  gcongr
  exact opening_mul_le

theorem reads_structMember : Reads q (structMember deeper) StructMember.phrase := by
  refine reads_here.first fun c s start => (hd.typeName q).bind fun type => ?_
  refine reads_identifier.bind fun name => (reads_symbol _).bind fun _ => ?_
  refine (after_spanFrom (by simp [mul_assoc])).bind fun span => after_pure (covered_mono ?_)
  gcongr
  exact opening_mul_le

theorem reads_structDeclaration :
    Reads False (structDeclaration deeper) StructDeclaration.phrase := by
  refine (reads_keywordAt _).first fun c s start => reads_identifier.bind fun name => ?_
  refine (reads_symbol _).bind fun _ => ?_
  refine Reads.bind (looks_state.first fun s => reads_itemsOver_true (reads_structMember hd) _)
    fun members => (reads_symbol _).bind fun _ => ?_
  refine (after_spanFrom (by simp [mul_assoc])).bind fun span => after_ite (fun hempty => ?_) ?_
  · obtain rfl : members = [] := by simpa using hempty
    refine (after_record not_false _).bind fun _ => after_pure ?_
    refine covered_mul_recording.trans (covered_mono (mul_mono ?_ le_rfl))
    gcongr
    exact tokenAt_le
  · intro hmembers
    refine after_pure (covered_mono ?_)
    rw [if_neg (by simpa using hmembers), mul_one]
    gcongr
    exact tokenAt_le

omit hd in
theorem reads_enumDeclaration : Reads q enumDeclaration EnumDeclaration.phrase := by
  refine (reads_keywordAt _).first fun c s start => reads_identifier.bind fun name => ?_
  refine (reads_symbol _).bind fun _ => (reads_commaItems reads_identifier).bind fun values => ?_
  refine (reads_symbol _).bind fun _ => ?_
  refine (after_spanFrom (by simp [mul_assoc])).bind fun span => after_pure (covered_mono ?_)
  gcongr
  exact tokenAt_le

omit hd in
theorem reads_acceptWord (w : String) :
    Reads q (acceptWord w) fun b => if b then Phrase.word w else 1 := by
  refine (reads_accept _).mono fun b => ?_
  cases b
  · exact before_le_one
  · exact le_rfl

theorem reads_eventParameter : Reads q (eventParameter deeper) EventParameter.phrase := by
  refine reads_here.first fun c s start => (hd.typeName q).bind fun type => ?_
  refine (reads_acceptWord _).bind fun isIndexed => reads_identifier?.bind fun name => ?_
  refine (after_spanFrom (by simp [mul_assoc, -mul_ite])).bind fun span => after_pure (covered_mono ?_)
  gcongr
  exact opening_mul_le

theorem reads_eventDefinition : Reads q (eventDefinition deeper) EventDefinition.phrase := by
  refine (reads_keywordAt _).first fun c s start => reads_identifier.bind fun name => ?_
  refine (reads_symbol _).bind fun _ => (peeks_nextIs _).looks.bind fun _ => ?_
  refine bind_ite (M := fun ps => tokenAt (.keyword .event) start * name.phrase
    * Phrase.symbol .leftParen * Phrase.separated (ps.map EventParameter.phrase))
    (fun _ => after_pure (mul_one _).ge)
    (fun _ => (reads_separated (reads_eventParameter hd)).after c s _) fun ps => ?_
  refine (reads_symbol _).bind fun _ => (reads_acceptWord _).bind fun isAnonymous => ?_
  refine (reads_symbol _).bind fun _ => ?_
  refine (after_spanFrom (by simp [mul_assoc, -mul_ite])).bind fun span => after_pure (covered_mono ?_)
  simp only [parenthesized, ← mul_assoc]
  gcongr
  exact tokenAt_le

theorem reads_usingTarget : Reads q (usingTarget deeper) UsingTarget.phrase := by
  refine reads_here.first fun c s span => if_accept (after_pure opening_mul_token) ?_
  refine (hd.typeName q).bind fun type => after_pure ?_
  exact (mul_mono (mul_before_le.trans before_le_one) le_rfl).trans_eq (one_mul _)

theorem reads_usingDirective : Reads q (usingDirective deeper) UsingDirective.phrase := by
  refine (reads_keywordAt _).first fun c s start => reads_path.bind fun library => ?_
  refine (reads_keyword _).bind fun _ => (reads_usingTarget hd).bind fun target => ?_
  refine (reads_symbol _).bind fun _ => ?_
  refine (after_spanFrom (by simp [mul_assoc])).bind fun span => after_pure (covered_mono ?_)
  gcongr
  exact tokenAt_le

/-! ### Contracts and files -/

theorem reads_variableOrFallback : Reads False (variableOrFallback deeper) Member.phrase :=
  reads_either ((reads_stateVariable hd).map fun _ => le_rfl)
    ((reads_namelessFallback hd).map fun _ => le_rfl)

theorem reads_member : Reads False (member deeper) Member.phrase := by
  have hof {α : Type} {p : Parser α} {L : α → Phrase} {make : α → Member} (h : Reads False p L)
      (hmake : ∀ x, L x ≤ (make x).phrase) : Reads False (p >>= fun x => pure (make x))
      Member.phrase := h.first fun c s x => after_pure (hmake x)
  refine peeks_next.looks.first fun next => ?_
  split
  · refine (peeks_peek 1).looks.first fun _ => reads_ite (fun _ => reads_variableOrFallback hd) ?_
    exact fun _ => hof (reads_functionDefinition hd) fun _ => le_rfl
  · exact hof (reads_modifierDefinition hd) fun _ => le_rfl
  · exact hof (reads_constructorDefinition hd) fun _ => le_rfl
  · exact hof (reads_eventDefinition hd) fun _ => le_rfl
  · exact hof (reads_structDeclaration hd) fun _ => le_rfl
  · exact hof reads_enumDeclaration fun _ => le_rfl
  · exact hof (reads_usingDirective hd) fun _ => le_rfl
  · refine (peeks_peek 1).looks.first fun _ => ?_
    split
    · exact hof (reads_fallbackDefinition hd _) fun _ => le_rfl
    · exact hof (reads_stateVariable hd) fun _ => le_rfl
  · exact hof (reads_stateVariable hd) fun _ => le_rfl
  · exact hof (reads_stateVariable hd) fun _ => le_rfl
  · exact reads_of_after fun c s => after_unexpected _

theorem reads_inheritanceSpecifier :
    Reads q (inheritanceSpecifier deeper) InheritanceSpecifier.phrase := by
  refine reads_path.first fun c s p => (reads_callArguments? hd).bind fun arguments => ?_
  exact (after_spanFrom (by simp)).bind fun span => after_pure le_rfl

omit hd in
theorem reads_contractKind (isAbstract : Bool) : Reads q (contractKind isAbstract) fun kind =>
    such (isAbstract → kind = .contract) (Phrase.keyword kind.keyword) := by
  refine peeks_next.first fun c s next => ?_
  split
  · exact after_unexpected _
  · rename_i kind hkind
    obtain ⟨t, rfl, ht⟩ := Option.bind_eq_some_iff.1 hkind
    refine after_ite (fun _ => looks_here.bind fun _ => after_violation _ _) fun habstract => ?_
    refine ((after_advance_token t).weaken (one_mul _).ge).bind fun _ => after_pure ?_
    refine le_such ?_ ?_
    · rintro rfl
      simpa using habstract
    · rw [one_mul]
      unfold ContractKind.ofToken? at ht
      split at ht
      · exact Option.some.inj ht ▸ le_rfl
      · exact Option.some.inj ht ▸ le_rfl
      · exact Option.some.inj ht ▸ le_rfl
      · exact absurd ht (by simp)

theorem reads_inheritance (kind : ContractKind) : Reads q (inheritance deeper kind) fun bases =>
    such (kind = .library → bases = []) (if bases = [] then 1
      else Phrase.keyword .is_ * Phrase.separated (bases.map InheritanceSpecifier.phrase)) := by
  refine (peeks_nextIs _).first fun c s b => after_ite (fun hb => ?_) fun _ => ?_
  · refine after_ite (fun _ => looks_here.bind fun _ => after_violation _ _) fun hkind => ?_
    have hadvance : ReadsAfter q c s (1 * before fun rest =>
        (rest[0]?.map Lexeme.token == some (.keyword .is_)) = b) advance
        fun _ => 1 * Phrase.keyword .is_ := after_advance (by simp [hb]) (by simp [hb])
    refine (hadvance.weaken (one_mul _).ge).bind fun _ => ?_
    refine ((reads_separated_ne_nil (reads_inheritanceSpecifier hd)).after c s _).mono le_rfl ?_
    rintro bases ts es rest ⟨_, _, _, _, rfl, rfl, his, hne, hbases⟩
    refine ⟨fun h => absurd h hkind, ?_⟩
    rw [if_neg hne]
    rw [one_mul] at his
    exact mul_intro his hbases
  · refine after_pure (le_such (fun _ => rfl) ?_)
    rw [if_pos rfl]
    exact before_le_one

theorem reads_contractDeclaration :
    Reads False (contractDeclaration deeper) ContractDeclaration.phrase := by
  refine reads_here.first fun c s start => (reads_accept _).bind fun isAbstract => ?_
  refine (reads_contractKind isAbstract).bind_such fun kind hkind => reads_identifier.bind fun name => ?_
  refine (reads_inheritance hd kind).bind_such fun bases hbases => (reads_symbol _).bind fun _ => ?_
  refine bind_body_spanFrom Member.missing not_false (reads_member hd) (fun m => le_rfl)
    (fun around m => le_rfl) ?_ fun members span => after_pure (covered_mono ?_)
  · refine Opens.mul (Opens.mul (Opens.mul ?_ _) _) _
    rw [mul_assoc]
    exact opens_opening_mul ((takes_token _).mul_left _)
  · have habstract : opening start * (if isAbstract then token (.keyword .abstract)
        else before (notNext (.keyword .abstract)))
        ≤ if isAbstract then Phrase.keyword .abstract else 1 := by
      refine opening_mul_le.trans ?_
      split
      · exact le_rfl
      · exact before_le_one
    rw [mul_assoc]
    refine mul_mono (le_such ⟨hkind, hbases⟩ ?_) le_rfl
    gcongr

theorem reads_sourceUnit : Reads False (sourceUnit deeper) SourceUnit.phrase := by
  have hof {α : Type} {p : Parser α} {L : α → Phrase} {make : α → SourceUnit} (h : Reads False p L)
      (hmake : ∀ x, L x ≤ (make x).phrase) : Reads False (p >>= fun x => pure (make x))
      SourceUnit.phrase := h.first fun c s x => after_pure (hmake x)
  refine peeks_next.looks.first fun next => ?_
  split
  · exact hof reads_pragmaDirective fun _ => le_rfl
  · exact hof reads_importDirective fun _ => le_rfl
  · exact hof (reads_contractDeclaration hd) fun _ => le_rfl
  · exact hof (reads_contractDeclaration hd) fun _ => le_rfl
  · exact hof (reads_contractDeclaration hd) fun _ => le_rfl
  · exact hof (reads_contractDeclaration hd) fun _ => le_rfl
  · exact hof (reads_structDeclaration hd) fun _ => le_rfl
  · exact hof reads_enumDeclaration fun _ => le_rfl
  · exact hof (reads_functionDefinition hd) fun _ => le_rfl
  · exact hof (reads_constantDeclaration hd) fun _ => le_rfl
  · exact hof (reads_constantDeclaration hd) fun _ => le_rfl
  · exact hof (reads_constantDeclaration hd) fun _ => le_rfl
  · exact reads_of_after fun c s => after_unexpected _

end

end Grammar

end SolidityFrontend
