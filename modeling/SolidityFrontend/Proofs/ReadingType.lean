import SolidityFrontend.Proofs.Repeating

/-!
# The phrases of type names

Each parser for type names reads the phrase of the type it gives, if the parsers one level deeper
read theirs (`Nested.Sound`).
-/

namespace SolidityFrontend

open Phrase SolidityFrontend.Parser

/-- The parsers of a level read the phrases of what they give. -/
structure Nested.Sound (n : Nested) : Prop where
  expression : ∀ q, Reads q n.expression Expr.phrase
  operand : ∀ q, Reads q n.operand fun e => such (12 ≤ e.tier) e.phrase
  exponent : ∀ q, Reads q n.exponent fun e => such (11 ≤ e.tier) e.phrase
  typeName : ∀ q, Reads q n.typeName TypeName.phrase
  statement : Reads False n.statement Stmt.phrase

theorem reads_tooDeep {α : Type} {q : Prop} {L : α → Phrase} : Reads q Nested.tooDeep L :=
  looks_here.first fun _ => reads_fail _

theorem Nested.sound_none : Nested.none.Sound where
  expression _ := reads_tooDeep
  operand _ := reads_tooDeep
  exponent _ := reads_tooDeep
  typeName _ := reads_tooDeep
  statement := reads_tooDeep

theorem ofSpelling?_eq_some {α : Type} {all : List α} {text : α → String} {w : String} {x : α}
    (h : ofSpelling? all text w = some x) : text x = w := by
  simpa using List.find?_some h

namespace Grammar

variable {q : Prop} {c : Context} {s₀ : State} {A : Phrase}

theorem after_advance_word (w : String) : ReadsAfter q c s₀ (A * before fun rest =>
    (rest[0]?.map Lexeme.token).bind Token.identifier? = some w) advance
    fun _ => A * Phrase.word w := by
  refine after_advance (by simp) fun t rest ht => ?_
  cases hl : t.token <;> simp_all [Token.identifier?]

/-! ### Names -/

/-- No word alone names the type of a payable address. -/
theorem ofWord?_ne_addressPayable (w : String) :
    ElementaryType.ofWord? w ≠ some .addressPayable := by
  have hnamed : ∀ p ∈ ElementaryType.named, p.2 ≠ .addressPayable := by decide
  intro h
  unfold ElementaryType.ofWord? at h
  split at h
  · rename_i type htype
    obtain rfl := Option.some.inj h
    obtain ⟨before, after, hsplit, -⟩ := List.lookup_eq_some_iff.1 htype
    exact hnamed (w, .addressPayable) (by simp [hsplit]) rfl
  · -- A word with a number names a type of some width.
    simp only [ElementaryType.ofBase?] at h
    repeat' split at h
    all_goals simp at h

theorem reads_elementaryTypeName (allowPayable : Bool) : Reads q (elementaryTypeName allowPayable)
    fun t => such (t.kind = .addressPayable → allowPayable) t.phrase := by
  refine reads_here.first fun c s start => peeks_next.bind fun next => ?_
  split
  · rename_i w
    split
    · exact after_violation _ _
    · rename_i kind hkind
      refine (after_advance_token _).bind fun _ => ?_
      have hplain : ReadsAfter q c s (opening start * token (.elementaryType w))
          (spanFrom start >>= fun span => pure ⟨kind, span⟩)
          fun t : ElementaryTypeName => such (t.kind = .addressPayable → allowPayable) t.phrase := by
        refine (after_spanFrom (by simp)).bind fun span => after_pure ?_
        refine le_such (fun h => absurd (h ▸ hkind) (ofWord?_ne_addressPayable w)) (covered_mono ?_)
        refine opening_mul_le.trans (le_trans ?_ le_sup_left)
        rintro ts es rest ⟨l, rfl, rfl, hl⟩
        exact ⟨l, rfl, rfl, w, hl, hkind⟩
      refine after_ite (fun hpayable => if_accept ?_ ?_) fun _ => hplain
      · refine (after_spanFrom (by simp)).bind fun span => after_pure ?_
        refine le_such (fun _ => hpayable.2) (covered_mono ?_)
        refine (mul_mono opening_mul_le le_rfl).trans (le_trans ?_ le_sup_right)
        refine le_such rfl (mul_mono ?_ le_rfl)
        rintro ts es rest ⟨l, rfl, rfl, hl⟩
        exact ⟨l, rfl, rfl, w, hl, hpayable.1 ▸ hkind⟩
      · exact hplain.weaken mul_before_le
  · exact after_unexpected _

theorem reads_pathSegment? : Reads q pathSegment?
    fun o => perhaps (o.map fun i => Phrase.symbol .dot * i.phrase) := by
  refine (peeks_nextIs _).first fun c s dot => after_ite (fun hdot => ?_) fun _ => ?_
  · refine (peeks_peek 1).looks.bind fun next => after_ite (fun _ => ?_) fun _ => ?_
    · have hadvance : ReadsAfter q c s (1 * before fun rest =>
          (rest[0]?.map Lexeme.token == some (.symbol .dot)) = dot) advance
          fun _ => 1 * Phrase.symbol .dot := after_advance (by simp [hdot]) (by simp [hdot])
      refine (hadvance.weaken (one_mul _).ge).bind fun _ => ?_
      exact reads_identifier.bind fun i => after_pure (mul_mono (one_mul _).le le_rfl)
    · exact after_pure before_le_one
  · exact after_pure before_le_one

theorem reads_path : Reads q path Path.phrase := by
  refine reads_identifier.first fun c s i => ?_
  refine (reads_many reads_pathSegment?).bind fun more => ?_
  exact (after_spanFrom (by simp)).bind fun span => after_pure le_rfl

theorem reads_storageLocation? :
    Reads q storageLocation? fun o => perhaps (o.map fun l => Phrase.word l.text) := by
  refine peeks_nextWord.first fun c s next => ?_
  rcases next with _ | w
  · exact after_pure before_le_one
  · split
    · rename_i location hlocation
      refine ((after_advance_word w).weaken (one_mul _).ge).bind fun _ => after_pure ?_
      rw [one_mul, ← ofSpelling?_eq_some hlocation]
      exact le_rfl
    · exact after_pure before_le_one

theorem functionTypeAttribute?_phrase {w : String} {span : Span} {a : FunctionTypeAttribute}
    (h : functionTypeAttribute? w span = some a) :
    tokenAt (.identifier w) span ≤ a.phrase := by
  unfold functionTypeAttribute? at h
  split at h
  · rename_i hv
    obtain rfl := ofSpelling?_eq_some hv
    obtain rfl := Option.some.inj h
    exact le_such (.inl rfl) le_rfl
  · rename_i hv
    obtain rfl := ofSpelling?_eq_some hv
    obtain rfl := Option.some.inj h
    exact le_such (.inr rfl) le_rfl
  · obtain ⟨m, hm, rfl⟩ := Option.map_eq_some_iff.1 h
    obtain rfl := ofSpelling?_eq_some hm
    exact le_rfl

theorem reads_functionTypeAttributes : Reads q functionTypeAttributes
    fun attributes => (attributes.map FunctionTypeAttribute.phrase).prod := by
  refine reads_many (reads_here.first fun c s span => peeks_nextWord.bind fun next => ?_)
  rcases next with _ | w
  · exact after_pure (mul_before_le.trans before_le_one)
  · split
    · rename_i a ha
      refine (after_advance_word w).bind fun _ => after_pure ?_
      exact opening_mul_token.trans (functionTypeAttribute?_phrase ha)
    · exact after_pure (mul_before_le.trans before_le_one)

/-! ### Types -/

section

variable {deeper : Nested} (hd : deeper.Sound)
include hd

theorem reads_parameter : Reads q (parameter deeper) Parameter.phrase := by
  refine reads_here.first fun c s start => (hd.typeName q).bind fun type => ?_
  refine reads_storageLocation?.bind fun location => reads_identifier?.bind fun name => ?_
  refine (after_spanFrom (by simp [mul_assoc])).bind fun span => after_pure ?_
  rw [Parameter.phrase]
  gcongr
  exact opening_mul_le

theorem reads_parameters :
    Reads q (parameters deeper) fun ps => parenthesized (ps.map Parameter.phrase) := by
  refine (reads_symbol _).first fun c s _ => if_accept (after_pure ?_) ?_
  · rw [List.map_nil, parenthesized, Phrase.separated, mul_one]
    exact le_rfl
  · refine ((reads_separated (reads_parameter hd)).after c s _).weaken mul_before_le |>.bind fun ps =>
      (reads_symbol _).bind fun _ => after_pure le_rfl

theorem reads_returnParameters :
    Reads q (returnParameters deeper) fun ps => returned (ps.map Parameter.phrase) := by
  refine reads_if_accept (fun c s => ?_) (reads_pure ?_)
  · exact ((reads_parameters hd).after c s _).mono le_rfl fun _ => le_sup_right
  · exact (le_such rfl le_rfl).trans le_sup_left

omit hd in
theorem reads_mappingKey : Reads q mappingKey fun key => such key.isKey key.phrase := by
  refine peeks_next.looks.first fun next => ?_
  split
  · refine (reads_elementaryTypeName false).first_such fun c s type htype => after_pure ?_
    rw [TypeName.phrase]
    exact le_such (fun h => absurd (htype h) Bool.false_ne_true) le_rfl
  · refine reads_path.first fun c s p => after_pure ?_
    rw [TypeName.phrase]
    exact le_such trivial le_rfl
  · exact looks_here.first fun _ => reads_fail _

theorem reads_mappingType : Reads q (mappingType deeper) TypeName.phrase := by
  refine (reads_keywordAt _).first fun c s start => (reads_symbol _).bind fun _ => ?_
  refine reads_mappingKey.bind_such fun key hkey => (reads_symbol _).bind fun _ => ?_
  refine (hd.typeName q).bind fun value => (reads_symbol _).bind fun _ => ?_
  refine (after_spanFrom (by simp [mul_assoc])).bind fun span => after_pure ?_
  rw [TypeName.phrase]
  refine le_such hkey ?_
  gcongr
  exact tokenAt_le

theorem reads_functionType : Reads q (functionType deeper) TypeName.phrase := by
  refine (reads_keywordAt _).first fun c s start => (reads_parameters hd).bind fun ps => ?_
  refine reads_functionTypeAttributes.bind fun attributes => ?_
  refine (reads_returnParameters hd).bind fun returns => ?_
  refine (after_spanFrom (by simp [mul_assoc])).bind fun span => after_pure ?_
  rw [TypeName.phrase, parameterPhrases_eq, parameterPhrases_eq]
  gcongr
  exact tokenAt_le

/-- The brackets behind a type name make a longer one. -/
theorem after_arraySuffix? (type : TypeName) :
    ReadsAfter q c s₀ type.phrase (arraySuffix? deeper type) fun o => (o.getD type).phrase := by
  refine if_accept ?_ (after_pure mul_before_le)
  refine (peeks_nextIs _).looks.bind fun _ => ?_
  refine bind_ite (M := fun size => type.phrase * Phrase.symbol .leftBracket
    * perhaps (size.map Expr.phrase)) (fun _ => after_pure (mul_one _).ge)
    (fun _ => (hd.expression q).some.after c s₀ _) fun size => ?_
  refine (reads_symbol _).bind fun _ => ?_
  refine (after_spanFrom (by simp [mul_assoc])).bind fun span => after_pure ?_
  rw [Option.getD_some, TypeName.phrase, optionPhrase_eq]

theorem reads_baseType : Reads q (baseType deeper) TypeName.phrase := by
  refine peeks_next.looks.first fun next => ?_
  split
  · refine (reads_elementaryTypeName true).first_such fun c s type _ => after_pure ?_
    rw [TypeName.phrase]
  · exact reads_mappingType hd
  · exact reads_functionType hd
  · exact reads_path.first fun c s p => after_pure (by rw [TypeName.phrase])
  · exact reads_of_after fun c s => after_unexpected _

theorem reads_typeName : Reads q (typeName deeper) TypeName.phrase :=
  (reads_baseType hd).first fun _ _ type => after_iterate (after_arraySuffix? hd) type

end

end Grammar

end SolidityFrontend
