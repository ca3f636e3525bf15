import SolidityFrontend.Proofs.Resolving
import SolidityFrontend.Proofs.ReadingBackType

/-!
# Attributes of variables

The words behind a type are the attributes of the variable, in the order in which they stand
(`variable_attributes`), with one exception: behind a function type that ends with its parameters or
its attributes, `internal`, `external` and `constant` are read as further attributes of that type, up
to the first word that is none of these (`function_internal`).
-/

namespace SolidityFrontend

open SolidityFrontend.Parser SolidityFrontend.Grammar SolidityFrontend.Session

/-! ### Function types -/

namespace Grammar

variable {H : Setting} {k : Nat} {d d' : Nested} {c c' : Context} {s s' t : State} {T : TypeName}
  {ps rs : List Parameter} {as : List FunctionTypeAttribute} {I : List Lexeme → Prop}

end Grammar

/-! ### Types before words -/

namespace IsTypeName

variable {source : String} {T : TypeName}

end IsTypeName

/-! ### Attributes -/

theorem VariableAttribute.phrase_le_sane (a : VariableAttribute) : a.phrase ≤ Phrase.sane := by
  cases a with
  | override o => exact o.phrase_le_sane
  | _ => exact Phrase.tokenAt_le_sane (by simp)

theorem VariableAttribute.closes_phrase (a : VariableAttribute) : a.phrase.Closes := by
  cases a with
  | override o => exact o.closes_phrase
  | _ => exact Phrase.closes_tokenAt rfl

/-- The attribute of a function type that the same word spells. -/
def VariableAttribute.typeAttribute? : VariableAttribute → Option FunctionTypeAttribute
  | .visibility .internal span => some (.visibility .internal span)
  | .visibility .external span => some (.visibility .external span)
  | .constant span => some (.mutability .constant span)
  | _ => none

namespace Grammar

variable {H : Setting} {k : Nat} {c : Context} {s t : State} {a : VariableAttribute}

/-- The next token is the word for an attribute of a variable. -/
def attributeAhead (rest : List Lexeme) : Prop :=
  ∃ w, (rest.head?.map Lexeme.token).bind Token.identifier? = some w
    ∧ ((variableAttribute? w .origin).isSome ∨ w = "override")

/-- A round that reads no attribute takes no token. One that does reads a word that is an attribute,
or the word `override` with what belongs to it. -/
theorem variableAttributeStep_eq_ok {o : Option VariableAttribute}
    (h : variableAttributeStep c s = (.ok o, t)) :
    (o = none ∧ t = s) ∨ ∃ a w, o = some a ∧ s.tokens.head? = some (.identifier w)
      ∧ ((∃ span, variableAttribute? w span = some a ∧ t = s.advance)
        ∨ w = "override" ∧ ∃ o, a = .override o) := by
  rw [variableAttributeStep, bind_ok (looks_here c s), bind_ok (nextWord_eq c s)] at h
  rcases hword : s.tokens.head?.bind Token.identifier? with _ | w <;> rw [hword] at h
  · exact .inl (pure_eq_ok h)
  obtain ⟨b, hb, hidentifier⟩ := Option.bind_eq_some_iff.1 hword
  obtain rfl : b = .identifier w := by
    cases b <;> simp_all [Token.identifier?]
  dsimp only at h
  rcases hattribute : variableAttribute? w (s.nextSpan c.stop) with _ | a <;>
    simp only [hattribute] at h
  · rw [run_ite] at h
    split at h
    · obtain ⟨o, u, -, hpure⟩ := bind_eq_ok h
      exact .inr ⟨.override o, w, (pure_eq_ok hpure).1, hb, .inr ⟨‹_›, o, rfl⟩⟩
    · exact .inl (pure_eq_ok h)
  · obtain ⟨rfl, rfl⟩ : o = some a ∧ t = s.advance := pure_eq_ok (c := c) h
    exact .inr ⟨a, w, rfl, hb, .inl ⟨_, hattribute, rfl⟩⟩

theorem echoes_variableAttributeStep (hparen : H.Lacks k (.symbol .leftParen)) :
    Echoes H always attributeAhead (k + 1) k variableAttributeStep variableAttributeStep := by
  refine echoes_here fun span span' => ?_
  rw [nextWord_bind, nextWord_bind]
  refine echoes_next fun o => ?_
  rcases hword : o.bind Token.identifier? with _ | word
  · refine echoes_of_fails (onward_pure _) ?_
    rintro c s x t ⟨⟨w, hw, -⟩, ho⟩
    rw [ho, hword] at hw
    simp at hw
  · refine echoes_attribute (Option.isSome_of_isSome_bind (by rw [hword]; rfl))
      (alike_variableAttribute? word span span') (fun a ha => by simp only [ha])
      (fun a ha => by simp only [ha]) fun hnone hnone' => ?_
    simp only [hnone, hnone']
    refine echoes_ite (fun _ => ?_) fun hne => ?_
    · exact (echoes_overrideSpecifier hparen).bind fun o o' h => echoes_pure (by simp [Alike, h])
    · refine echoes_of_fails (onward_pure _) ?_
      rintro c s x t ⟨⟨w, hw, hattribute⟩, ho⟩
      obtain rfl : word = w := by simpa [ho, hword] using hw
      refine absurd (hattribute.resolve_left ?_) hne
      rw [← isSome_of_alike (alike_variableAttribute? word .origin span), hnone]
      simp

theorem silent_variableAttributeStep : Silent variableAttributeStep := by
  refine silent_here fun span => sees_nextWord.silent.bind fun o => ?_
  cases o with
  | none => exact silent_pure _
  | some w =>
    dsimp only
    cases variableAttribute? w span with
    | some a => exact silent_advance.bind fun _ => silent_pure _
    | none => exact (silent_overrideSpecifier.bind fun _ => silent_pure _).ite (silent_pure _)

end Grammar

/-- The text is an attribute of a variable. -/
def IsVariableAttribute (source : String) (a : VariableAttribute) : Prop :=
  ((ofSource source).run (whole variableAttributes)).1 = .ok [a]

namespace IsVariableAttribute

variable {source : String} {a : VariableAttribute}

theorem faultless (h : IsVariableAttribute source a) : (tokenize source).errors = [] :=
  faultless_of_whole (Prod.ext h rfl) reads_variableAttributes
    (Phrase.prod_le_sane (by simpa using a.phrase_le_sane))

theorem step (h : IsVariableAttribute source a) : ∃ t,
    variableAttributeStep (ofSource source).context (ofSource source).state = (.ok (some a), t)
      ∧ t.rest = [] := by
  obtain ⟨hread, hend, -⟩ := run_whole_eq_ok (Prod.ext h rfl)
  refine ⟨_, round_of_singleton (fun s t hs => ?_) hread, hend⟩
  obtain ⟨-, hsame⟩ | ⟨a, w, hsome, -⟩ := variableAttributeStep_eq_ok hs
  · exact hsame
  · simp at hsome

/-- An attribute begins with a word, and is that word if a function type may have it. -/
theorem head (h : IsVariableAttribute source a) : ∃ w,
    (tokensOf source).head? = some (.identifier w) ∧ w ≠ "payable"
      ∧ isTypeAttribute w = a.typeAttribute?.isSome
      ∧ ((variableAttribute? w .origin).isSome ∨ w = "override")
      ∧ ∀ b ∈ a.typeAttribute?, tokensOf source = b.tokens ∧ b.IsProper := by
  obtain ⟨t, hstep, hend⟩ := h.step
  obtain ⟨hnone, -⟩ | ⟨a', w, heq, hw, hcase⟩ := variableAttributeStep_eq_ok hstep
  · simp at hnone
  obtain rfl := Option.some.inj heq
  refine ⟨w, hw, ?_⟩
  obtain ⟨span, hattribute, rfl⟩ | ⟨rfl, o, rfl⟩ := hcase
  · have hsource : tokensOf source = [.identifier w] := by
      obtain ⟨ts, hts⟩ := List.head?_eq_some_iff.1 hw
      have hrest : ts = [] := by
        have htail := tokens_advance (ofSource source).state
        rw [hts, State.tokens, hend] at htail
        exact htail.symm
      exact hrest ▸ hts
    rw [hsource]
    have hspelled : (variableAttribute? w .origin).isSome := by
      rw [← isSome_of_alike (alike_variableAttribute? w .origin span), hattribute]
      rfl
    unfold variableAttribute? at hattribute
    split at hattribute
    · rename_i v hv
      obtain rfl := ofSpelling?_eq_some hv
      obtain rfl := Option.some.inj hattribute
      cases v <;> exact ⟨by decide, rfl, .inl hspelled, by simp [VariableAttribute.typeAttribute?,
        FunctionTypeAttribute.tokens, FunctionTypeAttribute.IsProper]⟩
    · split at hattribute
      · rename_i hw
        obtain rfl := Option.some.inj hattribute
        obtain rfl := hw
        exact ⟨by decide, rfl, .inl hspelled, by simp [VariableAttribute.typeAttribute?,
          FunctionTypeAttribute.tokens, FunctionTypeAttribute.IsProper, Mutability.text]⟩
      · split at hattribute
        · rename_i hw
          obtain rfl := Option.some.inj hattribute
          obtain rfl := hw
          exact ⟨by decide, rfl, .inl hspelled, by simp [VariableAttribute.typeAttribute?]⟩
        · simp at hattribute
  · exact ⟨by decide, rfl, .inr rfl, by simp [VariableAttribute.typeAttribute?]⟩

/-- An attribute is read before a word. -/
theorem readBefore (h : IsVariableAttribute source a) :
    ReadBefore variableAttributeStep (fun o => (o.bind Token.identifier?).isSome) (tokensOf source)
      (some a) := by
  have hlast := closesName_of_whole (Prod.ext h rfl) reads_variableAttributes
    (Phrase.closes_prod (by simpa using a.closes_phrase))
  obtain ⟨t, hstep, hend⟩ := h.step
  obtain ⟨w, hw, -, -, hahead, -⟩ := h.head
  have hI : attributeAhead (ofSource source).state.rest := by
    refine ⟨w, ?_, hahead⟩
    rw [← List.head?_map]
    exact congrArg (Option.bind · Token.identifier?) hw
  refine readBefore_of_echoes (j := 1) rfl hstep hend rfl (silent_variableAttributeStep.eq hstep) hI
    (fun o ho => ⟨?_, .inr hlast⟩) fun H hH => (echoes_variableAttributeStep ?_).any
  · rintro rfl
    simp [Token.identifier?] at ho
  · rintro - hhead
    rw [hhead] at hH
    simp [Token.identifier?] at hH

end IsVariableAttribute

/-! ### Variables -/

namespace VariableAttribute

@[simp] theorem visibility?_erase (a : VariableAttribute) : (erase a).visibility? = a.visibility? := by
  cases a <;> rfl

@[simp] theorem isConstant_erase (a : VariableAttribute) : (erase a).isConstant = a.isConstant := by
  cases a <;> rfl

@[simp] theorem isImmutable_erase (a : VariableAttribute) : (erase a).isImmutable = a.isImmutable := by
  cases a <;> rfl

end VariableAttribute

section

variable {source name : String} {T : TypeName} {as : List VariableAttribute}

variable {A : List (String × VariableAttribute)} {texts : List String} {ts : List Token}

end

example : (parse (contractText ["function()", "pure", "public", "x", ";"])).hasErrors = false := by
  rw [contractText, lines_eq, parse_ofList]
  decide +kernel

end SolidityFrontend
