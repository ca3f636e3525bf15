import SolidityFrontend.Proofs.Composing
import SolidityFrontend.Proofs.EchoingStmt
import SolidityFrontend.Proofs.Fallback

/-!
# Declarations in an echo

The parsers for members and for the items of a file echo each other, if those of the level below do.
Each of them ends with a semicolon or a brace. A variable of a function type and a fallback without a
name may be written by the same tokens; then both end at the same place, so the second text is read as
a variable where the first one is.
-/

namespace SolidityFrontend

open SolidityFrontend.Parser

/-- The same tokens with the two texts exchanged. -/
structure Setting.Mirror (H H' : Setting) : Prop where
  tokens : H'.tokens = H.tokens
  next₁ : H'.next₁ = H.next₂
  next₂ : H'.next₂ = H.next₁
  errors₁ : H'.errors₁ = H.errors₂
  errors₂ : H'.errors₂ = H.errors₁

theorem Setting.At.mirror {H H' : Setting} {w : List Lexeme} {s s' : State} (h : H.At w s s')
    (hH : H.Mirror H') : ∃ w', w'.length = w.length ∧ H'.At w' s' s := by
  obtain ⟨w', hw', hrest⟩ := h.rest₂
  refine ⟨w', by simpa using congrArg List.length hw', ?_, by rw [hH.next₁, hrest],
    ⟨w, hw'.symm, by rw [hH.next₂, h.rest₁]⟩, h.errors₂.trans hH.errors₁.symm,
    h.errors₁.trans hH.errors₂.symm⟩
  rw [hw', hH.tokens]
  exact h.suffix

namespace Parser

variable {α : Type} [Placed α] {H : Setting} {j k : Nat} {I : List Lexeme → Prop} {P : Proviso α}

/-- Where an error is recorded nothing is echoed. -/
theorem echoes_record {e : SyntaxError} {f : Unit → Parser α} {p' : Parser α}
    (hf : ∀ x, Onward (f x)) : Echoes H P I k k (record e >>= f) p' where
  onward := (onward_record e).bind hf
  steps c s x t _ hx := by
    have hle := ((onward_record e).bind hf).length_le c s
    rw [hx] at hle
    exact Nat.add_le_add_right hle k
  run {c c'} _ w s s' hs _ x t hx hk _ := by
    have hsize := (hf ()).errors_size_le c { s with errors := s.errors.push e }
    have hrun : f () c { s with errors := s.errors.push e } = (.ok x, t) := hx
    have hkept := hk.1
    rw [hrun] at hsize
    simp only [Array.size_push, hs.errors₁] at hsize
    omega

/-- Behind a look at the token after the next, where both are taken. -/
theorem echoes_peek {l l' : Option Token → Parser α}
    (h : ∀ o, Echoes H P I (k + 2) k (l o) (l' o)) :
    Echoes H P I (k + 2) k (peek? 1 >>= l) (peek? 1 >>= l') where
  onward c s := by
    rw [bind_ok (sees_peek 1 c s)]
    exact (h _).onward c s
  steps c s x t hs hx := by
    rw [bind_ok (sees_peek 1 c s)] at hx
    exact (h _).steps c s x t hs hx
  run {c c'} hc w s s' hs hI x t hx hk hP := by
    rw [bind_ok (sees_peek 1 c s)] at hx
    have hsame : s'.tokens[1]? = s.tokens[1]? := by
      have hle := (h _).steps c s x t hI hx
      have hkept := hk.2
      have hlength := hs.length₁
      have hlt : 1 < (w.map Lexeme.token).length := by rw [List.length_map]; omega
      rw [hs.tokens₁, hs.tokens₂, List.getElem?_append_left hlt, List.getElem?_append_left hlt]
    rw [bind_ok (sees_peek 1 c' s')]
    dsimp only
    rw [hsame]
    exact (h _).run hc hs hI hx hk hP

/-- A token that the passage does not have begins nothing that is read there. -/
theorem echoes_absent {a : Token} {p' : Parser α} {p : Parser α} (ha : a ∉ H.tokens)
    (ho : Onward p) (hsteps : ∀ c s x t, p c s = (.ok x, t) → t.rest.length < s.rest.length) :
    Echoes H P (facing I (some a)) (k + 1) k p p' where
  onward := ho
  steps c s x t _ hx := by
    have hlt := hsteps c s x t hx
    omega
  run {c c'} _ w s s' hs hI x t hx hk _ := by
    have hlt := hsteps c s x t hx
    have hle := hk.2
    have hlength := hs.length₁
    rcases w with _ | ⟨l, w⟩
    · rw [List.length_nil] at hlength
      omega
    · have hhead := hI.2
      rw [hs.rest₁] at hhead
      obtain rfl := Option.some.inj hhead
      exact absurd (hs.suffix.subset (by simp)) ha

end Parser

namespace Grammar

variable {H : Setting} {k : Nat} {I : List Lexeme → Prop} {d d' : Nested}

/-! ### Attributes -/

theorem isSome_of_alike {α : Type} [Placed α] {o o' : Option α} (h : Alike o o') :
    o'.isSome = o.isSome := by
  have hmove (o : Option α) : (respan (fun _ => Span.origin) o).isSome = o.isSome := isSome_respan o
  rw [← hmove o', h, hmove]

theorem alike_variableAttribute? (word : String) (span span' : Span) :
    Alike (variableAttribute? word span) (variableAttribute? word span') := by
  unfold variableAttribute?
  split
  · rfl
  · split
    · rfl
    · split <;> rfl

theorem alike_functionAttribute? (word : String) (span span' : Span) :
    Alike (functionAttribute? word span) (functionAttribute? word span') := by
  unfold functionAttribute?
  split
  · rfl
  · rfl
  · split <;> rfl

/-- An attribute that a word spells, or else something that begins with that word. -/
theorem echoes_attribute {α : Type} [Placed α] {attribute? : String → Span → Option α}
    {word : String} {o : Option Token} {span span' : Span} {p p' : Parser (Option α)}
    (ho : o.isSome) (halike : Alike (attribute? word span) (attribute? word span'))
    (hp : ∀ a, attribute? word span = some a → p = (advance >>= fun _ => pure (some a)))
    (hp' : ∀ a, attribute? word span' = some a → p' = (advance >>= fun _ => pure (some a)))
    (h : attribute? word span = none → attribute? word span' = none →
      Echoes H always (facing I o) (k + 1) k p p') :
    Echoes H always (facing I o) (k + 1) k p p' := by
  obtain ⟨t, rfl⟩ := Option.isSome_iff_exists.1 ho
  rcases ha : attribute? word span with _ | a <;>
    rcases ha' : attribute? word span' with _ | a' <;> rw [ha, ha'] at halike
  · exact h ha ha'
  · exact absurd halike (by simp)
  · exact absurd halike (by simp)
  · rw [hp a ha, hp' a' ha']
    exact echoes_advance_seen.bind fun _ _ _ => echoes_pure halike

/-- The attributes of a variable stand before other tokens of the passage. -/
theorem echoes_variableAttributes :
    Echoes H always I (k + 1) (k + 1) variableAttributes variableAttributes := by
  refine Rounds.many (R := fun _ _ => True) (Rounds.here fun span span' => ?_)
  rw [nextWord_bind, nextWord_bind]
  refine rounds_next (T := fun o => ∃ word, o.bind Token.identifier? = some word
    ∧ ((variableAttribute? word .origin).isSome ∨ word = "override"))
    (fun o ⟨word, hword, hattribute⟩ => Echoes.any ?_) (fun o ho => ?_) (by simp)
    fun h => absurd h (Nat.succ_ne_zero k)
  · rw [hword]
    refine echoes_attribute (Option.isSome_of_isSome_bind (by rw [hword]; rfl))
      (alike_variableAttribute? word span span') (fun a ha => by simp only [ha])
      (fun a ha => by simp only [ha]) fun hnone hnone' => ?_
    have hoverride : word = "override" := hattribute.resolve_left fun hsome => by
      rw [← isSome_of_alike (alike_variableAttribute? word .origin span), hnone] at hsome
      simp at hsome
    simp only [hnone, hnone', if_pos hoverride]
    exact (echoes_overrideSpecifier Setting.lacks_succ).bind fun o o' h =>
      echoes_pure (by simp [Alike, h])
  · rcases hword : o.bind Token.identifier? with _ | word
    · exact ⟨rfl, rfl⟩
    · have hnone (span : Span) : variableAttribute? word span = none := by
        rw [← Option.not_isSome_iff_eq_none,
          isSome_of_alike (alike_variableAttribute? word .origin span)]
        exact fun hsome => ho ⟨word, hword, .inl hsome⟩
      have hne : word ≠ "override" := fun hoverride => ho ⟨word, hword, .inr hoverride⟩
      simp only [hnone, if_neg hne, and_self]

section

variable (hd : d.Echoed H d')
include hd

theorem echoes_modifierInvocation (hdot : H.Lacks k (.symbol .dot))
    (hparen : H.Lacks k (.symbol .leftParen)) :
    Echoes H always I (k + 1) k (modifierInvocation d) (modifierInvocation d') := by
  refine (echoes_path hdot).bind fun p p' hp => ?_
  refine (echoes_callArguments? hd hparen).bind fun arguments arguments' h => ?_
  exact echoes_spanFrom fun _ _ => echoes_pure (by simp [Alike, hp, h])

/-- The attributes of a function stand before other tokens of the passage. -/
theorem echoes_functionAttributes :
    Echoes H always I (k + 1) (k + 1) (functionAttributes d) (functionAttributes d') := by
  refine Rounds.many (R := fun _ _ => True) (Rounds.here fun span span' => ?_)
  rw [nextWord_bind, nextWord_bind]
  refine rounds_next (T := fun o => (o.bind Token.identifier?).isSome)
    (fun o ho => Echoes.any ?_) (fun o ho => ?_) (by simp) fun h => absurd h (Nat.succ_ne_zero k)
  · obtain ⟨word, hword⟩ := Option.isSome_iff_exists.1 ho
    rw [hword]
    refine echoes_attribute (Option.isSome_of_isSome_bind ho)
      (alike_functionAttribute? word span span') (fun a ha => by simp only [ha])
      (fun a ha => by simp only [ha]) fun hnone hnone' => ?_
    simp only [hnone, hnone']
    refine echoes_ite (fun _ => ?_) fun _ => ?_
    · exact (echoes_overrideSpecifier Setting.lacks_succ).bind fun o o' h =>
        echoes_pure (by simp [Alike, h])
    · exact (echoes_modifierInvocation hd Setting.lacks_succ Setting.lacks_succ).bind fun m m' h =>
        echoes_pure (by simp [Alike, h])
  · rw [Option.not_isSome_iff_eq_none.1 ho]
    exact ⟨rfl, rfl⟩

end

/-! ### Functions -/

section

variable (hd : d.EchoedWhole H d')
include hd

theorem echoes_functionBody :
    Echoes H unrestricted I (k + 1) k (functionBody d) (functionBody d') := by
  refine echoes_if_accept_inside (m := k) (echoes_pure rfl) ?_
  exact (echoes_block hd).bind_if (fun b b' h => echoes_pure (congrArg some h))
    fun _ _ _ _ _ _ h => h

theorem echoes_functionDefinition :
    Echoes H unrestricted I (k + 2) k (functionDefinition d) (functionDefinition d') := by
  refine (echoes_keyword (k := k + 1) _).bind fun start start' _ => ?_
  refine (echoes_identifier (k := k + 1)).perhaps.bind fun name name' hname => ?_
  refine (echoes_parameters (k := k + 1) hd.toEchoed).perhaps.bind fun ps ps' hps => ?_
  refine (echoes_functionAttributes hd.toEchoed).bind fun attributes attributes' h => ?_
  refine (echoes_returnParameters hd.toEchoed Setting.lacks_succ).bind fun returns returns' hr => ?_
  refine (echoes_functionBody hd).bind_if (fun inner inner' hinner => ?_) fun _ _ _ _ _ _ h => h
  exact echoes_spanFrom fun _ _ => echoes_pure (by simp [Alike, hname, hps, h, hr, hinner])

theorem echoes_modifierDefinition :
    Echoes H unrestricted I (k + 1) k (modifierDefinition d) (modifierDefinition d') := by
  refine (echoes_keyword (k := k + 1) _).perhaps.bind fun start start' _ => ?_
  refine (echoes_identifier (k := k + 1)).perhaps.bind fun name name' hname => ?_
  have hend (ps ps' : List Parameter) (hps : Alike ps ps') :
      Echoes H unrestricted anywhere (k + 1) k (functionAttributes d >>= fun attributes =>
        functionBody d >>= fun inner => spanFrom start >>= fun span =>
          pure (⟨name, ps, attributes, inner, span⟩ : ModifierDefinition))
        (functionAttributes d' >>= fun attributes =>
          functionBody d' >>= fun inner => spanFrom start' >>= fun span =>
            pure ⟨name', ps', attributes, inner, span⟩) := by
    refine (echoes_functionAttributes hd.toEchoed).bind fun attributes attributes' h => ?_
    refine (echoes_functionBody hd).bind_if (fun inner inner' hinner => ?_) fun _ _ _ _ _ _ h => h
    exact echoes_spanFrom fun _ _ => echoes_pure (by simp [Alike, hname, hps, h, hinner])
  refine echoes_if_nextIs_inside ?_ ?_
  · exact (echoes_parameters (k := k + 1) hd.toEchoed).perhaps.at.bind hend
  · have hnone : Echoes H always anywhere (k + 1) (k + 1) (pure ([] : List Parameter)) (pure []) :=
      echoes_pure rfl
    exact hnone.bind hend

theorem echoes_constructorDefinition :
    Echoes H unrestricted I (k + 1) k (constructorDefinition d) (constructorDefinition d') := by
  refine (echoes_keyword (k := k + 1) _).perhaps.bind fun start start' _ => ?_
  refine (echoes_parameters (k := k + 1) hd.toEchoed).perhaps.bind fun ps ps' hps => ?_
  refine (echoes_functionAttributes hd.toEchoed).bind fun attributes attributes' h => ?_
  refine (echoes_functionBody hd).bind_if (fun inner inner' hinner => ?_) fun _ _ _ _ _ _ h => h
  exact echoes_spanFrom fun _ _ => echoes_pure (by simp [Alike, hps, h, hinner])

theorem echoes_fallbackRest (kind : FallbackKind) (start start' : Span) :
    Echoes H unrestricted I (k + 1) k (fallbackRest d kind start)
      (fallbackRest d' kind start') := by
  refine (echoes_parameters (k := k + 1) hd.toEchoed).perhaps.bind fun ps ps' hps => ?_
  refine (echoes_functionAttributes hd.toEchoed).bind fun attributes attributes' h => ?_
  refine (echoes_functionBody hd).bind_if (fun inner inner' hinner => ?_) fun _ _ _ _ _ _ h => h
  exact echoes_spanFrom fun _ _ => echoes_pure (by simp [Alike, hps, h, hinner])

theorem echoes_namelessFallback :
    Echoes H unrestricted I (k + 2) k (namelessFallback d) (namelessFallback d') :=
  (echoes_keyword (k := k + 1) _).bind fun start start' _ =>
    echoes_fallbackRest hd _ start start'

theorem echoes_fallbackDefinition (kind : FallbackKind) :
    Echoes H unrestricted I (k + 2) k (fallbackDefinition d kind) (fallbackDefinition d' kind) :=
  (echoes_word (k := k + 1) _).bind fun start start' _ =>
    echoes_fallbackRest hd kind start start'

end

/-! ### Variables, structs, enumerations and events -/

section

variable (hd : d.Echoed H d')
include hd

theorem echoes_stateVariable :
    Echoes H always I (k + 2) k (stateVariable d) (stateVariable d') := by
  refine echoes_here fun start start' => ?_
  refine (hd.typeName (k + 1) Setting.mild_succ).at.bind fun type type' htype => ?_
  refine echoes_variableAttributes.bind fun attributes attributes' hattributes => ?_
  refine (echoes_identifier (k := k + 1)).perhaps.bind fun name name' hname => ?_
  have hend (value value' : Option Expr) (hvalue : Alike value value') :
      Echoes H always anywhere (k + 1) k (symbol .semicolon >>= fun _ => spanFrom start >>=
        fun span => pure (⟨type, attributes, name, value, span⟩ : StateVariable))
        (symbol .semicolon >>= fun _ => spanFrom start' >>= fun span =>
          pure ⟨type', attributes', name', value', span⟩) := by
    refine (echoes_symbol _).bind fun _ _ _ => ?_
    exact echoes_spanFrom fun _ _ =>
      echoes_pure (by simp [Alike, htype, hattributes, hname, hvalue])
  refine echoes_if_accept_inside (m := k + 1) ?_ ?_
  · refine Echoes.bind_if (m := k + 1) (R := fun _ => uncut H) ?_ hend
      fun _ _ _ _ _ h _ => uncut_of_symbol (by simp) h
    exact (hd.expression (k + 1) Setting.calm_succ).perhaps.map (fun _ _ h => congrArg some h)
      fun _ _ _ => id
  · have hnone : Echoes H always anywhere (k + 1) (k + 1) (pure (none : Option Expr))
        (pure none) := echoes_pure rfl
    exact hnone.bind hend

theorem echoes_constantDeclaration :
    Echoes H unrestricted I (k + 1) k (constantDeclaration d) (constantDeclaration d') := by
  refine echoes_here fun start start' => ?_
  refine (hd.typeName (k + 1) Setting.mild_succ).at.perhaps.bind fun type type' htype => ?_
  refine (echoes_word (k := k + 1) _).perhaps.bind fun _ _ _ => ?_
  refine (echoes_identifier (k := k + 1)).perhaps.bind fun name name' hname => ?_
  refine (echoes_symbol (k := k + 1) _).perhaps.bind fun _ _ _ => ?_
  refine (hd.expression (k + 1) Setting.calm_succ).perhaps.bind_if (fun value value' hvalue => ?_)
    fun _ _ _ _ _ h _ => uncut_of_symbol (by simp) h
  refine (echoes_symbol _).bind fun _ _ _ => ?_
  exact echoes_spanFrom fun _ _ => echoes_pure (by simp [Alike, htype, hname, hvalue])

theorem echoes_structMember :
    Echoes H always I (k + 1) k (structMember d) (structMember d') := by
  refine echoes_here fun start start' => ?_
  refine (hd.typeName (k + 1) Setting.mild_succ).at.perhaps.bind fun type type' htype => ?_
  refine (echoes_identifier (k := k + 1)).perhaps.bind fun name name' hname => ?_
  refine (echoes_symbol _).bind fun _ _ _ => ?_
  exact echoes_spanFrom fun _ _ => echoes_pure (by simp [Alike, htype, hname])

theorem echoes_structDeclaration :
    Echoes H always I (k + 1) k (structDeclaration d) (structDeclaration d') := by
  refine (echoes_keyword (k := k + 1) _).perhaps.bind fun start start' _ => ?_
  refine (echoes_identifier (k := k + 1)).perhaps.bind fun name name' hname => ?_
  refine (echoes_symbol (k := k + 1) _).perhaps.bind fun _ _ _ => ?_
  have hcontinues : Echoes H always anywhere (k + 1) (k + 1) (pure true : Parser Bool)
      (pure true) := echoes_pure rfl
  refine (echoes_itemsUntil (R := fun _ => True) (echoes_structMember hd).any hcontinues).bind
    fun members members' hmembers => ?_
  refine (echoes_symbol _).bind fun _ _ _ => echoes_spanFrom fun span span' => ?_
  have hempty : members'.isEmpty = members.isEmpty := by
    have hmove (ms : List StructMember) :
        (respan (fun _ => Span.origin) ms).isEmpty = ms.isEmpty := isEmpty_respan ms
    rw [← hmove members', hmembers, hmove]
  rw [hempty]
  refine echoes_ite (fun _ => echoes_record fun _ => onward_pure _) fun _ => ?_
  exact echoes_pure (by simp [Alike, hname, hmembers])

omit hd in
theorem echoes_enumDeclaration :
    Echoes H always I (k + 1) k enumDeclaration enumDeclaration := by
  refine (echoes_keyword (k := k + 1) _).perhaps.bind fun start start' _ => ?_
  refine (echoes_identifier (k := k + 1)).perhaps.bind fun name name' hname => ?_
  refine (echoes_symbol (k := k + 1) _).perhaps.bind fun _ _ _ => ?_
  refine (echoes_commaItems (R := fun _ => True) echoes_identifier).bind
    fun values values' hvalues => ?_
  refine (echoes_symbol _).bind fun _ _ _ => ?_
  exact echoes_spanFrom fun _ _ => echoes_pure (by simp [Alike, hname, hvalues])


omit hd in
/-- A token that may be there, before other tokens of the passage. -/
theorem echoes_accept (a : Token) : Echoes H always I (k + 1) (k + 1) (accept a) (accept a) := by
  refine echoes_if_nextIs_inside ?_ (echoes_pure rfl)
  exact (echoes_advance_seen.bind fun _ _ _ => echoes_pure rfl).perhaps

theorem echoes_eventParameter :
    Echoes H always I (k + 2) (k + 1) (eventParameter d) (eventParameter d') := by
  refine echoes_here fun start start' => ?_
  refine (hd.typeName (k + 1) Setting.mild_succ).at.bind fun type type' htype => ?_
  refine (echoes_accept (k := k) _).bind fun isIndexed isIndexed' hindexed => ?_
  refine echoes_identifier?.bind fun name name' hname => ?_
  obtain rfl : isIndexed' = isIndexed := hindexed
  exact echoes_spanFrom fun _ _ => echoes_pure (by simp [Alike, htype, hname])

theorem echoes_eventDefinition :
    Echoes H always I (k + 1) k (eventDefinition d) (eventDefinition d') := by
  refine (echoes_keyword (k := k + 1) _).perhaps.bind fun start start' _ => ?_
  refine (echoes_identifier (k := k + 1)).perhaps.bind fun name name' hname => ?_
  refine (echoes_symbol (k := k + 1) _).perhaps.bind fun _ _ _ => ?_
  have hend (ps ps' : List EventParameter) (hps : Alike ps ps') :
      Echoes H always anywhere (k + 1) k (symbol .rightParen >>= fun _ =>
        acceptWord "anonymous" >>= fun isAnonymous => symbol .semicolon >>= fun _ =>
          spanFrom start >>= fun span => pure (⟨name, ps, isAnonymous, span⟩ : EventDefinition))
        (symbol .rightParen >>= fun _ => acceptWord "anonymous" >>= fun isAnonymous =>
          symbol .semicolon >>= fun _ => spanFrom start' >>= fun span =>
            pure ⟨name', ps', isAnonymous, span⟩) := by
    refine (echoes_symbol (k := k + 1) _).perhaps.bind fun _ _ _ => ?_
    refine (echoes_accept (k := k) _).bind fun isAnonymous isAnonymous' hanonymous => ?_
    obtain rfl : isAnonymous' = isAnonymous := hanonymous
    refine (echoes_symbol _).bind fun _ _ _ => ?_
    exact echoes_spanFrom fun _ _ => echoes_pure (by simp [Alike, hname, hps])
  refine echoes_if_nextIs_inside ?_ ?_
  · have hnone : Echoes H always anywhere (k + 1) (k + 1) (pure ([] : List EventParameter))
        (pure []) := echoes_pure rfl
    exact hnone.at.bind hend
  · have hps : Echoes H always anywhere (k + 1) (k + 1) (separated (eventParameter d))
        (separated (eventParameter d')) :=
      (echoes_separated (echoes_eventParameter hd) Setting.bars_succ).perhaps
    exact hps.bind hend

theorem echoes_usingDirective :
    Echoes H always I (k + 1) k (usingDirective d) (usingDirective d') := by
  have htarget : Echoes H always anywhere (k + 2) (k + 1) (usingTarget d) (usingTarget d') := by
    refine echoes_here fun span span' => echoes_if_accept_inside (m := k + 1)
      (echoes_pure (by simp [Alike])) ?_
    exact (hd.typeName (k + 1) Setting.mild_succ).bind fun type type' htype =>
      echoes_pure (by simp [Alike, htype])
  refine (echoes_keyword (k := k + 1) _).perhaps.bind fun start start' _ => ?_
  refine (echoes_path (k := k + 1) Setting.lacks_succ).perhaps.bind fun library library' hl => ?_
  refine (echoes_keyword (k := k + 1) _).perhaps.bind fun _ _ _ => ?_
  refine htarget.perhaps.bind fun target target' h => ?_
  refine (echoes_symbol _).bind fun _ _ _ => ?_
  exact echoes_spanFrom fun _ _ => echoes_pure (by simp [Alike, hl, h])

end

/-! ### Members -/

section

variable {n : Nat} {H' : Setting} (hH : H.Mirror H')
include hH

/-- A variable of a function type, or else a fallback: where the second text can be read as a variable
the first one could. -/
theorem echoes_variableOrFallback : Echoes H unrestricted I (k + 2) k
    (variableOrFallback (.ofDepth n)) (variableOrFallback (.ofDepth n)) := by
  have hvariable (H : Setting) : Echoes H always anywhere (k + 2) k
      (Member.stateVariable <$> stateVariable (.ofDepth n))
      (Member.stateVariable <$> stateVariable (.ofDepth n)) :=
    (echoes_stateVariable (Nested.echoed_ofDepth le_rfl)).map (fun _ _ h => by simp [Alike, h])
      fun _ _ _ _ => trivial
  have hfallback : Echoes H unrestricted anywhere (k + 2) k
      (Member.fallback <$> namelessFallback (.ofDepth n))
      (Member.fallback <$> namelessFallback (.ofDepth n)) :=
    (echoes_namelessFallback (Nested.echoedWhole_ofDepth le_rfl)).map
      (fun _ _ h => by simp [Alike, h]) fun _ _ _ => id
  refine echoes_either_if (hvariable H).at hfallback.at ?_
  intro c c' hc w s s' hs x t hP hk x' t' v hx' ht y' u' hy'
  have hy := hy'
  obtain ⟨V, r, hV, hr⟩ := bind_eq_ok hy
  obtain ⟨F, r', hF, hr'⟩ := bind_eq_ok hx'
  obtain ⟨-, rfl⟩ := pure_eq_ok (c := c') hr
  obtain ⟨-, rfl⟩ := pure_eq_ok (c := c') hr'
  obtain rfl := stateVariable_eq_namelessFallback (hc.structLiterals hP) hV hF
  -- Both readings of the second text end here, so what is left in the first text is known.
  obtain ⟨w', -, hs'⟩ := hs.mirror hH
  have hkept : H'.Kept k u' := by
    refine ⟨by rw [ht.errors₂, hH.errors₁], ?_⟩
    have hle := hk.2
    rw [ht.length₁] at hle
    rw [ht.length₂, hH.next₁]
    omega
  have hknows : Setting.Knows k c' c := ⟨fun _ => hP, fun _ => hP⟩
  obtain ⟨y, u, -, hy, -, -⟩ := (hvariable H').run hknows hs' trivial hy' hkept trivial
  exact ⟨y, u, hy⟩

theorem echoes_member : Echoes H unrestricted I (k + 1) k (member (.ofDepth n))
    (member (.ofDepth n)) := by
  have hd : (Nested.ofDepth n).EchoedWhole H (.ofDepth n) := Nested.echoedWhole_ofDepth le_rfl
  refine echoes_next fun next => ?_
  split
  · refine (echoes_peek fun second => echoes_ite (fun _ => echoes_variableOrFallback hH) fun _ => ?_).lower
      (Nat.le_succ _)
    exact (echoes_functionDefinition hd).bind_if (fun x x' h => echoes_pure (by simp [Alike, h]))
      fun _ _ _ _ _ _ h => h
  · exact (echoes_modifierDefinition hd).bind_if (fun x x' h => echoes_pure (by simp [Alike, h]))
      fun _ _ _ _ _ _ h => h
  · exact (echoes_constructorDefinition hd).bind_if (fun x x' h => echoes_pure (by simp [Alike, h]))
      fun _ _ _ _ _ _ h => h
  · exact (echoes_eventDefinition hd.toEchoed).bind fun x x' h => echoes_pure (by simp [Alike, h])
  · exact (echoes_structDeclaration hd.toEchoed).bind fun x x' h => echoes_pure (by simp [Alike, h])
  · exact echoes_enumDeclaration.bind fun x x' h => echoes_pure (by simp [Alike, h])
  · exact (echoes_usingDirective hd.toEchoed).bind fun x x' h => echoes_pure (by simp [Alike, h])
  · refine (echoes_peek fun second => ?_).lower (Nat.le_succ _)
    split
    · exact (echoes_fallbackDefinition hd _).bind_if (fun x x' h => echoes_pure (by simp [Alike, h]))
        fun _ _ _ _ _ _ h => h
    · exact (echoes_stateVariable hd.toEchoed).bind fun x x' h => echoes_pure (by simp [Alike, h])
  · exact ((echoes_stateVariable hd.toEchoed).bind fun x x' h =>
      echoes_pure (by simp [Alike, h])).lower (Nat.le_succ _)
  · exact ((echoes_stateVariable hd.toEchoed).bind fun x x' h =>
      echoes_pure (by simp [Alike, h])).lower (Nat.le_succ _)
  · exact echoes_unexpected _

end

/-! ### Contracts -/

theorem echoes_inheritanceSpecifier (hd : d.Echoed H d') (hk : H.Calm k) :
    Echoes H always I (k + 1) k (inheritanceSpecifier d) (inheritanceSpecifier d') := by
  refine (echoes_path (hk.lacks rfl)).bind fun p p' hp => ?_
  refine (echoes_callArguments? hd (hk.lacks rfl)).bind fun arguments arguments' h => ?_
  exact echoes_spanFrom fun _ _ => echoes_pure (by simp [Alike, hp, h])

theorem echoes_contractKind (isAbstract : Bool) :
    Echoes H always I (k + 1) k (contractKind isAbstract) (contractKind isAbstract) := by
  refine echoes_next fun o => ?_
  rcases hkind : o.bind ContractKind.ofToken? with _ | kind
  · exact echoes_unexpected _
  · refine echoes_ite (fun _ => echoes_here fun _ _ => echoes_violation _ _) fun _ => ?_
    obtain ⟨a, rfl⟩ := Option.isSome_iff_exists.1
      (Option.isSome_of_isSome_bind (by rw [hkind]; rfl))
    exact echoes_advance_seen.bind fun _ _ _ => echoes_pure rfl

theorem echoes_inheritance (hd : d.Echoed H d') (kind : ContractKind) :
    Echoes H always I (k + 1) (k + 1) (inheritance d kind) (inheritance d' kind) := by
  refine echoes_if_nextIs_inside ?_ (echoes_pure rfl)
  refine echoes_ite (fun _ => echoes_here fun _ _ => echoes_violation _ _) fun _ => ?_
  refine (echoes_advance_seen.bind fun _ _ _ => ?_).perhaps
  exact (echoes_separated (echoes_inheritanceSpecifier hd Setting.calm_succ).perhaps
    Setting.bars_succ)

theorem echoes_contractDeclaration {n : Nat} {H' : Setting} (hH : H.Mirror H') :
    Echoes H unrestricted I (k + 1) k (contractDeclaration (.ofDepth n))
      (contractDeclaration (.ofDepth n)) := by
  have hd : (Nested.ofDepth n).Echoed H (.ofDepth n) := Nested.echoed_ofDepth le_rfl
  refine echoes_here fun start start' => ?_
  refine (echoes_accept (k := k) _).bind fun isAbstract isAbstract' habstract => ?_
  obtain rfl : isAbstract' = isAbstract := habstract
  refine (echoes_contractKind (k := k + 1) isAbstract').perhaps.bind fun kind kind' hkind => ?_
  obtain rfl : kind' = kind := hkind
  refine (echoes_identifier (k := k + 1)).perhaps.bind fun name name' hname => ?_
  refine (echoes_inheritance (k := k) hd kind').bind fun bases bases' hbases => ?_
  refine (echoes_symbol _).bind fun _ _ _ => ?_
  refine (echoes_body (echoes_member (I := anywhere) (k := k + 1) hH)).bind_if (fun members members' h => ?_)
    fun _ _ _ _ _ _ h => h
  exact echoes_spanFrom fun _ _ => echoes_pure (by simp [Alike, hname, hbases, h])

/-! ### Files -/

theorem echoes_importPath : Echoes H always I (k + 1) k importPath importPath :=
  echoes_stringText.bind fun x x' h => by
    obtain ⟨hvalue, -⟩ := Prod.mk.inj h
    exact echoes_pure (by simp_all [Alike])

theorem echoes_renaming? : Echoes H always I (k + 1) (k + 1) renaming? renaming? := by
  refine echoes_if_accept_inside (m := k + 1) ?_ (echoes_pure rfl)
  exact (echoes_identifier.bind fun i i' hi => echoes_pure (congrArg some hi)).perhaps

theorem echoes_importAlias : Echoes H always I (k + 2) (k + 1) importAlias importAlias := by
  refine (echoes_identifier (k := k + 1)).bind fun name name' hname => ?_
  refine (echoes_renaming? (k := k)).bind fun renamed renamed' h => ?_
  exact echoes_spanFrom fun _ _ => echoes_pure (by simp [Alike, hname, h])

theorem echoes_wildcardImport :
    Echoes H always I (k + 1) k wildcardImport wildcardImport := by
  refine (echoes_symbol (k := k) _).bind fun star star' _ => ?_
  refine (echoes_word (k := k) _).perhaps.bind fun _ _ _ => ?_
  refine (echoes_identifier (k := k)).perhaps.bind fun name name' hname => ?_
  exact echoes_spanFrom fun _ _ => echoes_pure (by simp [Alike, hname])

theorem echoes_multipleImport :
    Echoes H always I (k + 1) k multipleImport multipleImport := by
  refine (echoes_symbol (k := k + 1) _).perhaps.bind fun start start' _ => ?_
  refine (echoes_separated (echoes_importAlias (k := k)).perhaps Setting.bars_succ).bind
    fun symbols symbols' h => ?_
  refine (echoes_symbol (k := k) _).bind fun _ _ _ => ?_
  exact echoes_spanFrom fun _ _ => echoes_pure (by simp [Alike, h])

theorem echoes_namedImport :
    Echoes H always I (k + 2) (k + 1) namedImport namedImport := by
  refine (echoes_identifier (k := k + 1)).bind fun name name' hname => ?_
  refine (echoes_renaming? (k := k)).bind fun renamed renamed' h => ?_
  exact echoes_spanFrom fun _ _ => echoes_pure (by simp [Alike, hname, h])

theorem echoes_importFrom {clause clause' : Parser ImportClause}
    (h : Echoes H always I (k + 1) (k + 1) clause clause') :
    Echoes H always I (k + 1) k (importFrom clause) (importFrom clause') := by
  refine h.bind fun x x' hx => ?_
  refine (echoes_word (k := k) _).bind fun _ _ _ => ?_
  refine echoes_importPath.perhaps.bind fun p p' hp => ?_
  exact echoes_pure (by simp [Alike, hx, hp])

theorem echoes_importTarget :
    Echoes H always I (k + 2) (k + 1) importTarget importTarget := by
  refine echoes_next fun next => ?_
  split
  · refine (echoes_importPath (k := k + 1)).bind fun p p' hp => ?_
    refine (echoes_renaming? (k := k)).bind fun renamed renamed' h => ?_
    exact echoes_pure (by simp [Alike, hp, h])
  · exact echoes_importFrom echoes_wildcardImport.perhaps
  · exact echoes_importFrom echoes_multipleImport.perhaps
  · exact echoes_importFrom echoes_namedImport.perhaps
  · exact echoes_unexpected _

theorem echoes_importDirective :
    Echoes H always I (k + 1) k importDirective importDirective := by
  refine (echoes_keyword (k := k + 1) _).perhaps.bind fun start start' _ => ?_
  refine (echoes_importTarget (k := k)).perhaps.bind fun x x' h => ?_
  obtain ⟨p, renamed, clause⟩ := x
  obtain ⟨p', renamed', clause'⟩ := x'
  refine (echoes_symbol _).bind fun _ _ _ => ?_
  exact echoes_spanFrom fun _ _ => echoes_pure (by simp_all [Alike])

theorem onward_identifier : Onward identifier := by
  refine looks_here.onward.bind fun span => ?_
  rw [nextWord_bind]
  refine onward_next fun o => ?_
  cases o.bind Token.identifier? with
  | none => exact onward_unexpected _
  | some name => exact onward_advance.bind fun _ => onward_pure _

theorem onward_skipPragmaValue : Onward skipPragmaValue := by
  refine (onward_many (onward_next fun o => ?_)).bind fun _ => onward_pure _
  cases o with
  | none => exact onward_pure _
  | some t =>
    exact .ite (fun _ => onward_pure _) fun _ => onward_advance.bind fun _ => onward_pure _

theorem length_lt_of_pragma {c : Context} {s t : State} {x : PragmaDirective}
    (h : pragmaDirective c s = (.ok x, t)) : t.rest.length < s.rest.length := by
  obtain ⟨start, u, hstart, hrest⟩ := bind_eq_ok h
  obtain ⟨hpragma, rfl⟩ := take_eq_ok hstart
  have hrest' : Onward (identifier >>= fun name => skipPragmaValue >>= fun _ =>
      pragmaRest start name) :=
    onward_identifier.bind fun name => onward_skipPragmaValue.bind fun _ => onward_pragmaRest start name
  have hle := hrest'.length_le c s.advance
  rw [show (identifier >>= fun name => skipPragmaValue >>= fun _ => pragmaRest start name) c
    s.advance = (.ok x, t) from hrest] at hle
  exact hle.trans_lt (length_advance_lt hpragma)

variable {n : Nat} {H' : Setting} (hH : H.Mirror H')
include hH

/-- The items of a file, if pragmas echo: the value of a pragma is the text that was written. -/
theorem echoes_sourceUnit_of (hpragma : Echoes H unrestricted (facing I (some (.keyword .pragma)))
      (k + 1) k (pragmaDirective >>= fun x => pure (SourceUnit.pragma x))
      (pragmaDirective >>= fun x => pure (.pragma x))) :
    Echoes H unrestricted I (k + 1) k (sourceUnit (.ofDepth n)) (sourceUnit (.ofDepth n)) := by
  have hd : (Nested.ofDepth n).EchoedWhole H (.ofDepth n) := Nested.echoedWhole_ofDepth le_rfl
  refine echoes_next fun next => ?_
  split
  · exact hpragma
  · exact echoes_importDirective.bind fun x x' h => echoes_pure (by simp [Alike, h])
  iterate 4
    · exact (echoes_contractDeclaration hH).bind_if
        (fun x x' h => echoes_pure (by simp [Alike, h])) fun _ _ _ _ _ _ h => h
  · exact (echoes_structDeclaration hd.toEchoed).bind fun x x' h => echoes_pure (by simp [Alike, h])
  · exact echoes_enumDeclaration.bind fun x x' h => echoes_pure (by simp [Alike, h])
  · exact ((echoes_functionDefinition hd).bind_if (fun x x' h => echoes_pure (by simp [Alike, h]))
      fun _ _ _ _ _ _ h => h).lower (Nat.le_succ _)
  iterate 3
    · exact (echoes_constantDeclaration hd.toEchoed).bind_if
        (fun x x' h => echoes_pure (by simp [Alike, h])) fun _ _ _ _ _ _ h => h
  · exact echoes_unexpected _

/-- An item that is no pragma. -/
theorem echoes_otherUnit : Echoes H unrestricted
    (fun rest => rest.head?.map Lexeme.token ≠ some (.keyword .pragma)) (k + 1) k
    (sourceUnit (.ofDepth n)) (sourceUnit (.ofDepth n)) :=
  echoes_sourceUnit_of hH ⟨onward_pragmaDirective.bind fun _ => onward_pure _,
    fun _ _ _ _ hI => absurd hI.2 hI.1, fun _ _ _ _ _ hI => absurd hI.2 hI.1⟩

variable (hpragma : Token.keyword .pragma ∉ H.tokens)
include hpragma

/-- The items of a passage without pragmas. -/
theorem echoes_sourceUnit :
    Echoes H unrestricted I (k + 1) k (sourceUnit (.ofDepth n)) (sourceUnit (.ofDepth n)) := by
  refine echoes_sourceUnit_of hH (echoes_absent hpragma
    (onward_pragmaDirective.bind fun _ => onward_pure _) fun c s x t hx => ?_)
  obtain ⟨d, u, hd, hu⟩ := bind_eq_ok hx
  obtain ⟨-, rfl⟩ := pure_eq_ok (c := c) hu
  exact length_lt_of_pragma hd

/-- The items of a whole text. -/
theorem echoes_sourceUnits (hnext₁ : H.next₁ = []) (hnext₂ : H.next₂ = []) :
    Echoes H unrestricted I 0 0 (sourceUnits (.ofDepth n)) (sourceUnits (.ofDepth n)) := by
  have hunit : Echoes H unrestricted (fun rest => rest ≠ []) 1 0
      (recovering SourceUnit.error (sourceUnit (.ofDepth n)))
      (recovering SourceUnit.error (sourceUnit (.ofDepth n))) :=
    (echoes_sourceUnit hH hpragma).recovering fun _ => id
  refine Rounds.many_given (R := fun c => c.structLiterals = true)
    (rounds_atEnd (k := 0) ?_ hnext₁ hnext₂)
  exact hunit.bind_if (fun x x' h => echoes_pure (congrArg some h)) fun _ _ _ _ _ _ h => h

end Grammar

end SolidityFrontend
