import SolidityFrontend.Proofs.Bodies
import SolidityFrontend.Proofs.PragmaPlaces
import SolidityFrontend.Proofs.Unfinished
import SolidityFrontend.Proofs.VersionPragma

/-!
# Items that stand in another source

Tokens are `Retold` in another source if the same tokens stand there with the same texts between them,
wherever that is. Items that are read without errors are read again from what is retold, up to their
spans: a pragma too, whose value is the text between two of its tokens.
-/

namespace SolidityFrontend

open SolidityFrontend.Parser SolidityFrontend.Grammar

/-- The same tokens in two sources, with the same texts between them. -/
structure Retold (c c' : Context) (w w' : List Lexeme) : Prop where
  tokens : w'.map Lexeme.token = w.map Lexeme.token
  text : ∀ {l l' m m'}, (l, l') ∈ w.zip w' → (m, m') ∈ w.zip w' →
    sliceBytes l'.span.stop.offset m'.span.start.offset c'.source
      = sliceBytes l.span.stop.offset m.span.start.offset c.source

section

variable {c c' : Context} {s s' t u v : State} {w w' us us' next : List Lexeme}

theorem Retold.length_eq (h : Retold c c' w w') : w'.length = w.length := by
  have hlength := congrArg List.length h.tokens
  rwa [List.length_map, List.length_map] at hlength

theorem Retold.head?_eq (h : Retold c c' w w') (hne : w ≠ []) :
    (w' ++ next).head?.map Lexeme.token = (w ++ us).head?.map Lexeme.token := by
  obtain ⟨l, v, rfl⟩ := List.exists_cons_of_ne_nil hne
  obtain ⟨l', v', rfl, hl, -⟩ := List.map_eq_cons_iff.1 h.tokens
  exact congrArg some hl

theorem Retold.left (h : Retold c c' (w ++ us) (w' ++ us')) (hlength : w.length = w'.length) :
    Retold c c' w w' := by
  have htokens := h.tokens
  rw [List.map_append, List.map_append] at htokens
  have hzip : (w ++ us).zip (w' ++ us') = w.zip w' ++ us.zip us' := List.zip_append hlength
  refine ⟨(List.append_inj htokens (by simp [hlength])).1, fun hl hm => h.text ?_ ?_⟩ <;> rw [hzip]
  · exact List.mem_append_left _ hl
  · exact List.mem_append_left _ hm

theorem Retold.right (h : Retold c c' (w ++ us) (w' ++ us')) (hlength : w.length = w'.length) :
    Retold c c' us us' := by
  have htokens := h.tokens
  rw [List.map_append, List.map_append] at htokens
  have hzip : (w ++ us).zip (w' ++ us') = w.zip w' ++ us.zip us' := List.zip_append hlength
  refine ⟨(List.append_inj htokens (by simp [hlength])).2, fun hl hm => h.text ?_ ?_⟩ <;> rw [hzip]
  · exact List.mem_append_right _ hl
  · exact List.mem_append_right _ hm

/-! ### Pragmas -/

/-- A requirement is read from its text, wherever that stands. -/
theorem versionValue_alike {here here' : Location} {text : List Char} {x : PragmaValue}
    (h : versionValue here text = .ok x) :
    ∃ x', versionValue here' text = .ok x' ∧ Alike x x' := by
  unfold versionValue at h ⊢
  split at h
  · simp at h
  rename_i hne
  rw [if_neg hne]
  split at h
  · rename_i alternatives halternatives
    obtain rfl := Except.ok.inj h
    have hplaced (origin : Location) : erase (alternatives.map (·.map (placeConstraint origin text)))
        = alternatives.map (·.map fun k => ⟨k.operator, k.version, .origin⟩) := by
      rw [erase, respan_list, List.map_map]
      refine List.map_congr_left fun ks _ => ?_
      rw [Function.comp_apply, respan_list, List.map_map]
      rfl
    have hsame : Alike (alternatives.map (·.map (placeConstraint here text)))
        (alternatives.map (·.map (placeConstraint here' text))) :=
      (hplaced here').trans (hplaced here).symm
    exact ⟨_, rfl, by simp [Alike, hsame]⟩
  · simp at h

/-- The value of a pragma is read from its text, wherever that stands. -/
theorem pragmaValue_alike {name name' : Identifier} {text : List Char} {x : PragmaValue}
    (h : pragmaValue name text c u = (.ok x, v)) (hv : v.errors = #[])
    (hname : name'.name = name.name) :
    ∃ x', Alike x x' ∧ ∀ c' u', pragmaValue name' text c' u' = (.ok x', u') := by
  by_cases hsolidity : name.name = "solidity"
  · rcases hversion : versionValue name.span.stop text with e | y
    · simp only [pragmaValue, hsolidity, if_true, hversion] at h
      obtain ⟨_, r, hrecord, hraw⟩ := bind_eq_ok h
      obtain ⟨-, rfl⟩ := pure_eq_ok hraw
      obtain ⟨-, rfl⟩ := Prod.mk.inj hrecord
      simp at hv
    · simp only [pragmaValue, hsolidity, if_true, hversion] at h
      obtain ⟨rfl, -⟩ := pure_eq_ok h
      obtain ⟨x', hx', halike⟩ : ∃ x', versionValue name'.span.stop text = .ok x' ∧ Alike x x' :=
        versionValue_alike hversion
      refine ⟨x', halike, fun c' u' => ?_⟩
      simp only [pragmaValue, hname, hsolidity, if_true, hx']
      rfl
  · simp only [pragmaValue, hsolidity, if_false] at h
    obtain ⟨rfl, -⟩ := pure_eq_ok h
    refine ⟨.raw (String.ofList (Text.trim text)) (trimmedSpan name'.span.stop text), rfl,
      fun c' u' => ?_⟩
    simp only [pragmaValue, hname, hsolidity, if_false]
    rfl

theorem pragmaDirective_retold {d : PragmaDirective} (hs : s.Ordered)
    (h : pragmaDirective c s = (.ok d, t)) (ht : t.errors = #[]) (hw : s.rest = w ++ t.rest)
    (hw' : s'.rest = w' ++ next) (hretold : Retold c c' w w') :
    ∃ d' t', pragmaDirective c' s' = (.ok d', t') ∧ Alike d d' ∧ t'.rest = next
      ∧ t'.errors = s'.errors := by
  obtain ⟨start, between, stop, u, v, hrest, hv, hstart, hstop, hbetween, hvalue⟩ :=
    pragmaDirective_eq_ok hs h
  have hparts : w = start :: ⟨.identifier d.name.name, d.name.span⟩ :: (between ++ [stop]) := by
    refine List.append_cancel_right (hw.symm.trans (hrest.trans ?_))
    simp
  subst hparts
  obtain ⟨⟨_, first⟩, w', rfl, hfirst, hrest'⟩ := List.map_eq_cons_iff.1 hretold.tokens
  obtain ⟨⟨_, place⟩, w', rfl, hword, hrest'⟩ := List.map_eq_cons_iff.1 hrest'
  obtain ⟨between', w', rfl, hbetween', hrest'⟩ :=
    List.map_eq_append_iff.1 (hrest'.trans List.map_append)
  obtain ⟨⟨_, close⟩, w', rfl, hclose, hrest'⟩ := List.map_eq_cons_iff.1 hrest'
  obtain rfl := List.map_eq_nil_iff.1 hrest'
  obtain rfl := hfirst.trans hstart
  obtain rfl := hword
  obtain rfl := hclose.trans hstop
  have hskip : ∀ l ∈ between', endsPragma l.token = false := by
    intro l hl
    obtain ⟨m, hm, htoken⟩ := List.mem_map.1 (hbetween' ▸ List.mem_map_of_mem hl)
    exact htoken ▸ hbetween m hm
  -- The text between the name and the semicolon is the same.
  have hlength : between.length = between'.length := by
    simpa using (congrArg List.length hbetween').symm
  have htext : sliceBytes place.stop.offset close.start.offset c'.source
      = sliceBytes d.name.span.stop.offset stop.span.start.offset c.source := by
    have hname : ((⟨.identifier d.name.name, d.name.span⟩, ⟨.identifier d.name.name, place⟩) :
        Lexeme × Lexeme) ∈ (start :: ⟨.identifier d.name.name, d.name.span⟩ :: (between ++ [stop])).zip
          (⟨.keyword .pragma, first⟩ :: ⟨.identifier d.name.name, place⟩
            :: (between' ++ [⟨.symbol .semicolon, close⟩])) := by simp
    have hend : ((stop, ⟨.symbol .semicolon, close⟩) : Lexeme × Lexeme)
        ∈ (start :: ⟨.identifier d.name.name, d.name.span⟩ :: (between ++ [stop])).zip
          (⟨.keyword .pragma, first⟩ :: ⟨.identifier d.name.name, place⟩
            :: (between' ++ [⟨.symbol .semicolon, close⟩])) := by
      simp [List.zip_append hlength]
    exact hretold.text hname hend
  obtain ⟨value, halike, hread⟩ : ∃ value, Alike d.value value ∧ ∀ c' u', pragmaValue
      ⟨d.name.name, place⟩ _ c' u' = (.ok value, u') := pragmaValue_alike hvalue (hv.trans ht) rfl
  rw [← htext] at hread
  obtain ⟨previous, rest, errors⟩ := s'
  obtain rfl : rest = ⟨.keyword .pragma, first⟩ :: ⟨.identifier d.name.name, place⟩
    :: (between' ++ ⟨.symbol .semicolon, close⟩ :: next) := by simpa using hw'
  obtain ⟨span, last, hnew⟩ := pragmaDirective_of_value hskip (hread c') previous next
  refine ⟨_, _, hnew, ?_, rfl, rfl⟩
  obtain ⟨⟨name, origin⟩, x, whole⟩ := d
  have hvalue : Alike x value := halike
  simp [Alike, hvalue]

/-! ### Items -/

/-- An item that is read without errors ends with a semicolon or a brace. -/
theorem endsPart_of_isItem {ts : List Token} (h : Passage.IsItem ts) :
    ts.getLast?.any Token.endsPart := by
  rcases h.2 with hlast | hlast <;> rw [hlast] <;> rfl

theorem sourceUnit_retold {x : SourceUnit} (hc : c.structLiterals = true)
    (hc' : c'.structLiterals = true) (hs : s.Ordered) (hx : sourceUnit .full c s = (.ok x, t))
    (ht : t.errors = #[]) (hw : s.rest = w ++ t.rest) (hw' : s'.rest = w' ++ next)
    (hretold : Retold c c' w w') :
    ∃ x' t', sourceUnit .full c' s' = (.ok x', t') ∧ Alike x x' ∧ t'.rest = next
      ∧ t'.errors = s'.errors := by
  have hs₀ := portable_sourceUnit.onward.errors_eq_empty hx ht
  have hne : w ≠ [] := by
    rintro rfl
    have hlt := portable_sourceUnit.takes c s x t hs hx
    rw [hw] at hlt
    exact absurd hlt (lt_irrefl _)
  by_cases hpragma : s.rest.head?.map Lexeme.token = some (.keyword .pragma)
  · have hpragma' : s'.rest.head?.map Lexeme.token = some (.keyword .pragma) := by
      rwa [hw', hretold.head?_eq hne, ← hw]
    rw [sourceUnit_of_pragma hpragma] at hx
    rw [sourceUnit_of_pragma hpragma']
    obtain ⟨d, u, hd, hpure⟩ := bind_eq_ok hx
    obtain ⟨rfl, rfl⟩ := pure_eq_ok hpure
    obtain ⟨d', t', hd', halike, hend⟩ := pragmaDirective_retold hs hd ht hw hw' hretold
    exact ⟨.pragma d', t', bind_ok hd', by simp [Alike, halike], hend⟩
  · have hI {H : Passage} {w : List Lexeme} (hin : H.inside 0 w) (hw : w ++ H.next₁ = s.rest) :
        lacking (H.before 0) (.keyword .pragma) w w := by
      refine ⟨hin, fun hhead => hpragma ?_⟩
      have hseen : seeing (H.before 0) (some (.keyword .pragma)) w w := ⟨hin, hhead⟩
      exact hw ▸ head?_of_seeing hseen
    obtain ⟨ts, hts, hitem⟩ := isItem_of_errors follows_otherUnit hI hc hs hx hs₀ ht
    obtain rfl : ts = w := List.append_cancel_right (hts.symm.trans hw)
    exact (echoes_otherUnit (Setting.mirror_ofPart (endsPart_of_isItem hitem) _ _ _ _)).run_ofPart
      (endsPart_of_isItem hitem) hx hc hpragma hw hs₀ ht hc' hretold.tokens hw'

/-- Items that are read without errors are read again from what is retold. -/
theorem Chain.retold {xs : List SourceUnit} (hc : c.structLiterals = true)
    (hc' : c'.structLiterals = true) (h : Chain (sourceUnit .full) c s xs t) (hs : s.Ordered)
    (ht : t.errors = #[]) (hw : s.rest = w ++ t.rest) (hw' : s'.rest = w' ++ next)
    (hretold : Retold c c' w w') :
    ∃ xs' t', Chain (sourceUnit .full) c' s' xs' t' ∧ Alike xs xs' ∧ t'.rest = next
      ∧ t'.errors = s'.errors := by
  induction h generalizing s' w w' with
  | nil s =>
    obtain rfl : w = [] := List.append_left_eq_self.1 hw.symm
    obtain rfl : w' = [] := List.eq_nil_of_length_eq_zero hretold.length_eq
    exact ⟨[], s', .nil s', rfl, hw', rfl⟩
  | @cons s u t x xs hx hxs ih =>
    obtain ⟨ts, es, htook⟩ := portable_sourceUnit.onward.took hx
    obtain ⟨us, ds, htook'⟩ := hxs.took portable_sourceUnit.onward
    obtain rfl : w = ts ++ us := by
      refine List.append_cancel_right (hw.symm.trans (htook.1.trans ?_))
      rw [htook'.1, List.append_assoc]
    obtain ⟨v, v', rfl, hv, -⟩ := List.map_eq_append_iff.1 (hretold.tokens.trans List.map_append)
    have hlength : ts.length = v.length := by simpa using (congrArg List.length hv).symm
    obtain ⟨x', u', hx', halike, hrest, herrors⟩ := sourceUnit_retold hc hc' hs hx
      (htook'.errors_nil ht) htook.1 (hw'.trans (List.append_assoc _ _ _))
      (hretold.left hlength)
    obtain ⟨xs', t', hxs', halikes, hrest', herrors'⟩ :=
      ih (hs.of_took htook) ht htook'.1 hrest (hretold.right hlength)
    exact ⟨x' :: xs', t', .cons hx' hxs', congrArg₂ List.cons halike halikes, hrest',
      herrors'.trans herrors⟩

end

end SolidityFrontend
