import SolidityFrontend.Proofs.Scanning
import SolidityFrontend.Proofs.Segments

/-!
# Tokens with blanks between them

The lexemes of words, numbers and symbols hold no separator, so a text that is such a token by itself
is that token also before a separator. Tokens written with single blanks between them are therefore
read back as they are.
-/

namespace SolidityFrontend

open Text

/-! ### Lexemes without a character -/

/-- What is measured ends before a character, wherever that stands. -/
def StopsAt (d : Char) (f : List Char → Nat) : Prop := ∀ a b, f (a ++ d :: b) ≤ a.length

namespace Rule

variable {d : Char}

theorem stopsAt_runLength (p : Char → Bool) (hd : p d = false) : StopsAt d (runLength p) := by
  intro a b
  induction a with
  | nil => simp [runLength, hd]
  | cons c a ih =>
    unfold runLength at ih ⊢
    rw [List.cons_append, List.takeWhile_cons]
    split
    · simpa using ih
    · simp

theorem stopsAt_spellingLength {text : List Char} (hd : d ∉ text) :
    StopsAt d (spellingLength text) := by
  intro a b
  unfold spellingLength
  split
  · rename_i hbegins
    have hbegins := List.isPrefixOf_iff_prefix.1 hbegins
    by_contra hlonger
    have hle : (a ++ [d]).length ≤ text.length := by simp; omega
    have hstart : a ++ [d] <+: a ++ d :: b := ⟨b, by simp⟩
    have hshorter : a ++ [d] <+: text := List.prefix_of_prefix_length_le hstart hbegins hle
    exact hd (hshorter.subset (by simp))
  · exact Nat.zero_le _

/-- One stretch and another behind it. -/
theorem stopsAt_add {f g : List Char → Nat} (hf : StopsAt d f) (hg : StopsAt d g) :
    StopsAt d fun cs => f cs + g (cs.drop (f cs)) := by
  intro a b
  have hle := hf a b
  have hrest := hg (a.drop (f (a ++ d :: b))) b
  rw [List.length_drop] at hrest
  dsimp only
  rw [List.drop_append_of_le_length hle]
  omega

/-- A stretch, and another behind it unless the first is empty. -/
theorem stopsAt_add_of_ne_zero {f g : List Char → Nat} (hf : StopsAt d f) (hg : StopsAt d g) :
    StopsAt d fun cs => if f cs = 0 then 0 else f cs + g (cs.drop (f cs)) := by
  intro a b
  dsimp only
  split
  · exact Nat.zero_le _
  · exact stopsAt_add hf hg a b

theorem continuesIdentifier_of_isHexDigit {c : Char} (h : isHexDigit c) :
    continuesIdentifier c := by
  simp only [isHexDigit, Bool.or_eq_true, Bool.and_eq_true, decide_eq_true_eq] at h
  simp only [continuesIdentifier, startsIdentifier, Bool.or_eq_true, Bool.and_eq_true,
    decide_eq_true_eq]
  rcases h with (hdigit | hlower) | hupper
  · exact .inr hdigit
  · exact .inl (.inl (.inl (.inl ⟨hlower.1, Char.le_trans hlower.2 (by decide)⟩)))
  · exact .inl (.inl (.inl (.inr ⟨hupper.1, Char.le_trans hupper.2 (by decide)⟩)))

/-- A character that is no part of words and numbers. -/
def Outside (d : Char) : Prop := continuesIdentifier d = false ∧ d ≠ '.' ∧ d ≠ '-'

theorem outside_of_isSeparator (h : isSeparator d) : Outside d := by
  have hmem : d ∈ [' ', '\t', '\r', '\n', '\x0c', '\uFEFF', '\u2060', '\u200B', '\u00A0'] := by
    simpa [isSeparator] using h
  have hall : [' ', '\t', '\r', '\n', '\x0c', '\uFEFF', '\u2060', '\u200B', '\u00A0'].all
      fun x => decide (continuesIdentifier x = false ∧ x ≠ '.' ∧ x ≠ '-') := by decide
  simpa [Outside] using List.all_eq_true.1 hall d hmem

theorem outside_slash : Outside '/' := by
  unfold Outside
  decide

namespace Outside

variable (h : Outside d)

include h

theorem not_startsIdentifier : startsIdentifier d = false := by
  have hd := h.1
  simp only [continuesIdentifier, Bool.or_eq_false_iff] at hd
  exact hd.1

theorem not_isDigit : isDigit d = false := by
  have hd := h.1
  simp only [continuesIdentifier, Bool.or_eq_false_iff] at hd
  exact hd.2

theorem ne_of_continues {c : Char} (hc : continuesIdentifier c) : d ≠ c := by
  rintro rfl
  rw [h.1] at hc
  exact absurd hc (by decide)

theorem not_continuesNumber : continuesNumber d = false := by
  have hne : d ≠ '_' := h.ne_of_continues (by decide)
  simp [continuesNumber, h.not_isDigit, hne]

theorem not_isHexDigit : isHexDigit d = false := by
  rw [Bool.eq_false_iff]
  intro hhex
  have hcontinues := continuesIdentifier_of_isHexDigit hhex
  rw [h.1] at hcontinues
  exact absurd hcontinues (by decide)

theorem stopsAt_wordLength : StopsAt d wordLength := by
  intro a b
  rcases a with _ | ⟨c, a⟩
  · simp [wordLength, h.not_startsIdentifier]
  · have hrun := stopsAt_runLength _ h.1 a b
    rw [List.cons_append, wordLength, List.length_cons]
    split <;> omega

theorem stopsAt_digitsLength : StopsAt d digitsLength := by
  intro a b
  rcases a with _ | ⟨c, a⟩
  · simp [digitsLength, h.not_isDigit]
  · have hrun := stopsAt_runLength _ h.not_continuesNumber a b
    rw [List.cons_append, digitsLength, List.length_cons]
    split <;> omega

theorem stopsAt_fractionLength : StopsAt d fractionLength := by
  intro a b
  rcases a with _ | ⟨c, a⟩
  · simp [fractionLength, h.2.1]
  by_cases hc : c = '.'
  · subst hc
    have hdigits := h.stopsAt_digitsLength a b
    rw [List.cons_append, fractionLength, List.length_cons]
    split <;> omega
  · simp [fractionLength, hc]

theorem stopsAt_exponentLength : StopsAt d exponentLength := by
  intro a b
  rcases a with _ | ⟨c, a⟩
  · have he : d ≠ 'e' := h.ne_of_continues (by decide)
    have hE : d ≠ 'E' := h.ne_of_continues (by decide)
    simp [exponentLength, he, hE]
  · have hsign : '-' ≠ d := h.2.2.symm
    have hminus : StopsAt d (spellingLength ['-']) := stopsAt_spellingLength (by simpa using h.2.2)
    have hrest := stopsAt_add hminus h.stopsAt_digitsLength a b
    dsimp only at hrest
    simp only [List.cons_append, exponentLength, List.length_cons]
    split
    · split <;> omega
    · exact Nat.zero_le _

theorem stopsAt_decimalLength : StopsAt d decimalLength :=
  stopsAt_add_of_ne_zero (stopsAt_add h.stopsAt_digitsLength h.stopsAt_fractionLength)
    h.stopsAt_exponentLength

theorem stopsAt_hexLength : StopsAt d hexLength := by
  intro a b
  rcases a with _ | ⟨c, _ | ⟨x, a⟩⟩
  · have hd : d ≠ '0' := h.ne_of_continues (by decide)
    simp [hexLength, hd]
  · have hx : d ≠ 'x' := h.ne_of_continues (by decide)
    have hX : d ≠ 'X' := h.ne_of_continues (by decide)
    by_cases hc : c = '0'
    · subst hc
      simp [hexLength, hx, hX]
    · simp [hexLength, hc]
  · have hp : (fun c => isHexDigit c || c == '_') d = false := by
      have hne : d ≠ '_' := h.ne_of_continues (by decide)
      simp [h.not_isHexDigit, hne]
    have hrun := stopsAt_runLength (fun c => isHexDigit c || c == '_') hp a b
    by_cases hc : c = '0'
    · subst hc
      simp only [List.cons_append, hexLength, List.length_cons]
      split
      · split <;> omega
      · exact Nat.zero_le _
    · simp [hexLength, hc]

theorem stopsAt_widthsLength : StopsAt d widthsLength := by
  intro a b
  have htotal := stopsAt_runLength _ h.not_isDigit a b
  simp only [widthsLength]
  rw [List.drop_append_of_le_length htotal]
  generalize runLength isDigit (a ++ d :: b) = total at htotal ⊢
  have hlength : (a.drop total).length = a.length - total := List.length_drop
  rcases hdrop : a.drop total with _ | ⟨x, rest⟩
  · have hx : d ≠ 'x' := h.ne_of_continues (by decide)
    cases total <;> simp [hx]
  · have hrest := stopsAt_runLength _ h.not_isDigit rest b
    rw [hdrop, List.length_cons] at hlength
    rw [List.cons_append]
    split
    · exact Nat.zero_le _
    · rename_i heq
      obtain ⟨rfl, rfl⟩ := List.cons.inj heq
      split <;> omega
    · exact Nat.zero_le _

theorem stopsAt_fixedLength : StopsAt d fixedLength := by
  have hu : d ∉ ['u'] := by
    have hne : d ≠ 'u' := h.ne_of_continues (by decide)
    simpa using hne
  have hword : d ∉ "fixed".toList := by
    intro hmem
    have hall : ∀ x ∈ "fixed".toList, continuesIdentifier x := List.all_eq_true.1 (by decide)
    exact h.ne_of_continues (hall d hmem) rfl
  have hrest := stopsAt_add (stopsAt_spellingLength hu)
    (stopsAt_add_of_ne_zero (stopsAt_spellingLength hword) h.stopsAt_widthsLength)
  intro a b
  have hrest := hrest a b
  simp only [fixedLength]
  split
  · exact Nat.zero_le _
  · rename_i n hn
    dsimp only at hrest
    rw [if_neg hn, List.drop_drop] at hrest
    omega

theorem stopsAt_elementaryLength (hwords : ∀ word ∈ elementaryWords, d ∉ word) :
    StopsAt d elementaryLength := by
  suffices hfold : ∀ (words : List (List Char)) (f : List Char → Nat), (∀ w ∈ words, d ∉ w) →
      StopsAt d f →
      StopsAt d fun cs => words.foldl (fun n word => max n (spellingLength word cs)) (f cs) from
    hfold elementaryWords fixedLength hwords h.stopsAt_fixedLength
  intro words
  induction words with
  | nil => exact fun f _ hf => hf
  | cons word words ih =>
    intro f hwords hf
    rw [List.forall_mem_cons] at hwords
    refine ih _ hwords.2 fun a b => ?_
    exact Nat.max_le.2 ⟨hf a b, stopsAt_spellingLength hwords.1 a b⟩

end Outside

/-! ### Rules of plain tokens -/

theorem continues_of_mem_keyword (k : Keyword) : ∀ c ∈ k.text.toList, continuesIdentifier c := by
  have hall : ∀ e ∈ Keyword.spellings, e.2.all continuesIdentifier := by decide
  exact List.all_eq_true.1 (hall _ k.mem_spellings)

theorem continues_of_mem_elementaryWords :
    ∀ word ∈ elementaryWords, ∀ c ∈ word, continuesIdentifier c := by
  have hall : elementaryWords.all (·.all continuesIdentifier) := by
    rw [elementaryWords_eq]
    decide
  exact fun word hword => List.all_eq_true.1 (List.all_eq_true.1 hall word hword)

theorem not_isSeparator_of_mem_symbol (s : Symbol) : ∀ c ∈ s.text.toList, isSeparator c = false := by
  have hnone : ∀ e ∈ Symbol.spellings, e.2.all (!isSeparator ·) := by decide
  simpa using hnone _ s.mem_spellings

/-- The rules whose lexemes are words and numbers. -/
def isWordy : Rule → Bool
  | .keyword _ | .elementaryType | .identifier | .decimalNumber | .hexNumber => true
  | _ => false

/-- Words and numbers end before a character that is no part of them. -/
theorem stopsAt_of_isWordy {r : Rule} (hr : r.isWordy) (h : Outside d) : StopsAt d r.length := by
  cases r with
  | keyword k =>
    exact stopsAt_spellingLength fun hmem =>
      h.ne_of_continues (continues_of_mem_keyword k d hmem) rfl
  | elementaryType =>
    exact h.stopsAt_elementaryLength fun word hword hmem =>
      h.ne_of_continues (continues_of_mem_elementaryWords word hword d hmem) rfl
  | identifier => exact h.stopsAt_wordLength
  | decimalNumber => exact h.stopsAt_decimalLength
  | hexNumber => exact h.stopsAt_hexLength
  | _ => simp [isWordy] at hr

theorem not_isSeparator_of_openString {kind : StringKind} {quote : Char}
    (h : openString kind quote ∈ all) :
    ∀ c ∈ kind.opener.toList ++ [quote], isSeparator c = false := by
  have hstrings : openString kind quote ∈ strings := by simpa [all] using h
  simp only [strings, List.mem_cons, List.not_mem_nil, or_false, openString.injEq] at hstrings
  have hnone : (kind.opener.toList ++ [quote]).any isSeparator = false := by
    rcases hstrings with ⟨rfl, rfl⟩ | ⟨rfl, rfl⟩ | ⟨rfl, rfl⟩ | ⟨rfl, rfl⟩ | ⟨rfl, rfl⟩ | ⟨rfl, rfl⟩ <;>
      decide
  exact fun c hc => Bool.eq_false_iff.2 (List.any_eq_false.1 hnone c hc)

/-- Every rule but those of blanks and line comments stops at a separator. -/
theorem stopsAt_separator {r : Rule} (hr : r ∈ all) (hd : isSeparator d) (hblank : r ≠ .blank)
    (hcomment : r ≠ .lineComment) : StopsAt d r.length := by
  have hword : ∀ {text : List Char}, (∀ c ∈ text, isSeparator c = false) →
      StopsAt d (spellingLength text) := by
    intro text htext
    refine stopsAt_spellingLength fun hmem => ?_
    rw [htext d hmem] at hd
    exact absurd hd (by decide)
  cases r with
  | blank => exact absurd rfl hblank
  | lineComment => exact absurd rfl hcomment
  | symbol s => exact hword (not_isSeparator_of_mem_symbol s)
  | openString kind quote => exact hword (not_isSeparator_of_openString hr)
  | openComment => exact hword (by simp [isSeparator])
  | _ => exact stopsAt_of_isWordy rfl (outside_of_isSeparator hd)

/-- The rules whose lexemes are tokens as they stand. -/
def isPlain : Rule → Bool
  | .symbol _ => true
  | r => r.isWordy

theorem isPlain_cases {r : Rule} (hr : r.isPlain) : (∃ s, r = .symbol s) ∨ r.isWordy := by
  unfold isPlain at hr
  split at hr
  · exact .inl ⟨_, rfl⟩
  · exact .inr hr

theorem stopsAt_of_isPlain {r : Rule} (hr : r.isPlain) (hd : isSeparator d) :
    StopsAt d r.length := by
  rcases isPlain_cases hr with ⟨s, rfl⟩ | hwordy
  · exact stopsAt_separator (by simp [all, Symbol.mem_all]) hd (by simp) (by simp)
  · exact stopsAt_of_isWordy hwordy (outside_of_isSeparator hd)

theorem length_le {r : Rule} (hr : r.isPlain) (cs : List Char) : r.length cs ≤ cs.length := by
  have hle := stopsAt_of_isPlain hr (d := ' ') (by decide) cs []
  rwa [local_length r cs _ hle]

/-- No plain token begins with a separator. -/
theorem length_separator_cons {r : Rule} (hr : r.isPlain) {c : Char} (hc : isSeparator c)
    (cs : List Char) : r.length (c :: cs) = 0 :=
  Nat.le_zero.1 (stopsAt_of_isPlain hr hc [] cs)

/-- Before two slashes a plain token is at most one of them. -/
theorem length_slashes_le {r : Rule} (hr : r.isPlain) (cs : List Char) :
    r.length ('/' :: '/' :: cs) ≤ 1 := by
  rcases isPlain_cases hr with ⟨s, rfl⟩ | hwordy
  · cases s <;> simp [length, spellingLength, Symbol.text]
  · have hzero := stopsAt_of_isWordy hwordy outside_slash [] ('/' :: cs)
    exact hzero.trans (Nat.zero_le 1)

end Rule

/-! ### Plain tokens -/

/-- Whether a token is written as it stands. -/
def Token.isPlain : Token → Bool
  | .string _ | .hexString _ | .unicodeString _ | .error => false
  | _ => true

namespace Content

variable {c : Char} {cs : List Char} {t : Token} {n : Nat}

theorem take_spellingLength {text cs : List Char} (h : 0 < Rule.spellingLength text cs) :
    cs.take (Rule.spellingLength text cs) = text := by
  unfold Rule.spellingLength at h ⊢
  split
  · rename_i hbegins
    exact (List.prefix_iff_eq_take.1 (List.isPrefixOf_iff_prefix.1 hbegins)).symm
  · rename_i hbegins
    rw [if_neg hbegins] at h
    exact absurd h (Nat.lt_irrefl 0)

theorem ofScan_ne_plain {α : Type} {token : α → Token} (htoken : ∀ x, (token x).isPlain = false)
    (result : Except LexFault α) (ht : t.isPlain) : ofScan token result ≠ .token t := by
  rcases result with f | x
  · simp [ofScan]
  · rintro h
    obtain rfl : token x = t := by simpa [ofScan] using h
    rw [htoken x] at ht
    exact absurd ht (by decide)

theorem ofString_ne_plain (kind : StringKind) (quote : Char) (body : List Char) (ht : t.isPlain) :
    (ofString kind quote body).1 ≠ .token t := by
  cases kind <;> exact ofScan_ne_plain (fun _ => rfl) _ ht

/-- A plain token is the lexeme of a plain rule, and its text is that lexeme. -/
theorem plain_of_first (h : first c cs = (.token t, n)) (ht : t.isPlain) :
    t.text.toList = (c :: cs).take n
      ∧ ∃ r : Rule, r.isPlain ∧ Rule.longest (c :: cs) = some (r, n) := by
  unfold first at h
  split at h
  · rename_i r m hlongest
    obtain ⟨hm, hpos⟩ := Rule.length_of_longest hlongest
    rw [hm] at hpos
    cases r with
    | blank | lineComment => simp [ofRule] at h
    | keyword k =>
      obtain ⟨rfl, rfl⟩ : Token.keyword k = t ∧ m = n := by simpa [ofRule] using h
      refine ⟨?_, _, rfl, hlongest⟩
      rw [hm]
      exact (take_spellingLength hpos).symm
    | symbol s =>
      obtain ⟨rfl, rfl⟩ : Token.symbol s = t ∧ m = n := by simpa [ofRule] using h
      refine ⟨?_, _, rfl, hlongest⟩
      rw [hm]
      exact (take_spellingLength hpos).symm
    | elementaryType =>
      obtain ⟨rfl, rfl⟩ : Token.elementaryType (String.ofList ((c :: cs).take m)) = t ∧ m = n := by
        simpa [ofRule] using h
      exact ⟨String.toList_ofList, _, rfl, hlongest⟩
    | identifier =>
      obtain ⟨rfl, rfl⟩ : Token.identifier (String.ofList ((c :: cs).take m)) = t ∧ m = n := by
        simpa [ofRule] using h
      exact ⟨String.toList_ofList, _, rfl, hlongest⟩
    | decimalNumber =>
      obtain ⟨rfl, rfl⟩ : Token.decimalNumber (String.ofList ((c :: cs).take m)) = t ∧ m = n := by
        simpa [ofRule] using h
      exact ⟨String.toList_ofList, _, rfl, hlongest⟩
    | hexNumber =>
      obtain ⟨rfl, rfl⟩ : Token.hexNumber (String.ofList ((c :: cs).take m)) = t ∧ m = n := by
        simpa [ofRule] using h
      exact ⟨String.toList_ofList, _, rfl, hlongest⟩
    | openString kind quote =>
      exact absurd (congrArg Prod.fst h) (ofString_ne_plain kind quote _ ht)
    | openComment =>
      simp only [ofRule] at h
      split at h <;> simp at h
  · simp at h

theorem ofRule_plain {r : Rule} (hr : r.isPlain) (n : Nat) (cs : List Char) :
    (ofRule r n cs).2 = n := by
  cases r with
  | openString | openComment => simp [Rule.isPlain, Rule.isWordy] at hr
  | _ => rfl

theorem not_isSeparator_of_first (h : first c cs = (.token t, n)) (ht : t.isPlain) :
    Rule.isSeparator c = false := by
  obtain ⟨-, r, hr, hlongest⟩ := plain_of_first h ht
  obtain ⟨hlength, hpos⟩ := Rule.length_of_longest hlongest
  rw [Bool.eq_false_iff]
  intro hc
  have hzero := Rule.length_separator_cons hr hc cs
  omega

/-- A text that is a plain token by itself is that token before a separator. -/
theorem first_separated {d : Char} (hd : Rule.isSeparator d) (b : List Char)
    (h : first c cs = (.token t, cs.length + 1)) (ht : t.isPlain) :
    first c (cs ++ d :: b) = (.token t, cs.length + 1) := by
  obtain ⟨-, r, hr, hlongest⟩ := plain_of_first h ht
  obtain ⟨hlength, hpos⟩ := Rule.length_of_longest hlongest
  have hc := not_isSeparator_of_first h ht
  have hslashes : ¬ ['/', '/'] <+: c :: cs := by
    rintro ⟨rest, hrest⟩
    have hle := Rule.length_slashes_le hr rest
    have hcs := congrArg List.length hrest
    rw [← hrest] at hlength
    simp only [List.cons_append, List.nil_append, List.length_cons] at hcs hlength
    omega
  have hshort : ∀ r' ∈ Rule.all, r'.length (c :: cs ++ d :: b) ≤ (c :: cs).length := by
    intro r' hr'
    by_cases hblank : r' = .blank
    · subst hblank
      simp [Rule.length, Rule.runLength, hc]
    by_cases hcomment : r' = .lineComment
    · subst hcomment
      have hd' : d ∉ ['/', '/'] := by
        intro hmem
        obtain rfl : d = '/' := by simpa using hmem
        exact absurd hd (by decide)
      have hnot : Rule.spellingLength ['/', '/'] (c :: cs ++ d :: b) = 0 := by
        rw [← Rule.local_spellingLength _ (c :: cs) _ (Rule.stopsAt_spellingLength hd' _ b)]
        simp only [Rule.spellingLength, List.isPrefixOf_iff_prefix]
        rw [if_neg hslashes]
      simp only [Rule.length, hnot]
      exact Nat.zero_le _
    · exact Rule.stopsAt_separator hr' hd hblank hcomment (c :: cs) b
  have hsame : Rule.longest (c :: cs) = Rule.longest (c :: cs ++ d :: b) :=
    Rule.longest_append (Rule.chosenLength_longest_le hshort)
  refine (first_append ?_).symm.trans h
  rw [hlongest, List.cons_append] at hsame
  rw [first, ← hsame]
  exact (ofRule_plain hr _ _).le

/-- One separator before a text that does not begin with another. -/
theorem first_separator {d : Char} (hd : Rule.isSeparator d)
    (hc : Rule.isSeparator c = false) : first d (c :: cs) = (.extra, 1) := by
  have hblank : Rule.length .blank (d :: c :: cs) = 1 := by
    simp [Rule.length, Rule.runLength, hd, hc]
  have hchosen : Rule.longest (d :: c :: cs) = some (.blank, 1) := by
    have hfirst : Rule.better (d :: c :: cs) none .blank = some (.blank, 1) := by
      simp [Rule.better, hblank]
    have hall : Rule.all = .blank :: Rule.all.tail := rfl
    rw [Rule.longest, hall, List.foldl_cons, hfirst]
    refine Rule.foldl_better_eq fun r hr => ?_
    by_cases hr' : r = .blank
    · rw [hr', hblank]
      exact le_rfl
    by_cases hcomment : r = .lineComment
    · have hne : d ≠ '/' := by
        rintro rfl
        exact absurd hd (by decide)
      simp [hcomment, Rule.length, Rule.spellingLength, hne.symm]
    · have hzero := Rule.stopsAt_separator (List.mem_of_mem_tail hr) hd hr' hcomment [] (c :: cs)
      exact hzero.trans (Nat.zero_le _)
  rw [first, hchosen]
  rfl

end Content

/-! ### Tokens written with blanks -/

/-- A token that is read back from its text. -/
def Token.Lexes (t : Token) : Prop := (tokenize t.text).tokens.map Lexeme.token = [t]

theorem Token.lexes_iff {t : Token} :
    t.Lexes ↔ (scan t.text.toList).tokens.map Lexeme.token = [t] := by
  rw [← tokenize_ofList, String.ofList_toList, Lexes]

/-- Tokens with one blank between each two of them. -/
def spaced (ts : List Token) : String := " ".intercalate (ts.map Token.text)

/-- The plain tokens of a text are no longer than it. -/
theorem length_text_le (here : Location) (cs : List Char) : ∀ s ∈ segments here cs, ∀ t : Token,
    s.content = .token t → t.isPlain → t.text.toList.length ≤ cs.length := by
  induction here, cs using segments_induction with
  | hnil here => simp [segments_nil]
  | hcons here c cs ih =>
    rw [segments_cons, List.forall_mem_cons]
    refine ⟨fun t ht hplain => ?_, fun s hs t ht hplain => ?_⟩
    · have hfirst : Content.first c cs = (.token t, (Content.first c cs).2) := Prod.ext ht rfl
      rw [(Content.plain_of_first hfirst hplain).1]
      exact (List.take_sublist _ _).length_le
    · have hle := ih s hs t ht hplain
      exact hle.trans (List.drop_sublist _ _).length_le

theorem token?_eq_plain {content : Content} {t : Token} (h : content.token? = some t)
    (ht : t.isPlain) : content = .token t := by
  cases content with
  | extra => simp [Content.token?] at h
  | token u => simpa [Content.token?] using h
  | fault f =>
    obtain rfl : Token.error = t := by simpa [Content.token?] using h
    exact absurd ht (by decide)

/-- A plain token that is read back from its text is all of it. -/
theorem Token.Lexes.first {t : Token} (h : t.Lexes) (ht : t.isPlain) :
    ∃ c cs, t.text.toList = c :: cs ∧ Content.first c cs = (.token t, cs.length + 1) := by
  have hcontents : ((segments .origin t.text.toList).map Segment.content).filterMap Content.token?
      = [t] := by
    rw [← Segment.map_token_filterMap]
    exact h
  rcases htext : t.text.toList with _ | ⟨c, cs⟩
  · rw [htext, segments_nil] at hcontents
    simp at hcontents
  refine ⟨c, cs, rfl, ?_⟩
  rw [htext, segments_cons, List.map_cons] at hcontents
  dsimp only at hcontents
  rcases hcontent : (Content.first c cs).1.token? with _ | u
  · -- What follows a blank is shorter than the text.
    rw [List.filterMap_cons_none hcontent] at hcontents
    have hmem : t ∈ [t] := List.mem_singleton_self t
    rw [← hcontents, List.mem_filterMap] at hmem
    obtain ⟨content, hmem, htoken⟩ := hmem
    obtain ⟨s, hs, rfl⟩ := List.mem_map.1 hmem
    have hle := length_text_le _ _ s hs t (token?_eq_plain htoken ht) ht
    have hpos := Content.first_pos c cs
    rw [htext, List.length_drop, List.length_cons] at hle
    omega
  · rw [List.filterMap_cons_some hcontent] at hcontents
    obtain ⟨rfl, -⟩ := List.cons.inj hcontents
    have hfirst : Content.first c cs = (.token u, (Content.first c cs).2) :=
      Prod.ext (token?_eq_plain hcontent ht) rfl
    obtain ⟨htake, r, hr, hlongest⟩ := Content.plain_of_first hfirst ht
    have hle := Rule.length_le hr (c :: cs)
    rw [← (Rule.length_of_longest hlongest).1] at hle
    have hlength := congrArg List.length htake
    rw [htext, List.length_take, List.length_cons] at hlength
    rw [List.length_cons] at hle
    rw [hfirst, Prod.mk.injEq]
    exact ⟨rfl, by omega⟩

theorem toList_spaced_cons (t u : Token) (us : List Token) :
    (spaced (t :: u :: us)).toList = t.text.toList ++ ' ' :: (spaced (u :: us)).toList := by
  simp only [spaced, List.map_cons, String.intercalate_cons_cons, String.toList_append,
    List.append_assoc]
  rfl

/-- A token whose text is that token alone and before a blank. -/
def Token.Stands (t : Token) : Prop :=
  ∃ c cs, t.text.toList = c :: cs ∧ Rule.isSeparator c = false
    ∧ Content.first c cs = (.token t, cs.length + 1)
    ∧ ∀ b, Content.first c (cs ++ ' ' :: b) = (.token t, cs.length + 1)

theorem Token.Lexes.stands {t : Token} (h : t.Lexes) (ht : t.isPlain) : t.Stands := by
  obtain ⟨c, cs, htext, hfirst⟩ := h.first ht
  exact ⟨c, cs, htext, Content.not_isSeparator_of_first hfirst ht, hfirst,
    fun b => Content.first_separated (by decide) b hfirst ht⟩

/-- Tokens with single blanks between them are cut where the blanks stand. -/
theorem map_content_spaced {ts : List Token} (h : ∀ t ∈ ts, t.Stands)
    (here : Location) : (segments here (spaced ts).toList).map Segment.content
      = (ts.map Content.token).intersperse .extra := by
  induction ts generalizing here with
  | nil =>
    have hnil : (spaced []).toList = [] := by simp [spaced]
    rw [hnil, segments_nil]
    rfl
  | cons t ts ih =>
    rw [List.forall_mem_cons] at h
    obtain ⟨⟨c, cs, htext, -, hfirst, hbefore⟩, hts⟩ := h
    rcases ts with _ | ⟨u, us⟩
    · have hone : (spaced [t]).toList = c :: cs := by simp [spaced, htext]
      rw [hone, segments_cons, hfirst]
      simp [segments_nil]
    · obtain ⟨c', cs', htext', hc', -⟩ := hts u List.mem_cons_self
      obtain ⟨rest, hrest⟩ : ∃ rest, (spaced (u :: us)).toList = c' :: rest := by
        rcases us with _ | ⟨v, us⟩
        · exact ⟨cs', by simp [spaced, htext']⟩
        · exact ⟨_, by rw [toList_spaced_cons, htext', List.cons_append]⟩
      rw [hrest] at ih
      rw [toList_spaced_cons, htext, hrest, List.cons_append, segments_cons, hbefore]
      have hdrop : (c :: (cs ++ ' ' :: c' :: rest)).drop (cs.length + 1) = ' ' :: c' :: rest := by
        rw [List.drop_succ_cons, List.drop_left]
      dsimp only
      rw [hdrop, segments_cons, Content.first_separator (by decide) hc']
      simp only [List.map_cons, List.drop_succ_cons, List.drop_zero, ih hts]
      rfl

theorem filterMap_intersperse_extra (ts : List Token) :
    ((ts.map Content.token).intersperse .extra).filterMap Content.token? = ts := by
  induction ts with
  | nil => rfl
  | cons t ts ih =>
    rcases ts with _ | ⟨u, us⟩
    · rfl
    · rw [List.map_cons, List.map_cons, List.intersperse_cons_cons, ← List.map_cons]
      exact congrArg (t :: ·) ih

theorem ne_fault_of_mem_intersperse {ts : List Token} {content : Content}
    (h : content ∈ (ts.map Content.token).intersperse .extra) (f : LexFault) :
    content ≠ .fault f := by
  induction ts with
  | nil => simp at h
  | cons t ts ih =>
    rcases ts with _ | ⟨u, us⟩
    · obtain rfl : content = .token t := by simpa using h
      simp
    · rw [List.map_cons, List.map_cons, List.intersperse_cons_cons, ← List.map_cons] at h
      rcases List.mem_cons.1 h with rfl | h
      · simp
      rcases List.mem_cons.1 h with rfl | h
      · simp
      · exact ih h

/-- Tokens that are written with single blanks between them are read back, without errors. -/
theorem tokenize_spaced_of_stands {ts : List Token} (h : ∀ t ∈ ts, t.Stands) :
    (tokenize (spaced ts)).tokens.map Lexeme.token = ts ∧ (tokenize (spaced ts)).errors = [] := by
  have hcontents := map_content_spaced h .origin
  constructor
  · rw [tokenize, Segment.map_token_filterMap, hcontents, filterMap_intersperse_extra]
  · refine List.filterMap_eq_nil_iff.2 fun s hs => ?_
    have hmem := List.mem_map_of_mem (f := Segment.content) hs
    rw [hcontents] at hmem
    unfold Segment.error?
    split
    · rename_i f hf
      exact absurd hf (ne_fault_of_mem_intersperse hmem f)
    · rfl

/-- So are plain tokens that are read back one by one. -/
theorem tokenize_spaced {ts : List Token} (h : ∀ t ∈ ts, t.isPlain ∧ t.Lexes) :
    (tokenize (spaced ts)).tokens.map Lexeme.token = ts ∧ (tokenize (spaced ts)).errors = [] :=
  tokenize_spaced_of_stands fun t ht => (h t ht).2.stands (h t ht).1

end SolidityFrontend
