import SolidityFrontend.Proofs.JoinedStrings

/-!
# Tokens are read back from what they print

A word, a number or a symbol prints as the lexeme that it was read from (`Begins.plain`), and the
longest lexeme of a text is the longest of itself, so that each of these tokens is read back from
what it prints. A hex string may print otherwise than it was written: the separators between its
digits are gone. Its digits still come in pairs, and the quotes around them are closed whatever
stands behind them (`first_hexString`). So the tokens of a source that has no other strings and no
faults are the tokens of what they print, with single blanks between them.
-/

namespace SolidityFrontend

open Text Rule

variable {cs w : List Char} {t : Token}

/-! ### A lexeme alone -/

/-- The longest lexeme at the start of a text is the longest of itself. -/
theorem Rule.Longest.alone {r : Rule} (h : Longest cs r w) : Longest w r w :=
  { h with
    start := List.prefix_refl w
    longest := fun _ _ _ _ hstart => hstart.length_le }

theorem Begins.plain (h : Begins cs (.token t) w) (ht : t.isPlain) :
    t.text.toList = w ∧ Begins w (.token t) w := by
  generalize hcontent : Content.token t = content at h
  cases h with
  | blank | lineComment | comment | openComment | invalid => simp at hcontent
  | keyword h =>
    obtain rfl := Content.token.inj hcontent
    exact ⟨(mem_fixedText.1 h.lexeme).symm, .keyword h.alone⟩
  | symbol h =>
    obtain rfl := Content.token.inj hcontent
    exact ⟨(mem_fixedText.1 h.lexeme).symm, .symbol h.alone⟩
  | elementaryType h =>
    obtain rfl := Content.token.inj hcontent
    exact ⟨String.toList_ofList, .elementaryType h.alone⟩
  | identifier h =>
    obtain rfl := Content.token.inj hcontent
    exact ⟨String.toList_ofList, .identifier h.alone⟩
  | decimalNumber h =>
    obtain rfl := Content.token.inj hcontent
    exact ⟨String.toList_ofList, .decimalNumber h.alone⟩
  | hexNumber h =>
    obtain rfl := Content.token.inj hcontent
    exact ⟨String.toList_ofList, .hexNumber h.alone⟩
  | string | unicodeString | hexString =>
    exact absurd hcontent.symm (Content.ofScan_ne_plain (fun _ => rfl) _ ht)

/-! ### Hex strings -/

/-- Digits are the body of a hex string, up to the quote. -/
theorem Literal.hexBody_of_digits {digits : List Char} (h : ∀ c ∈ digits, isHexDigit c)
    (rest : List Char) :
    hexBody '"' (digits ++ '"' :: rest) = ⟨digits.length + 1, true, digits, none⟩ := by
  induction digits with
  | nil => simp [hexBody]
  | cons c digits ih =>
    rw [List.forall_mem_cons] at h
    have hne : ∀ d, isHexDigit d = false → c ≠ d := by
      rintro d hd rfl
      rw [hd] at h
      exact absurd h.1 (by decide)
    have hbreak : ¬ (c = '\n' ∨ c = '\r') := not_or.2 ⟨hne _ (by decide), hne _ (by decide)⟩
    rw [List.cons_append, hexBody, if_neg (hne _ (by decide)), if_neg hbreak, ih h.2]
    simp [hne '_' (by decide), h.1]

/-- The opener of a hex string is the longest lexeme of a text that begins with it. -/
theorem longest_hexOpener (rest : List Char) :
    Longest ('h' :: 'e' :: 'x' :: '"' :: rest) (.openString .hex '"') ['h', 'e', 'x', '"'] := by
  have hrule : openString .hex '"' ∈ all := by decide
  have hlexeme : ['h', 'e', 'x', '"'] ∈ (openString .hex '"').lexemes := by
    exact mem_fixedText.2 (by decide)
  refine ⟨hrule, ⟨rest, rfl⟩, hlexeme, fun r hr w hw hstart => ?_, fun r hr hw => ?_⟩
  · by_contra hlonger
    obtain ⟨u, rfl⟩ : ['h', 'e', 'x', '"'] <+: w :=
      List.prefix_of_prefix_length_le ⟨rest, rfl⟩ hstart (by omega)
    -- A lexeme with a quote in it opens a string.
    have hsort : r.sort = 5 := (sortOf_of_mem hr hw).symm
    cases r with
    | openString kind quote =>
      have htext := mem_fixedText.1 hw
      rcases openString_cases hr with ⟨rfl | rfl | rfl, rfl | rfl⟩ <;>
        simp [StringKind.opener] at htext
      subst htext
      exact hlonger le_rfl
    | _ => simp [sort] at hsort
  · rcases eq_or_priority_lt hr hrule hw hlexeme with heq | ⟨-, hlt⟩ | ⟨heq, -⟩
    · exact .inl heq
    · exact .inr hlt
    · simp at heq

/-- Pairs of digits in quotes are a hex string, whatever stands behind it. -/
theorem first_hexString {digits : String} (hdigits : ∀ c ∈ digits.toList, isHexDigit c)
    (heven : digits.toList.length % 2 = 0) (rest : List Char) :
    Content.first 'h' ('e' :: 'x' :: '"' :: (digits.toList ++ '"' :: rest))
      = (.token (.hexString digits), digits.toList.length + 5) := by
  have hscan : Literal.scanHexString '"' (digits.toList ++ '"' :: rest)
      = (digits.toList.length + 1, .ok digits) := by
    simp [Literal.scanHexString, Literal.hexBody_of_digits hdigits, heven]
  have hdrop : ('h' :: 'e' :: 'x' :: '"' :: (digits.toList ++ '"' :: rest)).drop 4
      = digits.toList ++ '"' :: rest := rfl
  rw [(longest_hexOpener _).first_eq, Content.ofRule, Content.ofString]
  simp only [List.length_cons, List.length_nil, hdrop, hscan, Content.ofScan, Prod.mk.injEq, true_and]
  omega

theorem Token.stands_hexString {digits : String} (hdigits : ∀ c ∈ digits.toList, isHexDigit c)
    (heven : digits.toList.length % 2 = 0) : (Token.hexString digits).Stands := by
  refine ⟨'h', 'e' :: 'x' :: '"' :: (digits.toList ++ ['"']), by simp [text], by decide, ?_,
    fun b => ?_⟩
  · rw [first_hexString hdigits heven]
    simp
  · have happend : 'e' :: 'x' :: '"' :: (digits.toList ++ ['"']) ++ ' ' :: b
        = 'e' :: 'x' :: '"' :: (digits.toList ++ '"' :: ' ' :: b) := by simp
    rw [happend, first_hexString hdigits heven]
    simp

/-! ### The tokens of a source -/

/-- Whether a token prints so that it can be read back. The bytes of a string may hold a quote, or
be no text at all. -/
def Token.isLegible : Token → Bool
  | .string _ | .unicodeString _ | .error => false
  | _ => true

theorem Begins.stands (h : Begins cs (.token t) w) (ht : t.isLegible) : t.Stands := by
  by_cases hplain : t.isPlain
  · obtain ⟨htext, halone⟩ := h.plain hplain
    rw [← htext] at halone
    exact (Token.lexes_of_begins halone).stands hplain
  · cases t with
    | hexString digits => exact Token.stands_hexString h.isHexString.isHexDigit h.even_digits
    | string | unicodeString | error => exact absurd ht Bool.false_ne_true
    | _ => exact absurd rfl hplain

/-- A token other than a string prints as it is written in the source. Where all strings of a source
are hex strings and nothing is faulty, its tokens are those of what they print. -/
theorem tokenize_printed (source : String) :
    (∀ l ∈ (tokenize source).tokens, l.token.isPlain → l.token.text = l.span.text source)
      ∧ ∀ ts, (tokenize source).tokens.map Lexeme.token = ts → (∀ t ∈ ts, t.isLegible) →
        (tokenize (spaced ts)).tokens.map Lexeme.token = ts
          ∧ (tokenize (spaced ts)).errors = [] := by
  constructor
  · intro l hl hplain
    have hne : l.token ≠ .error := by
      intro herror
      rw [herror] at hplain
      exact absurd hplain (by decide)
    obtain ⟨w, rest, hbegins, htext⟩ := begins_of_mem_tokens hl hne
    rw [htext, ← (hbegins.plain hplain).1, String.ofList_toList]
  · rintro ts rfl hlegible
    refine tokenize_spaced_of_stands fun t ht => ?_
    obtain ⟨l, hl, rfl⟩ := List.mem_map.1 ht
    have hne : l.token ≠ .error := by
      intro herror
      have hfalse := hlegible l.token ht
      rw [herror] at hfalse
      exact absurd hfalse (by decide)
    obtain ⟨w, rest, hbegins, -⟩ := begins_of_mem_tokens hl hne
    exact hbegins.stands (hlegible l.token ht)

/-- A hex string with a separator, which it does not print. -/
theorem tokenize_printed_hexString : ∃ ts,
    (tokenize "x+=hex\x2712_34\x27;").tokens.map Lexeme.token = ts
      ∧ ts.map Token.text = ["x", "+=", "hex\"1234\"", ";"]
      ∧ (tokenize (spaced ts)).tokens.map Lexeme.token = ts := by
  obtain ⟨htexts, hlegible⟩ :
      ((tokenize "x+=hex\x2712_34\x27;").tokens.map Lexeme.token).map Token.text
          = ["x", "+=", "hex\"1234\"", ";"]
        ∧ ∀ t ∈ (tokenize "x+=hex\x2712_34\x27;").tokens.map Lexeme.token, t.isLegible := by
    rw [tokenize_ofList]
    decide
  exact ⟨_, rfl, htexts, ((tokenize_printed _).2 _ rfl hlegible).1⟩

end SolidityFrontend
