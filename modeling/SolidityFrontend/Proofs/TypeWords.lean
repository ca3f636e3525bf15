import SolidityFrontend.Proofs.ReadingBackType
import SolidityFrontend.Proofs.Respelling

/-!
# The words that name types

The names of elementary types are described twice: as lexemes with listed widths, and by a base word
with a number behind it. The two differ in the widths of fixed point numbers alone, which the lexeme
leaves open and the number has to fit sixteen bits. So a word is a token of an elementary type where
it names one, and where a width is too large for that (`ElementaryType.mem_elementaryNames_iff`).
What a word names is named by its spelling too.
-/

namespace SolidityFrontend

open Computability Text Rule SolidityFrontend.Parser

/-! ### Numbers and their digits -/

/-- Digits without a leading zero are those of the number they denote. -/
theorem toDigits_ofDigits {cs : List Char} (h : ∀ c ∈ cs, isDigit c) (hne : cs ≠ [])
    (hhead : cs.head? ≠ some '0') : Nat.toDigits 10 (ofDigits 10 cs) = cs := by
  induction cs using List.reverseRecOn with
  | nil => exact absurd rfl hne
  | append_singleton cs c ih =>
    rw [List.forall_mem_append, List.forall_mem_singleton] at h
    obtain ⟨n, hn, rfl⟩ := exists_digitChar h.2
    rw [ofDigits_concat, digitValue_digitChar (by omega)]
    rcases List.eq_nil_or_concat cs with rfl | ⟨ds, d, rfl⟩
    · rw [List.nil_append, ofDigits, List.foldl_nil, Nat.zero_mul, Nat.zero_add,
        Nat.toDigits_of_lt_base hn]
    · rw [List.concat_eq_append] at h hhead ih ⊢
      have hne' : ds ++ [d] ≠ [] := by simp
      rw [List.head?_append_of_ne_nil _ hne'] at hhead
      have hdigits := ih h.1 hne' hhead
      have hpos : 0 < ofDigits 10 (ds ++ [d]) := by
        refine Nat.pos_of_ne_zero fun hzero => ?_
        rw [hzero] at hdigits
        exact hhead (by rw [← hdigits]; decide)
      rw [Nat.mul_comm, ← Nat.toDigits_append_toDigits (by omega) hpos hn, hdigits,
        Nat.toDigits_of_lt_base hn]

namespace ElementaryType

theorem plainNumber?_eq_some {cs : List Char} {n : Nat} (h : plainNumber? cs = some n) :
    cs = (decimal n).toList := by
  rw [plainNumber?] at h
  split at h
  · simp at h
  rename_i hplain
  simp only [Bool.or_eq_true, List.isEmpty_iff, decide_eq_true_eq, Bool.not_eq_true',
    Bool.not_eq_false, not_or] at hplain
  rw [← Option.some.inj h, decimal, String.toList_ofList,
    toDigits_ofDigits (List.all_eq_true.1 hplain.2) hplain.1.1 hplain.1.2]

/-- A run of digits is a number of sixteen bits where its value is. -/
theorem shortNumber?_of_digits {cs : List Char} (h : ∀ c ∈ cs, isDigit c) (hne : cs ≠ []) :
    shortNumber? cs = (some (ofDigits 10 cs)).filter (· < 0x10000) := by
  rw [shortNumber?, if_neg]
  rw [List.isEmpty_eq_false_iff.2 hne, List.all_eq_true.2 h]
  decide

theorem shortNumber?_eq_some {cs : List Char} {n : Nat} (h : shortNumber? cs = some n) :
    cs ≠ [] ∧ (∀ c ∈ cs, isDigit c) ∧ n < 0x10000 := by
  rw [shortNumber?] at h
  split at h
  · simp at h
  rename_i hdigits
  simp only [Bool.or_eq_true, List.isEmpty_iff, Bool.not_eq_true', Bool.not_eq_false,
    not_or] at hdigits
  rw [Option.filter_eq_some_iff] at h
  exact ⟨hdigits.1, List.all_eq_true.1 hdigits.2, by simpa using h.2⟩

theorem strip?_eq_some {start : String} {cs rest : List Char} (h : strip? start cs = some rest) :
    cs = start.toList ++ rest := by
  rw [strip?] at h
  split at h
  · rename_i hstart
    obtain ⟨us, rfl⟩ := List.isPrefixOf_iff_prefix.1 hstart
    rw [← Option.some.inj h, ← String.length_toList, List.drop_left]
  · simp at h

/-! ### The widths of fixed point numbers -/

/-- Two runs of digits with an `x` between them. -/
structure Widths (total decimals cs : List Char) : Prop where
  text : cs = total ++ 'x' :: decimals
  total_ne : total ≠ []
  decimals_ne : decimals ≠ []
  total_digits : ∀ c ∈ total, isDigit c
  decimals_digits : ∀ c ∈ decimals, isDigit c

theorem mem_digits_iff {cs : List Char} :
    cs ∈ charOf isDigit * (charOf isDigit)∗ ↔ cs ≠ [] ∧ ∀ c ∈ cs, isDigit c := by
  rw [mem_charOf_mul_star]
  constructor
  · rintro ⟨c, u, rfl, hc, hu⟩
    exact ⟨by simp, List.forall_mem_cons.2 ⟨hc, hu⟩⟩
  · rintro ⟨hne, h⟩
    obtain ⟨c, u, rfl⟩ := List.exists_cons_of_ne_nil hne
    exact ⟨c, u, rfl, List.forall_mem_cons.1 h⟩

theorem mem_fixedWidths {cs : List Char} :
    cs ∈ fixedWidths ↔ ∃ total decimals, Widths total decimals cs := by
  constructor
  · rintro ⟨total, htotal, _, ⟨_, ⟨c, hc, rfl⟩, decimals, hdecimals, rfl⟩, rfl⟩
    obtain rfl : c = 'x' := by simpa using hc
    obtain ⟨hne, hdigits⟩ := mem_digits_iff.1 htotal
    obtain ⟨hne', hdigits'⟩ := mem_digits_iff.1 hdecimals
    exact ⟨total, decimals, rfl, hne, hne', hdigits, hdigits'⟩
  · rintro ⟨total, decimals, rfl, hne, hne', hdigits, hdigits'⟩
    exact ⟨total, mem_digits_iff.2 ⟨hne, hdigits⟩, _,
      ⟨['x'], ⟨'x', rfl, rfl⟩, decimals, mem_digits_iff.2 ⟨hne', hdigits'⟩, rfl⟩, rfl⟩

theorem Widths.widths? {total decimals cs : List Char} (h : Widths total decimals cs) :
    widths? cs = do
      return (← (some (ofDigits 10 total)).filter (· < 0x10000),
        ← (some (ofDigits 10 decimals)).filter (· < 0x10000)) := by
  rw [h.text, widths?_append h.total_digits, shortNumber?_of_digits h.total_digits h.total_ne,
    shortNumber?_of_digits h.decimals_digits h.decimals_ne]

theorem widths?_eq_some {cs : List Char} {m n : Nat} (h : ElementaryType.widths? cs = some (m, n)) :
    cs ∈ fixedWidths ∧ m < 0x10000 ∧ n < 0x10000 := by
  rw [ElementaryType.widths?, List.span_eq_takeWhile_dropWhile] at h
  have happend : cs.takeWhile (· != 'x') ++ cs.dropWhile (· != 'x') = cs :=
    List.takeWhile_append_dropWhile
  have hx := List.head?_dropWhile_not (· != 'x') cs
  rcases hdrop : cs.dropWhile (· != 'x') with _ | ⟨c, decimals⟩
  · simp [hdrop] at h
  rw [hdrop] at h happend hx
  obtain ⟨m', hm, h⟩ := Option.bind_eq_some_iff.1 h
  obtain ⟨n', hn, h⟩ := Option.bind_eq_some_iff.1 h
  obtain ⟨rfl, rfl⟩ := Prod.mk.inj (Option.some.inj h)
  obtain ⟨hne, hdigits, hm⟩ := shortNumber?_eq_some hm
  obtain ⟨hne', hdigits', hn⟩ := shortNumber?_eq_some hn
  obtain rfl : c = 'x' := by simpa using hx
  exact ⟨mem_fixedWidths.2 ⟨_, _, happend.symm, hne, hne', hdigits, hdigits'⟩, hm, hn⟩

/-- A name of a fixed point number with a width that does not fit sixteen bits. -/
def Oversized (cs : List Char) : Prop :=
  ∃ sign total decimals rest, sign ∈ ["", "u"] ∧ cs = sign.toList ++ ("fixed".toList ++ rest)
    ∧ Widths total decimals rest
    ∧ (0x10000 ≤ ofDigits 10 total ∨ 0x10000 ≤ ofDigits 10 decimals)

/-! ### Words and names -/

theorem fixed_mem (sign : String) {rest : List Char} (hsign : sign ∈ ["", "u"])
    (hrest : rest ∈ perhapsText fixedWidths) :
    sign.toList ++ ("fixed".toList ++ rest) ∈ elementaryNames := by
  rw [elementaryNames_eq]
  refine .inl ⟨sign.toList, ?_, _, ⟨_, rfl, rest, hrest, rfl⟩, rfl⟩
  rcases List.mem_pair.1 hsign with rfl | rfl
  · exact .inl rfl
  · exact .inr rfl

/-- An elementary type is named by a listed word or a fixed point number. -/
theorem mem_elementaryNames {cs : List Char} :
    cs ∈ elementaryNames ↔ cs ∈ elementaryWords ∨ ∃ sign rest, sign ∈ ["", "u"]
      ∧ rest ∈ perhapsText fixedWidths ∧ cs = sign.toList ++ ("fixed".toList ++ rest) := by
  constructor
  · intro h
    rw [elementaryNames_eq] at h
    rcases h with ⟨sign, hsign, _, ⟨_, rfl, rest, hrest, rfl⟩, rfl⟩ | hword
    · rcases hsign with rfl | rfl
      · exact .inr ⟨"", rest, by simp, hrest, rfl⟩
      · exact .inr ⟨"u", rest, by simp, hrest, rfl⟩
    · exact .inl (mem_anyText.1 hword)
  · rintro (hword | ⟨sign, rest, hsign, hrest, rfl⟩)
    · exact elementaryNames_eq ▸ .inr (mem_anyText.2 hword)
    · exact fixed_mem sign hsign hrest

theorem named_proper : ∀ p ∈ named, p.1.toList ∈ elementaryNames ∧ p.2.IsProper := by
  have hname : ∀ p ∈ named, p.1.toList ∈ elementaryWords ∨ p.1 = "fixed" ∨ p.1 = "ufixed" := by
    rw [elementaryWords_eq]
    decide
  have hproper : ∀ p ∈ named, p.2.IsProper := by simp [named, IsProper]
  refine fun p hp => ⟨mem_elementaryNames.2 ((hname p hp).imp_right ?_), hproper p hp⟩
  rintro (h | h)
  · exact ⟨"", [], by simp, .inl rfl, by rw [h]; rfl⟩
  · exact ⟨"u", [], by simp, .inl rfl, by rw [h]; rfl⟩

/-- A base word and a number that a kind of type has are the name of that type. -/
theorem mem_of_number {base : String} {cs rest : List Char} {n : Nat} {k : ElementaryType}
    (hrest : strip? base cs = some rest) (hn : plainNumber? rest = some n)
    (htext : k.text = base ++ decimal n) (hk : k.IsProper) (hne : k ≠ .addressPayable) :
    cs ∈ elementaryNames ∧ k.IsProper := by
  have hname := (spelt hk hne).1
  rw [htext, String.toList_append, ← plainNumber?_eq_some hn, ← strip?_eq_some hrest] at hname
  exact ⟨hname, hk⟩

theorem ofBase?_eq_some {cs : List Char} {k : ElementaryType} (h : ofBase? cs = some k) :
    cs ∈ elementaryNames ∧ k.IsProper := by
  rw [ofBase?] at h
  split at h
  case h_1 rest hrest =>
    obtain ⟨n, hn, rfl⟩ := Option.map_eq_some_iff.1 h
    obtain ⟨hplain, hn⟩ := Option.filter_eq_some_iff.1 hn
    exact mem_of_number hrest hplain rfl (by simpa [IsProper] using hn) (by simp)
  split at h
  case h_1 rest hrest =>
    obtain ⟨n, hn, rfl⟩ := Option.map_eq_some_iff.1 h
    obtain ⟨hplain, hn⟩ := Option.filter_eq_some_iff.1 hn
    exact mem_of_number hrest hplain rfl (by simpa [IsProper, and_assoc] using hn) (by simp)
  split at h
  case h_1 rest hrest =>
    obtain ⟨n, hn, rfl⟩ := Option.map_eq_some_iff.1 h
    obtain ⟨hplain, hn⟩ := Option.filter_eq_some_iff.1 hn
    exact mem_of_number hrest hplain rfl (by simpa [IsProper, and_assoc] using hn) (by simp)
  split at h
  case h_1 rest hrest =>
    obtain ⟨⟨m, n⟩, hwidths, rfl⟩ := Option.map_eq_some_iff.1 h
    obtain ⟨hrest', hm, hn⟩ := widths?_eq_some hwidths
    refine ⟨?_, by simpa [IsProper] using ⟨hm, hn⟩⟩
    exact strip?_eq_some hrest ▸ fixed_mem "u" (by simp) (.inr hrest')
  split at h
  case h_1 rest hrest =>
    obtain ⟨⟨m, n⟩, hwidths, rfl⟩ := Option.map_eq_some_iff.1 h
    obtain ⟨hrest', hm, hn⟩ := widths?_eq_some hwidths
    refine ⟨?_, by simpa [IsProper] using ⟨hm, hn⟩⟩
    exact strip?_eq_some hrest ▸ fixed_mem "" (by simp) (.inr hrest')
  case h_2 => simp at h

/-- What a word names is a type that exists, and the word is one of the names. -/
theorem ofWord?_eq_some {word : String} {k : ElementaryType} (h : ofWord? word = some k) :
    word.toList ∈ elementaryNames ∧ k.IsProper := by
  rw [ofWord?] at h
  split at h
  case h_1 type hlookup =>
    obtain rfl := Option.some.inj h
    obtain ⟨l, r, hnamed, -⟩ := List.lookup_eq_some_iff.1 hlookup
    exact named_proper (word, type) (by rw [hnamed]; simp)
  case h_2 => exact ofBase?_eq_some h

/-- A fixed point number with widths is a type where both fit sixteen bits. -/
theorem ofWord?_fixed {word sign : String} {total decimals rest : List Char}
    (hsign : sign ∈ ["", "u"]) (hword : word.toList = sign.toList ++ ("fixed".toList ++ rest))
    (hrest : Widths total decimals rest) :
    (ofWord? word).isSome ↔ ofDigits 10 total < 0x10000 ∧ ofDigits 10 decimals < 0x10000 := by
  have hlength : 8 ≤ word.toList.length := by
    have htotal := List.length_pos_of_ne_nil hrest.total_ne
    have hdecimals := List.length_pos_of_ne_nil hrest.decimals_ne
    have hfixed : "fixed".toList.length = 5 := rfl
    rw [hword, hrest.text]
    simp only [List.length_append, List.length_cons]
    omega
  have hbase : (ofBase? word.toList).isSome = (ElementaryType.widths? rest).isSome := by
    rw [hword]
    rcases List.mem_pair.1 hsign with rfl | rfl
    · exact (congrArg Option.isSome (ofBase?_fixed rest)).trans Option.isSome_map
    · exact (congrArg Option.isSome (ofBase?_ufixed rest)).trans Option.isSome_map
  rw [ofWord?, lookup_named_eq_none hlength, hbase, hrest.widths?]
  by_cases htotal : ofDigits 10 total < 0x10000 <;>
    by_cases hdecimals : ofDigits 10 decimals < 0x10000 <;>
      simp [Option.filter_some, htotal, hdecimals]

/-- The words without widths and those with a listed one name types. -/
theorem ofWord?_of_mem_elementaryWords {cs : List Char} (h : cs ∈ elementaryWords) :
    (ofWord? (String.ofList cs)).isSome := by
  have hplain : ∀ cs ∈ plainWords, (ofWord? (String.ofList cs)).isSome := by decide
  have htext (letters : List Char) (n : Nat) :
      String.ofList (letters ++ Nat.toDigits 10 n) = String.ofList letters ++ decimal n :=
    String.ofList_append
  rw [elementaryWords_eq, List.mem_append, List.mem_append, List.mem_append] at h
  rcases h with ((h | h) | h) | h
  · exact hplain cs h
  · obtain ⟨n, hn, rfl⟩ := List.mem_map.1 h
    have hproper : IsProper (.fixedBytes n) := mem_byteNumbers.1 hn
    exact htext _ n ▸ Option.isSome_of_eq_some (spelt hproper (by simp)).2
  · obtain ⟨n, hn, rfl⟩ := List.mem_map.1 h
    have hproper : IsProper (.int n) := mem_bitNumbers.1 hn
    exact htext _ n ▸ Option.isSome_of_eq_some (spelt hproper (by simp)).2
  · obtain ⟨n, hn, rfl⟩ := List.mem_map.1 h
    have hproper : IsProper (.uint n) := mem_bitNumbers.1 hn
    exact htext _ n ▸ Option.isSome_of_eq_some (spelt hproper (by simp)).2

/-- The names are the words of types, and those with widths that are too large. -/
theorem mem_elementaryNames_iff (word : String) :
    word.toList ∈ elementaryNames ↔ (ofWord? word).isSome ∨ Oversized word.toList := by
  constructor
  · intro h
    rcases mem_elementaryNames.1 h with hword | ⟨sign, rest, hsign, hrest, hword⟩
    · exact .inl (by simpa using ofWord?_of_mem_elementaryWords hword)
    · rcases hrest with rfl | hrest
      · refine .inl ?_
        rw [List.append_nil, ← String.toList_append, String.toList_inj] at hword
        rcases List.mem_pair.1 hsign with rfl | rfl <;> (rw [hword]; decide)
      · obtain ⟨total, decimals, hwidths⟩ := mem_fixedWidths.1 hrest
        by_cases hfits : ofDigits 10 total < 0x10000 ∧ ofDigits 10 decimals < 0x10000
        · exact .inl ((ofWord?_fixed hsign hword hwidths).2 hfits)
        · exact .inr ⟨sign, total, decimals, rest, hsign, hword, hwidths, by omega⟩
  · rintro (h | ⟨sign, total, decimals, rest, hsign, hword, hrest, -⟩)
    · obtain ⟨k, hk⟩ := Option.isSome_iff_exists.1 h
      exact (ofWord?_eq_some hk).1
    · exact hword ▸ fixed_mem sign hsign (.inr (mem_fixedWidths.2 ⟨total, decimals, hrest⟩))

theorem Oversized.ofWord?_eq_none {word : String} (h : Oversized word.toList) :
    ofWord? word = none := by
  obtain ⟨sign, total, decimals, rest, hsign, hword, hrest, hlarge⟩ := h
  rw [← Option.not_isSome_iff_eq_none, ofWord?_fixed hsign hword hrest]
  omega

end ElementaryType

theorem mem_elementaryNames_of_mem_tokens {source word : String} {l : Lexeme}
    (hl : l ∈ (tokenize source).tokens) (htoken : l.token = .elementaryType word) :
    word.toList ∈ elementaryNames := by
  obtain ⟨w, rest, hbegins, -⟩ := begins_of_mem_tokens hl (by simp [htoken])
  rw [htoken] at hbegins
  generalize hcontent : Content.token (.elementaryType word) = content at hbegins
  generalize w ++ rest = cs at hbegins
  cases hbegins with
  | elementaryType h =>
    obtain rfl := Token.elementaryType.inj (Content.token.inj hcontent)
    rw [String.toList_ofList]
    exact h.lexeme
  | string | unicodeString | hexString =>
    exact absurd hcontent.symm (Content.ofScan_ne_plain (fun _ => rfl) _ rfl)
  | _ => simp at hcontent

/-- A word is read as one token of an elementary type where it is one of their names. -/
theorem Token.lexes_elementaryType_iff {word : String} :
    (Token.elementaryType word).Lexes ↔ word.toList ∈ elementaryNames := by
  refine ⟨fun h => ?_, lexes_elementaryType⟩
  obtain ⟨l, hl, htoken⟩ : ∃ l ∈ (tokenize word).tokens, l.token = .elementaryType word :=
    List.mem_map.1 (h.symm ▸ List.mem_singleton_self (Token.elementaryType word))
  exact mem_elementaryNames_of_mem_tokens hl htoken

/-! ### Words that name no type -/

namespace Grammar

variable {c : Context} {s t : State} {word : String} {span : Span} {allowPayable : Bool}

theorem unexpected_ne_violation {α : Type} {e : Expected} {v : Violation} :
    unexpected (α := α) e c s ≠ (.error ⟨.violation v, span⟩, t) := by
  rw [unexpected, bind_ok (looks_here c s), next_bind]
  cases s.tokens.head? <;> simp [fail]

theorem accept_ok (a : Token) (c : Context) (s : State) : ∃ b t, accept a c s = (.ok b, t) := by
  rw [accept, bind_ok (peeks_nextIs a c s), run_ite]
  split
  · exact ⟨true, s.advance, rfl⟩
  · exact ⟨false, s, rfl⟩

/-- The name of a type is read. -/
theorem elementaryTypeName_ok {kind : ElementaryType}
    (hhead : s.tokens.head? = some (.elementaryType word)) (hkind : ElementaryType.ofWord? word = some kind) :
    ∃ type t, elementaryTypeName allowPayable c s = (.ok type, t) := by
  rw [elementaryTypeName, bind_ok (looks_here c s), next_bind, hhead]
  dsimp only
  rw [hkind]
  dsimp only
  rw [bind_ok rfl, run_ite]
  split
  · obtain ⟨b, t, haccept⟩ := accept_ok (.identifier "payable") c s.advance
    rw [acceptWord, bind_ok haccept]
    cases b <;> exact ⟨_, _, rfl⟩
  · exact ⟨_, _, rfl⟩

/-- A word is unknown where it is next and names no type. -/
theorem elementaryTypeName_unknown_iff :
    (∃ span t, elementaryTypeName allowPayable c s
        = (.error ⟨.violation (.unknownElementaryType word), span⟩, t))
      ↔ s.tokens.head? = some (.elementaryType word) ∧ ElementaryType.ofWord? word = none := by
  constructor
  · rintro ⟨span, t, h⟩
    rcases hhead : s.tokens.head? with _ | a
    · rw [elementaryTypeName, bind_ok (looks_here c s), next_bind, hhead] at h
      exact absurd h unexpected_ne_violation
    by_cases ha : ∃ w, a = .elementaryType w
    · obtain ⟨w, rfl⟩ := ha
      cases hkind : ElementaryType.ofWord? w with
      | none =>
        rw [elementaryTypeName, bind_ok (looks_here c s), next_bind, hhead] at h
        dsimp only at h
        rw [hkind] at h
        obtain rfl : w = word := by
          simpa using congrArg SyntaxError.fault (Except.error.inj (Prod.mk.inj h).1)
        exact ⟨rfl, hkind⟩
      | some kind =>
        obtain ⟨type, u, hok⟩ : ∃ type u, elementaryTypeName allowPayable c s = (.ok type, u) :=
          elementaryTypeName_ok hhead hkind
        simp [hok] at h
    · rw [elementaryTypeName, bind_ok (looks_here c s), next_bind, hhead] at h
      cases a with
      | elementaryType w => exact absurd ⟨w, rfl⟩ ha
      | _ => exact absurd h unexpected_ne_violation
  · rintro ⟨hhead, hnone⟩
    rw [elementaryTypeName, bind_ok (looks_here c s), next_bind, hhead]
    dsimp only
    rw [hnone]
    exact ⟨_, _, rfl⟩

end Grammar

open SolidityFrontend.Grammar in
/-- A word is one token of an elementary type where it names one and where it is a fixed point number
with a width that is too large; at these last words alone a type is unknown. What a word names is
named by its spelling. -/
theorem tokenize_elementaryType (word : String) :
    ((tokenize word).tokens.map Lexeme.token = [.elementaryType word]
      ↔ (ElementaryType.ofWord? word).isSome ∨ ElementaryType.Oversized word.toList)
    ∧ (ElementaryType.Oversized word.toList → ElementaryType.ofWord? word = none)
    ∧ (∀ (source : String) (allowPayable : Bool) (c : Context) (s : State),
        (∀ l ∈ s.rest, l ∈ (tokenize source).tokens) →
        ((∃ span t, elementaryTypeName allowPayable c s
            = (.error ⟨.violation (.unknownElementaryType word), span⟩, t))
          ↔ s.tokens.head? = some (.elementaryType word) ∧ ElementaryType.Oversized word.toList))
    ∧ ∀ k, ElementaryType.ofWord? word = some k → ElementaryType.ofWord? k.text = some k := by
  have hword := ElementaryType.mem_elementaryNames_iff word
  refine ⟨?_, ElementaryType.Oversized.ofWord?_eq_none, ?_, fun k hk => ?_⟩
  · refine Iff.trans ?_ hword
    exact Token.lexes_elementaryType_iff
  · intro source allowPayable c s hs
    rw [elementaryTypeName_unknown_iff]
    refine and_congr_right fun hhead => ⟨fun hnone => ?_, ElementaryType.Oversized.ofWord?_eq_none⟩
    obtain ⟨l, hl, htoken⟩ := List.mem_map.1 (List.mem_of_mem_head? hhead)
    have hmem := mem_elementaryNames_of_mem_tokens (hs l hl) htoken
    simpa [hnone] using hword.1 hmem
  · obtain ⟨-, hproper⟩ := ElementaryType.ofWord?_eq_some hk
    exact (ElementaryType.spelt hproper (ofWord?_ne_addressPayable word <| · ▸ hk)).2

theorem tokenize_elementaryType_wide :
    let wide := "fixed65536x0"
    ElementaryType.Oversized wide.toList
      ∧ (tokenize wide).tokens.map Lexeme.token = [.elementaryType wide]
      ∧ ElementaryType.ofWord? wide = none
      ∧ (∃ span t, Grammar.elementaryTypeName true (Session.ofSource wide).context
          (Session.ofSource wide).state = (.error ⟨.violation (.unknownElementaryType wide), span⟩, t))
      ∧ ElementaryType.ofWord? "ufixed0128x018" = some (.ufixed (some (128, 18)))
      ∧ ElementaryType.ofWord? "ufixed128x18" = some (.ufixed (some (128, 18))) := by
  intro wide
  have hwide : ElementaryType.Oversized "fixed65536x0".toList :=
    ⟨"", "65536".toList, "0".toList, "65536x0".toList, by simp, by decide,
      ⟨rfl, by decide, by decide, List.all_eq_true.1 (by decide), List.all_eq_true.1 (by decide)⟩,
      .inl (by decide)⟩
  have hkind : ElementaryType.ofWord? "ufixed0128x018" = some (.ufixed (some (128, 18))) := by
    decide
  have hhead : (Session.ofSource "fixed65536x0").state.tokens.head?
      = some (.elementaryType "fixed65536x0") := by
    rw [Session.ofSource_ofList]
    decide
  obtain ⟨htokens, hnone, hunknown, -⟩ := tokenize_elementaryType wide
  obtain ⟨-, -, -, htext⟩ := tokenize_elementaryType "ufixed0128x018"
  refine ⟨hwide, htokens.2 (.inr hwide), hnone hwide, ?_, hkind, htext _ hkind⟩
  exact (hunknown wide true _ _ fun l hl => hl).2 ⟨hhead, hwide⟩

/-- A word with a width that is too large is a token of an elementary type, but names none, and where
a type is due it is unknown. -/
theorem elementaryType_unknown :
    ¬ ((tokenize "fixed65536x0").tokens.map Lexeme.token = [.elementaryType "fixed65536x0"]
        ↔ (ElementaryType.ofWord? "fixed65536x0").isSome)
      ∧ ((Session.ofSource "fixed65536x0").typeName.1.map fun _ => ())
        = .error ⟨.violation (.unknownElementaryType "fixed65536x0"), ⟨⟨0, 1, 1⟩, ⟨12, 1, 13⟩⟩⟩ := by
  rw [tokenize_ofList, Session.ofSource_ofList]
  decide +kernel

end SolidityFrontend
