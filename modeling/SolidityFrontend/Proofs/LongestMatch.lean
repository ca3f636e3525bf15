import SolidityFrontend.Proofs.LexemeClass
import SolidityFrontend.Proofs.Spacing

/-!
# The longest match

`Cut` says without an algorithm how a text is cut into segments. At each place where cutting goes on,
the longest lexeme of any rule is taken (`Longest`), and what it opens is taken with it as far as it
goes (`Begins`); where no rule has a lexeme, one character is a fault. Two rules have a lexeme in
common only if one of them is that of identifiers, which gives way to the other. So there is exactly
one way to cut a text, and it is that of `segments`.
-/

namespace SolidityFrontend

open Text
open scoped Computability

namespace Rule

/-! ### Rules with a common lexeme -/

/-- Identifiers give way to reserved words and elementary types. -/
def priority : Rule → Nat
  | .identifier => 0
  | _ => 1

/-- The rules of one sort may have lexemes in common. -/
def sort : Rule → Nat
  | .blank => 0
  | .lineComment => 1
  | .keyword _ | .elementaryType | .identifier => 2
  | .decimalNumber | .hexNumber => 3
  | .symbol _ => 4
  | .openString .. => 5
  | .openComment => 6

/-- Whether a character may open a string. -/
def isQuote (c : Char) : Bool := c == '"' || c == '\x27'

/-- The sort of the rules that may have a text as a lexeme. -/
def sortOf : List Char → Nat
  | [] => 7
  | c :: cs =>
    if isSeparator c then 0
    else if ['/', '/'].isPrefixOf (c :: cs) then 1
    else if ['/', '*'].isPrefixOf (c :: cs) then 6
    else if (c :: cs).any isQuote then 5
    else if startsIdentifier c then 2
    else if isDigit c || (c == '.' && !cs.isEmpty) then 3
    else 4

theorem not_isQuote_of_continuesIdentifier {c : Char} (h : continuesIdentifier c) :
    isQuote c = false := by
  rw [Bool.eq_false_iff]
  intro hc
  simp only [isQuote, Bool.or_eq_true, beq_iff_eq] at hc
  rcases hc with rfl | rfl <;> exact absurd h (by decide)

theorem not_isSeparator_of_continuesIdentifier {c : Char} (h : continuesIdentifier c) :
    isSeparator c = false := by
  rw [Bool.eq_false_iff]
  intro hc
  simp only [isSeparator, List.contains_iff_mem, List.mem_cons, List.not_mem_nil, or_false] at hc
  rcases hc with rfl | rfl | rfl | rfl | rfl | rfl | rfl | rfl | rfl <;> exact absurd h (by decide)

/-- Words are of one sort. -/
theorem sortOf_word {c : Char} {cs : List Char} (hc : startsIdentifier c)
    (hcs : ∀ d ∈ cs, continuesIdentifier d) : sortOf (c :: cs) = 2 := by
  have hcont : continuesIdentifier c := by simp [continuesIdentifier, hc]
  have hslash : c ≠ '/' := by
    rintro rfl
    exact absurd hc (by decide)
  have hall : ∀ d ∈ c :: cs, continuesIdentifier d := List.forall_mem_cons.2 ⟨hcont, hcs⟩
  have hquote : (c :: cs).any isQuote = false := by
    rw [List.any_eq_false]
    intro d hd
    rw [not_isQuote_of_continuesIdentifier (hall d hd)]
    decide
  simp [sortOf, not_isSeparator_of_continuesIdentifier hcont, hslash.symm, hquote, hc]

theorem word_of_mem_elementaryNames {w : List Char} (hw : w ∈ elementaryNames) :
    ∃ c cs, w = c :: cs ∧ startsIdentifier c ∧ ∀ d ∈ cs, continuesIdentifier d := by
  rw [elementaryNames_eq] at hw
  rcases hw with ⟨u, hu, _, ⟨_, rfl, v, hv, rfl⟩, rfl⟩ | hw
  · have hv : ∀ d ∈ v, continuesIdentifier d := by
      rcases hv with rfl | ⟨a, ha, _, ⟨_, ⟨x, hx, rfl⟩, b, hb, rfl⟩, rfl⟩
      · simp
      · have hdigits : ∀ u ∈ charOf isDigit * (charOf isDigit)∗, ∀ d ∈ u, continuesIdentifier d := by
          intro u hu d hd
          obtain ⟨c, cs, rfl, hc, hcs⟩ := mem_charOf_mul_star.1 hu
          have hall : ∀ d ∈ c :: cs, isDigit d := List.forall_mem_cons.2 ⟨hc, hcs⟩
          simp [continuesIdentifier, hall d hd]
        simp only [List.forall_mem_append]
        refine ⟨hdigits a ha, ?_, hdigits b hb⟩
        rw [beq_iff_eq.1 hx]
        exact List.all_eq_true.1 (by decide)
    rcases hu with rfl | rfl
    · refine ⟨'f', "ixed".toList ++ v, rfl, by decide, ?_⟩
      rw [List.forall_mem_append]
      exact ⟨List.all_eq_true.1 (by decide), hv⟩
    · refine ⟨'u', "fixed".toList ++ v, rfl, by decide, ?_⟩
      rw [List.forall_mem_append]
      exact ⟨List.all_eq_true.1 (by decide), hv⟩
  · have hhead : ∀ w ∈ elementaryWords, w.head?.any startsIdentifier := by
      rw [elementaryWords_eq]
      decide
    have hw' := hhead w hw
    rcases w with _ | ⟨c, cs⟩
    · simp at hw'
    · have hcs := continues_of_mem_elementaryWords _ hw
      exact ⟨c, cs, rfl, by simpa using hw', fun d hd => hcs d (List.mem_cons_of_mem c hd)⟩

/-- The characters of a decimal number. -/
def isDecimalChar (c : Char) : Bool :=
  continuesNumber c || c == '.' || c == 'e' || c == 'E' || c == '-'

theorem isDecimalChar_of_mem {w : List Char} (hw : w ∈ lexemes .decimalNumber) :
    ∀ c ∈ w, isDecimalChar c := by
  obtain ⟨m, hm, e, he, rfl⟩ := Language.mem_mul.1 hw
  rw [List.forall_mem_append]
  constructor
  · intro c hc
    rcases mantissa_inner hm c hc with h | rfl
    · simp [isDecimalChar, h]
    · decide
  · rcases he with rfl | he
    · simp
    · obtain ⟨c, u, rfl, hc, s, hs, v, hv, rfl⟩ := exists_cons_of_mem_charOf_mul he
      simp only [Bool.or_eq_true, beq_iff_eq] at hc
      simp only [List.forall_mem_cons, List.forall_mem_append]
      refine ⟨?_, ?_, fun d hd => ?_⟩
      · rcases hc with rfl | rfl <;> decide
      · rcases hs with rfl | rfl
        · simp
        · exact List.all_eq_true.1 (by decide)
      · simp [isDecimalChar, continuesNumber_of_mem_digits hv d hd]

theorem sortOf_symbol (s : Symbol) : sortOf s.text.toList = 4 := by
  have hsort : ∀ e ∈ Symbol.spellings, sortOf e.2 = 4 := by decide
  exact hsort _ s.mem_spellings

/-- Numbers are of one sort: they hold no quote, begin with no separator, and a point alone is no
number. -/
theorem sortOf_number {c : Char} {cs : List Char} (hc : isDigit c ∨ c = '.' ∧ cs ≠ [])
    (hcs : ∀ d ∈ c :: cs, isQuote d = false) : sortOf (c :: cs) = 3 := by
  have hstart : isSeparator c = false ∧ startsIdentifier c = false ∧ c ≠ '/' := by
    rcases hc with hc | ⟨rfl, -⟩
    · have hdigits : ∀ n : Nat, n < 10 → isSeparator n.digitChar = false
          ∧ startsIdentifier n.digitChar = false ∧ n.digitChar ≠ '/' := by
        decide
      obtain ⟨n, hn, rfl⟩ := exists_digitChar hc
      exact hdigits n hn
    · decide
  have hquote : (c :: cs).any isQuote = false := by
    rw [List.any_eq_false]
    intro d hd
    rw [hcs d hd]
    decide
  have hnumber : (isDigit c || c == '.' && !cs.isEmpty) = true := by
    rcases hc with hc | ⟨rfl, hne⟩
    · simp [hc]
    · simp [hne]
  simp [sortOf, hstart.1, hstart.2.1, hstart.2.2.symm, hquote, hnumber]

theorem not_isQuote_of_isDecimalChar {c : Char} (h : isDecimalChar c) : isQuote c = false := by
  rw [Bool.eq_false_iff]
  intro hc
  simp only [isQuote, Bool.or_eq_true, beq_iff_eq] at hc
  rcases hc with rfl | rfl <;> exact absurd h (by decide)

theorem sortOf_decimal {w : List Char} (hw : w ∈ lexemes .decimalNumber) : sortOf w = 3 := by
  have hall := isDecimalChar_of_mem hw
  obtain ⟨m, hm, e, -, rfl⟩ := Language.mem_mul.1 hw
  have hfraction : ∀ u ∈ fraction, ∃ cs, u = '.' :: cs ∧ cs ≠ [] := by
    intro u hu
    obtain ⟨c, cs, rfl, hc, hcs⟩ := exists_cons_of_mem_charOf_mul hu
    refine ⟨cs, by rw [beq_iff_eq.1 hc], ?_⟩
    rintro rfl
    exact not_nil_mem_charOf_mul _ _ hcs
  obtain ⟨c, cs, hcs, hc⟩ : ∃ c cs, m ++ e = c :: cs ∧ (isDigit c ∨ c = '.' ∧ cs ≠ []) := by
    rcases hm with ⟨d, hd, u, -, rfl⟩ | hm
    · obtain ⟨c, cs, rfl, hc, -⟩ := mem_charOf_mul_star.1 hd
      exact ⟨c, _, rfl, .inl hc⟩
    · obtain ⟨cs, rfl, hne⟩ := hfraction m hm
      exact ⟨'.', _, rfl, .inr ⟨rfl, by simp [hne]⟩⟩
  rw [hcs] at hall ⊢
  exact sortOf_number hc fun d hd => not_isQuote_of_isDecimalChar (hall d hd)

theorem hex_of_mem {w : List Char} (hw : w ∈ lexemes .hexNumber) :
    ∃ x cs, w = '0' :: x :: cs ∧ (x = 'x' ∨ x = 'X') ∧ ∀ d ∈ cs, isHexDigit d || d == '_' := by
  obtain ⟨c, u, rfl, hc, hu⟩ := exists_cons_of_mem_charOf_mul hw
  obtain ⟨x, v, rfl, hx, hv⟩ := exists_cons_of_mem_charOf_mul hu
  obtain ⟨d, cs, rfl, hd, hcs⟩ := mem_charOf_mul_star.1 hv
  refine ⟨x, d :: cs, by rw [beq_iff_eq.1 hc], by simpa using hx, ?_⟩
  exact List.forall_mem_cons.2 ⟨hd, hcs⟩

theorem sortOf_hex {w : List Char} (hw : w ∈ lexemes .hexNumber) : sortOf w = 3 := by
  obtain ⟨x, cs, rfl, hx, hcs⟩ := hex_of_mem hw
  refine sortOf_number (.inl (by decide)) ?_
  simp only [List.forall_mem_cons]
  refine ⟨by decide, by rcases hx with rfl | rfl <;> decide, fun d hd => ?_⟩
  refine not_isQuote_of_continuesIdentifier ?_
  have hd := hcs d hd
  rw [Bool.or_eq_true, beq_iff_eq] at hd
  rcases hd with hd | rfl
  · exact continuesIdentifier_of_isHexDigit hd
  · decide

theorem openString_cases {kind : StringKind} {quote : Char} (h : openString kind quote ∈ all) :
    (kind = .plain ∨ kind = .hex ∨ kind = .unicode) ∧ (quote = '"' ∨ quote = '\x27') := by
  have h : openString kind quote ∈ strings := by simpa [all] using h
  simp only [strings, List.mem_cons, openString.injEq, List.not_mem_nil, or_false] at h
  rcases h with ⟨rfl, rfl⟩ | ⟨rfl, rfl⟩ | ⟨rfl, rfl⟩ | ⟨rfl, rfl⟩ | ⟨rfl, rfl⟩ | ⟨rfl, rfl⟩ <;> simp

/-- The sort of a rule shows in each of its lexemes. -/
theorem sortOf_of_mem {r : Rule} (hr : r ∈ all) {w : List Char} (hw : w ∈ r.lexemes) :
    sortOf w = r.sort := by
  cases r with
  | blank =>
    obtain ⟨c, cs, rfl, hc, -⟩ := mem_charOf_mul_star.1 hw
    simp [sortOf, hc, sort]
  | lineComment =>
    obtain ⟨_, rfl, u, -, rfl⟩ := Language.mem_mul.1 hw
    simp [sortOf, sort, show isSeparator '/' = false by decide]
  | keyword k =>
    have hword : ∀ e ∈ Keyword.spellings, sortOf e.2 = 2 := by decide
    rw [mem_fixedText.1 hw]
    exact hword _ k.mem_spellings
  | elementaryType =>
    obtain ⟨c, cs, rfl, hc, hcs⟩ := word_of_mem_elementaryNames hw
    exact sortOf_word hc hcs
  | identifier =>
    obtain ⟨c, cs, rfl, hc, hcs⟩ := mem_charOf_mul_star.1 hw
    exact sortOf_word hc hcs
  | decimalNumber => exact sortOf_decimal hw
  | hexNumber => exact sortOf_hex hw
  | symbol s =>
    rw [mem_fixedText.1 hw]
    exact sortOf_symbol s
  | openString kind quote =>
    rw [mem_fixedText.1 hw]
    rcases openString_cases hr with ⟨rfl | rfl | rfl, rfl | rfl⟩ <;> decide
  | openComment =>
    rw [mem_fixedText.1 hw]
    decide

theorem text_injective_keyword {k k' : Keyword} (h : k.text.toList = k'.text.toList) : k = k' := by
  have hnodup : (Keyword.spellings.map Prod.snd).Nodup := by decide
  exact congrArg Prod.fst (List.inj_on_of_nodup_map hnodup k.mem_spellings k'.mem_spellings h)

theorem text_injective_symbol {s s' : Symbol} (h : s.text.toList = s'.text.toList) : s = s' := by
  have hnodup : (Symbol.spellings.map Prod.snd).Nodup := by decide
  exact congrArg Prod.fst (List.inj_on_of_nodup_map hnodup s.mem_spellings s'.mem_spellings h)

/-- No reserved word is the name of an elementary type. -/
theorem keyword_not_mem_elementaryNames (k : Keyword) : k.text.toList ∉ elementaryNames := by
  intro h
  have hle := (measures_elementaryLength k.text.toList).2 _ h (List.prefix_refl _)
  have hshort : ∀ e ∈ Keyword.spellings,
      e.2.head?.any fun c => typeLength c e.2.tail < e.2.length := by
    decide
  obtain ⟨c, hc, hlt⟩ := (Option.any_eq_true _ _).1 (hshort _ k.mem_spellings)
  rw [decide_eq_true_iff] at hlt
  rw [← elementaryLength_cons, List.cons_head?_tail hc] at hlt
  exact absurd hle (Nat.not_le.2 hlt)

theorem decimal_not_mem_hex {w : List Char} (hw : w ∈ lexemes .decimalNumber) :
    w ∉ lexemes .hexNumber := by
  intro h
  obtain ⟨x, cs, rfl, hx, -⟩ := hex_of_mem h
  have hchar := isDecimalChar_of_mem hw x (by simp)
  rcases hx with rfl | rfl <;> exact absurd hchar (by decide)

example : longest ['u', 'i', 'n', 't', '8', 'x'] = some (.identifier, 6) := by
  rw [longest_cons]
  decide +kernel

/-- A lexeme of two rules is an identifier for one of them. -/
theorem eq_or_priority_lt {r r' : Rule} (hr : r ∈ all) (hr' : r' ∈ all) {w : List Char}
    (hw : w ∈ r.lexemes) (hw' : w ∈ r'.lexemes) :
    r = r' ∨ (r = .identifier ∧ r.priority < r'.priority)
      ∨ r' = .identifier ∧ r'.priority < r.priority := by
  have hsort : r.sort = r'.sort := by rw [← sortOf_of_mem hr hw, sortOf_of_mem hr' hw']
  cases r <;> cases r' <;> first
    | exact .inl rfl
    | exact .inr (.inl ⟨rfl, Nat.one_pos⟩)
    | exact .inr (.inr ⟨rfl, Nat.one_pos⟩)
    | (simp [sort] at hsort; done)
    | skip
  case keyword.keyword k k' =>
    rw [text_injective_keyword ((mem_fixedText.1 hw).symm.trans (mem_fixedText.1 hw'))]
    exact .inl rfl
  case keyword.elementaryType k =>
    rw [mem_fixedText.1 hw] at hw'
    exact absurd hw' (keyword_not_mem_elementaryNames k)
  case elementaryType.keyword k =>
    rw [mem_fixedText.1 hw'] at hw
    exact absurd hw (keyword_not_mem_elementaryNames k)
  case decimalNumber.hexNumber => exact absurd hw' (decimal_not_mem_hex hw)
  case hexNumber.decimalNumber => exact absurd hw (decimal_not_mem_hex hw')
  case symbol.symbol s s' =>
    rw [text_injective_symbol ((mem_fixedText.1 hw).symm.trans (mem_fixedText.1 hw'))]
    exact .inl rfl
  case openString.openString kind quote kind' quote' =>
    have htext := (mem_fixedText.1 hw).symm.trans (mem_fixedText.1 hw')
    rcases openString_cases hr with ⟨rfl | rfl | rfl, rfl | rfl⟩ <;>
      rcases openString_cases hr' with ⟨rfl | rfl | rfl, rfl | rfl⟩ <;>
        first | exact .inl rfl | exact absurd htext (by decide)

/-! ### The rule that is chosen -/

/-- A lexeme of a rule at the start of a text, than which no rule has a longer one there, and to
which other rules with it give way. -/
structure Longest (cs : List Char) (r : Rule) (w : List Char) : Prop where
  rule : r ∈ all
  start : w <+: cs
  lexeme : w ∈ r.lexemes
  longest : ∀ r' ∈ all, ∀ w' ∈ r'.lexemes, w' <+: cs → w'.length ≤ w.length
  wins : ∀ r' ∈ all, w ∈ r'.lexemes → r' = r ∨ r'.priority < r.priority

variable {cs w w' : List Char} {r r' : Rule} {n : Nat}

theorem Longest.unique (h : Longest cs r w) (h' : Longest cs r' w') : r = r' ∧ w = w' := by
  have hlength : w.length = w'.length :=
    le_antisymm (h'.longest r h.rule w h.lexeme h.start) (h.longest r' h'.rule w' h'.lexeme h'.start)
  obtain rfl : w = w' :=
    (List.prefix_of_prefix_length_le h.start h'.start hlength.le).eq_of_length hlength
  refine ⟨?_, rfl⟩
  rcases h.wins r' h'.rule h'.lexeme with heq | hlt
  · exact heq.symm
  · rcases h'.wins r h.rule h.lexeme with heq | hlt'
    · exact heq
    · omega

/-- What is chosen in the end was chosen before, or is one of the further rules. -/
theorem mem_of_foldl_better {rs : List Rule} {best : Option (Rule × Nat)}
    (h : rs.foldl (better cs) best = some (r, n)) : best = some (r, n) ∨ r ∈ rs := by
  induction rs generalizing best with
  | nil => exact .inl h
  | cons r' rs ih =>
    rcases ih h with hbetter | hr
    · rw [better] at hbetter
      split at hbetter
      · obtain ⟨rfl, -⟩ := Prod.mk.inj (Option.some.inj hbetter)
        exact .inr List.mem_cons_self
      · exact .inl hbetter
    · exact .inr (List.mem_cons_of_mem r' hr)

theorem length_le_of_longest (h : longest cs = some (r, n)) : ∀ r' ∈ all, r'.length cs ≤ n := by
  have hle := (le_foldl_better cs all none).2
  change ∀ r' ∈ all, r'.length cs ≤ chosenLength (longest cs) at hle
  rwa [h] at hle

/-- The rules that stand before that of identifiers. -/
def reserved : List Rule := [blank, lineComment] ++ Keyword.all.map .keyword ++ [elementaryType]

/-- An identifier is chosen only where no word that is reserved is as long. -/
theorem length_lt_of_longest (h : longest cs = some (.identifier, n)) :
    ∀ r ∈ reserved, r.length cs < n := by
  intro r hr
  by_contra hle
  have hall : all = reserved ++ (all.drop reserved.length) := by decide
  have hmax := length_le_of_longest h
  have hchosen := (le_foldl_better cs reserved none).2 r hr
  have hstays : longest cs = reserved.foldl (better cs) none := by
    rw [longest, hall, List.foldl_append]
    refine foldl_better_eq fun r' hr' => ?_
    exact (hmax r' (List.mem_of_mem_drop hr')).trans ((Nat.not_lt.1 hle).trans hchosen)
  rcases mem_of_foldl_better (hstays.symm.trans h) with hnone | hmem
  · simp at hnone
  · simp [reserved] at hmem

theorem mem_reserved (hr : r.sort = 2) (hne : r ≠ .identifier) : r ∈ reserved := by
  cases r with
  | keyword k => simp [reserved, k.mem_all]
  | elementaryType => simp [reserved]
  | identifier => exact absurd rfl hne
  | _ => simp [sort] at hr

/-- What is chosen is the longest lexeme. -/
theorem longest_of_eq_some (h : longest cs = some (r, n)) :
    Longest cs r (cs.take n) ∧ n ≤ cs.length := by
  obtain ⟨rfl, hpos⟩ := length_of_longest h
  have hr : r ∈ all := by
    rcases mem_of_foldl_better h with hnone | hr
    · simp at hnone
    · exact hr
  have hn : r.length cs ≤ cs.length := (measures_length r).le_length cs
  have hlexeme : cs.take (r.length cs) ∈ r.lexemes := (measures_length r).take_mem hpos.ne'
  refine ⟨⟨hr, List.take_prefix _ _, hlexeme, ?_, ?_⟩, hn⟩
  · intro r' hr' w' hw' hstart
    rw [List.length_take_of_le hn]
    exact ((measures_length r' cs).2 w' hw' hstart).trans (length_le_of_longest h r' hr')
  · intro r' hr' hw'
    rcases eq_or_priority_lt hr' hr hw' hlexeme with rfl | ⟨-, hlt⟩ | ⟨rfl, hlt⟩
    · exact .inl rfl
    · exact .inr hlt
    · -- An identifier is no word of a rule that wins over it.
      have hsort : r'.sort = 2 := (sortOf_of_mem hr' hw').symm.trans (sortOf_of_mem hr hlexeme)
      have hreserved : r' ∈ reserved := by
        refine mem_reserved hsort ?_
        rintro rfl
        exact lt_irrefl _ hlt
      have hle := (measures_length r' cs).2 _ hw' (List.take_prefix _ _)
      rw [List.length_take_of_le hn] at hle
      exact absurd (length_lt_of_longest h r' hreserved) (Nat.not_lt.2 hle)

/-- Where nothing is chosen, no rule has a lexeme. -/
theorem not_prefix_of_eq_none (h : longest cs = none) :
    ∀ r ∈ all, ∀ w ∈ r.lexemes, ¬w <+: cs := by
  intro r hr w hw hstart
  have hzero : r.length cs = 0 := by
    have hle := (le_foldl_better cs all none).2 r hr
    change r.length cs ≤ chosenLength (longest cs) at hle
    rw [h] at hle
    exact Nat.le_zero.1 hle
  have hnil := (measures_length r).eq_nil_of_zero hzero hw hstart
  rw [hnil] at hw
  have hsort := sortOf_of_mem hr hw
  cases r <;> simp [sortOf, sort] at hsort

end Rule

/-! ### How far literals and comments go -/

namespace Literal

theorem length_takeUpTo_le (n : Nat) (p : Char → Bool) (cs : List Char) :
    (takeUpTo n p cs).length ≤ cs.length := by
  have hle := (List.takeWhile_sublist (p := p) (l := cs.take n)).length_le
  have htake := List.length_take_le' n cs
  rw [takeUpTo]
  omega

theorem length_hexEscape_le (cs : List Char) : (hexEscape cs).length ≤ cs.length + 1 := by
  have hdigits := length_takeUpTo_le 2 isHexDigit cs
  simp only [hexEscape]
  split
  · simp only
    omega
  · simp only
    omega

theorem length_octalEscape_le (cs : List Char) : (octalEscape cs).length ≤ cs.length :=
  length_takeUpTo_le 3 isOctalDigit cs

theorem length_unicodeEscape_le (cs : List Char) : (unicodeEscape cs).length ≤ cs.length + 1 := by
  by_cases h : cs.head? = some '{'
  · obtain ⟨c, cs, rfl⟩ := List.exists_cons_of_ne_nil (l := cs) (by rintro rfl; simp at h)
    obtain rfl : c = '{' := by simpa using h
    have hdigits := length_takeUpTo_le 6 isHexDigit cs
    simp only [unicodeEscape, List.length_cons]
    split
    · simp only
      omega
    · -- Behind the digits stands the closing brace.
      rename_i hclosed
      simp only [Bool.or_eq_true, not_or, bne_iff_ne, ne_eq, not_not, List.head?_drop] at hclosed
      have hlt := (List.getElem?_eq_some_iff.1 hclosed.2).1
      rw [Escape.length_codePoint]
      omega
  · have hdigits := length_takeUpTo_le 4 isHexDigit cs
    rw [unicodeEscape_of_head_ne h]
    split
    · rw [Escape.length_codePoint]
      omega
    · simp only
      omega

/-- An escape takes no more than what follows its backslash. -/
theorem length_escape?_le {cs : List Char} {e : Escape} (h : escape? cs = some e) :
    e.length ≤ cs.length := by
  rcases cs with _ | ⟨c, cs⟩
  · simp [escape?] at h
  unfold escape? at h
  simp only [Option.some_inj] at h
  subst h
  rw [List.length_cons]
  split
  case h_8 => cases cs <;> (split <;> simp_all)
  case h_9 => exact length_hexEscape_le cs
  case h_10 => exact length_unicodeEscape_le cs
  case h_11 =>
    split
    · exact length_octalEscape_le (c :: cs)
    · simp [Escape.char]
  all_goals simp [Escape.char]

theorem length_stringBody_le (quote : Char) (cs : List Char) :
    (stringBody quote cs).length ≤ cs.length := by
  fun_induction stringBody quote cs with
  | case1 => simp
  | case2 => simp
  | case3 => simp
  | case4 => simp
  | case5 cs e hescape _ _ ih =>
    have hle := length_escape?_le hescape
    simp only [StringBody.consEscape, List.length_cons, List.length_drop] at ih ⊢
    omega
  | case6 _ _ _ _ _ ih =>
    simp only [StringBody.consChar, List.length_cons]
    omega

theorem length_hexBody_le (quote : Char) (cs : List Char) :
    (hexBody quote cs).length ≤ cs.length := by
  induction cs with
  | nil => simp [hexBody]
  | cons c cs ih =>
    simp only [hexBody, List.length_cons]
    split
    · simp
    split
    · simp
    split
    · simpa using ih
    · split <;> simpa using ih

theorem scanBlockComment_le {cs : List Char} {n : Nat} (h : scanBlockComment cs = some n) :
    n ≤ cs.length := by
  fun_induction scanBlockComment cs generalizing n with
  | case1 =>
    obtain rfl : 2 = n := by simpa using h
    simp
  | case2 c cs _ ih =>
    obtain ⟨m, hm, rfl⟩ := Option.map_eq_some_iff.1 h
    exact Nat.succ_le_succ (ih hm)
  | case3 => simp at h

end Literal

/-! ### Cutting a text -/

open Rule Literal

/-- What the start of a text is, and the characters it takes. -/
inductive Begins (cs : List Char) : Content → List Char → Prop
  | blank {w : List Char} (h : Longest cs .blank w) : Begins cs .extra w
  | lineComment {w : List Char} (h : Longest cs .lineComment w) : Begins cs .extra w
  | keyword {k : Keyword} {w : List Char} (h : Longest cs (.keyword k) w) :
      Begins cs (.token (.keyword k)) w
  | elementaryType {w : List Char} (h : Longest cs .elementaryType w) :
      Begins cs (.token (.elementaryType (String.ofList w))) w
  | identifier {w : List Char} (h : Longest cs .identifier w) :
      Begins cs (.token (.identifier (String.ofList w))) w
  | decimalNumber {w : List Char} (h : Longest cs .decimalNumber w) :
      Begins cs (.token (.decimalNumber (String.ofList w))) w
  | hexNumber {w : List Char} (h : Longest cs .hexNumber w) :
      Begins cs (.token (.hexNumber (String.ofList w))) w
  | symbol {s : Symbol} {w : List Char} (h : Longest cs (.symbol s) w) :
      Begins cs (.token (.symbol s)) w
  | string {quote : Char} {w body rest : List Char} (h : Longest cs (.openString .plain quote) w)
      (hcs : cs = w ++ body ++ rest) (hn : body.length = (scanString quote (body ++ rest)).1) :
      Begins cs (.ofScan .string (scanString quote (body ++ rest)).2) (w ++ body)
  | unicodeString {quote : Char} {w body rest : List Char}
      (h : Longest cs (.openString .unicode quote) w) (hcs : cs = w ++ body ++ rest)
      (hn : body.length = (scanString quote (body ++ rest)).1) :
      Begins cs (.ofScan .unicodeString (scanString quote (body ++ rest)).2) (w ++ body)
  | hexString {quote : Char} {w body rest : List Char} (h : Longest cs (.openString .hex quote) w)
      (hcs : cs = w ++ body ++ rest) (hn : body.length = (scanHexString quote (body ++ rest)).1) :
      Begins cs (.ofScan .hexString (scanHexString quote (body ++ rest)).2) (w ++ body)
  | comment {w body rest : List Char} (h : Longest cs .openComment w)
      (hcs : cs = w ++ body ++ rest) (hn : scanBlockComment (body ++ rest) = some body.length) :
      Begins cs .extra (w ++ body)
  | openComment {w rest : List Char} (h : Longest cs .openComment w) (hcs : cs = w ++ rest)
      (hn : scanBlockComment rest = none) : Begins cs (.fault .unterminatedComment) cs
  | invalid {c : Char} {rest : List Char} (hcs : cs = c :: rest)
      (h : ∀ r ∈ all, ∀ w ∈ r.lexemes, ¬w <+: cs) : Begins cs (.fault (.invalidCharacter c)) [c]

/-- The segments into which a text that begins at a location is cut. -/
inductive Cut : Location → List Char → List Segment → Prop
  | nil (here : Location) : Cut here [] []
  | cons {here : Location} {content : Content} {w rest : List Char} {S : List Segment}
      (hfirst : Begins (w ++ rest) content w) (hrest : Cut (here.advanceBy w) rest S) :
      Cut here (w ++ rest) (⟨content, here, here.advanceBy w⟩ :: S)

variable {cs w rest : List Char} {r : Rule} {n : Nat} {content : Content}

theorem Rule.longest_eq_some (h : Longest cs r w) : longest cs = some (r, w.length) := by
  rcases hchosen : longest cs with _ | ⟨r', n⟩
  · exact absurd h.start (not_prefix_of_eq_none hchosen r h.rule w h.lexeme)
  · obtain ⟨hlongest, hn⟩ := longest_of_eq_some hchosen
    obtain ⟨rfl, hw⟩ := h.unique hlongest
    rw [hw, List.length_take_of_le hn]

/-- A lexeme takes at least one character. -/
theorem Rule.Longest.exists_cons (h : Longest cs r w) : ∃ c rest, cs = c :: rest := by
  have hpos := (length_of_longest (longest_eq_some h)).2
  have hle := h.start.length_le
  rcases cs with _ | ⟨c, rest⟩
  · simp only [List.length_nil] at hle
    omega
  · exact ⟨c, rest, rfl⟩

theorem Rule.Longest.first_eq {c : Char} {rest : List Char} (h : Longest (c :: rest) r w) :
    Content.first c rest = Content.ofRule r w.length (c :: rest) := by
  rw [Content.first, longest_eq_some h]

theorem Begins.exists_cons (h : Begins cs content w) : ∃ c rest, cs = c :: rest := by
  cases h with
  | invalid hcs => exact ⟨_, _, hcs⟩
  | _ h => exact h.exists_cons

/-- A text begins with one content, which is the one that `Content.first` finds. -/
theorem Begins.eq_first {c : Char} (h : Begins (c :: rest) content w) :
    content = (Content.first c rest).1 ∧ w = (c :: rest).take (Content.first c rest).2 := by
  cases h with
  | blank h | lineComment h | keyword h | symbol h =>
    rw [h.first_eq]
    exact ⟨rfl, List.prefix_iff_eq_take.1 h.start⟩
  | elementaryType h | identifier h | decimalNumber h | hexNumber h =>
    rw [h.first_eq, Content.ofRule, ← List.prefix_iff_eq_take.1 h.start]
    exact ⟨rfl, rfl⟩
  | string h hcs hn | unicodeString h hcs hn | hexString h hcs hn =>
    rw [h.first_eq, hcs, Content.ofRule, Content.ofString, List.append_assoc, List.drop_left]
    dsimp only
    rw [← hn, ← List.length_append, ← List.append_assoc, List.take_left]
    exact ⟨rfl, rfl⟩
  | comment h hcs hn =>
    rw [h.first_eq, hcs, Content.ofRule, List.append_assoc, List.drop_left, hn]
    dsimp only
    rw [← List.length_append, ← List.append_assoc, List.take_left]
    exact ⟨rfl, rfl⟩
  | openComment h hcs hn =>
    rw [h.first_eq, Content.ofRule, hcs, List.drop_left, hn]
    exact ⟨rfl, List.take_length.symm⟩
  | invalid hcs h =>
    obtain ⟨rfl, rfl⟩ := List.cons.inj hcs
    rcases hchosen : longest (c :: rest) with _ | ⟨r, n⟩
    · rw [Content.first, hchosen]
      exact ⟨rfl, rfl⟩
    · obtain ⟨hlongest, -⟩ := longest_of_eq_some hchosen
      exact absurd hlongest.start (h r hlongest.rule _ hlongest.lexeme)

/-- What is taken behind a lexeme. -/
theorem exists_body {m : Nat} (hm : m ≤ (cs.drop n).length) : ∃ body rest,
    cs = cs.take n ++ body ++ rest ∧ body ++ rest = cs.drop n ∧ body.length = m
      ∧ cs.take (n + m) = cs.take n ++ body :=
  ⟨(cs.drop n).take m, (cs.drop n).drop m, by simp, by simp, List.length_take_of_le hm,
    List.take_add⟩

theorem begins_first (c : Char) (cs : List Char) : Begins (c :: cs) (Content.first c cs).1
    ((c :: cs).take (Content.first c cs).2) := by
  rcases hchosen : longest (c :: cs) with _ | ⟨r, n⟩
  · rw [Content.first, hchosen]
    exact .invalid rfl (not_prefix_of_eq_none hchosen)
  obtain ⟨h, hn⟩ := longest_of_eq_some hchosen
  rw [h.first_eq, List.length_take_of_le hn]
  cases r with
  | blank => exact .blank h
  | lineComment => exact .lineComment h
  | keyword k => exact .keyword h
  | elementaryType => exact .elementaryType h
  | identifier => exact .identifier h
  | decimalNumber => exact .decimalNumber h
  | hexNumber => exact .hexNumber h
  | symbol s => exact .symbol h
  | openString kind quote =>
    cases kind <;> simp only [Content.ofRule, Content.ofString]
    case plain =>
      obtain ⟨body, rest, hcs, hdrop, hlength, htake⟩ :=
        exists_body (length_stringBody_le quote ((c :: cs).drop n))
      rw [scanString, htake, ← hdrop]
      exact .string h hcs (by rw [hlength, hdrop, scanString])
    case unicode =>
      obtain ⟨body, rest, hcs, hdrop, hlength, htake⟩ :=
        exists_body (length_stringBody_le quote ((c :: cs).drop n))
      rw [scanString, htake, ← hdrop]
      exact .unicodeString h hcs (by rw [hlength, hdrop, scanString])
    case hex =>
      obtain ⟨body, rest, hcs, hdrop, hlength, htake⟩ :=
        exists_body (length_hexBody_le quote ((c :: cs).drop n))
      rw [scanHexString, htake, ← hdrop]
      exact .hexString h hcs (by rw [hlength, hdrop, scanHexString])
  | openComment =>
    simp only [Content.ofRule]
    split
    · rename_i m hm
      obtain ⟨body, rest, hcs, hdrop, hlength, htake⟩ := exists_body (scanBlockComment_le hm)
      rw [htake]
      exact .comment h hcs (by rw [hdrop, hlength, hm])
    · rename_i hm
      rw [List.take_length]
      exact .openComment h (List.take_append_drop n _).symm hm

/-- There is one way to cut a text. -/
theorem cut_iff (here : Location) (cs : List Char) (S : List Segment) :
    Cut here cs S ↔ S = segments here cs := by
  constructor
  · intro h
    induction h with
    | nil here => rw [segments]
    | @cons here content w rest S hfirst _ ih =>
      obtain ⟨c, cs, hcs⟩ := hfirst.exists_cons
      rw [hcs] at hfirst
      obtain ⟨hcontent, hw⟩ := hfirst.eq_first
      have hsplit : w ++ rest = w ++ (c :: cs).drop (Content.first c cs).2 :=
        calc w ++ rest = c :: cs := hcs
          _ = (c :: cs).take (Content.first c cs).2 ++ (c :: cs).drop (Content.first c cs).2 :=
            (List.take_append_drop _ _).symm
          _ = w ++ (c :: cs).drop (Content.first c cs).2 := by rw [← hw]
      have hrest := List.append_cancel_left hsplit
      rw [hcs, segments_cons, ih, hrest, ← hcontent, ← hw]
  · rintro rfl
    induction here, cs using segments_induction with
    | hnil here =>
      rw [segments_nil]
      exact .nil here
    | hcons here c cs ih =>
      have hfirst := begins_first c cs
      have hcs := (List.take_append_drop (Content.first c cs).2 (c :: cs)).symm
      generalize hw : (c :: cs).take (Content.first c cs).2 = w at *
      generalize hrest : (c :: cs).drop (Content.first c cs).2 = rest at *
      rw [segments_cons, hw, hrest, hcs]
      rw [hcs] at hfirst
      exact .cons hfirst ih

/-- A text that begins with a token and ends where it ends is read back as that token. -/
theorem Token.lexes_of_begins {t : Token} (h : Begins t.text.toList (.token t) t.text.toList) :
    t.Lexes := by
  have hcut : Cut .origin (t.text.toList ++ [])
      [⟨.token t, .origin, Location.origin.advanceBy t.text.toList⟩] :=
    .cons (by rwa [List.append_nil]) (.nil _)
  rw [List.append_nil, cut_iff] at hcut
  rw [Lexes, tokenize, ← hcut]
  rfl

/-- A source is cut at the longest matches, and in no other way: its tokens and faults are those of
the one list of segments for which this is so. -/
theorem tokenize_cut (source : String) : ∃ S,
    (∀ S', Cut .origin source.toList S' ↔ S' = S)
      ∧ (tokenize source).tokens = S.filterMap Segment.lexeme?
      ∧ (tokenize source).errors = S.filterMap Segment.error? :=
  ⟨segments .origin source.toList, cut_iff _ _, rfl, rfl⟩

end SolidityFrontend
