import Mathlib.Computability.Language
import Mathlib.Data.List.TakeWhile
import SolidityFrontend.Proofs.Measuring
import SolidityFrontend.Proofs.Scanning

/-!
# Classes of lexemes

The lexemes of each lexical rule, as a language of texts. A function `Measures` a language if it gives
the length of the longest text of the language at the start of every text; `Rule.measures_length` says
that the length of a rule measures its lexemes. Behind a stretch whose characters cannot begin the
next one, measuring on is measuring the product.
-/

namespace SolidityFrontend

open Text
open scoped Computability

/-! ### Languages -/

/-- One character of a class. -/
def charOf (p : Char → Bool) : Language Char := {w | ∃ c, p c ∧ w = [c]}

/-- A fixed text. -/
def fixedText (text : List Char) : Language Char := {text}

/-- One of some texts. -/
def anyText (texts : List (List Char)) : Language Char := {w | w ∈ texts}

/-- A text that may be left out. -/
def perhapsText (L : Language Char) : Language Char := 1 + L

section

variable {p q : Char → Bool} {L M : Language Char} {f g : List Char → Nat} {w : List Char}

theorem mem_fixedText {text : List Char} : w ∈ fixedText text ↔ w = text := Iff.rfl

theorem mem_anyText {texts : List (List Char)} : w ∈ anyText texts ↔ w ∈ texts := Iff.rfl

theorem mem_charOf : w ∈ charOf p ↔ ∃ c, p c ∧ w = [c] := Iff.rfl

theorem charOf_beq (c : Char) : charOf (· == c) = fixedText [c] := by
  ext w
  simp [mem_charOf, mem_fixedText]

theorem mem_star_charOf : w ∈ (charOf p)∗ ↔ ∀ c ∈ w, p c := by
  rw [Language.mem_kstar]
  constructor
  · rintro ⟨ws, rfl, hws⟩ c hc
    obtain ⟨u, hu, hcu⟩ := List.mem_flatten.1 hc
    obtain ⟨d, hd, rfl⟩ := hws u hu
    rwa [List.mem_singleton.1 hcu]
  · intro hw
    refine ⟨w.map fun c => [c], ?_, ?_⟩
    · rw [← List.flatMap_def, List.flatMap_singleton']
    intro u hu
    obtain ⟨c, hc, rfl⟩ := List.mem_map.1 hu
    exact ⟨c, hw c hc, rfl⟩

/-- A character and a run of characters behind it. -/
theorem mem_charOf_mul_star :
    w ∈ charOf p * (charOf q)∗ ↔ ∃ c u, w = c :: u ∧ p c ∧ ∀ d ∈ u, q d := by
  rw [Language.mem_mul]
  constructor
  · rintro ⟨_, ⟨c, hc, rfl⟩, u, hu, rfl⟩
    exact ⟨c, u, rfl, hc, mem_star_charOf.1 hu⟩
  · rintro ⟨c, u, rfl, hc, hu⟩
    exact ⟨[c], ⟨c, hc, rfl⟩, u, mem_star_charOf.2 hu, rfl⟩

/-! ### Measuring -/

/-- The length of the longest text of a language at the start of a text, zero if there is none. -/
def Measures (f : List Char → Nat) (L : Language Char) : Prop :=
  ∀ cs, (f cs ≠ 0 → ∃ w ∈ L, w <+: cs ∧ w.length = f cs) ∧ ∀ w ∈ L, w <+: cs → w.length ≤ f cs

theorem Measures.congr {f' : List Char → Nat} (h : Measures f L) (hf : ∀ cs, f' cs = f cs) :
    Measures f' L := by
  intro cs
  rw [hf cs]
  exact h cs

/-- Where nothing is measured, no text of the language begins but perhaps the empty one. -/
theorem Measures.eq_nil_of_zero (h : Measures f L) {cs : List Char} (hcs : f cs = 0) (hw : w ∈ L)
    (hbegins : w <+: cs) : w = [] := by
  have hle := (h cs).2 w hw hbegins
  rw [hcs, Nat.le_zero] at hle
  exact List.length_eq_zero_iff.1 hle

theorem Measures.le_length (h : Measures f L) (cs : List Char) : f cs ≤ cs.length := by
  by_cases hzero : f cs = 0
  · omega
  · obtain ⟨w, -, hbegins, hlength⟩ := (h cs).1 hzero
    exact hlength ▸ hbegins.length_le

theorem Measures.take_mem (h : Measures f L) {cs : List Char} (hcs : f cs ≠ 0) :
    cs.take (f cs) ∈ L := by
  obtain ⟨w, hw, hbegins, hlength⟩ := (h cs).1 hcs
  rw [← hlength, ← List.prefix_iff_eq_take.1 hbegins]
  exact hw

theorem measures_fixedText (text : List Char) :
    Measures (Rule.spellingLength text) (fixedText text) := by
  intro cs
  simp only [Rule.spellingLength, List.isPrefixOf_iff_prefix]
  refine ⟨fun hne => ?_, ?_⟩
  · split at hne
    · rename_i hbegins
      exact ⟨text, rfl, hbegins, (if_pos hbegins).symm⟩
    · exact absurd rfl hne
  · rintro _ rfl hbegins
    rw [if_pos hbegins]

/-- A character of one class and the run of another behind it. -/
theorem measures_charOf_mul_star (hnil : f [] = 0)
    (hcons : ∀ c cs, f (c :: cs) = if p c then 1 + Rule.runLength q cs else 0) :
    Measures f (charOf p * (charOf q)∗) := by
  intro cs
  cases cs with
  | nil =>
    refine ⟨fun hne => absurd hnil hne, fun w _ hbegins => ?_⟩
    rw [List.prefix_nil.1 hbegins]
    exact Nat.zero_le _
  | cons c cs =>
    rw [hcons]
    constructor
    · intro hne
      split at hne
      · rename_i hc
        refine ⟨c :: cs.takeWhile q, ?_, ?_, ?_⟩
        · exact mem_charOf_mul_star.2 ⟨c, _, rfl, hc, fun d hd => List.mem_takeWhile_imp hd⟩
        · exact (List.prefix_cons_inj c).2 (List.takeWhile_prefix q)
        · rw [if_pos hc, Rule.runLength, List.length_cons, Nat.add_comm]
      · exact absurd rfl hne
    · intro w hw hbegins
      obtain ⟨d, u, rfl, hd, hu⟩ := mem_charOf_mul_star.1 hw
      obtain ⟨rfl, hsuffix⟩ := List.cons_prefix_cons.1 hbegins
      obtain ⟨v, rfl⟩ := hsuffix
      have hrun : u.length ≤ Rule.runLength q (u ++ v) := by
        rw [Rule.runLength, List.takeWhile_append_of_pos hu, List.length_append]
        exact Nat.le_add_right _ _
      rw [if_pos hd, List.length_cons]
      omega

theorem Measures.add (hf : Measures f L) (hg : Measures g M) :
    Measures (fun cs => max (f cs) (g cs)) (L + M) := by
  intro cs
  dsimp only
  constructor
  · intro hne
    rcases le_total (g cs) (f cs) with hle | hle
    · rw [max_eq_left hle] at hne ⊢
      obtain ⟨w, hw, h⟩ := (hf cs).1 hne
      exact ⟨w, .inl hw, h⟩
    · rw [max_eq_right hle] at hne ⊢
      obtain ⟨w, hw, h⟩ := (hg cs).1 hne
      exact ⟨w, .inr hw, h⟩
  · rintro w (hw | hw) hbegins
    · exact le_max_of_le_left ((hf cs).2 w hw hbegins)
    · exact le_max_of_le_right ((hg cs).2 w hw hbegins)

/-- One stretch and another behind it, which begins with no character that may stand in the first
behind its start. -/
theorem Measures.mul (hf : Measures f L) (hg : Measures g M) (hnil : [] ∉ L) (P : Char → Prop)
    (hinner : ∀ w ∈ L, ∀ c ∈ w.tail, P c) (hstart : ∀ w ∈ M, ∃ c u, w = c :: u ∧ ¬P c) :
    Measures (fun cs => if f cs = 0 ∨ g (cs.drop (f cs)) = 0 then 0
      else f cs + g (cs.drop (f cs))) (L * M) := by
  intro cs
  dsimp only
  constructor
  · intro hne
    split at hne
    · exact absurd rfl hne
    rename_i hzero
    rw [not_or] at hzero
    obtain ⟨u, hu, ⟨rest, rfl⟩, hlength⟩ := (hf cs).1 hzero.1
    rw [← hlength, List.drop_left] at hzero ⊢
    obtain ⟨v, hv, ⟨rest, rfl⟩, hlength'⟩ := (hg rest).1 hzero.2
    refine ⟨u ++ v, Language.append_mem_mul hu hv, ⟨rest, by simp⟩, ?_⟩
    rw [if_neg (not_or.2 hzero), List.length_append, hlength']
  · intro w hw hbegins
    obtain ⟨u, hu, v, hv, rfl⟩ := Language.mem_mul.1 hw
    obtain ⟨c, v, rfl, hc⟩ := hstart v hv
    have hu0 : u ≠ [] := fun h => hnil (h ▸ hu)
    have hule : u.length ≤ f cs := (hf cs).2 u hu ((List.prefix_append u _).trans hbegins)
    have hpos := List.length_pos_of_ne_nil hu0
    have hf0 : f cs ≠ 0 := by omega
    obtain ⟨u', hu', hbegins', hlength⟩ := (hf cs).1 hf0
    rcases hule.eq_or_lt with heq | hlt
    · -- The first stretch is as long as it can be.
      obtain ⟨rest, rfl⟩ := hbegins
      rw [List.append_assoc] at heq hf0 ⊢
      rw [← heq, List.drop_left]
      have hv := (hg (c :: v ++ rest)).2 _ hv (List.prefix_append _ _)
      rw [if_neg (by simp only [List.length_cons] at hv; omega), List.length_append]
      omega
    · -- A shorter one would be followed by a character of the longest one.
      have hsplit : u ++ [c] <+: u' := by
        refine List.prefix_of_prefix_length_le ?_ hbegins' (by simp; omega)
        exact ((List.prefix_append_right_inj u).2 ⟨v, rfl⟩).trans hbegins
      obtain ⟨rest, rfl⟩ := hsplit
      refine absurd (hinner _ hu' c ?_) hc
      obtain ⟨d, u, rfl⟩ := List.exists_cons_of_ne_nil hu0
      simp

/-- A stretch and perhaps another behind it. -/
theorem Measures.mul_perhaps (hf : Measures f L) (hg : Measures g M) (hnil : [] ∉ L)
    (P : Char → Prop) (hinner : ∀ w ∈ L, ∀ c ∈ w.tail, P c)
    (hstart : ∀ w ∈ M, ∃ c u, w = c :: u ∧ ¬P c) :
    Measures (fun cs => if f cs = 0 then 0 else f cs + g (cs.drop (f cs)))
      (L * perhapsText M) := by
  have hadd := hf.add (hf.mul hg hnil P hinner hstart)
  rw [perhapsText, mul_add, mul_one]
  refine hadd.congr fun cs => ?_
  by_cases hf0 : f cs = 0
  · simp [hf0]
  · by_cases hg0 : g (cs.drop (f cs)) = 0 <;> simp [hf0, hg0]

/-- A character of a class and a stretch that has to be behind it. -/
theorem Measures.cons (hg : Measures g M) (hne : [] ∉ M) (hnil : f [] = 0)
    (hcons : ∀ c cs, f (c :: cs) = if p c then (if g cs = 0 then 0 else g cs + 1) else 0) :
    Measures f (charOf p * M) := by
  intro cs
  cases cs with
  | nil =>
    refine ⟨fun h => absurd hnil h, fun w _ hbegins => ?_⟩
    rw [List.prefix_nil.1 hbegins]
    exact Nat.zero_le _
  | cons c cs =>
    rw [hcons]
    constructor
    · intro h
      split at h
      · rename_i hc
        split at h
        · exact absurd rfl h
        · rename_i hg0
          obtain ⟨w, hw, hbegins, hlength⟩ := (hg cs).1 hg0
          refine ⟨c :: w, ⟨[c], ⟨c, hc, rfl⟩, w, hw, rfl⟩, (List.prefix_cons_inj c).2 hbegins, ?_⟩
          rw [if_pos hc, if_neg hg0, List.length_cons, hlength]
      · exact absurd rfl h
    · intro w hw hbegins
      obtain ⟨_, ⟨d, hd, rfl⟩, v, hv, rfl⟩ := Language.mem_mul.1 hw
      obtain ⟨rfl, hbegins'⟩ := List.cons_prefix_cons.1 hbegins
      have hle := (hg cs).2 v hv hbegins'
      have hpos : 0 < v.length := List.length_pos_of_ne_nil fun h => hne (h ▸ hv)
      rw [if_pos hd, if_neg (by omega)]
      simp only [List.nil_append, List.cons_append, List.length_cons]
      omega

/-- The length of a character of a kind and of a stretch behind it, 0 where there is none. -/
def lengthBehind (p : Char → Bool) (g : List Char → Nat) : List Char → Nat
  | [] => 0
  | c :: cs => if p c then (if g cs = 0 then 0 else g cs + 1) else 0

theorem Measures.behind (hg : Measures g M) (hne : [] ∉ M) :
    Measures (lengthBehind p g) (charOf p * M) :=
  hg.cons hne rfl fun _ _ => rfl

/-- A stretch behind a character that may be left out and does not begin it. -/
theorem Measures.perhaps_mul (hg : Measures g M) (hne : [] ∉ M) {c : Char}
    (hhead : ∀ w ∈ M, w.head? ≠ some c) :
    Measures (fun cs => if g (cs.drop (Rule.spellingLength [c] cs)) = 0 then 0
      else Rule.spellingLength [c] cs + g (cs.drop (Rule.spellingLength [c] cs)))
      (perhapsText (fixedText [c]) * M) := by
  have hmul : perhapsText (fixedText [c]) * M = M + charOf (· == c) * M := by
    rw [perhapsText, add_mul, one_mul, charOf_beq]
  rw [hmul]
  refine (hg.add (hg.behind hne)).congr fun cs => ?_
  rcases cs with _ | ⟨d, cs⟩
  · simpa [Rule.spellingLength, lengthBehind] using Eq.symm
  by_cases hd : d = c
  · subst hd
    have hzero : g (d :: cs) = 0 := by
      by_contra hne
      obtain ⟨w, hw, hbegins, hlength⟩ := (hg (d :: cs)).1 hne
      rcases w with _ | ⟨x, w⟩
      · exact hne hlength.symm
      · exact hhead _ hw (by rw [(List.cons_prefix_cons.1 hbegins).1]; rfl)
    simp [Rule.spellingLength, lengthBehind, hzero]
    split <;> omega
  · simpa [Rule.spellingLength, lengthBehind, hd, Ne.symm hd] using Eq.symm

/-- A stretch or one of some words. -/
theorem Measures.foldl_max (hf : Measures f L) (words : List (List Char)) :
    Measures (fun cs => words.foldl (fun n word => max n (Rule.spellingLength word cs)) (f cs))
      (L + anyText words) := by
  induction words generalizing f L with
  | nil =>
    have hempty : anyText [] = 0 := by
      ext w
      simp [mem_anyText]
    rw [hempty, add_zero]
    exact hf
  | cons word words ih =>
    have hcons : L + anyText (word :: words) = L + fixedText word + anyText words := by
      ext w
      simp only [Language.mem_add, mem_fixedText, mem_anyText, List.mem_cons, or_assoc]
    rw [hcons]
    exact ih (hf.add (measures_fixedText _))

end

/-! ### The lexemes of each rule -/

namespace Rule

/-- A digit and the digits and separators behind it. -/
def digits : Language Char := charOf isDigit * (charOf continuesNumber)∗

/-- A point and digits. -/
def fraction : Language Char := charOf (· == '.') * digits

/-- A mark, perhaps a minus, and digits. -/
def exponent : Language Char :=
  charOf (fun c => c == 'e' || c == 'E') * (perhapsText (fixedText ['-']) * digits)

/-- The widths in bytes from 1 to 32. -/
def byteWidths : Language Char :=
  charOf (fun c => '1' ≤ c && c ≤ '9')
    + charOf (fun c => c == '1' || c == '2') * charOf isDigit
    + charOf (· == '3') * charOf (fun c => '0' ≤ c && c ≤ '2')

/-- The widths in bits that are multiples of eight up to 256. -/
def bitWidths : Language Char :=
  anyText ((List.range 32).map fun i => (decimal (8 * (i + 1))).toList)

/-- Two widths with an `x` between them. -/
def fixedWidths : Language Char :=
  charOf isDigit * (charOf isDigit)∗ * (charOf (· == 'x') * (charOf isDigit * (charOf isDigit)∗))

/-- The names of elementary types. -/
def elementaryNames : Language Char :=
  anyText (["address", "bool", "string", "var", "byte"].map String.toList)
    + perhapsText (fixedText ['u']) * (fixedText "int".toList * perhapsText bitWidths)
    + fixedText "bytes".toList * perhapsText byteWidths
    + perhapsText (fixedText ['u']) * (fixedText "fixed".toList * perhapsText fixedWidths)

/-- The lexemes of a rule. -/
def lexemes : Rule → Language Char
  | .blank => charOf isSeparator * (charOf isSeparator)∗
  | .lineComment => fixedText ['/', '/'] * (charOf (· != '\n'))∗
  | .keyword k => fixedText k.text.toList
  | .elementaryType => elementaryNames
  | .identifier => charOf startsIdentifier * (charOf continuesIdentifier)∗
  | .decimalNumber => (digits * perhapsText fraction + fraction) * perhapsText exponent
  | .hexNumber => charOf (· == '0') * (charOf (fun c => c == 'x' || c == 'X')
      * (charOf (fun c => isHexDigit c || c == '_') * (charOf fun c => isHexDigit c || c == '_')∗))
  | .symbol s => fixedText s.text.toList
  | .openString kind quote => fixedText (kind.opener.toList ++ [quote])
  | .openComment => fixedText ['/', '*']

theorem measures_wordLength :
    Measures wordLength (charOf startsIdentifier * (charOf continuesIdentifier)∗) :=
  measures_charOf_mul_star rfl fun _ _ => rfl

theorem measures_digitsLength : Measures digitsLength digits :=
  measures_charOf_mul_star rfl fun _ _ => rfl

theorem measures_runLength (p : Char → Bool) :
    Measures (runLength p) (charOf p * (charOf p)∗) := by
  refine measures_charOf_mul_star rfl fun c cs => ?_
  by_cases hc : p c <;> simp [runLength, hc, Nat.add_comm]

theorem not_nil_mem_charOf_mul (p : Char → Bool) (L : Language Char) : [] ∉ charOf p * L := by
  rintro ⟨_, ⟨c, -, rfl⟩, v, -, h⟩
  simp at h

theorem measures_fractionLength : Measures fractionLength fraction := by
  refine measures_digitsLength.cons (not_nil_mem_charOf_mul _ _) rfl fun c cs => ?_
  by_cases hc : c = '.'
  · subst hc
    simp only [fractionLength, beq_self_eq_true, if_true]
    split <;> simp_all
  · simp [fractionLength, hc]

theorem head_ne_of_mem_charOf_mul {p : Char → Bool} {L : Language Char} {c : Char}
    (hc : p c = false) {w : List Char} (hw : w ∈ charOf p * L) : w.head? ≠ some c := by
  obtain ⟨_, ⟨d, hd, rfl⟩, v, -, rfl⟩ := Language.mem_mul.1 hw
  rintro h
  simp only [List.cons_append, List.nil_append, List.head?_cons, Option.some.injEq] at h
  simp [h, hc] at hd

theorem measures_exponentLength : Measures exponentLength exponent := by
  have hsigned := measures_digitsLength.perhaps_mul (not_nil_mem_charOf_mul _ _) (c := '-')
    fun w hw => head_ne_of_mem_charOf_mul (by decide) hw
  refine hsigned.cons ?_ rfl fun c cs => ?_
  · rintro ⟨u, -, v, hv, h⟩
    obtain ⟨rfl, rfl⟩ := List.append_eq_nil_iff.1 h
    exact not_nil_mem_charOf_mul _ _ hv
  · simp only [exponentLength, Bool.or_eq_true, beq_iff_eq]
    split
    · split
      · simp_all
      · simp_all
        omega
    · rfl

theorem continuesNumber_of_mem_digits {w : List Char} (hw : w ∈ digits) :
    ∀ c ∈ w, continuesNumber c := by
  obtain ⟨c, u, rfl, hc, hu⟩ := mem_charOf_mul_star.1 hw
  exact List.forall_mem_cons.2 ⟨by simp [continuesNumber, hc], hu⟩

theorem exists_cons_of_mem_charOf_mul {p : Char → Bool} {L : Language Char} {w : List Char}
    (hw : w ∈ charOf p * L) : ∃ c u, w = c :: u ∧ p c ∧ u ∈ L := by
  obtain ⟨_, ⟨c, hc, rfl⟩, u, hu, rfl⟩ := Language.mem_mul.1 hw
  exact ⟨c, u, rfl, hc, hu⟩

/-- Digits or a fraction or both. -/
theorem measures_mantissa : Measures (fun cs => digitsLength cs
    + fractionLength (cs.drop (digitsLength cs))) (digits * perhapsText fraction + fraction) := by
  have hboth := measures_digitsLength.mul_perhaps measures_fractionLength
    (not_nil_mem_charOf_mul _ _) (continuesNumber ·)
    (fun w hw c hc => continuesNumber_of_mem_digits hw c (List.mem_of_mem_tail hc)) fun w hw => by
      obtain ⟨c, u, rfl, hc, -⟩ := exists_cons_of_mem_charOf_mul hw
      rw [beq_iff_eq] at hc
      exact ⟨c, u, rfl, by rw [hc]; decide⟩
  refine (hboth.add measures_fractionLength).congr fun cs => ?_
  by_cases hzero : digitsLength cs = 0
  · simp [hzero]
  · -- A text that begins with a digit does not begin with a point.
    have hfraction : fractionLength cs = 0 := by
      rcases cs with _ | ⟨c, cs⟩
      · rfl
      · have hc : c ≠ '.' := by
          rintro rfl
          exact hzero rfl
        simp [fractionLength, hc]
    simp [hzero, hfraction]

theorem mantissa_inner {w : List Char} (hw : w ∈ digits * perhapsText fraction + fraction) :
    ∀ c ∈ w, continuesNumber c ∨ c = '.' := by
  have hfraction : ∀ u ∈ fraction, ∀ c ∈ u, continuesNumber c ∨ c = '.' := by
    intro u hu
    obtain ⟨c, v, rfl, hc, hv⟩ := exists_cons_of_mem_charOf_mul hu
    refine List.forall_mem_cons.2 ⟨.inr (beq_iff_eq.1 hc), fun d hd => .inl ?_⟩
    exact continuesNumber_of_mem_digits hv d hd
  rcases hw with hw | hw
  · obtain ⟨u, hu, v, hv, rfl⟩ := Language.mem_mul.1 hw
    rw [List.forall_mem_append]
    refine ⟨fun c hc => .inl (continuesNumber_of_mem_digits hu c hc), ?_⟩
    rcases hv with rfl | hv
    · simp
    · exact hfraction v hv
  · exact hfraction w hw

theorem not_nil_mem_mantissa : [] ∉ digits * perhapsText fraction + fraction := by
  rintro (⟨u, hu, v, -, h⟩ | h)
  · exact not_nil_mem_charOf_mul _ _ ((List.append_eq_nil_iff.1 h).1 ▸ hu)
  · exact not_nil_mem_charOf_mul _ _ h

theorem measures_decimalLength : Measures decimalLength (lexemes .decimalNumber) := by
  refine measures_mantissa.mul_perhaps measures_exponentLength not_nil_mem_mantissa
    (fun c => continuesNumber c ∨ c = '.')
    (fun w hw c hc => mantissa_inner hw c (List.mem_of_mem_tail hc)) fun w hw => ?_
  obtain ⟨c, u, rfl, hc, -⟩ := exists_cons_of_mem_charOf_mul hw
  simp only [Bool.or_eq_true, beq_iff_eq] at hc
  refine ⟨c, u, rfl, ?_⟩
  rcases hc with rfl | rfl <;> decide

theorem measures_hexLength : Measures hexLength (lexemes .hexNumber) := by
  have hmarked := (measures_runLength fun c => isHexDigit c || c == '_').behind
    (p := fun c => c == 'x' || c == 'X') (not_nil_mem_charOf_mul _ _)
  refine hmarked.cons (not_nil_mem_charOf_mul _ _) rfl fun c cs => ?_
  by_cases hc : c = '0'
  · subst hc
    rcases cs with _ | ⟨x, cs⟩
    · rfl
    · simp only [hexLength, lengthBehind, beq_self_eq_true, if_true, Bool.or_eq_true, beq_iff_eq]
      split
      · split <;> simp_all
      · rfl
  · rcases cs with _ | ⟨x, cs⟩ <;> simp [hexLength, hc]

theorem measures_widthsLength : Measures widthsLength fixedWidths := by
  have hdecimals := (measures_runLength isDigit).behind (p := (· == 'x'))
    (not_nil_mem_charOf_mul _ _)
  refine ((measures_runLength isDigit).mul hdecimals (not_nil_mem_charOf_mul _ _) (isDigit ·)
    (fun w hw c hc => ?_) fun w hw => ?_).congr fun cs => ?_
  · obtain ⟨d, u, rfl, -, hu⟩ := mem_charOf_mul_star.1 hw
    exact hu c hc
  · obtain ⟨c, u, rfl, hc, -⟩ := exists_cons_of_mem_charOf_mul hw
    rw [beq_iff_eq] at hc
    exact ⟨c, u, rfl, by rw [hc]; decide⟩
  · simp only [widthsLength]
    rcases htotal : runLength isDigit cs with _ | n
    · simp
    · rcases cs.drop (n + 1) with _ | ⟨x, rest⟩
      · simp [lengthBehind]
      · by_cases hx : x = 'x'
        · subst hx
          rcases hrest : runLength isDigit rest with _ | m
          · simp [lengthBehind, hrest]
          · simp [lengthBehind, hrest]
            omega
        · simp [lengthBehind, hx]

theorem measures_fixedLength : Measures fixedLength
    (perhapsText (fixedText ['u']) * (fixedText "fixed".toList * perhapsText fixedWidths)) := by
  have hnil : [] ∉ fixedText "fixed".toList := by
    rw [mem_fixedText]
    decide
  have hname := (measures_fixedText "fixed".toList).mul_perhaps measures_widthsLength
    hnil (fun c => isDigit c = false)
    (fun w hw c hc => by
      rw [mem_fixedText.1 hw] at hc
      have hnone : "fixed".toList.any isDigit = false := by decide
      exact Bool.eq_false_iff.2 (List.any_eq_false.1 hnone c (List.mem_of_mem_tail hc)))
    fun w hw => by
      obtain ⟨u, hu, v, -, rfl⟩ := Language.mem_mul.1 hw
      obtain ⟨c, u, rfl, hc, -⟩ := mem_charOf_mul_star.1 hu
      exact ⟨c, u ++ v, rfl, by simp [hc]⟩
  refine (hname.perhaps_mul (c := 'u') ?_ ?_).congr fun cs => ?_
  · rintro ⟨u, hu, v, -, h⟩
    exact hnil ((List.append_eq_nil_iff.1 h).1 ▸ hu)
  · rintro _ ⟨u, hu, v, -, rfl⟩
    rw [mem_fixedText.1 hu]
    simp
  · clear hnil hname
    simp only [fixedLength]
    generalize "fixed".toList = word
    split
    · simp_all
    · simp_all
      omega

theorem exists_digitChar {c : Char} (h : isDigit c) : ∃ n < 10, c = Nat.digitChar n := by
  simp only [isDigit, Bool.and_eq_true, decide_eq_true_eq, Char.le_def, UInt32.le_iff_toNat_le] at h
  obtain ⟨hlow, hhigh⟩ := h
  change 48 ≤ c.toNat at hlow
  change c.toNat ≤ 57 at hhigh
  refine ⟨c.toNat - 48, by omega, Char.toNat_inj.1 ?_⟩
  rw [Nat.toNat_digitChar_of_lt_ten (by omega)]
  omega

theorem isDigit_of_le {c : Char} {a b : Char} (ha : '0' ≤ a) (hb : b ≤ '9')
    (h : (a ≤ c && c ≤ b) = true) : isDigit c := by
  simp only [Bool.and_eq_true, decide_eq_true_eq] at h
  simp only [isDigit, Bool.and_eq_true, decide_eq_true_eq]
  exact ⟨Char.le_trans ha h.1, Char.le_trans h.2 hb⟩

/-- Whether a text is a width in bytes. -/
def isByteWidth : List Char → Bool
  | [a] => '1' ≤ a && a ≤ '9'
  | [a, b] => (a == '1' || a == '2') && isDigit b || a == '3' && ('0' ≤ b && b ≤ '2')
  | _ => false

theorem mem_byteWidths {w : List Char} : w ∈ byteWidths ↔ isByteWidth w := by
  constructor
  · rintro ((⟨a, ha, rfl⟩ | ⟨_, ⟨a, ha, rfl⟩, _, ⟨b, hb, rfl⟩, rfl⟩)
      | ⟨_, ⟨a, ha, rfl⟩, _, ⟨b, hb, rfl⟩, rfl⟩)
    · exact ha
    · simp only [List.cons_append, List.nil_append, isByteWidth, ha, hb, Bool.and_self, Bool.true_or]
    · simp only [List.cons_append, List.nil_append, isByteWidth, ha, hb, Bool.and_self, Bool.or_true]
  · intro h
    unfold isByteWidth at h
    split at h
    · rename_i a
      exact .inl (.inl ⟨a, h, rfl⟩)
    · rename_i a b
      rw [Bool.or_eq_true, Bool.and_eq_true, Bool.and_eq_true] at h
      rcases h with ⟨ha, hb⟩ | ⟨ha, hb⟩
      · exact .inl (.inr ⟨[a], ⟨a, ha, rfl⟩, [b], ⟨b, hb, rfl⟩, rfl⟩)
      · exact .inr ⟨[a], ⟨a, ha, rfl⟩, [b], ⟨b, hb, rfl⟩, rfl⟩
    · simp at h

theorem byteWidths_eq :
    byteWidths = anyText ((List.range 32).map fun i => (decimal (i + 1)).toList) := by
  ext w
  rw [mem_byteWidths, mem_anyText]
  constructor
  · have hone : ∀ n < 10, isByteWidth [Nat.digitChar n] →
        [Nat.digitChar n] ∈ (List.range 32).map fun i => (decimal (i + 1)).toList := by
      decide
    have htwo : ∀ n < 10, ∀ m < 10, isByteWidth [Nat.digitChar n, Nat.digitChar m] →
        [Nat.digitChar n, Nat.digitChar m]
          ∈ (List.range 32).map fun i => (decimal (i + 1)).toList := by
      decide
    intro h
    unfold isByteWidth at h
    split at h
    · rename_i a
      obtain ⟨n, hn, rfl⟩ := exists_digitChar (isDigit_of_le (by decide) (by decide) h)
      exact hone n hn h
    · rename_i a b
      have ha : isDigit a := by
        simp only [Bool.or_eq_true, Bool.and_eq_true, beq_iff_eq] at h
        rcases h with ⟨rfl | rfl, -⟩ | ⟨rfl, -⟩ <;> decide
      have hb : isDigit b := by
        rw [Bool.or_eq_true, Bool.and_eq_true, Bool.and_eq_true] at h
        rcases h with ⟨-, hb⟩ | ⟨-, hb⟩
        · exact hb
        · exact isDigit_of_le (by decide) (by decide) hb
      obtain ⟨n, hn, rfl⟩ := exists_digitChar ha
      obtain ⟨m, hm, rfl⟩ := exists_digitChar hb
      exact htwo n hn m hm h
    · simp at h
  · revert w
    decide

theorem fixedText_mul_anyText (t : List Char) (ws : List (List Char)) :
    fixedText t * anyText ws = anyText (ws.map (t ++ ·)) := by
  ext w
  rw [Language.mem_mul]
  constructor
  · rintro ⟨_, rfl, u, hu, rfl⟩
    exact List.mem_map.2 ⟨u, hu, rfl⟩
  · intro hw
    obtain ⟨u, hu, rfl⟩ := List.mem_map.1 hw
    exact ⟨t, rfl, u, hu, rfl⟩

theorem anyText_append (ws us : List (List Char)) : anyText (ws ++ us) = anyText ws + anyText us := by
  ext w
  rw [Language.mem_add]
  exact List.mem_append

theorem anyText_singleton (t : List Char) : anyText [t] = fixedText t := by
  ext w
  exact List.mem_singleton

theorem fixedText_append (t u : List Char) : fixedText (t ++ u) = fixedText t * fixedText u := by
  rw [← anyText_singleton u, fixedText_mul_anyText]
  exact (anyText_singleton _).symm

theorem anyText_numbered (letters : List Char) (numbers : List Nat) :
    anyText (numbered letters numbers) = fixedText letters * anyText (numbers.map (Nat.toDigits 10)) := by
  rw [fixedText_mul_anyText, List.map_map]
  rfl

theorem elementaryNames_eq : elementaryNames = perhapsText (fixedText ['u'])
    * (fixedText "fixed".toList * perhapsText fixedWidths) + anyText elementaryWords := by
  have hint : "int".toList = ['i', 'n', 't'] := String.toList_ofList
  have hbytes : "bytes".toList = ['b', 'y', 't', 'e', 's'] := String.toList_ofList
  have huint : fixedText ['u', 'i', 'n', 't'] = fixedText ['u'] * fixedText ['i', 'n', 't'] :=
    fixedText_append ['u'] _
  have hplain : anyText plainWords
      = anyText (["address", "bool", "string", "var", "byte"].map String.toList)
        + (fixedText ['b', 'y', 't', 'e', 's'] + (fixedText ['i', 'n', 't']
          + fixedText ['u', 'i', 'n', 't'])) := by
    simp only [← anyText_singleton, ← anyText_append]
    exact congrArg anyText (by decide)
  have hbytewidths : byteWidths = anyText (byteNumbers.map (Nat.toDigits 10)) := by
    simp [byteWidths_eq, byteNumbers, decimal, Function.comp_def]
  have hbitwidths : bitWidths = anyText (bitNumbers.map (Nat.toDigits 10)) := by
    simp [bitWidths, bitNumbers, decimal, Function.comp_def]
  simp only [elementaryNames, elementaryWords_eq, anyText_append, anyText_numbered, hint, hbytes,
    huint, hplain, hbytewidths, hbitwidths, perhapsText, mul_add, add_mul, mul_one, one_mul,
    mul_assoc]
  ac_rfl

theorem measures_elementaryLength : Measures elementaryLength elementaryNames := by
  rw [elementaryNames_eq]
  refine (measures_fixedLength.foldl_max elementaryWords).congr fun cs => ?_
  rw [elementaryLength]

/-- A fixed text and the run of characters behind it. -/
theorem measures_fixedText_mul_star {t : List Char} {p : Char → Bool} (ht : t ≠ []) :
    Measures (fun cs => if spellingLength t cs = 0 then 0
      else spellingLength t cs + runLength p (cs.drop (spellingLength t cs)))
      (fixedText t * (charOf p)∗) := by
  have hlength : t.length ≠ 0 := fun h => ht (List.length_eq_zero_iff.1 h)
  intro cs
  dsimp only
  by_cases hbegins : t <+: cs
  · obtain ⟨rest, rfl⟩ := hbegins
    have hspelling : spellingLength t (t ++ rest) = t.length := by simp [spellingLength]
    rw [hspelling, List.drop_left, if_neg hlength]
    constructor
    · refine fun _ => ⟨t ++ rest.takeWhile p, ⟨t, rfl, _, ?_, rfl⟩, ?_, by simp [runLength]⟩
      · exact mem_star_charOf.2 fun c hc => List.mem_takeWhile_imp hc
      · exact (List.prefix_append_right_inj t).2 (List.takeWhile_prefix p)
    · rintro _ ⟨_, rfl, u, hu, rfl⟩ hbegins
      obtain ⟨v, rfl⟩ := (List.prefix_append_right_inj _).1 hbegins
      have hrun : u.length ≤ runLength p (u ++ v) := by
        rw [runLength, List.takeWhile_append_of_pos (mem_star_charOf.1 hu), List.length_append]
        exact Nat.le_add_right _ _
      dsimp only
      rw [List.length_append]
      omega
  · have hzero : spellingLength t cs = 0 := by
      rw [spellingLength, if_neg (by rwa [List.isPrefixOf_iff_prefix])]
    rw [if_pos hzero]
    refine ⟨fun h => absurd rfl h, ?_⟩
    rintro _ ⟨_, rfl, u, -, rfl⟩ hu
    exact absurd ((List.prefix_append _ u).trans hu) hbegins

/-- The length of a rule is that of its longest lexeme at the start of a text. -/
theorem measures_length (r : Rule) : Measures r.length r.lexemes := by
  cases r with
  | blank => exact measures_runLength isSeparator
  | lineComment =>
    refine (measures_fixedText_mul_star (t := ['/', '/']) (by simp)).congr fun cs => ?_
    simp only [length]
    split <;> simp_all
  | keyword k => exact measures_fixedText _
  | elementaryType => exact measures_elementaryLength
  | identifier => exact measures_wordLength
  | decimalNumber => exact measures_decimalLength
  | hexNumber => exact measures_hexLength
  | symbol s => exact measures_fixedText _
  | openString kind quote => exact measures_fixedText _
  | openComment => exact measures_fixedText _

end Rule

end SolidityFrontend
