import Mathlib.Data.List.Basic
import Mathlib.Data.Nat.Basic
import Mathlib.Order.Basic
import SolidityFrontend.Token.Segment

/-!
# What a lexeme depends on

The length of a lexeme, and what it is, depend only on the characters it takes: on a text that is
cut off no earlier than the lexeme ends, every rule measures the same. So a text that begins with a
lexeme may be cut behind it.
-/

namespace SolidityFrontend

open Text

/-- Measures on the start of a text what it measures on the whole, unless that is longer. -/
def Local (f : List Char → Nat) : Prop :=
  ∀ a b, f (a ++ b) ≤ a.length → f a = f (a ++ b)

namespace Rule

theorem local_runLength (p : Char → Bool) : Local (runLength p) := by
  intro a b h
  unfold runLength at h ⊢
  rw [List.takeWhile_append] at h ⊢
  split at h
  · rename_i hall
    rw [List.length_append] at h
    rw [if_pos hall, List.length_append]
    omega
  · rename_i hall
    rw [if_neg hall]

theorem local_spellingLength (text : List Char) : Local (spellingLength text) := by
  intro a b h
  unfold spellingLength at h ⊢
  simp only [List.isPrefixOf_iff_prefix] at h ⊢
  split at h
  · rename_i hprefix
    rw [if_pos hprefix, if_pos (List.prefix_of_prefix_length_le hprefix (List.prefix_append a b) h)]
  · rename_i hprefix
    rw [if_neg hprefix, if_neg fun hp => hprefix (hp.trans (List.prefix_append a b))]

/-- One stretch and another behind it. -/
theorem local_add {f g : List Char → Nat} (hf : Local f) (hg : Local g) :
    Local fun cs => f cs + g (cs.drop (f cs)) := by
  intro a b h
  dsimp only at h ⊢
  have hfa : f a = f (a ++ b) := hf a b (by omega)
  rw [List.drop_append_of_le_length (by omega)] at h ⊢
  rw [hfa]
  rw [hg (a.drop (f (a ++ b))) b (by rw [List.length_drop]; omega)]

/-- A stretch, and another behind it unless the first is empty. -/
theorem local_add_of_ne_zero {f g : List Char → Nat} (hf : Local f) (hg : Local g) :
    Local fun cs => if f cs = 0 then 0 else f cs + g (cs.drop (f cs)) := by
  intro a b h
  dsimp only at h ⊢
  split at h
  · rename_i hzero
    rw [hf a b (by omega), if_pos hzero, if_pos hzero]
  · rename_i hzero
    have hfa : f a = f (a ++ b) := hf a b (by omega)
    rw [List.drop_append_of_le_length (by omega)] at h ⊢
    rw [hfa, hg (a.drop (f (a ++ b))) b (by rw [List.length_drop]; omega)]

/-- A character and a stretch behind it. -/
theorem local_cons {f : List Char → Nat} {g : Char → List Char → Nat} (hnil : f [] = 0)
    (hcons : ∀ c cs, f (c :: cs) = g c cs)
    (hg : ∀ c a b, g c (a ++ b) ≤ a.length + 1 → g c a = g c (a ++ b)) : Local f := by
  intro a b h
  cases a with
  | nil =>
    rw [hnil]
    rw [List.nil_append, List.length_nil] at h
    exact (Nat.le_zero.1 h).symm
  | cons c a =>
    rw [List.cons_append, hcons] at h ⊢
    rw [hcons]
    exact hg c a b h

theorem local_wordLength : Local wordLength := by
  refine local_cons (g := fun c cs =>
    if startsIdentifier c then 1 + runLength continuesIdentifier cs else 0) rfl (fun c cs => rfl) ?_
  intro c a b h
  split at h
  · rename_i hc
    rw [if_pos hc, if_pos hc, local_runLength continuesIdentifier a b (by omega)]
  · rename_i hc
    rw [if_neg hc, if_neg hc]

theorem local_digitsLength : Local digitsLength := by
  refine local_cons (g := fun c cs =>
    if isDigit c then 1 + runLength continuesNumber cs else 0) rfl (fun c cs => rfl) ?_
  intro c a b h
  split at h
  · rename_i hc
    rw [if_pos hc, if_pos hc, local_runLength continuesNumber a b (by omega)]
  · rename_i hc
    rw [if_neg hc, if_neg hc]

theorem local_fractionLength : Local fractionLength := by
  intro a b h
  rcases a with _ | ⟨c, a⟩
  · exact (Nat.le_zero.1 h).symm
  by_cases hc : c = '.'
  · subst hc
    have hdigits : digitsLength a = digitsLength (a ++ b) := by
      refine local_digitsLength a b ?_
      simp only [List.cons_append, fractionLength, List.length_cons] at h
      split at h <;> omega
    simp only [List.cons_append, fractionLength, hdigits]
  · simp [List.cons_append, fractionLength, hc]

/-- Whether a text begins with a character shows in its first one. -/
theorem spellingLength_singleton (x d : Char) (a b : List Char) :
    spellingLength [x] (d :: a ++ b) = spellingLength [x] (d :: a) := by
  simp [spellingLength]

theorem spellingLength_singleton_le (x d : Char) (a : List Char) :
    spellingLength [x] (d :: a) ≤ (d :: a).length := by
  unfold spellingLength
  split <;> simp

theorem local_exponentLength : Local exponentLength := by
  intro a b h
  rcases a with _ | ⟨c, a⟩
  · exact (Nat.le_zero.1 h).symm
  simp only [List.cons_append, exponentLength, List.length_cons] at h ⊢
  by_cases hc : c = 'e' ∨ c = 'E'
  · rw [if_pos hc] at h
    rw [if_pos hc, if_pos hc]
    rcases a with _ | ⟨d, a⟩
    · -- Behind the mark alone there is no number, so the whole has no exponent either.
      simp only [List.nil_append, List.length_nil] at h ⊢
      have hzero : digitsLength (b.drop (spellingLength ['-'] b)) = 0 := by
        split at h
        · assumption
        · omega
      rw [hzero]
      simp [digitsLength]
    · have hle := spellingLength_singleton_le '-' d a
      rw [spellingLength_singleton, List.drop_append_of_le_length hle] at h ⊢
      have hdigits := local_digitsLength ((d :: a).drop (spellingLength ['-'] (d :: a))) b (by
        rw [List.length_drop]
        split at h <;> omega)
      rw [hdigits]
  · rw [if_neg hc, if_neg hc]

theorem local_decimalLength : Local decimalLength :=
  local_add_of_ne_zero (local_add local_digitsLength local_fractionLength) local_exponentLength

theorem local_hexLength : Local hexLength := by
  intro a b h
  rcases a with _ | ⟨c, _ | ⟨x, a⟩⟩
  · exact (Nat.le_zero.1 h).symm
  · have hone : hexLength [c] = 0 := by simp [hexLength]
    have hzero : hexLength ([c] ++ b) = 0 := by
      rcases b with _ | ⟨x, b⟩
      · exact hone
      by_cases hc : c = '0'
      · subst hc
        simp only [List.cons_append, List.nil_append, hexLength, List.length_singleton] at h ⊢
        split at h
        · rename_i hx
          rw [if_pos hx]
          split at h
          · rfl
          · omega
        · rename_i hx
          rw [if_neg hx]
      · simp [hexLength, hc]
    rw [hone, hzero]
  · by_cases hc : c = '0'
    · subst hc
      simp only [List.cons_append, hexLength, List.length_cons] at h ⊢
      split at h
      · rename_i hx
        rw [if_pos hx, if_pos hx, local_runLength _ a b (by split at h <;> omega)]
      · rename_i hx
        rw [if_neg hx, if_neg hx]
    · simp [hexLength, hc]

/-- A run on the start of a text is as long as on the whole, or ends with that start. -/
theorem runLength_eq_min (p : Char → Bool) (a b : List Char) :
    runLength p a = min (runLength p (a ++ b)) a.length := by
  have hle : runLength p a ≤ a.length := (List.takeWhile_sublist p).length_le
  unfold runLength at hle ⊢
  rw [List.takeWhile_append]
  split
  · rw [List.length_append]
    omega
  · omega

theorem widthsLength_eq_zero_or_lt (cs : List Char) :
    widthsLength cs = 0 ∨ runLength isDigit cs < widthsLength cs := by
  simp only [widthsLength]
  split
  · exact .inl rfl
  · split
    · exact .inl rfl
    · right
      omega
  · exact .inl rfl

theorem local_widthsLength : Local widthsLength := by
  intro a b h
  have hmin := runLength_eq_min isDigit a b
  by_cases hlt : runLength isDigit (a ++ b) < a.length
  · have hle := Nat.le_of_lt hlt
    rw [Nat.min_eq_left hle] at hmin
    obtain ⟨x, rest, hdrop⟩ := List.exists_cons_of_ne_nil (l := a.drop (runLength isDigit a))
      (by rw [ne_eq, List.drop_eq_nil_iff]; omega)
    have hlength := congrArg List.length hdrop
    rw [List.length_drop, List.length_cons] at hlength
    simp only [widthsLength] at h ⊢
    rw [List.drop_append_of_le_length hle, ← hmin, hdrop, List.cons_append] at h
    rw [List.drop_append_of_le_length hle, ← hmin, hdrop, List.cons_append]
    by_cases hx : x = 'x'
    · subst hx
      rcases hrun : runLength isDigit a with _ | n
      · rfl
      rw [hrun] at h hlength
      simp only at h ⊢
      rw [local_runLength isDigit rest b (by split at h <;> omega)]
    · rcases runLength isDigit a with _ | n
      · rfl
      simp [hx]
  · -- The digits take all of the start, and with a second width the name would be longer still.
    rw [Nat.min_eq_right (Nat.not_lt.1 hlt)] at hmin
    have hwhole : widthsLength (a ++ b) = 0 := by
      rcases widthsLength_eq_zero_or_lt (a ++ b) with hzero | hlt
      · exact hzero
      · omega
    rw [hwhole]
    simp only [widthsLength]
    rw [hmin, List.drop_length]
    cases a.length <;> rfl

theorem local_fixedLength : Local fixedLength := by
  intro a b h
  rcases a with _ | ⟨c, a⟩
  · exact (Nat.le_zero.1 h).symm
  have hle := spellingLength_singleton_le 'u' c a
  simp only [fixedLength, spellingLength_singleton] at h ⊢
  rw [List.drop_append_of_le_length hle] at h ⊢
  generalize spellingLength ['u'] (c :: a) = sign at h hle ⊢
  have hword := local_spellingLength "fixed".toList ((c :: a).drop sign) b (by
    rw [List.length_drop]
    split at h <;> omega)
  rw [hword]
  split
  · rfl
  · rename_i n hn
    split at h
    · exact absurd ‹_› hn
    rw [List.drop_append_of_le_length (by omega)] at h ⊢
    rw [local_widthsLength ((c :: a).drop (sign + _)) b (by rw [List.length_drop]; omega)]

theorem local_max {f g : List Char → Nat} (hf : Local f) (hg : Local g) :
    Local fun cs => max (f cs) (g cs) := by
  intro a b h
  dsimp only at h ⊢
  rw [hf a b (by omega), hg a b (by omega)]

theorem local_elementaryLength : Local elementaryLength := by
  suffices hfold : ∀ (words : List (List Char)) (f : List Char → Nat), Local f →
      Local fun cs => words.foldl (fun n word => max n (spellingLength word cs)) (f cs) from
    hfold elementaryWords fixedLength local_fixedLength
  intro words
  induction words with
  | nil => exact fun f hf => hf
  | cons word words ih => exact fun f hf => ih _ (local_max hf (local_spellingLength word))

theorem local_length (r : Rule) : Local r.length := by
  cases r with
  | blank => exact local_runLength _
  | lineComment =>
    have hcomment : Rule.length .lineComment = fun cs => if spellingLength ['/', '/'] cs = 0 then 0
        else spellingLength ['/', '/'] cs
          + runLength (· != '\n') (cs.drop (spellingLength ['/', '/'] cs)) := by
      funext cs
      rw [length]
      split
      · rename_i hzero
        rw [if_pos hzero]
      · rename_i hne
        rw [if_neg hne]
    rw [hcomment]
    exact local_add_of_ne_zero (local_spellingLength _) (local_runLength _)
  | keyword k => exact local_spellingLength _
  | elementaryType => exact local_elementaryLength
  | identifier => exact local_wordLength
  | decimalNumber => exact local_decimalLength
  | hexNumber => exact local_hexLength
  | symbol s => exact local_spellingLength _
  | openString kind quote => exact local_spellingLength _
  | openComment => exact local_spellingLength _

/-! ### The longest lexeme -/

/-- The length of a choice, zero if there is none. -/
def chosenLength (best : Option (Rule × Nat)) : Nat := best.elim 0 Prod.snd

theorem le_better (cs : List Char) (best : Option (Rule × Nat)) (r : Rule) :
    chosenLength best ≤ chosenLength (better cs best r)
      ∧ r.length cs ≤ chosenLength (better cs best r) := by
  simp only [better]
  split
  · rename_i hlt
    exact ⟨hlt.le, le_rfl⟩
  · rename_i hle
    exact ⟨le_rfl, Nat.not_lt.1 hle⟩

theorem le_foldl_better (cs : List Char) (rs : List Rule) (best : Option (Rule × Nat)) :
    chosenLength best ≤ chosenLength (rs.foldl (better cs) best)
      ∧ ∀ r ∈ rs, r.length cs ≤ chosenLength (rs.foldl (better cs) best) := by
  induction rs generalizing best with
  | nil => exact ⟨le_rfl, by simp⟩
  | cons r rs ih =>
    obtain ⟨hbest, hrs⟩ := ih (better cs best r)
    obtain ⟨hle, hr⟩ := le_better cs best r
    refine ⟨hle.trans hbest, ?_⟩
    intro r' hr'
    rcases List.mem_cons.1 hr' with rfl | hr'
    · exact hr.trans hbest
    · exact hrs r' hr'

/-- A choice that no rule exceeds remains. -/
theorem foldl_better_eq {cs : List Char} {best : Option (Rule × Nat)} {rs : List Rule}
    (h : ∀ r ∈ rs, r.length cs ≤ chosenLength best) : rs.foldl (better cs) best = best := by
  induction rs with
  | nil => rfl
  | cons r rs ih =>
    rw [List.forall_mem_cons] at h
    have hbetter : better cs best r = best := if_neg (Nat.not_lt.2 h.1)
    rw [List.foldl_cons, hbetter, ih h.2]

/-- What no rule exceeds the choice does not exceed. -/
theorem chosenLength_longest_le {cs : List Char} {n : Nat} (h : ∀ r ∈ all, r.length cs ≤ n) :
    chosenLength (longest cs) ≤ n := by
  have hfold : ∀ (rs : List Rule) (best : Option (Rule × Nat)), (∀ r ∈ rs, r.length cs ≤ n) →
      chosenLength best ≤ n → chosenLength (rs.foldl (better cs) best) ≤ n := by
    intro rs
    induction rs with
    | nil => exact fun best _ hbest => hbest
    | cons r rs ih =>
      intro best hrs hbest
      rw [List.forall_mem_cons] at hrs
      refine ih _ hrs.2 ?_
      rw [better]
      split
      · exact hrs.1
      · exact hbest
  exact hfold all none h (Nat.zero_le n)

/-- The longest lexeme of a text is that of each start of the text that holds it. -/
theorem longest_append {a b : List Char} (h : chosenLength (longest (a ++ b)) ≤ a.length) :
    longest a = longest (a ++ b) := by
  have hall : ∀ r ∈ all, r.length a = r.length (a ++ b) := fun r hr =>
    local_length r a b (((le_foldl_better (a ++ b) all none).2 r hr).trans h)
  refine List.foldl_ext (better a) (better (a ++ b)) none fun best r hr => ?_
  rw [better, better, hall r hr]

/-- What is chosen is the lexeme of a rule and takes something. -/
theorem length_of_longest {cs : List Char} {r : Rule} {n : Nat} (h : longest cs = some (r, n)) :
    n = r.length cs ∧ 0 < n := by
  have hfold : ∀ (rs : List Rule) (best : Option (Rule × Nat)),
      (∀ r n, best = some (r, n) → n = r.length cs ∧ 0 < n) →
      ∀ r n, rs.foldl (better cs) best = some (r, n) → n = r.length cs ∧ 0 < n := by
    intro rs
    induction rs with
    | nil => exact fun best hbest => hbest
    | cons r rs ih =>
      refine fun best hbest => ih _ ?_
      intro r' n' hbetter
      simp only [better] at hbetter
      split at hbetter
      · rename_i hlt
        obtain ⟨rfl, rfl⟩ : r = r' ∧ r.length cs = n' := by simpa using hbetter
        exact ⟨rfl, by omega⟩
      · exact hbest r' n' hbetter
  exact hfold all none (by simp) r n h

end Rule

end SolidityFrontend
