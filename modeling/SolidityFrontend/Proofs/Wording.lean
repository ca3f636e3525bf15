import SolidityFrontend.Proofs.Legible
import SolidityFrontend.Proofs.Yielding

/-!
# What words stand for

The spelling of a word with a meaning, of an operator and of an elementary type tells which one it is,
and the text of a number with its unit tells both.
-/

namespace SolidityFrontend

open Text

/-- A spelling that is found again is that of one value only. -/
theorem eq_of_ofSpelling? {α : Type} (all : List α) {text : α → String}
    (h : ∀ x, ofSpelling? all text (text x) = some x) {x y : α} (heq : text x = text y) : x = y :=
  Option.some.inj (by rw [← h x, heq, h y])

theorem Visibility.text_injective {v w : Visibility} : v.text = w.text → v = w :=
  eq_of_ofSpelling? all fun x => by cases x <;> decide

theorem Mutability.text_injective {m n : Mutability} : m.text = n.text → m = n :=
  eq_of_ofSpelling? all fun x => by cases x <;> decide

theorem StorageLocation.text_injective {l m : StorageLocation} : l.text = m.text → l = m :=
  eq_of_ofSpelling? all fun x => by cases x <;> decide

theorem NumberUnit.text_injective {u v : NumberUnit} : u.text = v.text → u = v :=
  eq_of_ofSpelling? all fun x => by cases x <;> decide

theorem UnaryOp.text_injective {o p : UnaryOp} : o.text = p.text → o = p :=
  eq_of_ofSpelling? all fun x => by cases x <;> decide

theorem AssignOp.text_injective {o p : AssignOp} : o.text = p.text → o = p :=
  eq_of_ofSpelling? all fun x => by cases x <;> decide

theorem BinaryOp.text_injective {o p : BinaryOp} : o.text = p.text → o = p :=
  eq_of_ofSpelling? (.pow :: tiers.flatten) fun x => by cases x <;> decide

theorem UpdateOp.textAt_injective {o p : UpdateOp} {x y : Fixity} (h : o.textAt x = p.textAt y) :
    o = p ∧ x = y := by
  revert h
  cases o <;> cases p <;> cases x <;> cases y <;> decide

/-! ### Elementary types -/

theorem isDigit_of_mem_decimal {n : Nat} : ∀ c ∈ (decimal n).toList, isDigit c = true := by
  intro c hc
  rw [decimal, String.toList_ofList] at hc
  exact Rule.isDigit_of_mem_toDigits c hc

theorem decimal_injective {m n : Nat} (h : decimal m = decimal n) : m = n := by
  have hdigits : Nat.toDigits 10 m = Nat.toDigits 10 n := by
    simpa [decimal, String.toList_ofList] using congrArg String.toList h
  rw [← ofDigits_toDigits (b := 10) (by omega) (by omega) m, hdigits,
    ofDigits_toDigits (by omega) (by omega)]

namespace ElementaryType

/-- The letters in front of the widths. -/
def letters : ElementaryType → String
  | .fixedBytes _ => "bytes"
  | .int _ => "int"
  | .uint _ => "uint"
  | .fixed _ => "fixed"
  | .ufixed _ => "ufixed"
  | t => t.text

/-- The widths behind the letters. -/
def widths : ElementaryType → String
  | .fixedBytes n | .int n | .uint n => decimal n
  | .fixed w | .ufixed w => widthsText w
  | _ => ""

theorem text_eq (t : ElementaryType) : t.text = t.letters ++ t.widths := by
  cases t <;> simp [text, letters, widths]

theorem not_isDigit_of_mem_letters (t : ElementaryType) : ∀ c ∈ t.letters.toList, !isDigit c := by
  rw [← List.all_eq_true]
  cases t <;> simp only [letters, text] <;> decide

theorem decimal_ne_empty (n : Nat) : (decimal n).toList ≠ [] := by
  rw [decimal, String.toList_ofList]
  exact Nat.toDigits_ne_nil

/-- The widths begin with a digit, if there are any. -/
theorem isDigit_head_widths (t : ElementaryType) :
    ∀ c ∈ t.widths.toList.head?, (!isDigit c) = false := by
  have hdecimal (n : Nat) (s : List Char) :
      ∀ c ∈ ((decimal n).toList ++ s).head?, (!isDigit c) = false := by
    intro c hc
    rw [List.head?_append_of_ne_nil _ (decimal_ne_empty n)] at hc
    simp [isDigit_of_mem_decimal c (List.mem_of_mem_head? hc)]
  have hwidths (w : Option (Nat × Nat)) :
      ∀ c ∈ (widthsText w).toList.head?, (!isDigit c) = false := by
    rcases w with _ | ⟨total, decimals⟩
    · simp [widthsText]
    · rw [widthsText, String.append_assoc, String.toList_append]
      exact hdecimal total _
  cases t with
  | fixedBytes n | int n | uint n => simpa [widths] using hdecimal n []
  | fixed w | ufixed w => exact hwidths w
  | _ => simp [widths]

theorem widthsText_injective {v w : Option (Nat × Nat)} (h : widthsText v = widthsText w) :
    v = w := by
  have hempty (m n : Nat) : widthsText (some (m, n)) ≠ widthsText none := by
    simp [widthsText]
  rcases v with _ | ⟨m, n⟩ <;> rcases w with _ | ⟨m', n'⟩
  · rfl
  · exact absurd h.symm (hempty m' n')
  · exact absurd h (hempty m n)
  · have hlist := congrArg String.toList h
    simp only [widthsText, String.append_assoc, String.toList_append] at hlist
    have hx (s : List Char) : ∀ c ∈ ("x".toList ++ s).head?, isDigit c = false := by
      simp only [List.head?_append, Option.mem_def]
      intro c hc
      obtain rfl := Option.some.inj hc
      rfl
    obtain ⟨htotal, hrest⟩ := append_inj_of_run isDigit_of_mem_decimal isDigit_of_mem_decimal
      (hx _) (hx _) hlist
    have hdecimals := List.append_cancel_left hrest
    rw [decimal_injective (String.toList_inj.1 htotal),
      decimal_injective (String.toList_inj.1 hdecimals)]

/-- The spelling tells the type. -/
theorem text_injective {t u : ElementaryType} (h : t.text = u.text) : t = u := by
  have hlist := congrArg String.toList h
  rw [text_eq, text_eq, String.toList_append, String.toList_append] at hlist
  obtain ⟨hletters, hwidths⟩ := append_inj_of_run t.not_isDigit_of_mem_letters
    u.not_isDigit_of_mem_letters t.isDigit_head_widths u.isDigit_head_widths hlist
  replace hletters := String.toList_inj.1 hletters
  replace hwidths := String.toList_inj.1 hwidths
  -- Only types of bytes have the same letters without having the same constructor.
  cases t <;> cases u <;> simp [letters, text] at hletters
  any_goals rfl
  · exact absurd (congrArg String.toList hwidths).symm (decimal_ne_empty _)
  · exact absurd (congrArg String.toList hwidths) (decimal_ne_empty _)
  · exact congrArg _ (decimal_injective hwidths)
  · exact congrArg _ (decimal_injective hwidths)
  · exact congrArg _ (decimal_injective hwidths)
  · exact congrArg _ (widthsText_injective hwidths)
  · exact congrArg _ (widthsText_injective hwidths)

end ElementaryType

/-! ### Numbers -/

namespace NumberLiteral

/-- The unit of a number behind its digits. -/
def unitText (l : NumberLiteral) : String := l.unit.elim "" fun unit => " " ++ unit.text

theorem ne_blank_of_mem_value {l : NumberLiteral} (h : l.token.Spelt) :
    ∀ c ∈ l.value.toList, c != ' ' := by
  rw [token] at h
  split at h
  · intro c hc
    rw [bne_iff_ne]
    rintro rfl
    exact absurd (h _ hc) (by decide)
  · obtain ⟨x, cs, hvalue, hx, hcs⟩ := h
    rw [hvalue, List.forall_mem_cons, List.forall_mem_cons]
    refine ⟨rfl, by rcases hx with rfl | rfl <;> rfl, fun c hc => ?_⟩
    rw [bne_iff_ne]
    rintro rfl
    exact absurd (hcs _ hc) (by decide)

theorem head_unitText (l : NumberLiteral) : ∀ c ∈ l.unitText.toList.head?, (c != ' ') = false := by
  cases hunit : l.unit <;> simp [unitText, hunit]

/-- No decimal number has the letter that begins the digits of a hexadecimal one. -/
theorem kind_eq_of_value_eq {l m : NumberLiteral} (hl : l.token.Spelt) (hm : m.token.Spelt)
    (h : l.value = m.value) : l.kind = m.kind := by
  have hne {k k' : NumberLiteral} (hk : k.token.Spelt) (hk' : k'.token.Spelt)
      (hdecimal : k.kind = .decimal) (hhex : k'.kind = .hex) : k.value ≠ k'.value := by
    intro heq
    simp only [token, hdecimal, hhex, Token.Spelt] at hk hk'
    obtain ⟨x, cs, hvalue, hx, -⟩ := hk'
    rw [heq, hvalue] at hk
    have hchar := hk x (by simp)
    rcases hx with rfl | rfl <;> exact absurd hchar (by decide)
  cases hkind : l.kind <;> cases hkind' : m.kind
  · rfl
  · exact absurd h (hne hl hm hkind hkind')
  · exact absurd h.symm (hne hm hl hkind' hkind)
  · rfl

/-- A number ends at the blank in front of its unit, and its digits tell how it is written. -/
theorem text_injective {l m : NumberLiteral} (hl : l.token.Spelt) (hm : m.token.Spelt)
    (h : l.text = m.text) : l.value = m.value ∧ l.kind = m.kind ∧ l.unit = m.unit := by
  have hlist : l.value.toList ++ l.unitText.toList = m.value.toList ++ m.unitText.toList := by
    simpa [text, unitText] using congrArg String.toList h
  obtain ⟨hvalue, hunit⟩ := append_inj_of_run (ne_blank_of_mem_value hl) (ne_blank_of_mem_value hm)
    l.head_unitText m.head_unitText hlist
  replace hvalue := String.toList_inj.1 hvalue
  refine ⟨hvalue, kind_eq_of_value_eq hl hm hvalue, ?_⟩
  rcases hu : l.unit with _ | u <;> rcases hv : m.unit with _ | v <;>
    simp only [unitText, hu, hv, Option.elim_none, Option.elim_some, String.toList_append] at hunit
  · rfl
  · simp at hunit
  · simp at hunit
  · rw [NumberUnit.text_injective (String.toList_inj.1 (List.append_cancel_left hunit))]

end NumberLiteral

end SolidityFrontend
