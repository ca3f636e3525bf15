import Mathlib.Data.List.TakeWhile
import Mathlib.Tactic.IntervalCases
import SolidityFrontend.Proofs.RespanningTree

/-!
# S-expressions can be read in one way

Where two texts begin with a quoted text each and are equal, the quoted texts are the same and so is
what follows them: no character is written as the start of another one's escape, and none as a quote
alone. Kinds and fields are words, which end where the first other character stands. So the text of
a tree tells the tree, up to its spans (`Node.sexp_injective`).
-/

namespace SolidityFrontend

/-- A run of one sort of characters ends where the first other one stands. -/
theorem append_inj_of_run {p : Char → Bool} {u v r s : List Char} (hu : ∀ c ∈ u, p c)
    (hv : ∀ c ∈ v, p c) (hr : ∀ c ∈ r.head?, p c = false) (hs : ∀ c ∈ s.head?, p c = false)
    (h : u ++ r = v ++ s) : u = v ∧ r = s := by
  have hnil {t : List Char} (ht : ∀ c ∈ t.head?, p c = false) : t.takeWhile p = [] := by
    cases t with
    | nil => rfl
    | cons c t => rw [List.takeWhile_cons, ht c rfl]; rfl
  have huv : u = v := by
    have htake := congrArg (List.takeWhile p) h
    rwa [List.takeWhile_append_of_pos hu, List.takeWhile_append_of_pos hv, hnil hr, hnil hs,
      List.append_nil, List.append_nil] at htake
  subst huv
  exact ⟨rfl, List.append_cancel_left h⟩

namespace Text

/-! ### Digits -/

theorem digitValue_digitChar {n : Nat} (h : n < 16) : digitValue n.digitChar = n := by
  interval_cases n <;> decide

theorem isHexDigit_digitChar {n : Nat} (h : n < 16) : isHexDigit n.digitChar = true := by
  interval_cases n <;> decide

theorem ofDigits_concat (b : Nat) (cs : List Char) (c : Char) :
    ofDigits b (cs ++ [c]) = ofDigits b cs * b + digitValue c := by
  rw [ofDigits, List.foldl_append]
  rfl

/-- The digits of a number denote it. -/
theorem ofDigits_toDigits {b : Nat} (hb : 1 < b) (hle : b ≤ 16) (n : Nat) :
    ofDigits b (Nat.toDigits b n) = n := by
  induction n using Nat.strongRecOn with
  | ind n ih =>
    rw [Nat.toDigits_eq_if hb]
    split
    case isTrue h =>
      rw [ofDigits, List.foldl_cons, List.foldl_nil, Nat.zero_mul, Nat.zero_add,
        digitValue_digitChar (by omega)]
    case isFalse h =>
      have hmod : n % b < 16 := (Nat.mod_lt n (by omega)).trans_le hle
      rw [ofDigits_concat, ih _ (Nat.div_lt_self (by omega) hb), digitValue_digitChar hmod,
        Nat.div_add_mod']

theorem isHexDigit_of_mem_toDigits {b : Nat} (hb : 1 < b) (hle : b ≤ 16) {n : Nat} :
    ∀ c ∈ Nat.toDigits b n, isHexDigit c = true := by
  induction n using Nat.strongRecOn with
  | ind n ih =>
    rw [Nat.toDigits_eq_if hb]
    split
    case isTrue h => simpa using isHexDigit_digitChar (by omega)
    case isFalse h =>
      have hmod : n % b < 16 := (Nat.mod_lt n (by omega)).trans_le hle
      rw [List.forall_mem_append]
      exact ⟨ih _ (Nat.div_lt_self (by omega) hb), by simpa using isHexDigit_digitChar hmod⟩

/-! ### Quoted texts -/

/-- The characters that a backslash and one more character write. -/
def shortEscapes : List (Char × Char) :=
  [('\x00', '0'), ('\t', 't'), ('\n', 'n'), ('\r', 'r'), ('"', '"'), ('\\', '\\')]

/-- A character stands for itself, or is written by one of two kinds of escapes. -/
theorem quoteChar_cases (c : Char) :
    (quoteChar c = [c] ∧ c ≠ '"' ∧ c ≠ '\\')
      ∨ (∃ k, (c, k) ∈ shortEscapes ∧ quoteChar c = ['\\', k])
      ∨ quoteChar c = codePointEscape c := by
  have hescapes : ∀ e ∈ shortEscapes, quoteChar e.1 = ['\\', e.2] := by decide
  by_cases hshort : ∃ k, (c, k) ∈ shortEscapes
  · obtain ⟨k, hk⟩ := hshort
    exact .inr (.inl ⟨k, hk, hescapes _ hk⟩)
  · have hne (d k : Char) (hd : (d, k) ∈ shortEscapes) : c ≠ d :=
      fun h => hshort ⟨k, h ▸ hd⟩
    have hquote : c ≠ '"' := hne _ '"' (by decide)
    have hslash : c ≠ '\\' := hne _ '\\' (by decide)
    rw [quoteChar, if_neg (hne '\x00' '0' (by decide)), if_neg (hne '\t' 't' (by decide)),
      if_neg (hne '\n' 'n' (by decide)), if_neg (hne '\r' 'r' (by decide)), if_neg hquote,
      if_neg hslash]
    split
    · exact .inl ⟨rfl, hquote, hslash⟩
    · split
      · exact .inr (.inr rfl)
      · exact .inl ⟨rfl, hquote, hslash⟩

theorem codePointEscape_append_inj {c d : Char} {r s : List Char}
    (h : codePointEscape c ++ r = codePointEscape d ++ s) : c = d ∧ r = s := by
  simp only [codePointEscape, List.cons_append, List.append_assoc, List.cons.injEq, true_and,
    List.nil_append] at h
  have hdigits (c : Char) : ∀ x ∈ Nat.toDigits 16 c.toNat, isHexDigit x = true :=
    isHexDigit_of_mem_toDigits (by omega) (by omega)
  have hbrace (t : List Char) : ∀ x ∈ ('}' :: t).head?, isHexDigit x = false := by
    simp only [List.head?_cons, Option.mem_some_iff, forall_eq']
    decide
  obtain ⟨hcode, hrest⟩ := append_inj_of_run (hdigits c) (hdigits d) (hbrace r) (hbrace s) h
  have hnat : c.toNat = d.toNat := by
    rw [← ofDigits_toDigits (b := 16) (by omega) (by omega) c.toNat, hcode,
      ofDigits_toDigits (by omega) (by omega)]
  exact ⟨Char.toNat_inj.1 hnat, (List.cons.inj hrest).2⟩

/-- No character is written as the start of what writes another one. -/
theorem quoteChar_append_inj {c d : Char} {r s : List Char}
    (h : quoteChar c ++ r = quoteChar d ++ s) : c = d ∧ r = s := by
  have hshort : ∀ a ∈ shortEscapes, ∀ b ∈ shortEscapes, a.2 = b.2 → a.1 = b.1 := by decide
  have hcode : ∀ a ∈ shortEscapes, a.2 ≠ 'u' := by decide
  rcases quoteChar_cases c with ⟨hc, -, hslash⟩ | ⟨k, hk, hc⟩ | hc <;>
    rcases quoteChar_cases d with ⟨hd, -, hslash'⟩ | ⟨k', hk', hd⟩ | hd <;> rw [hc, hd] at h
  · exact List.cons.inj h
  · exact absurd (List.cons.inj h).1 hslash
  · exact absurd (List.cons.inj h).1 hslash
  · exact absurd (List.cons.inj h).1.symm hslash'
  · obtain ⟨-, hrest⟩ := List.cons.inj h
    obtain ⟨hkk, hrest⟩ := List.cons.inj hrest
    exact ⟨hshort _ hk _ hk' hkk, hrest⟩
  · exact absurd (List.cons.inj (List.cons.inj h).2).1 (hcode _ hk)
  · exact absurd (List.cons.inj h).1.symm hslash'
  · exact absurd (List.cons.inj (List.cons.inj h).2).1.symm (hcode _ hk')
  · exact codePointEscape_append_inj h

/-- No character is written as a quote alone. -/
theorem quoteChar_append_ne (c : Char) (r s : List Char) : quoteChar c ++ r ≠ '"' :: s := by
  intro h
  rcases quoteChar_cases c with ⟨hc, hquote, -⟩ | ⟨k, -, hc⟩ | hc <;> rw [hc] at h
  · exact hquote (List.cons.inj h).1
  · exact absurd (List.cons.inj h).1 (by decide)
  · exact absurd (List.cons.inj h).1 (by decide)

theorem quoteChars_append_inj {cs ds r s : List Char}
    (h : quoteChars cs ++ r = quoteChars ds ++ s) : cs = ds ∧ r = s := by
  simp only [quoteChars, List.cons_append, List.append_assoc, List.cons.injEq, true_and,
    List.nil_append] at h
  induction cs generalizing ds with
  | nil =>
    cases ds with
    | nil => exact ⟨rfl, (List.cons.inj h).2⟩
    | cons d ds =>
      rw [List.flatMap_cons, List.append_assoc] at h
      exact absurd h.symm (quoteChar_append_ne d _ _)
  | cons c cs ih =>
    cases ds with
    | nil =>
      rw [List.flatMap_cons, List.append_assoc] at h
      exact absurd h (quoteChar_append_ne c _ _)
    | cons d ds =>
      rw [List.flatMap_cons, List.append_assoc, List.flatMap_cons, List.append_assoc] at h
      obtain ⟨rfl, hrest⟩ := quoteChar_append_inj h
      obtain ⟨rfl, htail⟩ := ih hrest
      exact ⟨rfl, htail⟩

theorem toList_quote (s : String) : (quote s).toList = quoteChars s.toList := by
  rw [quote, String.toList_ofList]

end Text

/-! ### Trees -/

namespace Node

/-- Whether a character may stand in a kind or a field. -/
def isWordChar (c : Char) : Bool := c == '_' || ('a' ≤ c && c ≤ 'z')

/-- A word of small letters and underscores. -/
def IsWord (w : String) : Prop := w.toList ≠ [] ∧ ∀ c ∈ w.toList, isWordChar c

instance (w : String) : Decidable (IsWord w) :=
  decidable_of_iff (w.toList ≠ [] ∧ w.toList.all isWordChar = true) (by rw [List.all_eq_true]; rfl)

/-- The kind of each node and each of its fields are words. -/
def Worded (n : Node) : Prop :=
  ∀ m ∈ n.walk, IsWord m.kind ∧ ∀ c ∈ m.children, IsWord c.1

instance (n : Node) : Decidable n.Worded := inferInstanceAs (Decidable (∀ m ∈ n.walk, _))

theorem mem_walkChildren {m : Node} {children : List (String × Node)} :
    m ∈ walkChildren children ↔ ∃ c ∈ children, m ∈ c.2.walk := by
  induction children with
  | nil => simp [walkChildren]
  | cons c rest ih => simp [walkChildren, ih]

theorem worded_node {kind : String} {span : Span} {value : Option String}
    {children : List (String × Node)} : Worded ⟨kind, span, value, children⟩
      ↔ IsWord kind ∧ ∀ c ∈ children, IsWord c.1 ∧ c.2.Worded := by
  simp only [Worded, walk, List.forall_mem_cons, mem_walkChildren]
  constructor
  · rintro ⟨⟨hkind, hfields⟩, hbelow⟩
    exact ⟨hkind, fun c hc => ⟨hfields c hc, fun m hm => hbelow m ⟨c, hc, hm⟩⟩⟩
  · rintro ⟨hkind, hchildren⟩
    refine ⟨⟨hkind, fun c hc => (hchildren c hc).1⟩, ?_⟩
    rintro m ⟨c, hc, hm⟩
    exact (hchildren c hc).2 m hm

/-- What follows the kind of a node, before other text. -/
def behindKind (value : Option String) (children : List (String × Node)) (r : List Char) :
    List Char :=
  (valueText value).toList ++ ((sexpChildren children).toList ++ ')' :: r)

theorem toList_sexp_append (kind : String) (span : Span) (value : Option String)
    (children : List (String × Node)) (r : List Char) :
    (sexp ⟨kind, span, value, children⟩).toList ++ r
      = '(' :: (kind.toList ++ behindKind value children r) := by
  simp [sexp, behindKind]

theorem toList_sexpChildren_append (field : String) (n : Node) (rest : List (String × Node))
    (r : List Char) : (sexpChildren ((field, n) :: rest)).toList ++ r
      = ' ' :: (field.toList
        ++ ':' :: ' ' :: (n.sexp.toList ++ ((sexpChildren rest).toList ++ r))) := by
  simp [sexpChildren]

/-- Behind the children comes a closing parenthesis, or a blank and a word. -/
theorem sexpChildren_cases {children : List (String × Node)} (h : ∀ c ∈ children, IsWord c.1)
    (r : List Char) : (children = [] ∧ (sexpChildren children).toList ++ ')' :: r = ')' :: r)
      ∨ ∃ c s, isWordChar c ∧ (sexpChildren children).toList ++ ')' :: r = ' ' :: c :: s := by
  cases children with
  | nil => exact .inl ⟨rfl, by simp [sexpChildren]⟩
  | cons x rest =>
    obtain ⟨field, n⟩ := x
    obtain ⟨hne, hword⟩ := h _ List.mem_cons_self
    obtain ⟨c, w, hw⟩ := List.exists_cons_of_ne_nil hne
    rw [toList_sexpChildren_append, show field.toList = c :: w from hw]
    exact .inr ⟨c, _, hword c (hw ▸ List.mem_cons_self), rfl⟩

/-- The kind ends at a character that is not one of a word. -/
theorem head_behindKind {value : Option String} {children : List (String × Node)}
    (h : ∀ c ∈ children, IsWord c.1) (r : List Char) :
    ∀ c ∈ (behindKind value children r).head?, isWordChar c = false := by
  cases value with
  | none =>
    rw [behindKind, valueText]
    rcases sexpChildren_cases h r with ⟨-, hc⟩ | ⟨c, s, -, hc⟩ <;> rw [hc] <;> simp <;> decide
  | some v =>
    simp [behindKind, valueText]
    decide

/-- The value is read in one way: behind the blank it begins with a quote, and a field does not. -/
theorem behindKind_inj {value value' : Option String} {children children' : List (String × Node)}
    (h : ∀ c ∈ children, IsWord c.1) (h' : ∀ c ∈ children', IsWord c.1) {r s : List Char}
    (heq : behindKind value children r = behindKind value' children' s) :
    value = value' ∧ (sexpChildren children).toList ++ ')' :: r
      = (sexpChildren children').toList ++ ')' :: s := by
  have hsome (v : String) (xs : List (String × Node)) (t : List Char) : behindKind (some v) xs t
      = ' ' :: (Text.quoteChars v.toList ++ ((sexpChildren xs).toList ++ ')' :: t)) := by
    simp [behindKind, valueText, Text.toList_quote]
  have hnone (v : String) {xs ys : List (String × Node)} (hys : ∀ c ∈ ys, IsWord c.1)
      (t u : List Char) : behindKind (some v) xs t ≠ behindKind none ys u := by
    intro h
    rw [hsome, Text.quoteChars, behindKind, valueText] at h
    rcases sexpChildren_cases hys u with ⟨-, hc⟩ | ⟨c, s, hword, hc⟩
    · simp [hc] at h
    · simp only [String.toList_empty, List.nil_append, hc, List.cons_append, List.cons.injEq,
        true_and] at h
      rw [← h.1] at hword
      exact absurd hword (by decide)
  cases value with
  | none =>
    cases value' with
    | none => exact ⟨rfl, by simpa [behindKind, valueText] using heq⟩
    | some v => exact absurd heq.symm (hnone v h s r)
  | some v =>
    cases value' with
    | none => exact absurd heq (hnone v h' r s)
    | some w =>
      rw [hsome, hsome] at heq
      obtain ⟨hvalue, hrest⟩ := Text.quoteChars_append_inj (List.cons.inj heq).2
      exact ⟨congrArg some (String.toList_inj.1 hvalue), hrest⟩

mutual

/-- The text of a tree ends where it does and tells the tree, whatever follows it. -/
theorem sexp_append_inj : ∀ (m n : Node) {r s : List Char}, m.Worded → n.Worded →
    m.sexp.toList ++ r = n.sexp.toList ++ s → erase m = erase n ∧ r = s
  | ⟨kind, span, value, xs⟩, ⟨kind', span', value', ys⟩, r, s, hm, hn, h => by
    rw [worded_node] at hm hn
    rw [toList_sexp_append, toList_sexp_append] at h
    have hxs := fun c hc => (hm.2 c hc).1
    have hys := fun c hc => (hn.2 c hc).1
    obtain ⟨hkind, hbehind⟩ := append_inj_of_run hm.1.2 hn.1.2 (head_behindKind hxs r)
      (head_behindKind hys s) (List.cons.inj h).2
    obtain ⟨hvalue, hchildren⟩ := behindKind_inj hxs hys hbehind
    obtain ⟨herase, hrest⟩ := sexpChildren_append_inj xs ys hm.2 hn.2 hchildren
    refine ⟨?_, hrest⟩
    simp only [erase, respan_node] at herase ⊢
    rw [String.toList_inj.1 hkind, hvalue, herase]

theorem sexpChildren_append_inj : ∀ (xs ys : List (String × Node)) {r s : List Char},
    (∀ c ∈ xs, IsWord c.1 ∧ c.2.Worded) → (∀ c ∈ ys, IsWord c.1 ∧ c.2.Worded) →
    (sexpChildren xs).toList ++ ')' :: r = (sexpChildren ys).toList ++ ')' :: s →
      erase xs = erase ys ∧ r = s
  | [], ys, r, s, _, hys, h => by
    rcases sexpChildren_cases (fun c hc => (hys c hc).1) s with ⟨rfl, hc⟩ | ⟨c, t, -, hc⟩
    · exact ⟨rfl, (List.cons.inj (List.append_cancel_left h)).2⟩
    · rw [hc] at h
      simp [sexpChildren] at h
  | (field, m) :: xs, [], r, s, _, _, h => by
    rw [toList_sexpChildren_append] at h
    simp [sexpChildren] at h
  | (field, m) :: xs, (field', n) :: ys, r, s, hxs, hys, h => by
    obtain ⟨hx, hxs⟩ := List.forall_mem_cons.1 hxs
    obtain ⟨hy, hys⟩ := List.forall_mem_cons.1 hys
    have hcolon (t : List Char) : ∀ x ∈ (':' :: t).head?, isWordChar x = false := by
      simp only [List.head?_cons, Option.mem_some_iff, forall_eq']
      decide
    rw [toList_sexpChildren_append, toList_sexpChildren_append] at h
    obtain ⟨hfield, hrest⟩ := append_inj_of_run hx.1.2 hy.1.2 (hcolon _) (hcolon _)
      (List.cons.inj h).2
    obtain ⟨herase, hrest⟩ := sexp_append_inj m n hx.2 hy.2
      (List.cons.inj (List.cons.inj hrest).2).2
    obtain ⟨heraseRest, hrest⟩ := sexpChildren_append_inj xs ys hxs hys hrest
    refine ⟨?_, hrest⟩
    simp only [erase, respan_cons, respan_pair] at herase heraseRest ⊢
    rw [show field = field' from String.toList_inj.1 hfield, herase, heraseRest]

end

/-- Trees that are written alike are equal up to their spans: they have the same kinds and values,
and the same children in the same fields. -/
theorem sexp_injective {m n : Node} (hm : m.Worded) (hn : n.Worded) (h : m.sexp = n.sexp) :
    erase m = erase n :=
  (sexp_append_inj m n (r := []) (s := []) hm hn (by rw [h])).1

/-- A quote, a backslash and a line feed in a value, and an invisible character in that of a child.
-/
theorem sexp_injective_escaped :
    let child (span : Span) := [("b_c", leaf "d" span (some "\u200b"))]
    let m : Node := ⟨"a", .ofOffsets 0 9, some "\"\\\n", child .origin⟩
    let n : Node := ⟨"a", .origin, some "\"\\\n", child (.ofOffsets 1 2)⟩
    (m.Worded ∧ n.Worded ∧ m.sexp = n.sexp) ∧ m ≠ n ∧ erase m = erase n := by
  intro child m n
  have hm : m.Worded := by decide
  have hn : n.Worded := by decide
  have h : m.sexp = n.sexp := by decide +kernel
  refine ⟨⟨hm, hn, h⟩, ?_, sexp_injective hm hn h⟩
  intro hmn
  exact absurd (congrArg Node.span hmn) (by decide)

end Node

end SolidityFrontend
