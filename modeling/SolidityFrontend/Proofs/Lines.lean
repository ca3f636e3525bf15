import SolidityFrontend.Proofs.Joining
import SolidityFrontend.Proofs.LongestMatch

/-!
# Texts on lines of their own

A text without faults has the same tokens wherever it stands on lines of its own. Where a text of
several lines has no faults, none of these lines has one unless a string or a comment goes on in the
next line; it does not if nothing there could close it.
-/

namespace SolidityFrontend

open Text

namespace Literal

/-- A closed string ends with its quote. -/
theorem stringBody_last (quote : Char) (cs : List Char) (h : (stringBody quote cs).closed) :
    0 < (stringBody quote cs).length ∧ cs[(stringBody quote cs).length - 1]? = some quote := by
  fun_induction stringBody quote cs
  case case1 => simp at h
  case case2 => simp
  case case3 => simp at h
  case case4 => simp at h
  case case5 cs e hescape hc hbreak ih =>
    obtain ⟨hpos, hlast⟩ := ih h
    rw [List.getElem?_drop] at hlast
    simp only [StringBody.consEscape]
    refine ⟨by omega, ?_⟩
    rw [List.getElem?_cons, if_neg (by omega), ← hlast]
    congr 1
    omega
  case case6 cs hc hbreak hescape ih =>
    obtain ⟨hpos, hlast⟩ := ih h
    simp only [StringBody.consChar]
    refine ⟨by omega, ?_⟩
    rw [List.getElem?_cons, if_neg (by omega), ← hlast]
    congr 1

theorem hexBody_last (quote : Char) (cs : List Char) (h : (hexBody quote cs).closed) :
    0 < (hexBody quote cs).length ∧ cs[(hexBody quote cs).length - 1]? = some quote := by
  induction cs with
  | nil => simp [hexBody] at h
  | cons c cs ih =>
    rw [hexBody] at h ⊢
    by_cases hc : c = quote
    · simp [hc]
    by_cases hbreak : c = '\n' ∨ c = '\r'
    · simp [hc, hbreak] at h
    have hrest (b : HexBody) (hclosed : b.closed = (hexBody quote cs).closed)
        (hlength : b.length = (hexBody quote cs).length + 1) (h : b.closed) :
        0 < b.length ∧ (c :: cs)[b.length - 1]? = some quote := by
      obtain ⟨hpos, hlast⟩ := ih (hclosed ▸ h)
      rw [hlength]
      refine ⟨by omega, ?_⟩
      rw [List.getElem?_cons, if_neg (by omega), ← hlast]
      congr 1
    rw [if_neg hc, if_neg hbreak] at h ⊢
    refine hrest _ ?_ ?_ h
    · dsimp only
      split
      · rfl
      · split <;> rfl
    · dsimp only
      split
      · rfl
      · split <;> rfl

theorem scanBlockComment_last (cs : List Char) : ∀ {n : Nat}, scanBlockComment cs = some n →
    0 < n ∧ cs[n - 1]? = some '/' := by
  fun_induction scanBlockComment cs
  case case1 =>
    intro n h
    obtain rfl : 2 = n := by simpa using h
    simp
  case case2 c cs hend ih =>
    intro n h
    obtain ⟨m, hm, rfl⟩ := Option.map_eq_some_iff.1 h
    obtain ⟨hpos, hlast⟩ := ih hm
    refine ⟨by omega, ?_⟩
    rw [List.getElem?_cons, if_neg (by omega), ← hlast]
    congr 1
  case case3 =>
    intro n h
    simp at h

end Literal

/-- Whether a string or a comment can end with a character. -/
def closesText (c : Char) : Bool := c == '"' || c == '\x27' || c == '/'

namespace Content

variable {c : Char} {cs b : List Char}

theorem ofString_last (kind : StringKind) (quote : Char) {body : List Char}
    (h : (ofString kind quote body).1.isFault = false) :
    0 < (ofString kind quote body).2 ∧ body[(ofString kind quote body).2 - 1]? = some quote := by
  cases kind with
  | plain | unicode =>
    simp only [ofString, Literal.scanString] at h ⊢
    refine Literal.stringBody_last quote body ?_
    by_contra hopen
    rw [if_neg hopen] at h
    simp [ofScan, isFault] at h
  | hex =>
    simp only [ofString, Literal.scanHexString] at h ⊢
    refine Literal.hexBody_last quote body ?_
    by_contra hopen
    rw [if_neg hopen] at h
    simp [ofScan, isFault] at h

/-- A last character that does not stand behind a text stands in it. -/
theorem le_of_last {n m : Nat} {a : List Char} {d : Char} (hpos : 0 < m)
    (hlast : ((a ++ b).drop n)[m - 1]? = some d) (hd : d ∉ b) : n + m ≤ a.length := by
  rw [List.getElem?_drop] at hlast
  by_contra hlt
  rw [List.getElem?_append_right (by omega)] at hlast
  exact hd (List.mem_of_getElem? hlast)

/-- What begins a text without a fault does not go beyond a line break if nothing there could close
it. -/
theorem first_le (hc : Rule.isSeparator c = false) (hb : ∀ d ∈ b, closesText d = false)
    (h : (first c (cs ++ '\n' :: b)).1.isFault = false) :
    (first c (cs ++ '\n' :: b)).2 ≤ cs.length + 1 := by
  obtain ⟨hsame, hle⟩ := longest_newline hc cs b
  rw [List.cons_append] at hsame
  have hbelow : ∀ d ∈ '\n' :: b, closesText d = false := List.forall_mem_cons.2 ⟨by decide, hb⟩
  rcases hchosen : Rule.longest (c :: cs) with _ | ⟨r, n⟩
  · rw [first, ← hsame, hchosen] at h
    simp [isFault] at h
  rw [hchosen] at hle
  have hfirst : first c (cs ++ '\n' :: b) = ofRule r n (c :: cs ++ '\n' :: b) := by
    rw [first, ← hsame, hchosen]
    rfl
  rw [hfirst] at h ⊢
  change _ ≤ (c :: cs).length
  cases r with
  | openString kind quote =>
    obtain ⟨hlongest, -⟩ := Rule.longest_of_eq_some hchosen
    obtain ⟨hpos, hlast⟩ := ofString_last kind quote h
    refine le_of_last hpos hlast fun hmem => ?_
    obtain ⟨-, rfl | rfl⟩ := Rule.openString_cases hlongest.rule
    · exact absurd (hbelow _ hmem) (by decide)
    · exact absurd (hbelow _ hmem) (by decide)
  | openComment =>
    simp only [ofRule] at h ⊢
    rcases hscan : Literal.scanBlockComment ((c :: cs ++ '\n' :: b).drop n) with _ | m
    · rw [hscan] at h
      simp [isFault] at h
    · obtain ⟨hpos, hlast⟩ := Literal.scanBlockComment_last _ hscan
      exact le_of_last hpos hlast fun hmem => absurd (hbelow _ hmem) (by decide)
  | _ => exact hle

end Content

/-- Where a text and what stands on the lines below it have no faults, the text alone has none. -/
theorem isFault_of_newline {b : List Char} (hb : ∀ d ∈ b, closesText d = false) (here : Location)
    (a : List Char) (h : ∀ s ∈ segments here (a ++ '\n' :: b), s.content.isFault = false) :
    ∀ s ∈ segments here a, s.content.isFault = false := by
  induction here, a using segments_induction with
  | hnil here => simp [segments_nil]
  | hcons here c cs ih =>
    -- Unless blanks are all that is left, the first segment is the same in both texts.
    have hstep (hle : (Content.first c (cs ++ '\n' :: b)).2 ≤ cs.length + 1) :
        ∀ s ∈ segments here (c :: cs), s.content.isFault = false := by
      have hsame := Content.first_append hle
      rw [List.cons_append, segments_cons, ← hsame, ← List.cons_append,
        List.forall_mem_cons] at h
      rw [← hsame] at hle
      rw [List.drop_append_of_le_length hle, List.take_append_of_le_length hle] at h
      rw [segments_cons, List.forall_mem_cons]
      exact ⟨h.1, ih h.2⟩
    rw [List.cons_append, segments_cons, List.forall_mem_cons] at h
    by_cases hc : Rule.isSeparator c
    · rw [Content.first_blank hc] at hstep
      by_cases hshort : (cs.takeWhile Rule.isSeparator).length = cs.length
      · rw [segments_cons, Content.first_blank hc, Rule.runLength, hshort,
          List.drop_of_length_le (by simp [Nat.add_comm]), segments_nil]
        simp [Content.isFault]
      · have hle := (List.takeWhile_prefix Rule.isSeparator (l := cs)).length_le
        refine hstep ?_
        rw [Rule.runLength, List.takeWhile_append, if_neg hshort]
        dsimp only
        omega
    · exact hstep (Content.first_le (by simpa using hc) hb h.1)

theorem errors_of_newline {a b : String} (hb : ∀ d ∈ b.toList, closesText d = false)
    (h : (tokenize (a ++ "\n" ++ b)).errors = []) : (tokenize a).errors = [] := by
  have hchars : (a ++ "\n" ++ b).toList = a.toList ++ '\n' :: b.toList := by simp
  have hwhole : ((segments .origin (a.toList ++ '\n' :: b.toList)).filterMap Segment.error?) = [] := by
    rw [← hchars]
    exact h
  have hfault := isFault_of_newline hb .origin a.toList (isFault_of_errors_eq_nil hwhole)
  refine List.filterMap_eq_nil_iff.2 fun s hs => ?_
  have hnone := hfault s hs
  rcases hcontent : s.content with _ | t | f
  · simp [Segment.error?, hcontent]
  · simp [Segment.error?, hcontent]
  · simp [hcontent, Content.isFault] at hnone

/-! ### Texts one below the other -/

/-- Texts one below the other. -/
def lines (texts : List String) : String := "\n".intercalate texts

theorem lines_eq (texts : List String) :
    lines texts = String.ofList (['\n'].intercalate (texts.map String.toList)) := by
  rw [← String.toList_inj, String.toList_ofList, lines, String.toList_intercalate]
  rfl

theorem lines_cons {text : String} {texts : List String} (h : texts ≠ []) :
    lines (text :: texts) = text ++ "\n" ++ lines texts := by
  obtain ⟨text', texts, rfl⟩ := List.exists_cons_of_ne_nil h
  rw [lines, String.intercalate_cons_cons, lines]

/-- The tokens of a text. -/
def tokensOf (source : String) : List Token := (tokenize source).tokens.map Lexeme.token

theorem tokensOf_ofList (cs : List Char) :
    tokensOf (String.ofList cs) = (scan cs).tokens.map Lexeme.token := by
  rw [tokensOf, tokenize_ofList]

theorem tokensOf_below {a b : String} (h : (tokenize a).errors = []) :
    tokensOf (a ++ "\n" ++ b) = tokensOf a ++ tokensOf b := by
  rw [tokensOf, tokenize_below h, List.map_append]
  congr 1
  rw [respan_list, List.map_map]
  rfl

/-- Texts without faults have the same tokens one below the other, and no faults. -/
theorem tokenize_lines (texts : List String) (h : ∀ text ∈ texts, (tokenize text).errors = []) :
    tokensOf (lines texts) = texts.flatMap tokensOf ∧ (tokenize (lines texts)).errors = [] := by
  induction texts with
  | nil => exact ⟨by decide +kernel, by decide +kernel⟩
  | cons text texts ih =>
    rw [List.forall_mem_cons] at h
    obtain ⟨htokens, herrors⟩ := ih h.2
    rcases texts with _ | ⟨text', texts⟩
    · have hone : lines [text] = text := String.intercalate_singleton
      rw [hone]
      exact ⟨by simp, h.1⟩
    · rw [lines_cons (by simp), tokensOf_below h.1, htokens, tokenize_below h.1, herrors]
      exact ⟨rfl, rfl⟩

end SolidityFrontend
