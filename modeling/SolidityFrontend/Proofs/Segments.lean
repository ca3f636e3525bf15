import SolidityFrontend.Proofs.Measuring
import SolidityFrontend.Proofs.Phrase

/-!
# Cutting a text in two

The first segment of a text is that of every start of the text that holds it, so a text that is cut
between two segments gives the same segments as its two parts.
-/

namespace SolidityFrontend

open Text

/-! ### Bodies of strings and comments -/

namespace Literal

theorem takeUpTo_append {n : Nat} {p : Char → Bool} {a b : List Char}
    (h : (takeUpTo n p (a ++ b)).length ≤ a.length) : takeUpTo n p a = takeUpTo n p (a ++ b) := by
  induction a generalizing n with
  | nil =>
    have hnil : takeUpTo n p ([] ++ b) = [] := List.eq_nil_of_length_eq_zero (by simpa using h)
    rw [hnil]
    simp [takeUpTo]
  | cons c a ih =>
    cases n with
    | zero => rfl
    | succ n =>
      simp only [takeUpTo, List.cons_append, List.take_succ_cons, List.takeWhile_cons] at h ⊢
      split at h
      · rename_i hc
        rw [if_pos hc, if_pos hc]
        exact congrArg (c :: ·) (ih (by simpa [takeUpTo] using h))
      · rename_i hc
        rw [if_neg hc, if_neg hc]

theorem hexEscape_append {a b : List Char} (h : (hexEscape (a ++ b)).length ≤ a.length + 1) :
    hexEscape a = hexEscape (a ++ b) := by
  have hlength : (takeUpTo 2 isHexDigit (a ++ b)).length ≤ a.length := by
    simp only [hexEscape] at h
    split at h
    · simp only at h
      omega
    · simp only at h
      omega
  simp only [hexEscape, takeUpTo_append hlength]

theorem octalEscape_append {a b : List Char} (h : (octalEscape (a ++ b)).length ≤ a.length) :
    octalEscape a = octalEscape (a ++ b) := by
  simp only [octalEscape] at h ⊢
  rw [takeUpTo_append h]

theorem Escape.length_codePoint (length n : Nat) : (Escape.codePoint length n).length = length := by
  unfold Escape.codePoint
  split <;> rfl

theorem unicodeEscape_of_head_ne {cs : List Char} (h : cs.head? ≠ some '{') :
    unicodeEscape cs = if (takeUpTo 4 isHexDigit cs).length = 4
      then .codePoint 5 (ofDigits 16 (takeUpTo 4 isHexDigit cs))
      else ⟨1 + (takeUpTo 4 isHexDigit cs).length, none⟩ := by
  unfold unicodeEscape
  split
  · exact absurd rfl h
  · rfl

theorem bracedEscape_append {a b : List Char}
    (h : (unicodeEscape ('{' :: (a ++ b))).length ≤ a.length + 2) :
    unicodeEscape ('{' :: a) = unicodeEscape ('{' :: (a ++ b)) := by
  simp only [unicodeEscape] at h ⊢
  have hlength : (takeUpTo 6 isHexDigit (a ++ b)).length ≤ a.length := by
    split at h
    · simp only at h
      omega
    · rw [Escape.length_codePoint] at h
      omega
  rw [takeUpTo_append hlength]
  generalize takeUpTo 6 isHexDigit (a ++ b) = digits at h hlength ⊢
  rw [List.drop_append_of_le_length hlength] at h ⊢
  rcases hdrop : a.drop digits.length with _ | ⟨c, rest⟩
  · -- The digits end with the text, so there is no closing brace in either.
    have hle := List.drop_eq_nil_iff.1 hdrop
    rw [hdrop] at h
    split at h
    · rename_i hinvalid
      rw [if_pos hinvalid]
      simp
    · rw [Escape.length_codePoint] at h
      omega
  · rfl

theorem unicodeEscape_append {a b : List Char}
    (h : (unicodeEscape (a ++ b)).length ≤ a.length + 1) :
    unicodeEscape a = unicodeEscape (a ++ b) := by
  by_cases hbrace : (a ++ b).head? = some '{'
  · rcases a with _ | ⟨c, a⟩
    · obtain ⟨cs, hcs⟩ : ∃ cs, b = '{' :: cs := by
        rcases b with _ | ⟨c, cs⟩
        · simp at hbrace
        · exact ⟨cs, by simpa using hbrace⟩
      rw [hcs, List.nil_append] at h
      simp only [unicodeEscape] at h
      split at h
      · simp only [List.length_nil] at h
        omega
      · rw [Escape.length_codePoint, List.length_nil] at h
        omega
    · obtain rfl : c = '{' := by simpa using hbrace
      exact bracedEscape_append h
  · have hstart : a.head? ≠ some '{' := by
      rcases a with _ | ⟨c, a⟩
      · simp
      · simpa using hbrace
    rw [unicodeEscape_of_head_ne hbrace] at h ⊢
    rw [unicodeEscape_of_head_ne hstart]
    have hlength : (takeUpTo 4 isHexDigit (a ++ b)).length ≤ a.length := by
      split at h
      · rw [Escape.length_codePoint] at h
        omega
      · simp only at h
        omega
    rw [takeUpTo_append hlength]

theorem length_hexEscape_pos (cs : List Char) : 0 < (hexEscape cs).length := by
  simp only [hexEscape]
  split
  · simp
  · simp only
    omega

theorem length_unicodeEscape_pos (cs : List Char) : 0 < (unicodeEscape cs).length := by
  by_cases h : cs.head? = some '{'
  · obtain ⟨c, cs, rfl⟩ := List.exists_cons_of_ne_nil (l := cs) (by rintro rfl; simp at h)
    obtain rfl : c = '{' := by simpa using h
    simp only [unicodeEscape]
    split
    · simp only
      omega
    · rw [Escape.length_codePoint]
      omega
  · rw [unicodeEscape_of_head_ne h]
    split
    · simp [Escape.length_codePoint]
    · simp only
      omega

theorem length_octalEscape_pos {c : Char} (cs : List Char) (h : isOctalDigit c) :
    0 < (octalEscape (c :: cs)).length := by
  simp [octalEscape, takeUpTo, h]

/-- An escape takes at least the character behind the backslash. -/
theorem length_escape?_pos {cs : List Char} {e : Escape} (h : escape? cs = some e) :
    0 < e.length := by
  rcases cs with _ | ⟨c, cs⟩
  · simp [escape?] at h
  unfold escape? at h
  simp only [Option.some_inj] at h
  subst h
  split
  case h_8 => split <;> simp
  case h_9 => exact length_hexEscape_pos cs
  case h_10 => exact length_unicodeEscape_pos cs
  case h_11 =>
    split
    · exact length_octalEscape_pos cs ‹_›
    · simp [Escape.char]
  all_goals simp [Escape.char]

theorem escape?_append {a b : List Char} {e : Escape} (h : escape? (a ++ b) = some e)
    (hle : e.length ≤ a.length) : escape? a = some e := by
  rcases a with _ | ⟨c, a⟩
  · have hpos := length_escape?_pos h
    rw [List.length_nil] at hle
    omega
  unfold escape? at h ⊢
  simp only [List.cons_append, Option.some_inj] at h ⊢
  subst h
  split
  case h_8 =>
    rcases a with _ | ⟨d, a⟩
    · have hhead : b.head? ≠ some '\n' := by
        intro hb
        simp [hb] at hle
      simp [hhead]
    · rfl
  case h_9 => exact hexEscape_append hle
  case h_10 => exact unicodeEscape_append hle
  case h_11 =>
    by_cases hc : isOctalDigit c
    · simp only [hc, if_true] at hle ⊢
      exact octalEscape_append (a := c :: a) hle
    · simp only [hc, Bool.false_eq_true, if_false]
  all_goals rfl

/-- The body of a string is that of each start of the text that holds it. -/
theorem stringBody_append (quote : Char) (cs : List Char) : ∀ {a b : List Char}, cs = a ++ b →
    (stringBody quote cs).length ≤ a.length → stringBody quote a = stringBody quote cs := by
  fun_induction stringBody quote cs
  case case1 =>
    intro a b hcs hle
    obtain ⟨rfl, rfl⟩ := List.append_eq_nil_iff.1 hcs.symm
    rw [stringBody]
  case case2 =>
    intro a b hcs hle
    rcases a with _ | ⟨c, a⟩
    · simp at hle
    · rw [List.cons_append, List.cons.injEq] at hcs
      obtain ⟨rfl, -⟩ := hcs
      rw [stringBody, if_pos rfl]
  case case3 hc hbreak =>
    intro a b hcs hle
    rcases a with _ | ⟨c, a⟩
    · rw [stringBody]
    · rw [List.cons_append, List.cons.injEq] at hcs
      obtain ⟨rfl, -⟩ := hcs
      rw [stringBody, if_neg hc, if_pos hbreak]
  case case4 hescape hc hbreak =>
    intro a b hcs hle
    rcases a with _ | ⟨c, a⟩
    · simp at hle
    · rw [List.cons_append, List.cons.injEq] at hcs
      obtain ⟨rfl, rfl⟩ := hcs
      obtain rfl : a = [] := by
        rcases a with _ | ⟨c, a⟩
        · rfl
        · simp [escape?] at hescape
      rw [stringBody, if_neg hc, if_neg hbreak, if_pos rfl]
      rfl
  case case5 e hescape hc hbreak ih =>
    intro a b hcs hle
    rcases a with _ | ⟨c, a⟩
    · simp [StringBody.consEscape] at hle
    · rw [List.cons_append, List.cons.injEq] at hcs
      obtain ⟨rfl, rfl⟩ := hcs
      simp only [StringBody.consEscape, List.length_cons] at hle
      have hfits : e.length ≤ a.length := by omega
      rw [stringBody, if_neg hc, if_neg hbreak, if_pos rfl, escape?_append hescape hfits]
      dsimp only
      rw [List.take_append_of_le_length hfits]
      rw [ih (List.drop_append_of_le_length hfits) (by rw [List.length_drop]; omega)]
  case case6 hc hbreak hescape ih =>
    intro a b hcs hle
    rcases a with _ | ⟨c, a⟩
    · simp [StringBody.consChar] at hle
    · rw [List.cons_append, List.cons.injEq] at hcs
      obtain ⟨rfl, rfl⟩ := hcs
      simp only [StringBody.consChar, List.length_cons] at hle
      rw [stringBody, if_neg hc, if_neg hbreak, if_neg hescape, ih rfl (by omega)]

/-- The body of a hex string is that of each start of the text that holds it. -/
theorem hexBody_append {quote : Char} {a b : List Char}
    (h : (hexBody quote (a ++ b)).length ≤ a.length) :
    hexBody quote a = hexBody quote (a ++ b) := by
  induction a with
  | nil =>
    rcases b with _ | ⟨c, b⟩
    · rfl
    · simp only [List.nil_append, hexBody] at h ⊢
      split at h
      · simp at h
      split at h
      · rename_i hc hbreak
        rw [if_neg hc, if_pos hbreak]
      · split at h
        · simp at h
        · split at h <;> simp at h
  | cons c a ih =>
    simp only [List.cons_append, hexBody, List.length_cons] at h ⊢
    by_cases hc : c = quote
    · rw [if_pos hc, if_pos hc]
    by_cases hbreak : c = '\n' ∨ c = '\r'
    · rw [if_neg hc, if_neg hc, if_pos hbreak, if_pos hbreak]
    rw [if_neg hc, if_neg hbreak] at h
    have hrest : hexBody quote a = hexBody quote (a ++ b) := by
      refine ih ?_
      split at h
      · simpa using h
      · split at h <;> simpa using h
    rw [hrest]

/-- The body of a comment is that of each start of the text that holds it. -/
theorem scanBlockComment_append (cs : List Char) : ∀ {a b : List Char} {n : Nat}, cs = a ++ b →
    scanBlockComment cs = some n → n ≤ a.length → scanBlockComment a = some n := by
  fun_induction scanBlockComment cs
  case case1 =>
    intro a b n hcs hn hle
    obtain rfl : 2 = n := by simpa using hn
    obtain ⟨x, y, a, rfl⟩ : ∃ x y rest, a = x :: y :: rest := by
      match a, hle with
      | x :: y :: rest, _ => exact ⟨x, y, rest, rfl⟩
    simp only [List.cons_append, List.cons.injEq] at hcs
    obtain ⟨rfl, rfl, -⟩ := hcs
    rfl
  case case2 c cs hend ih =>
    intro a b n hcs hn hle
    obtain ⟨m, hm, rfl⟩ := Option.map_eq_some_iff.1 hn
    rcases a with _ | ⟨c, a⟩
    · simp at hle
    rw [List.cons_append, List.cons.injEq] at hcs
    obtain ⟨rfl, rfl⟩ := hcs
    have hrest := ih rfl hm (by simpa using hle)
    rw [scanBlockComment.eq_2 _ _ ?_, hrest]
    · rfl
    · rintro rest rfl rfl
      exact hend (rest ++ b) rfl rfl
  case case3 =>
    intro a b n hcs hn hle
    simp at hn

end Literal

/-! ### The first segment -/

namespace Content

theorem ofString_append {kind : StringKind} {quote : Char} {a b : List Char}
    (h : (ofString kind quote (a ++ b)).2 ≤ a.length) :
    ofString kind quote a = ofString kind quote (a ++ b) := by
  cases kind with
  | plain | unicode =>
    simp only [ofString, Literal.scanString] at h ⊢
    rw [Literal.stringBody_append quote (a ++ b) rfl h]
  | hex =>
    simp only [ofString, Literal.scanHexString] at h ⊢
    rw [Literal.hexBody_append h]

/-- A lexeme takes at least what its rule measured. -/
theorem le_ofRule {r : Rule} {n : Nat} {cs : List Char} (h : n = r.length cs) :
    n ≤ (ofRule r n cs).2 := by
  cases r with
  | openString kind quote =>
    simp only [ofRule]
    omega
  | openComment =>
    simp only [ofRule]
    split
    · omega
    · rw [h, Rule.length, Rule.spellingLength]
      split
      · exact (List.isPrefixOf_iff_prefix.1 ‹_›).length_le
      · exact Nat.zero_le _
  | _ => exact le_rfl

theorem ofRule_append {r : Rule} {n : Nat} {a b : List Char} (hn : n ≤ a.length)
    (h : (ofRule r n (a ++ b)).2 ≤ a.length) : ofRule r n a = ofRule r n (a ++ b) := by
  have htake : (a ++ b).take n = a.take n := List.take_append_of_le_length hn
  have hdrop : (a ++ b).drop n = a.drop n ++ b := List.drop_append_of_le_length hn
  cases r with
  | openString kind quote =>
    simp only [ofRule, hdrop] at h ⊢
    rw [ofString_append (b := b) (by rw [List.length_drop]; omega)]
  | openComment =>
    simp only [ofRule, hdrop] at h ⊢
    rcases hscan : Literal.scanBlockComment (a.drop n ++ b) with _ | m
    · -- Without a closing mark the comment takes the whole text.
      rw [hscan] at h
      obtain rfl : b = [] := by
        refine List.eq_nil_of_length_eq_zero ?_
        simp only [List.length_append] at h
        omega
      rw [List.append_nil] at hscan ⊢
      rw [hscan]
    · rw [hscan] at h
      rw [Literal.scanBlockComment_append (a.drop n ++ b) rfl hscan (by
        rw [List.length_drop]
        simp only at h
        omega)]
  | _ => simp only [ofRule, htake]

theorem first_pos (c : Char) (cs : List Char) : 0 < (first c cs).2 := by
  unfold first
  split
  · rename_i r n h
    obtain ⟨hlength, hpos⟩ := Rule.length_of_longest h
    exact lt_of_lt_of_le hpos (le_ofRule hlength)
  · exact Nat.one_pos

/-- What stands at the start of a text stands at each start of the text that holds it. -/
theorem first_append {c : Char} {a b : List Char} (h : (first c (a ++ b)).2 ≤ a.length + 1) :
    first c a = first c (a ++ b) := by
  rcases hchosen : Rule.longest (c :: a ++ b) with _ | ⟨r, n⟩
  · have hstart : Rule.longest (c :: a) = none := by
      rw [← hchosen]
      exact Rule.longest_append (by rw [hchosen]; exact Nat.zero_le _)
    rw [List.cons_append] at hchosen
    rw [first, first, hchosen, hstart]
  · have hn : n ≤ (ofRule r n (c :: a ++ b)).2 := le_ofRule (Rule.length_of_longest hchosen).1
    have hfirst : first c (a ++ b) = ofRule r n (c :: a ++ b) := by
      rw [List.cons_append] at hchosen
      rw [first, hchosen, List.cons_append]
    rw [hfirst] at h ⊢
    have hstart : Rule.longest (c :: a) = some (r, n) := by
      rw [← hchosen]
      refine Rule.longest_append ?_
      rw [hchosen]
      exact hn.trans h
    rw [first, hstart]
    exact ofRule_append (hn.trans h) h

end Content

/-! ### Segments -/

/-- The first segment takes at least one character, and the others are those of the rest. -/
theorem segments_cons (here : Location) (c : Char) (cs : List Char) :
    segments here (c :: cs) =
      ⟨(Content.first c cs).1, here, here.advanceBy ((c :: cs).take (Content.first c cs).2)⟩
        :: segments (here.advanceBy ((c :: cs).take (Content.first c cs).2))
          ((c :: cs).drop (Content.first c cs).2) := by
  rw [segments]
  obtain ⟨n, hn⟩ := Nat.exists_eq_succ_of_ne_zero (Content.first_pos c cs).ne'
  simp only [hn, Nat.succ_eq_add_one, Nat.add_sub_cancel, List.drop_succ_cons]

/-- A text that begins with a segment keeps it when it is cut farther behind. -/
theorem segments_of_drop {here : Location} {c : Char} {cs x y : List Char}
    (h : (c :: cs).drop (Content.first c cs).2 = x ++ y) :
    segments here ((c :: cs).take (Content.first c cs).2 ++ x) =
      ⟨(Content.first c cs).1, here, here.advanceBy ((c :: cs).take (Content.first c cs).2)⟩
        :: segments (here.advanceBy ((c :: cs).take (Content.first c cs).2)) x := by
  obtain ⟨k, hk⟩ := Nat.exists_eq_succ_of_ne_zero (Content.first_pos c cs).ne'
  rw [hk, Nat.succ_eq_add_one, List.drop_succ_cons] at h
  have hcs : cs = (cs.take k ++ x) ++ y := by
    rw [List.append_assoc, ← h, List.take_append_drop]
  obtain ⟨hfirst, htake, hdrop⟩ : Content.first c (cs.take k ++ x) = Content.first c cs
      ∧ (cs.take k ++ x).take k = cs.take k ∧ (cs.take k ++ x).drop k = x := by
    by_cases hle : k ≤ cs.length
    · have hlength := List.length_take_of_le hle
      refine ⟨?_, List.take_left' hlength, List.drop_left' hlength⟩
      have happend := Content.first_append (c := c) (a := cs.take k ++ x) (b := y) (by
        rw [← hcs, hk, List.length_append, hlength]
        omega)
      rwa [← hcs] at happend
    · rw [List.drop_of_length_le (by omega)] at h
      obtain ⟨rfl, rfl⟩ := List.append_eq_nil_iff.1 h.symm
      rw [List.append_nil, List.take_of_length_le (by omega)]
      exact ⟨rfl, List.take_of_length_le (by omega), List.drop_of_length_le (by omega)⟩
  rw [hk, Nat.succ_eq_add_one, List.take_succ_cons, List.cons_append, segments_cons, hfirst, hk]
  rw [Nat.succ_eq_add_one, List.take_succ_cons, List.drop_succ_cons, htake, hdrop]

/-- What is cut behind some segments is a text whose segments are the others. -/
theorem segments_eq_append {here : Location} {cs : List Char} {P Q : List Segment}
    (h : segments here cs = P ++ Q) : ∃ x y, cs = x ++ y ∧ segments here x = P
      ∧ segments (here.advanceBy x) y = Q := by
  induction P generalizing here cs with
  | nil => exact ⟨[], cs, rfl, by rw [segments], h⟩
  | cons s P ih =>
    rcases cs with _ | ⟨c, cs⟩
    · rw [segments] at h
      simp at h
    rw [segments_cons, List.cons_append, List.cons.injEq] at h
    obtain ⟨rfl, hrest⟩ := h
    obtain ⟨x, y, hxy, hx, hy⟩ := ih hrest
    refine ⟨(c :: cs).take (Content.first c cs).2 ++ x, y, ?_, ?_, ?_⟩
    · rw [List.append_assoc, ← hxy, List.take_append_drop]
    · rw [segments_of_drop hxy, hx]
    · rw [Location.advanceBy_append, hy]

theorem segments_nil (here : Location) : segments here [] = [] := by rw [segments]

/-- What holds of the empty text, and of every text if it holds behind its first segment, holds
of all texts. -/
theorem segments_induction {M : Location → List Char → Prop} (hnil : ∀ here, M here [])
    (hcons : ∀ here c cs, M (here.advanceBy ((c :: cs).take (Content.first c cs).2))
      ((c :: cs).drop (Content.first c cs).2) → M here (c :: cs)) (here : Location)
    (cs : List Char) : M here cs := by
  induction hn : cs.length using Nat.strong_induction_on generalizing here cs with
  | _ n ih =>
    rcases cs with _ | ⟨c, cs⟩
    · exact hnil here
    · have hpos := Content.first_pos c cs
      refine hcons here c cs (ih _ ?_ _ _ rfl)
      rw [← hn, List.length_drop, List.length_cons]
      omega

/-- What the segments of a text are does not depend on where the text stands. -/
theorem map_content_segments (here there : Location) (cs : List Char) :
    (segments here cs).map Segment.content = (segments there cs).map Segment.content := by
  induction here, cs using segments_induction generalizing there with
  | hnil here => rw [segments_nil, segments_nil]
  | hcons here c cs ih =>
    rw [segments_cons, segments_cons, List.map_cons, List.map_cons]
    exact congrArg _ (ih _)

/-- Segments lie end to end, from the start of the text to its end. -/
theorem head?_segments (here : Location) (cs : List Char) :
    ((segments here cs).head?.map fun s => s.span.start).getD (here.advanceBy cs) = here := by
  rcases cs with _ | ⟨c, cs⟩
  · rw [segments_nil]
    rfl
  · rw [segments_cons]
    rfl

theorem getLast?_segments (here : Location) (cs : List Char) :
    ((segments here cs).getLast?.map fun s => s.span.stop).getD here = here.advanceBy cs := by
  induction here, cs using segments_induction with
  | hnil here =>
    rw [segments_nil]
    rfl
  | hcons here c cs ih =>
    rw [← Location.advanceBy_append, List.take_append_drop] at ih
    rw [segments_cons, List.getLast?_cons, ← ih]
    cases (segments _ ((c :: cs).drop (Content.first c cs).2)).getLast? <;> rfl

theorem byteLength_pos {cs : List Char} (h : cs ≠ []) : 0 < byteLength cs := by
  rcases cs with _ | ⟨c, cs⟩
  · exact absurd rfl h
  · have hpos := c.utf8Size_pos
    rw [byteLength]
    omega

/-- Every segment takes at least one byte and ends before the next one begins. -/
theorem segments_inOrder (here : Location) (cs : List Char) :
    (∀ s ∈ segments here cs, here.offset ≤ s.span.start.offset
        ∧ s.span.start.offset < s.span.stop.offset)
      ∧ (segments here cs).Pairwise fun s t => s.span.stop.offset ≤ t.span.start.offset := by
  induction here, cs using segments_induction with
  | hnil here => simp [segments_nil]
  | hcons here c cs ih =>
    obtain ⟨hbounds, hpairwise⟩ := ih
    have hpos : 0 < byteLength ((c :: cs).take (Content.first c cs).2) := by
      refine byteLength_pos ?_
      have hfirst := Content.first_pos c cs
      simp only [ne_eq, List.take_eq_nil_iff, List.cons_ne_nil, or_false]
      omega
    rw [segments_cons]
    simp only [Location.offset_advanceBy] at hbounds
    refine ⟨?_, List.pairwise_cons.2 ⟨?_, hpairwise⟩⟩
    · intro s hs
      rcases List.mem_cons.1 hs with rfl | hs
      · rw [Location.offset_advanceBy]
        dsimp only
        omega
      · have hs := hbounds s hs
        omega
    · intro t ht
      rw [Location.offset_advanceBy]
      exact (hbounds t ht).1

theorem segments_stop_le (here : Location) (cs : List Char) :
    ∀ s ∈ segments here cs, s.span.stop.offset ≤ here.offset + byteLength cs := by
  induction here, cs using segments_induction with
  | hnil here => simp [segments_nil]
  | hcons here c cs ih =>
    have hsplit := congrArg byteLength (List.take_append_drop (Content.first c cs).2 (c :: cs))
    rw [byteLength_append] at hsplit
    simp only [Location.offset_advanceBy] at ih
    rw [segments_cons]
    intro s hs
    rcases List.mem_cons.1 hs with rfl | hs
    · dsimp only
      rw [Location.offset_advanceBy]
      omega
    · have hs := ih s hs
      omega

/-! ### Slices -/

theorem dropBytes_byteLength (x y : List Char) : dropBytes (byteLength x) (x ++ y) = some y := by
  induction x with
  | nil => rw [byteLength, List.nil_append, dropBytes]
  | cons c x ih =>
    have hpos := c.utf8Size_pos
    obtain ⟨n, hn⟩ : ∃ n, byteLength (c :: x) = n + 1 :=
      ⟨byteLength (c :: x) - 1, by simp only [byteLength]; omega⟩
    have hrest : n + 1 - c.utf8Size = byteLength x := by
      simp only [byteLength] at hn
      omega
    have hle : c.utf8Size ≤ n + 1 := by
      simp only [byteLength] at hn
      omega
    rw [hn, List.cons_append, dropBytes, if_pos hle, hrest, ih]

theorem takeBytes_byteLength (x y : List Char) : takeBytes (byteLength x) (x ++ y) = some x := by
  induction x with
  | nil => rw [byteLength, List.nil_append, takeBytes]
  | cons c x ih =>
    have hpos := c.utf8Size_pos
    obtain ⟨n, hn⟩ : ∃ n, byteLength (c :: x) = n + 1 :=
      ⟨byteLength (c :: x) - 1, by simp only [byteLength]; omega⟩
    have hrest : n + 1 - c.utf8Size = byteLength x := by
      simp only [byteLength] at hn
      omega
    have hle : c.utf8Size ≤ n + 1 := by
      simp only [byteLength] at hn
      omega
    rw [hn, List.cons_append, takeBytes, if_pos hle, hrest, ih]
    rfl

/-- A middle part of a text is the slice between its two offsets. -/
theorem sliceBytes_byteLength (x y z : List Char) :
    sliceBytes (byteLength x) (byteLength (x ++ y)) (x ++ y ++ z) = some y := by
  rw [sliceBytes, byteLength_append, if_pos (by omega), List.append_assoc, dropBytes_byteLength,
    Nat.add_sub_cancel_left]
  exact takeBytes_byteLength y z

/-- The text from one place to another holds the characters between them. -/
theorem text_advanceBy {source : String} (x y : List Char) {z : List Char}
    (h : source.toList = x ++ y ++ z) :
    Span.text ⟨Location.origin.advanceBy x, Location.origin.advanceBy (x ++ y)⟩ source
      = String.ofList y := by
  rw [Span.text, h]
  simp only [Location.offset_advanceBy, Location.origin, Nat.zero_add]
  rw [sliceBytes_byteLength, Option.getD_some]

/-! ### Tokens of a stretch of text -/

/-- The token that stands for a content. -/
def Content.token? : Content → Option Token
  | .extra => none
  | .token t => some t
  | .fault _ => some .error

/-- Where a list of tokens ends, from the start of the text on. -/
def endOf (ts : List Lexeme) : Location := (ts.getLast?.map fun t => t.span.stop).getD .origin

/-- Where a list of tokens starts, before a given end. -/
def startOf (stop : Location) (ts : List Lexeme) : Location :=
  (ts.head?.map fun t => t.span.start).getD stop

theorem endOf_nil : endOf [] = .origin := rfl

namespace Segment

theorem lexeme?_eq (s : Segment) : s.lexeme? = s.content.token?.map (⟨·, s.span⟩) := by
  unfold lexeme?
  split <;> simp_all [Content.token?]

theorem span_lexeme? {s : Segment} {t : Lexeme} (h : s.lexeme? = some t) : t.span = s.span := by
  rw [lexeme?_eq] at h
  obtain ⟨x, -, rfl⟩ := Option.map_eq_some_iff.1 h
  rfl

/-- Segments may be cut right behind a token. -/
theorem exists_cut_behind {S : List Segment} {ts us : List Lexeme}
    (h : S.filterMap lexeme? = ts ++ us) : ∃ P Q, S = P ++ Q ∧ P.filterMap lexeme? = ts
      ∧ Q.filterMap lexeme? = us ∧ P.getLast?.map span = ts.getLast?.map Lexeme.span := by
  induction ts generalizing S with
  | nil => exact ⟨[], S, rfl, rfl, h, rfl⟩
  | cons t ts ih =>
    rw [List.cons_append, List.filterMap_eq_cons_iff] at h
    obtain ⟨extras, s, rest, rfl, hextras, hs, hrest⟩ := h
    obtain ⟨P, Q, rfl, hP, hQ, hlast⟩ := ih hrest
    refine ⟨extras ++ s :: P, Q, by simp, ?_, hQ, ?_⟩
    · rw [List.filterMap_append, List.filterMap_eq_nil_iff.2 hextras, List.nil_append]
      rw [List.filterMap_cons_some hs, hP]
    · have hspan := span_lexeme? hs
      rw [List.getLast?_append, List.getLast?_cons, List.getLast?_cons]
      rcases hp : P.getLast? with _ | p <;> rcases ht : ts.getLast? with _ | t' <;>
        simp_all

/-- Segments may be cut right before a token. -/
theorem exists_cut_before {S : List Segment} {us vs : List Lexeme}
    (h : S.filterMap lexeme? = us ++ vs) : ∃ P Q, S = P ++ Q ∧ P.filterMap lexeme? = us
      ∧ Q.head?.map span = vs.head?.map Lexeme.span := by
  rcases vs with _ | ⟨v, vs⟩
  · exact ⟨S, [], by simp, by simpa using h, rfl⟩
  · obtain ⟨P, R, rfl, hP, hR⟩ := List.filterMap_eq_append_iff.1 h
    obtain ⟨extras, s, Q, rfl, hextras, hs, hQ⟩ := List.filterMap_eq_cons_iff.1 hR
    refine ⟨P ++ extras, s :: Q, by simp, ?_, ?_⟩
    · rw [List.filterMap_append, List.filterMap_eq_nil_iff.2 hextras, List.append_nil, hP]
    · simp [span_lexeme? hs]

theorem map_token_filterMap (S : List Segment) :
    (S.filterMap lexeme?).map Lexeme.token = (S.map content).filterMap Content.token? := by
  rw [List.map_filterMap, List.filterMap_map]
  refine List.filterMap_congr fun s _ => ?_
  rw [Function.comp_apply, lexeme?_eq, Option.map_map]
  exact congrFun Option.map_id s.content.token?

end Segment

/-- The text between tokens is a stretch of the source, cut into the segments that stand between
them. -/
theorem exists_between {source : String} {ts us vs : List Lexeme}
    (h : (tokenize source).tokens = ts ++ us ++ vs) :
    ∃ x y, Span.text ⟨endOf ts, startOf (tokenize source).stop.start vs⟩ source = String.ofList y
      ∧ (segments (Location.origin.advanceBy x) y).filterMap Segment.lexeme? = us := by
  rw [List.append_assoc] at h
  obtain ⟨P, S, hcut, hP, hS, hlast⟩ := Segment.exists_cut_behind h
  obtain ⟨Q, R, rfl, hQ, hhead⟩ := Segment.exists_cut_before hS
  obtain ⟨x, yz, hsource, hx, hyz⟩ := segments_eq_append hcut
  obtain ⟨y, z, rfl, hy, hz⟩ := segments_eq_append hyz
  have hend : endOf ts = Location.origin.advanceBy x := by
    have hstop := congrArg (Option.map Span.stop) hlast
    rw [Option.map_map, Option.map_map] at hstop
    rw [← getLast?_segments, hx]
    exact congrArg (Option.getD · Location.origin) hstop.symm
  have hstart : startOf (tokenize source).stop.start vs = Location.origin.advanceBy (x ++ y) := by
    have hstart := congrArg (Option.map Span.start) hhead
    rw [Option.map_map, Option.map_map] at hstart
    rw [← head?_segments (Location.origin.advanceBy (x ++ y)) z, Location.advanceBy_append, hz]
    rw [← Location.advanceBy_append, ← Location.advanceBy_append, ← hsource]
    exact congrArg (Option.getD · _) hstart.symm
  refine ⟨x, y, ?_, by rw [hy, hQ]⟩
  rw [hend, hstart]
  exact text_advanceBy x y (z := z) (by rw [hsource, List.append_assoc])

/-- The text between tokens, cut out on its own, has the tokens that stand between them. -/
theorem tokenize_between {source : String} {ts us vs : List Lexeme}
    (h : (tokenize source).tokens = ts ++ us ++ vs) :
    (tokenize (Span.text ⟨endOf ts, startOf (tokenize source).stop.start vs⟩ source)).tokens.map
      Lexeme.token = us.map Lexeme.token := by
  obtain ⟨x, y, htext, hus⟩ := exists_between h
  rw [htext, tokenize, String.toList_ofList, Segment.map_token_filterMap,
    map_content_segments _ (Location.origin.advanceBy x), ← Segment.map_token_filterMap, hus]

/-- The tokens of a text are in order. -/
theorem tokenize_inOrder (source : String) : InOrder (tokenize source).tokens := by
  obtain ⟨hbounds, hpairwise⟩ := segments_inOrder .origin source.toList
  constructor
  · intro t ht
    obtain ⟨s, hs, hlexeme⟩ := List.mem_filterMap.1 ht
    rw [Segment.span_lexeme? hlexeme]
    exact (hbounds s hs).2
  · refine hpairwise.filterMap _ ?_
    intro s s' hss t ht t' ht'
    rwa [Segment.span_lexeme? ht, Segment.span_lexeme? ht']

/-- Tokens end no later than their text. -/
theorem tokenize_stop_le {source : String} {t : Lexeme} (ht : t ∈ (tokenize source).tokens) :
    t.span.stop.offset ≤ (tokenize source).stop.stop.offset := by
  obtain ⟨s, hs, hlexeme⟩ := List.mem_filterMap.1 ht
  have hle := segments_stop_le .origin source.toList s hs
  rw [Segment.span_lexeme? hlexeme]
  rwa [← Location.offset_advanceBy] at hle

end SolidityFrontend
