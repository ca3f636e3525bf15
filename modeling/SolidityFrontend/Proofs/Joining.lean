import Mathlib.Data.List.TakeWhile
import SolidityFrontend.Proofs.Shifting
import SolidityFrontend.Proofs.Spacing

/-!
# Texts one line behind the other

A string or a comment that is closed ends at the same place whatever stands behind it, and no other
lexeme but a run of blanks goes over a line break. So where a text has no faults, a second text on the
lines below it has the same tokens and faults as it has alone, moved down.
-/

namespace SolidityFrontend

open Text

/-! ### Closed strings and comments -/

namespace Literal

theorem takeUpTo_append_of_lt {n : Nat} {p : Char → Bool} {a : List Char} (b : List Char)
    (h : (takeUpTo n p a).length < a.length) : takeUpTo n p (a ++ b) = takeUpTo n p a := by
  induction a generalizing n with
  | nil => exact absurd h (Nat.not_lt_zero _)
  | cons c a ih =>
    cases n with
    | zero => rfl
    | succ n =>
      simp only [takeUpTo, List.cons_append, List.take_succ_cons, List.takeWhile_cons] at h ⊢
      split at h
      · rename_i hc
        rw [if_pos hc, if_pos hc]
        exact congrArg (c :: ·) (ih (by simpa [takeUpTo] using h))
      · rename_i hc
        rw [if_neg hc, if_neg hc]

theorem hexEscape_append_of_lt {a : List Char} (b : List Char)
    (h : (hexEscape a).length < a.length + 1) : hexEscape (a ++ b) = hexEscape a := by
  have hlength : (takeUpTo 2 isHexDigit a).length < a.length := by
    simp only [hexEscape] at h
    split at h
    · simp only at h
      omega
    · simp only at h
      omega
  simp only [hexEscape, takeUpTo_append_of_lt b hlength]

theorem bracedEscape_append_of_lt {a : List Char} (b : List Char)
    (h : (unicodeEscape ('{' :: a)).length < a.length + 2) :
    unicodeEscape ('{' :: (a ++ b)) = unicodeEscape ('{' :: a) := by
  simp only [unicodeEscape] at h ⊢
  have hlength : (takeUpTo 6 isHexDigit a).length < a.length := by
    split at h
    · simp only at h
      omega
    · rw [Escape.length_codePoint] at h
      omega
  rw [takeUpTo_append_of_lt b hlength, List.drop_append_of_le_length hlength.le]
  have hne : a.drop (takeUpTo 6 isHexDigit a).length ≠ [] := by
    rw [ne_eq, List.drop_eq_nil_iff]
    omega
  rw [List.head?_append_of_ne_nil _ hne]

theorem unicodeEscape_append_of_lt {a : List Char} (b : List Char)
    (h : (unicodeEscape a).length < a.length + 1) : unicodeEscape (a ++ b) = unicodeEscape a := by
  rcases a with _ | ⟨c, a⟩
  · have hpos := length_unicodeEscape_pos []
    rw [List.length_nil] at h
    omega
  by_cases hc : c = '{'
  · subst hc
    exact bracedEscape_append_of_lt b h
  · have hhead : (c :: a).head? ≠ some '{' := by simpa using hc
    have hhead' : (c :: a ++ b).head? ≠ some '{' := by simpa using hc
    rw [unicodeEscape_of_head_ne hhead] at h ⊢
    rw [unicodeEscape_of_head_ne hhead']
    have hlength : (takeUpTo 4 isHexDigit (c :: a)).length < (c :: a).length := by
      split at h
      · rw [Escape.length_codePoint] at h
        omega
      · simp only at h
        omega
    rw [takeUpTo_append_of_lt b hlength]

/-- An escape that ends before the text does is the same where the text goes on. -/
theorem escape?_append_of_lt {a : List Char} {e : Escape} (b : List Char) (h : escape? a = some e)
    (hlt : e.length < a.length) : escape? (a ++ b) = some e := by
  rcases a with _ | ⟨c, a⟩
  · simp [escape?] at h
  unfold escape? at h ⊢
  simp only [List.cons_append, Option.some_inj] at h ⊢
  subst h
  split
  case h_8 =>
    rcases a with _ | ⟨d, a⟩
    · simp at hlt
    · rfl
  case h_9 => exact hexEscape_append_of_lt b hlt
  case h_10 => exact unicodeEscape_append_of_lt b hlt
  case h_11 =>
    by_cases hc : isOctalDigit c
    · simp only [hc, if_true] at hlt ⊢
      have hdigits : (takeUpTo 3 isOctalDigit (c :: a)).length < (c :: a).length := hlt
      simp only [octalEscape]
      rw [← List.cons_append, takeUpTo_append_of_lt b hdigits]
    · simp only [hc, Bool.false_eq_true, if_false]
  all_goals rfl

/-- A closed string ends in its text and is the same where the text goes on. -/
theorem stringBody_of_closed (quote : Char) (a b : List Char) (h : (stringBody quote a).closed) :
    (stringBody quote a).length ≤ a.length ∧ stringBody quote (a ++ b) = stringBody quote a := by
  fun_induction stringBody quote a
  case case1 => simp at h
  case case2 =>
    rw [List.cons_append, stringBody, if_pos rfl]
    exact ⟨by simp, rfl⟩
  case case3 => simp at h
  case case4 => simp at h
  case case5 cs e hescape hc hbreak ih =>
    obtain ⟨hle, hbody⟩ := ih h
    have hlt : e.length < cs.length := by
      by_contra hge
      rw [List.drop_of_length_le (by omega), stringBody] at h
      simp [StringBody.consEscape] at h
    rw [List.length_drop] at hle
    refine ⟨by simp only [StringBody.consEscape, List.length_cons]; omega, ?_⟩
    rw [List.cons_append, stringBody, if_neg hc, if_neg hbreak, if_pos rfl,
      escape?_append_of_lt b hescape hlt]
    dsimp only
    rw [List.drop_append_of_le_length hlt.le, List.take_append_of_le_length hlt.le, hbody]
  case case6 cs hc hbreak hescape ih =>
    obtain ⟨hle, hbody⟩ := ih h
    refine ⟨by simp only [StringBody.consChar, List.length_cons]; omega, ?_⟩
    rw [List.cons_append, stringBody, if_neg hc, if_neg hbreak, if_neg hescape, hbody]

theorem hexBody_of_closed (quote : Char) (a b : List Char) (h : (hexBody quote a).closed) :
    (hexBody quote a).length ≤ a.length ∧ hexBody quote (a ++ b) = hexBody quote a := by
  induction a with
  | nil => simp [hexBody] at h
  | cons c a ih =>
    simp only [List.cons_append, hexBody, List.length_cons] at h ⊢
    by_cases hc : c = quote
    · simp [hc]
    by_cases hbreak : c = '\n' ∨ c = '\r'
    · simp [hc, hbreak] at h
    rw [if_neg hc, if_neg hbreak] at h ⊢
    have hclosed : (hexBody quote a).closed := by
      split at h
      · exact h
      · split at h
        · exact h
        · exact h
    obtain ⟨hle, hbody⟩ := ih hclosed
    rw [if_neg hc, if_neg hbreak, hbody]
    refine ⟨?_, rfl⟩
    split
    · exact Nat.succ_le_succ hle
    · split
      · exact Nat.succ_le_succ hle
      · exact Nat.succ_le_succ hle

theorem scanBlockComment_of_eq_some (a b : List Char) : ∀ {n : Nat},
    scanBlockComment a = some n → n ≤ a.length ∧ scanBlockComment (a ++ b) = some n := by
  fun_induction scanBlockComment a
  case case1 =>
    intro n h
    obtain rfl : 2 = n := by simpa using h
    exact ⟨by simp, rfl⟩
  case case2 c cs hend ih =>
    intro n h
    obtain ⟨m, hm, rfl⟩ := Option.map_eq_some_iff.1 h
    obtain ⟨hle, hrest⟩ := ih hm
    refine ⟨Nat.succ_le_succ hle, ?_⟩
    rw [List.cons_append, scanBlockComment.eq_2 _ _ ?_, hrest]
    · rfl
    · rintro rest rfl hcs
      rcases cs with _ | ⟨d, cs⟩
      · simp [scanBlockComment] at hm
      · rw [List.cons_append, List.cons.injEq] at hcs
        exact hend cs rfl (by rw [hcs.1])
  case case3 =>
    intro n h
    simp at h

end Literal

/-! ### The first segment before a line break -/

theorem Rule.stopsAt_lineComment : StopsAt '\n' (Rule.length .lineComment) := by
  have hslashes : StopsAt '\n' (Rule.spellingLength ['/', '/']) :=
    Rule.stopsAt_spellingLength (by decide)
  have hrun : StopsAt '\n' (Rule.runLength (· != '\n')) := Rule.stopsAt_runLength _ (by decide)
  intro a b
  have hboth := Rule.stopsAt_add_of_ne_zero hslashes hrun a b
  rw [Rule.length]
  dsimp only at hboth
  split
  · exact Nat.zero_le _
  · rename_i hne
    rwa [if_neg hne] at hboth

namespace Content

variable {c d : Char} {cs : List Char}

/-- Whether a content is a fault. -/
def isFault : Content → Bool
  | .fault _ => true
  | _ => false

/-- A run of blanks. -/
theorem first_blank (hc : Rule.isSeparator c) (cs : List Char) :
    first c cs = (.extra, 1 + Rule.runLength Rule.isSeparator cs) := by
  have hblank : Rule.length .blank (c :: cs) = 1 + Rule.runLength Rule.isSeparator cs := by
    simp [Rule.length, Rule.runLength, hc, Nat.add_comm]
  have hchosen : Rule.longest (c :: cs)
      = some (.blank, 1 + Rule.runLength Rule.isSeparator cs) := by
    have hfirst : Rule.better (c :: cs) none .blank
        = some (.blank, 1 + Rule.runLength Rule.isSeparator cs) := by
      simp [Rule.better, hblank]
    have hall : Rule.all = .blank :: Rule.all.tail := rfl
    rw [Rule.longest, hall, List.foldl_cons, hfirst]
    refine Rule.foldl_better_eq fun r hr => ?_
    by_cases hr' : r = .blank
    · rw [hr', hblank]
      exact le_rfl
    by_cases hcomment : r = .lineComment
    · have hne : c ≠ '/' := by
        rintro rfl
        exact absurd hc (by decide)
      simp [hcomment, Rule.length, Rule.spellingLength, hne.symm]
    · have hzero := Rule.stopsAt_separator (List.mem_of_mem_tail hr) hc hr' hcomment [] cs
      exact hzero.trans (Nat.zero_le _)
  rw [first, hchosen]
  rfl

/-- Where no blank begins, no rule leads over a line break. -/
theorem length_newline_le (hc : Rule.isSeparator c = false) (cs b : List Char) :
    ∀ r ∈ Rule.all, r.length (c :: cs ++ '\n' :: b) ≤ (c :: cs).length := by
  intro r hr
  by_cases hblank : r = .blank
  · subst hblank
    simp [Rule.length, Rule.runLength, hc]
  by_cases hcomment : r = .lineComment
  · subst hcomment
    exact Rule.stopsAt_lineComment (c :: cs) b
  · exact Rule.stopsAt_separator hr (by decide) hblank hcomment (c :: cs) b

/-- Where no blank begins, the rule for a text is the same before a line break. -/
theorem longest_newline (hc : Rule.isSeparator c = false) (cs b : List Char) :
    Rule.longest (c :: cs) = Rule.longest (c :: cs ++ '\n' :: b)
      ∧ Rule.chosenLength (Rule.longest (c :: cs)) ≤ (c :: cs).length := by
  have hle := Rule.chosenLength_longest_le (length_newline_le hc cs b)
  have hsame := Rule.longest_append hle
  exact ⟨hsame, by rw [hsame]; exact hle⟩

theorem ofString_newline (kind : StringKind) (quote : Char) (a b : List Char)
    (h : (ofString kind quote a).1.isFault = false) :
    (ofString kind quote a).2 ≤ a.length
      ∧ ofString kind quote (a ++ b) = ofString kind quote a := by
  cases kind with
  | plain | unicode =>
    simp only [ofString, Literal.scanString] at h ⊢
    have hclosed : (Literal.stringBody quote a).closed := by
      by_contra hopen
      rw [if_neg hopen] at h
      simp [ofScan, isFault] at h
    obtain ⟨hle, hbody⟩ := Literal.stringBody_of_closed quote a b hclosed
    rw [hbody]
    exact ⟨hle, rfl⟩
  | hex =>
    simp only [ofString, Literal.scanHexString] at h ⊢
    have hclosed : (Literal.hexBody quote a).closed := by
      by_contra hopen
      rw [if_neg hopen] at h
      simp [ofScan, isFault] at h
    obtain ⟨hle, hbody⟩ := Literal.hexBody_of_closed quote a b hclosed
    rw [hbody]
    exact ⟨hle, rfl⟩

theorem ofRule_newline {r : Rule} {n : Nat} {a : List Char} (b : List Char) (hn : n ≤ a.length)
    (h : (ofRule r n a).1.isFault = false) :
    (ofRule r n a).2 ≤ a.length ∧ ofRule r n (a ++ b) = ofRule r n a := by
  have htake : (a ++ b).take n = a.take n := List.take_append_of_le_length hn
  have hdrop : (a ++ b).drop n = a.drop n ++ b := List.drop_append_of_le_length hn
  cases r with
  | openString kind quote =>
    simp only [ofRule, hdrop] at h ⊢
    obtain ⟨hle, hsame⟩ := ofString_newline kind quote (a.drop n) b h
    rw [List.length_drop] at hle
    rw [hsame]
    exact ⟨by omega, rfl⟩
  | openComment =>
    simp only [ofRule, hdrop] at h ⊢
    rcases hscan : Literal.scanBlockComment (a.drop n) with _ | m
    · rw [hscan] at h
      simp [isFault] at h
    · obtain ⟨hle, hsame⟩ := Literal.scanBlockComment_of_eq_some (a.drop n) b hscan
      rw [List.length_drop] at hle
      rw [hsame]
      exact ⟨by dsimp only; omega, rfl⟩
  | _ =>
    simp only [ofRule, htake]
    exact ⟨hn, trivial⟩

/-- What begins a text without a fault begins it also where another text stands behind it, if no rule
leads over the end of the first text. -/
theorem first_of_short {b : List Char} (hshort : ∀ r ∈ Rule.all, r.length (c :: cs ++ b) ≤ cs.length + 1)
    (h : (first c cs).1.isFault = false) :
    (first c cs).2 ≤ (c :: cs).length ∧ first c (cs ++ b) = first c cs := by
  have hle := Rule.chosenLength_longest_le hshort
  have hsame : Rule.longest (c :: cs) = Rule.longest (c :: (cs ++ b)) := Rule.longest_append hle
  rcases hchosen : Rule.longest (c :: cs) with _ | ⟨r, n⟩
  · rw [first, hchosen] at h
    simp [isFault] at h
  · have hn : n ≤ (c :: cs).length := by
      rw [List.cons_append, ← hsame, hchosen] at hle
      exact hle
    have hfirst : first c cs = ofRule r n (c :: cs) := by rw [first, hchosen]
    have hfirst' : first c (cs ++ b) = ofRule r n (c :: (cs ++ b)) := by
      rw [first, ← hsame, hchosen]
    rw [hfirst] at h
    rw [hfirst, hfirst']
    exact ofRule_newline b hn h

/-- What begins a text without a fault begins it also where a line break stands behind the text,
unless it is a run of blanks. -/
theorem first_newline (hc : Rule.isSeparator c = false) (b : List Char)
    (h : (first c cs).1.isFault = false) :
    (first c cs).2 ≤ (c :: cs).length ∧ first c (cs ++ '\n' :: b) = first c cs :=
  first_of_short (length_newline_le hc cs b) h

end Content

/-! ### Segments of two texts -/

section

variable {β : Type} {g : Segment → Option β} (hg : ∀ span, g ⟨.extra, span⟩ = none)

include hg

/-- Blanks in front of a text hold nothing. -/
theorem filterMap_segments_blank {u : List Char} (hu : ∀ c ∈ u, Rule.isSeparator c)
    (here : Location) (b : List Char) :
    (segments here (u ++ b)).filterMap g = (segments (here.advanceBy u) b).filterMap g := by
  rcases u with _ | ⟨c, u⟩
  · rfl
  rw [List.forall_mem_cons] at hu
  have hrun : Rule.runLength Rule.isSeparator (u ++ b)
      = u.length + Rule.runLength Rule.isSeparator b := by
    rw [Rule.runLength, List.takeWhile_append_of_pos hu.2, List.length_append, Rule.runLength]
  have htake : (c :: (u ++ b)).take (1 + Rule.runLength Rule.isSeparator (u ++ b))
      = c :: u ++ b.take (Rule.runLength Rule.isSeparator b) := by
    rw [hrun, Nat.add_comm 1, List.take_succ_cons, List.take_length_add_append, List.cons_append]
  have hdrop : (c :: (u ++ b)).drop (1 + Rule.runLength Rule.isSeparator (u ++ b))
      = b.drop (Rule.runLength Rule.isSeparator b) := by
    rw [hrun, Nat.add_comm 1, List.drop_succ_cons, List.drop_length_add_append]
  rw [List.cons_append, segments_cons, Content.first_blank hu.1]
  dsimp only
  rw [htake, hdrop, List.filterMap_cons_none (hg _), Location.advanceBy_append]
  rcases b with _ | ⟨d, b⟩
  · rw [List.drop_nil, List.take_nil]
    rfl
  by_cases hd : Rule.isSeparator d
  · have hblank : Rule.runLength Rule.isSeparator (d :: b)
        = 1 + Rule.runLength Rule.isSeparator b := by
      simp [Rule.runLength, hd, Nat.add_comm]
    rw [segments_cons _ d, Content.first_blank hd, List.filterMap_cons_none (hg _), hblank]
  · have hzero : Rule.runLength Rule.isSeparator (d :: b) = 0 := by simp [Rule.runLength, hd]
    rw [hzero]
    rfl

/-- Behind a text without faults, what stands on the lines below it is cut as it is alone. -/
theorem filterMap_segments_newline (b : List Char) (here : Location) (a : List Char)
    (h : ∀ s ∈ segments here a, s.content.isFault = false) :
    (segments here (a ++ '\n' :: b)).filterMap g = (segments here a).filterMap g
      ++ (segments (here.advanceBy (a ++ ['\n'])) b).filterMap g := by
  have hblank {u : List Char} (here : Location) (hu : ∀ c ∈ u, Rule.isSeparator c) :
      (segments here (u ++ '\n' :: b)).filterMap g = (segments here u).filterMap g
        ++ (segments (here.advanceBy (u ++ ['\n'])) b).filterMap g := by
    have hline : ∀ c ∈ u ++ ['\n'], Rule.isSeparator c := by
      intro c hc
      rcases List.mem_append.1 hc with hc | hc
      · exact hu c hc
      · rw [List.mem_singleton.1 hc]
        decide
    have hnone := filterMap_segments_blank hg hu here []
    rw [List.append_nil, segments_nil, List.filterMap_nil] at hnone
    rw [hnone, List.nil_append, ← filterMap_segments_blank hg hline here b, List.append_assoc]
    rfl
  induction here, a using segments_induction with
  | hnil here => exact hblank here (by simp)
  | hcons here c cs ih =>
    rw [segments_cons, List.forall_mem_cons] at h
    by_cases hall : ∀ x ∈ c :: cs, Rule.isSeparator x
    · exact hblank here hall
    have hfirst : (Content.first c cs).2 ≤ (c :: cs).length
        ∧ Content.first c (cs ++ '\n' :: b) = Content.first c cs := by
      by_cases hc : Rule.isSeparator c
      · have hshort : ¬ (cs.takeWhile Rule.isSeparator).length = cs.length := by
          intro hlength
          refine hall (List.forall_mem_cons.2 ⟨hc, List.takeWhile_eq_self_iff.1 ?_⟩)
          exact (List.takeWhile_prefix _).eq_of_length hlength
        have hle := (List.takeWhile_prefix Rule.isSeparator (l := cs)).length_le
        rw [Content.first_blank hc, Content.first_blank hc, Rule.runLength, Rule.runLength,
          List.takeWhile_append, if_neg hshort, List.length_cons]
        exact ⟨by dsimp only; omega, rfl⟩
      · exact Content.first_newline (by simpa using hc) b h.1
    obtain ⟨hle, hsame⟩ := hfirst
    rw [List.cons_append, segments_cons, hsame, ← List.cons_append,
      List.take_append_of_le_length hle, List.drop_append_of_le_length hle, segments_cons here c cs]
    rw [List.filterMap_cons, List.filterMap_cons, ih h.2, ← Location.advanceBy_append,
      ← List.append_assoc, List.take_append_drop]
    split
    · rfl
    · rfl

end

/-! ### Tokens of two texts -/

/-- How far a text moves when another one stands on the lines above it. -/
def Shift.below (above : List Char) : Shift := ⟨byteLength above + 1, above.count '\n' + 1, 0⟩

theorem advanceBy_newline (above : List Char) :
    Location.origin.advanceBy (above ++ ['\n']) = (Shift.below above).location .origin := by
  have hoffset : (Location.origin.advanceBy (above ++ ['\n'])).offset
      = ((Shift.below above).location .origin).offset := by
    rw [Location.offset_advanceBy, byteLength_append, Shift.offset_location]
    have hsize : Char.utf8Size '\n' = 1 := rfl
    simp only [byteLength, hsize, Shift.below]
  have hposition : (Location.origin.advanceBy (above ++ ['\n'])).position
      = ((Shift.below above).location .origin).position := by
    have hline := Position.line_advanceBy .origin above
    rw [Location.position_advanceBy, Position.advanceBy_append]
    simp only [Location.origin, Position.advanceBy, Position.origin, List.foldl_cons,
      List.foldl_nil, Position.advance, Shift.location, Shift.position, Shift.below] at hline ⊢
    simp only [if_true, Position.mk.injEq, and_true]
    omega
  exact congrArg₂ Location.mk hoffset hposition

theorem isFault_of_errors_eq_nil {S : List Segment} (h : S.filterMap Segment.error? = []) :
    ∀ s ∈ S, s.content.isFault = false := by
  intro s hs
  have hnone := List.filterMap_eq_nil_iff.1 h s hs
  rcases hcontent : s.content with _ | t | f
  · rfl
  · rfl
  · simp [Segment.error?, hcontent] at hnone

/-- The tokens and faults of a text without faults and of another one on the lines below it. -/
theorem tokenize_below {a b : String} (h : (tokenize a).errors = []) :
    tokenize (a ++ "\n" ++ b)
      = ⟨(tokenize a).tokens ++ respan (Shift.below a.toList).span (tokenize b).tokens,
          respan (Shift.below a.toList).span (tokenize b).errors,
          respan (Shift.below a.toList).span (tokenize b).stop⟩ := by
  have hchars : (a ++ "\n" ++ b).toList = a.toList ++ '\n' :: b.toList := by simp
  have hfault := isFault_of_errors_eq_nil h
  have hmoved : segments (Location.origin.advanceBy (a.toList ++ ['\n'])) b.toList
      = respan (Shift.below a.toList).span (segments .origin b.toList) := by
    rw [advanceBy_newline]
    exact segments_location _ le_rfl b.toList
  have hstop : Location.origin.advanceBy (a.toList ++ '\n' :: b.toList)
      = (Shift.below a.toList).location (Location.origin.advanceBy b.toList) := by
    rw [Shift.location_advanceBy _ (.inr rfl), ← advanceBy_newline, ← Location.advanceBy_append,
      List.append_assoc]
    rfl
  have htokens := filterMap_segments_newline (g := Segment.lexeme?) (fun _ => rfl) b.toList .origin
    a.toList hfault
  have herrors := filterMap_segments_newline (g := Segment.error?) (fun _ => rfl) b.toList .origin
    a.toList hfault
  rw [hmoved] at htokens herrors
  rw [filterMap_lexeme?_respan] at htokens
  rw [filterMap_error?_respan, show (segments .origin a.toList).filterMap Segment.error? = [] from h,
    List.nil_append] at herrors
  unfold tokenize
  simp only [hchars, htokens, herrors, hstop]
  rfl

end SolidityFrontend
