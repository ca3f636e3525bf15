import Mathlib.Data.List.Forall2
import SolidityFrontend.Proofs.Joining
import SolidityFrontend.Proofs.TokenIndex

/-!
# Texts without one of their semicolons

Blanks and comments keep two tokens apart whether a semicolon stands among them or not. So without a
semicolon that is not the only thing between its neighbours, a text has the same other tokens: those
before it stay where they are, and those behind it come one byte earlier.
-/

namespace SolidityFrontend

open Text Rule Literal
open scoped Computability

/-! ### Lexemes before a blank or a comment -/

/-- A character that begins a run of blanks or a comment. -/
def BeginsExtra (d : Char) : Prop := isSeparator d ∨ d = '/'

namespace Rule

variable {a : List Char} {d : Char} {r : Rule}

/-- A fixed text that has a character only at its start does not go on with it. -/
theorem spellingLength_le_of_tail {text : List Char} (ha : a ≠ []) (hd : d ∉ text.tail)
    (b : List Char) : spellingLength text (a ++ d :: b) ≤ a.length := by
  obtain ⟨c, a, rfl⟩ := List.exists_cons_of_ne_nil ha
  rcases text with _ | ⟨e, text⟩
  · exact Nat.zero_le _
  have hle := stopsAt_spellingLength hd a b
  rw [List.tail_cons] at hle
  unfold spellingLength at hle ⊢
  by_cases hstart : (e :: text).isPrefixOf (c :: a ++ d :: b)
  · have htail : text.isPrefixOf (a ++ d :: b) := by
      rw [List.isPrefixOf_iff_prefix] at hstart ⊢
      exact (List.cons_prefix_cons.1 hstart).2
    rw [if_pos htail] at hle
    rw [if_pos hstart]
    exact Nat.succ_le_succ hle
  · rw [if_neg hstart]
    exact Nat.zero_le _

theorem slash_not_mem_tail (s : Symbol) : '/' ∉ s.text.toList.tail := by
  cases s <;> decide

/-- Behind at least one character, nothing but blanks and line comments goes on with a character that
begins one of them. -/
theorem length_le_of_beginsExtra (hr : r ∈ all) (hd : BeginsExtra d) (hblank : r ≠ .blank)
    (hcomment : r ≠ .lineComment) (ha : a ≠ []) (b : List Char) :
    r.length (a ++ d :: b) ≤ a.length := by
  rcases hd with hd | rfl
  · exact stopsAt_separator hr hd hblank hcomment a b
  cases r with
  | blank => exact absurd rfl hblank
  | lineComment => exact absurd rfl hcomment
  | symbol s => exact spellingLength_le_of_tail ha (slash_not_mem_tail s) b
  | openComment => exact spellingLength_le_of_tail ha (by decide) b
  | openString kind quote =>
    refine stopsAt_spellingLength (fun hmem => ?_) a b
    obtain ⟨hkind, hquote⟩ := openString_cases hr
    rcases hkind with rfl | rfl | rfl <;> rcases hquote with rfl | rfl <;>
      exact absurd hmem (by decide)
  | _ => exact stopsAt_of_isWordy rfl outside_slash a b

end Rule

/-! ### Comments -/

section

variable {w rest : List Char} {content : Content}

theorem slashes_mem_lexemes (hw : '\n' ∉ w) : '/' :: '/' :: w ∈ lexemes .lineComment :=
  ⟨['/', '/'], rfl, w, mem_star_charOf.2 fun c hc => by
    rw [bne_iff_ne]
    rintro rfl
    exact hw hc, rfl⟩

/-- A comment with slashes goes on to the end of its line. -/
theorem begins_lineComment (hw : '\n' ∉ w) (hrest : ∀ d ∈ rest.head?, d = '\n') :
    Begins ('/' :: '/' :: w ++ rest) .extra ('/' :: '/' :: w) := by
  have hlexeme := slashes_mem_lexemes hw
  have hstart : '/' :: '/' :: w <+: '/' :: '/' :: w ++ rest := List.prefix_append _ _
  have hrule : Rule.opensExtra .lineComment := .inr (.inl rfl)
  obtain ⟨r, v, hlongest⟩ : ∃ r v, Longest ('/' :: '/' :: w ++ rest) r v := by
    rcases hchosen : longest ('/' :: '/' :: w ++ rest) with _ | ⟨r, n⟩
    · exact absurd hstart (not_prefix_of_eq_none hchosen _ hrule.mem_all _ hlexeme)
    · exact ⟨r, _, (longest_of_eq_some hchosen).1⟩
  obtain rfl := hlongest.eq_of_opensExtra hrule hlexeme hstart
  have hle := hlongest.longest _ hrule.mem_all _ hlexeme hstart
  -- A longer comment would hold the line break.
  obtain ⟨u, hu⟩ := List.prefix_of_prefix_length_le hstart hlongest.start hle
  obtain rfl : u = [] := by
    rcases u with _ | ⟨d, u⟩
    · rfl
    obtain ⟨z, hz⟩ := hlongest.start
    rw [← hu, List.append_assoc, List.append_cancel_left_eq] at hz
    obtain rfl := hrest d (by rw [← hz]; rfl)
    obtain ⟨_, rfl, v', hv', hv⟩ := Language.mem_mul.1 hlongest.lexeme
    have hmem : '\n' ∈ v' := by
      have hsame : ['/', '/'] ++ v' = ['/', '/'] ++ (w ++ '\n' :: u) := by
        rw [hv, ← hu]
        rfl
      rw [List.append_cancel_left hsame]
      simp
    exact absurd (mem_star_charOf.1 hv' _ hmem) (by decide)
  rw [List.append_nil] at hu
  exact .lineComment (hu ▸ hlongest)

/-- A closed comment ends at the same place whatever stands behind it. -/
theorem begins_comment (hw : scanBlockComment w = some w.length) :
    Begins ('/' :: '*' :: w ++ rest) .extra ('/' :: '*' :: w) := by
  have hlexeme : ['/', '*'] ∈ lexemes .openComment := rfl
  have hstart : ['/', '*'] <+: '/' :: '*' :: w ++ rest := List.prefix_append ['/', '*'] _
  have hrule : Rule.opensExtra .openComment := .inr (.inr rfl)
  obtain ⟨r, v, hlongest⟩ : ∃ r v, Longest ('/' :: '*' :: w ++ rest) r v := by
    rcases hchosen : longest ('/' :: '*' :: w ++ rest) with _ | ⟨r, n⟩
    · exact absurd hstart (not_prefix_of_eq_none hchosen _ hrule.mem_all _ hlexeme)
    · exact ⟨r, _, (longest_of_eq_some hchosen).1⟩
  obtain rfl := hlongest.eq_of_opensExtra hrule hlexeme hstart
  obtain rfl := mem_fixedText.1 hlongest.lexeme
  exact .comment hlongest rfl (scanBlockComment_of_eq_some w rest hw).2

/-- What a text begins with is its first segment. -/
theorem segments_of_begins (h : Begins (w ++ rest) content w) (here : Location) :
    segments here (w ++ rest)
      = ⟨content, here, here.advanceBy w⟩ :: segments (here.advanceBy w) rest :=
  ((cut_iff _ _ _).1 (.cons h ((cut_iff _ _ _).2 rfl))).symm

end

/-! ### Rows of blanks and comments -/

/-- Blanks and comments that end before other tokens may follow. -/
inductive Extras : List Char → Prop
  | nil : Extras []
  | blank {c : Char} {u : List Char} (hc : isSeparator c) (hu : Extras u) : Extras (c :: u)
  | lineComment {w u : List Char} (hw : '\n' ∉ w) (hu : Extras ('\n' :: u)) :
      Extras ('/' :: '/' :: w ++ '\n' :: u)
  | comment {w u : List Char} (hw : scanBlockComment w = some w.length) (hu : Extras u) :
      Extras ('/' :: '*' :: w ++ u)

namespace Extras

variable {u w : List Char}

theorem blanks (hw : ∀ c ∈ w, isSeparator c) (hu : Extras u) : Extras (w ++ u) := by
  induction w with
  | nil => exact hu
  | cons c w ih =>
    rw [List.forall_mem_cons] at hw
    exact .blank hw.1 (ih hw.2)

theorem beginsExtra (h : Extras u) : ∀ d ∈ u.head?, BeginsExtra d := by
  cases h with
  | nil => simp
  | blank hc _ => simp [BeginsExtra, hc]
  | lineComment => simp [BeginsExtra]
  | comment => simp [BeginsExtra]

/-- They hold nothing, and what stands behind them is cut as it is alone. -/
theorem filterMap_segments {β : Type} {g : Segment → Option β} (hg : ∀ span, g ⟨.extra, span⟩ = none)
    (h : Extras u) (here : Location) (v : List Char) :
    (segments here (u ++ v)).filterMap g = (segments (here.advanceBy u) v).filterMap g := by
  induction h generalizing here with
  | nil => rfl
  | @blank c u hc _ ih =>
    have hblank : ∀ d ∈ [c], isSeparator d := by simpa using hc
    have hfirst := filterMap_segments_blank hg hblank here (u ++ v)
    rw [← List.singleton_append, List.append_assoc, hfirst, ih, Location.advanceBy_append]
  | @lineComment w u hw _ ih =>
    have hbegins : Begins ('/' :: '/' :: w ++ ('\n' :: u ++ v)) .extra ('/' :: '/' :: w) :=
      begins_lineComment hw (by simp)
    rw [List.append_assoc, segments_of_begins hbegins, List.filterMap_cons_none (hg _), ih,
      Location.advanceBy_append]
  | @comment w u hw _ ih =>
    rw [List.append_assoc, segments_of_begins (begins_comment hw), List.filterMap_cons_none (hg _),
      ih, Location.advanceBy_append]

end Extras

/-- The symbol with which a text begins. -/
theorem eq_of_begins_symbol {b : Symbol} {cs w : List Char} (h : Begins cs (.token (.symbol b)) w) :
    w = b.text.toList := by
  generalize hcontent : Content.token (.symbol b) = content at h
  cases h with
  | symbol h =>
    obtain rfl : b = _ := by simpa using hcontent
    exact mem_fixedText.1 h.lexeme
  | string | unicodeString | hexString =>
    obtain ⟨_, heq⟩ | ⟨_, heq⟩ := Content.ofScan_cases _ _ <;>
      (rw [heq] at hcontent; cases hcontent)
  | _ => simp at hcontent

/-- The segments before a semicolon that hold nothing are blanks and comments that end before it. -/
theorem exists_extras_before {here : Location} {cs : List Char} {T S : List Segment} {s : Segment}
    (h : Cut here cs (T ++ s :: S)) (hT : ∀ t ∈ T, t.content = .extra)
    (hs : s.content = .token (.symbol .semicolon)) :
    ∃ u v, cs = u ++ ';' :: v ∧ Extras u
      ∧ s.span = ⟨here.advanceBy u, here.advanceBy (u ++ [';'])⟩
      ∧ S = segments (here.advanceBy (u ++ [';'])) v := by
  induction T generalizing here cs with
  | nil =>
    cases h with
    | @cons _ _ w rest _ hfirst hrest =>
      obtain rfl := hs
      obtain rfl := eq_of_begins_symbol hfirst
      exact ⟨[], rest, rfl, .nil, rfl, (cut_iff _ _ _).1 hrest⟩
  | cons t T ih =>
    cases h with
    | @cons _ _ w rest _ hfirst hrest =>
      rw [List.forall_mem_cons] at hT
      obtain ⟨rfl, hT⟩ := hT
      obtain ⟨u, v, rfl, hu, hspan, hS⟩ := ih hrest hT
      refine ⟨w ++ u, v, by rw [List.append_assoc], ?_, ?_, ?_⟩
      rotate_left
      · rw [hspan, List.append_assoc, Location.advanceBy_append here, Location.advanceBy_append here]
      · rw [hS, List.append_assoc, Location.advanceBy_append here]
      generalize hcontent : Content.extra = content at hfirst
      generalize hcs : w ++ (u ++ ';' :: v) = cs at hfirst
      cases hfirst with
      | blank h =>
        obtain ⟨c, b, rfl, hc, hb⟩ := mem_charOf_mul_star.1 h.lexeme
        exact hu.blanks (List.forall_mem_cons.2 ⟨hc, hb⟩)
      | lineComment h =>
        obtain ⟨_, rfl, b, hb, rfl⟩ := Language.mem_mul.1 h.lexeme
        rw [mem_star_charOf] at hb
        have hbreak : '\n' ∉ b := fun hmem => absurd (hb _ hmem) (by decide)
        -- The comment would go on to the semicolon if its line did not end before.
        obtain ⟨d, z, hd⟩ : ∃ d z, u ++ ';' :: v = d :: z := by
          cases u <;> exact ⟨_, _, rfl⟩
        have hnewline : d = '\n' := by
          by_contra hne
          have hlonger := slashes_mem_lexemes (w := b ++ [d]) (by
            simp only [List.mem_append, List.mem_singleton, not_or]
            exact ⟨hbreak, fun h => hne h.symm⟩)
          have hle := h.longest _ h.rule _ hlonger ⟨z, by rw [← hcs, hd]; simp⟩
          simp only [List.length_append, List.length_cons, List.length_nil] at hle
          omega
        obtain ⟨u, rfl⟩ : ∃ u', u = '\n' :: u' := by
          rcases u with _ | ⟨e, u⟩
          · obtain rfl : ';' = d := (List.cons.inj hd).1
            exact absurd hnewline (by decide)
          · obtain rfl : e = d := (List.cons.inj hd).1
            exact ⟨u, by rw [hnewline]⟩
        exact .lineComment hbreak hu
      | comment h hsplit hn =>
        rw [mem_fixedText.1 h.lexeme]
        exact .comment (scanBlockComment_append _ rfl hn le_rfl) hu
      | string | unicodeString | hexString =>
        obtain ⟨_, heq⟩ | ⟨_, heq⟩ := Content.ofScan_cases _ _ <;>
          (rw [heq] at hcontent; cases hcontent)
      | _ => simp at hcontent

/-! ### Texts before a blank or a comment -/

/-- Whether a text ends with a token that is no slash. -/
def EndsClosed (here : Location) (x : List Char) : Prop :=
  ∀ s ∈ (segments here x).getLast?, ∃ t, s.content = .token t ∧ t ≠ .symbol .slash

section

variable {c d : Char} {here : Location} {x cs b : List Char}

theorem EndsClosed.tail (h : EndsClosed here (c :: cs)) :
    EndsClosed (here.advanceBy ((c :: cs).take (Content.first c cs).2))
      ((c :: cs).drop (Content.first c cs).2) := by
  intro s hs
  refine h s ?_
  rw [segments_cons, Option.mem_def, List.getLast?_cons, hs]
  rfl

/-- A text that ends with a token other than a slash does not end within a comment. -/
theorem length_lineComment_le (hends : EndsClosed here (c :: cs)) (hd : BeginsExtra d) (b : List Char) :
    Rule.length .lineComment (c :: cs ++ d :: b) ≤ (c :: cs).length := by
  by_cases hstart : ['/', '/'] <+: c :: cs ++ d :: b
  · rcases cs with _ | ⟨e, w⟩
    · obtain ⟨rfl, rfl⟩ : '/' = c ∧ '/' = d := by simpa using hstart
      have hslash : segments here ['/'] = [⟨.token (.symbol .slash), here, here.advanceBy ['/']⟩] := by
        have hfirst : Content.first '/' [] = (.token (.symbol .slash), 1) := by
          rw [Content.first_eq_scan]
          decide
        rw [segments_cons, hfirst]
        exact congrArg _ (segments_nil _)
      obtain ⟨t, ht, hne⟩ := hends _ (by rw [hslash]; rfl)
      exact absurd (Content.token.inj ht).symm hne
    obtain ⟨rfl, rfl⟩ : '/' = c ∧ '/' = e := by simpa using hstart
    by_cases hbreak : '\n' ∈ w
    · obtain ⟨u, v, rfl⟩ := List.append_of_mem hbreak
      have hle := Rule.stopsAt_lineComment ('/' :: '/' :: u) (v ++ d :: b)
      simp only [List.cons_append, List.append_assoc, List.length_cons, List.length_append] at hle ⊢
      omega
    · have hend : ∀ d ∈ ([] : List Char).head?, d = '\n' := by simp
      have hbegins := segments_of_begins (begins_lineComment hbreak hend) here
      rw [List.append_nil, segments_nil] at hbegins
      obtain ⟨t, ht, -⟩ := hends _ (by rw [hbegins]; rfl)
      simp at ht
  · have hzero : spellingLength ['/', '/'] (c :: cs ++ d :: b) = 0 :=
      if_neg (mt List.isPrefixOf_iff_prefix.1 hstart)
    rw [Rule.length]
    simp only [hzero]
    exact Nat.zero_le _

theorem Content.first_of_endsClosed (hends : EndsClosed here (c :: cs)) (hd : BeginsExtra d)
    (hfault : (first c cs).1.isFault = false) (b : List Char) :
    (first c cs).2 ≤ (c :: cs).length ∧ first c (cs ++ d :: b) = first c cs := by
  by_cases hc : isSeparator c
  · have hshort : (cs.takeWhile isSeparator).length ≠ cs.length := by
      intro hlength
      have hrest : (c :: cs).drop (first c cs).2 = [] := by
        rw [first_blank hc, List.drop_eq_nil_iff, runLength, hlength, List.length_cons, Nat.add_comm]
      have hlast := hends ⟨(first c cs).1, here, here.advanceBy ((c :: cs).take (first c cs).2)⟩
        (by rw [segments_cons, hrest, segments_nil]; rfl)
      rw [first_blank hc] at hlast
      obtain ⟨t, ht, -⟩ := hlast
      simp at ht
    have hle := (List.takeWhile_prefix isSeparator (l := cs)).length_le
    rw [first_blank hc, first_blank hc, runLength, runLength, List.takeWhile_append, if_neg hshort,
      List.length_cons]
    exact ⟨by dsimp only; omega, rfl⟩
  · refine first_of_short (fun r hr => ?_) hfault
    by_cases hblank : r = .blank
    · subst hblank
      simp [Rule.length, runLength, hc]
    by_cases hcomment : r = .lineComment
    · subst hcomment
      exact length_lineComment_le hends hd b
    · exact length_le_of_beginsExtra hr hd hblank hcomment (List.cons_ne_nil c cs) b

/-- Behind a token that is no slash, what begins with a blank or a comment is cut as it is alone. -/
theorem segments_append (hends : EndsClosed here x) (hd : BeginsExtra d)
    (hfault : ∀ s ∈ segments here x, s.content.isFault = false) (b : List Char) :
    segments here (x ++ d :: b) = segments here x ++ segments (here.advanceBy x) (d :: b) := by
  induction here, x using segments_induction with
  | hnil here =>
    rw [segments_nil]
    rfl
  | hcons here c cs ih =>
    rw [segments_cons, List.forall_mem_cons] at hfault
    obtain ⟨hle, hsame⟩ := Content.first_of_endsClosed hends hd hfault.1 b
    rw [List.cons_append, segments_cons, hsame, ← List.cons_append,
      List.take_append_of_le_length hle, List.drop_append_of_le_length hle, ih hends.tail hfault.2,
      segments_cons here c cs, ← Location.advanceBy_append, List.take_append_drop]
    rfl

end

/-! ### A text at two places -/

/-- The same token, one byte earlier and on the same line. -/
structure Lexeme.Earlier (l l' : Lexeme) : Prop where
  token : l'.token = l.token
  start : l.span.start.offset = l'.span.start.offset + 1
  stop : l.span.stop.offset = l'.span.stop.offset + 1
  line : l'.span.start.position.line = l.span.start.position.line

theorem forall₂_earlier {here here' : Location} (hoffset : here.offset = here'.offset + 1)
    (hline : here'.position.line = here.position.line) (cs : List Char) :
    List.Forall₂ Lexeme.Earlier ((segments here cs).filterMap Segment.lexeme?)
      ((segments here' cs).filterMap Segment.lexeme?) := by
  induction here, cs using segments_induction generalizing here' with
  | hnil here =>
    rw [segments_nil, segments_nil]
    exact .nil
  | hcons here c cs ih =>
    rw [segments_cons, segments_cons]
    have hstop : (here.advanceBy ((c :: cs).take (Content.first c cs).2)).offset
        = (here'.advanceBy ((c :: cs).take (Content.first c cs).2)).offset + 1 := by
      rw [Location.offset_advanceBy, Location.offset_advanceBy, hoffset]
      omega
    have hrest := ih hstop (by
      rw [Location.position_advanceBy, Location.position_advanceBy, Position.line_advanceBy,
        Position.line_advanceBy, hline])
    rcases (Content.first c cs).1 with _ | t | f
    · exact hrest
    · exact .cons ⟨rfl, hoffset, hstop, hline⟩ hrest
    · exact .cons ⟨rfl, hoffset, hstop, hline⟩ hrest

/-! ### Omitting a semicolon -/

theorem Extra.beginsExtra {w : List Char} (h : Extra w) : ∀ d ∈ w.head?, BeginsExtra d := by
  cases h with
  | blank _ hw => exact fun d hd => .inl (hw d (List.mem_of_head? hd))
  | lineComment => simp [BeginsExtra]
  | comment => simp [BeginsExtra]

/-- A text whose first token does not stand at its start begins with a blank or a comment. -/
theorem beginsExtra_of_segments {here : Location} {v : List Char} {next : Lexeme}
    {behind : List Lexeme} (h : (segments here v).filterMap Segment.lexeme? = next :: behind)
    (hstart : next.span.start ≠ here) : ∃ d b, v = d :: b ∧ BeginsExtra d := by
  rcases v with _ | ⟨c, cs⟩
  · simp [segments_nil] at h
  refine ⟨c, cs, rfl, ?_⟩
  have hfirst := begins_first c cs
  have hpos := Content.first_pos c cs
  rw [segments_cons] at h
  generalize Content.first c cs = first at h hfirst hpos
  obtain ⟨content, n⟩ := first
  cases content with
  | extra =>
    obtain ⟨n, rfl⟩ := Nat.exists_eq_succ_of_ne_zero hpos.ne'
    exact hfirst.extra.beginsExtra c rfl
  | token t =>
    rw [← (List.cons.inj h).1] at hstart
    exact absurd rfl hstart
  | fault f =>
    rw [← (List.cons.inj h).1] at hstart
    exact absurd rfl hstart

theorem content_of_lexeme? {s : Segment} {l : Lexeme} (h : s.lexeme? = some l)
    (hfault : s.content.isFault = false) : s.content = .token l.token ∧ s.span = l.span := by
  obtain ⟨content, span⟩ := s
  cases content with
  | extra => simp [Segment.lexeme?] at h
  | token t =>
    obtain rfl := Option.some.inj h
    exact ⟨rfl, rfl⟩
  | fault f => simp [Content.isFault] at hfault

theorem content_of_lexeme?_none {s : Segment} (h : s.lexeme? = none) : s.content = .extra := by
  obtain ⟨content, span⟩ := s
  cases content <;> first | rfl | simp [Segment.lexeme?] at h

/-- Without a semicolon, the next token behind which stands on a later line than the one before, a text
without faults has the same other tokens; those behind it come one byte earlier. -/
theorem tokenize_without {source : String} {before behind : List Lexeme} {last semi next : Lexeme}
    (htokens : (tokenize source).tokens = before ++ last :: semi :: next :: behind)
    (hclean : (tokenize source).errors = []) (hlast : last.token ≠ .symbol .slash)
    (hsemi : semi.token = .symbol .semicolon)
    (hline : last.span.stop.position.line < next.span.start.position.line) :
    ∃ x v later, source.toList = x ++ ';' :: v
      ∧ semi.span = ⟨Location.origin.advanceBy x, Location.origin.advanceBy (x ++ [';'])⟩
      ∧ (tokenize (String.ofList (x ++ v))).tokens = before ++ last :: later
      ∧ List.Forall₂ Lexeme.Earlier (next :: behind) later := by
  obtain ⟨P, R, hcut, hP, hR⟩ := List.filterMap_eq_append_iff.1 htokens
  obtain ⟨extras, p, Q, rfl, hextras, hp, hQ⟩ := List.filterMap_eq_cons_iff.1 hR
  obtain ⟨T, s, S, rfl, hT, hs, hS⟩ := List.filterMap_eq_cons_iff.1 hQ
  have hfault := isFault_of_errors_eq_nil hclean
  rw [hcut] at hfault
  obtain ⟨hpcontent, hpspan⟩ := content_of_lexeme? hp (hfault p (by simp))
  obtain ⟨hscontent, hsspan⟩ := content_of_lexeme? hs (hfault s (by simp))
  have hsplit : segments .origin source.toList = (P ++ extras ++ [p]) ++ (T ++ s :: S) := by
    rw [hcut]
    simp
  obtain ⟨x, y, hsource, hx, hy⟩ := segments_eq_append hsplit
  obtain ⟨u, v, rfl, hu, hspan, rfl⟩ := exists_extras_before ((cut_iff _ _ _).2 hy.symm)
    (fun t ht => content_of_lexeme?_none (hT t ht)) (hscontent.trans (congrArg _ hsemi))
  have hstop : last.span.stop = Location.origin.advanceBy x := by
    rw [← getLast?_segments, hx, List.getLast?_concat, ← hpspan]
    rfl
  -- What stands between the last token and the next one begins with a blank or a comment.
  obtain ⟨d, b, hgap, hd⟩ : ∃ d b, u ++ v = d :: b ∧ BeginsExtra d := by
    rcases u with _ | ⟨d, u⟩
    · refine beginsExtra_of_segments hS fun hnext => ?_
      rw [hnext, hstop, List.nil_append, Location.position_advanceBy, Location.position_advanceBy,
        Position.line_advanceBy, Position.line_advanceBy] at hline
      simp [Location.position_advanceBy, Position.line_advanceBy] at hline
    · exact ⟨d, u ++ v, rfl, hu.beginsExtra d rfl⟩
  have hends : EndsClosed .origin x := by
    intro q hq
    rw [hx, List.getLast?_concat, Option.mem_def, Option.some.injEq] at hq
    exact ⟨last.token, hq ▸ hpcontent, hlast⟩
  have hfirst := segments_append hends hd (fun q hq => hfault q ?_) b
  · refine ⟨x ++ u, v, (segments (Location.origin.advanceBy (x ++ u)) v).filterMap Segment.lexeme?, ?_,
      ?_, ?_, ?_⟩
    · rw [hsource, List.append_assoc]
    · rw [← hsspan, hspan, List.append_assoc, Location.advanceBy_append _ x,
        Location.advanceBy_append _ x]
    · rw [tokenize, String.toList_ofList, List.append_assoc, hgap]
      dsimp only
      rw [hfirst, hx, List.filterMap_append, ← hgap, hu.filterMap_segments (fun _ => rfl),
        Location.advanceBy_append]
      simp [List.filterMap_append, hP, hp, List.filterMap_eq_nil_iff.2 hextras]
    · rw [← hS]
      refine forall₂_earlier ?_ ?_ v
      · simp only [Location.offset_advanceBy, byteLength_append]
        have hsize : Char.utf8Size ';' = 1 := rfl
        simp only [byteLength, hsize]
        omega
      · simp [Location.position_advanceBy, Position.line_advanceBy]
        omega
  · rw [hx] at hq
    rw [← hcut, hsplit]
    exact List.mem_append_left _ hq

end SolidityFrontend
