import SolidityFrontend.Proofs.Coverage
import SolidityFrontend.Proofs.LongestMatch

/-!
# Tokens as an index of the source

The tokens of a source and the gaps between them are the whole source (`flatMap_text_stretches`). A
gap is a row of blanks and comments, so nothing in it is a token or a fault; a faulty stretch is a
token of its own, and no other token is a comment.
-/

namespace SolidityFrontend

open Text Rule Literal
open scoped Computability

/-! ### Blanks and comments -/

/-- What may stand between tokens: a run of blanks, a comment up to the end of its line, or one up to
its first closing mark. -/
inductive Extra : List Char → Prop
  | blank {w : List Char} (hne : w ≠ []) (hw : ∀ c ∈ w, isSeparator c) : Extra w
  | lineComment {w : List Char} (hw : '\n' ∉ w) : Extra (['/', '/'] ++ w)
  | comment {w : List Char} (hw : ¬['*', '/'] <:+: w ++ ['*']) :
      Extra (['/', '*'] ++ (w ++ ['*', '/']))

/-- A comment ends at its first closing mark. -/
theorem exists_of_scanBlockComment {body rest : List Char}
    (h : scanBlockComment (body ++ rest) = some body.length) :
    ∃ w, body = w ++ ['*', '/'] ∧ ¬['*', '/'] <:+: w ++ ['*'] := by
  generalize hcs : body ++ rest = cs at h
  generalize hn : body.length = n at h
  fun_induction scanBlockComment cs generalizing body n with
  | case1 cs =>
    obtain rfl : 2 = n := by simpa using h
    obtain ⟨a, b, rfl⟩ := List.length_eq_two.1 hn
    simp only [List.cons_append, List.nil_append, List.cons.injEq] at hcs
    obtain ⟨rfl, rfl, -⟩ := hcs
    exact ⟨[], rfl, by decide⟩
  | case2 c cs hend ih =>
    obtain ⟨m, hm, rfl⟩ := Option.map_eq_some_iff.1 h
    rcases body with _ | ⟨d, body⟩
    · simp at hn
    rw [List.cons_append, List.cons.injEq] at hcs
    obtain ⟨rfl, rfl⟩ := hcs
    obtain ⟨w, rfl, hw⟩ := ih rfl m (by simpa using hn) hm
    refine ⟨d :: w, rfl, ?_⟩
    rw [List.cons_append, List.infix_cons_iff, not_or]
    refine ⟨fun hstart => ?_, hw⟩
    -- A mark at the start of the body would have ended it.
    rcases w with _ | ⟨a, w⟩
    · simp at hstart
    · obtain ⟨rfl, rfl⟩ : '*' = d ∧ '/' = a := by simpa using hstart
      exact hend _ rfl rfl
  | case3 => simp at h

/-- A comment that has a closing mark is closed. -/
theorem scanBlockComment_isSome (w rest : List Char) :
    (scanBlockComment (w ++ ['*', '/'] ++ rest)).isSome := by
  induction w with
  | nil => rfl
  | cons c w ih =>
    rw [List.cons_append, List.cons_append, scanBlockComment.eq_def]
    split
    · rfl
    · rename_i heq
      obtain ⟨-, rfl⟩ := List.cons.inj heq
      rw [Option.isSome_map, ih]
    · rename_i heq
      exact absurd heq (List.cons_ne_nil _ _)

theorem Content.ofScan_cases {α : Type} (token : α → Token) (r : Except LexFault α) :
    (∃ value, ofScan token r = .token (token value)) ∨ ∃ f, ofScan token r = .fault f := by
  cases r with
  | error f => exact .inr ⟨f, rfl⟩
  | ok value => exact .inl ⟨value, rfl⟩

section

variable {cs u v w : List Char} {content : Content} {r r' : Rule}

/-- What is neither a token nor a fault may stand between tokens. -/
theorem Begins.extra (h : Begins cs .extra w) : Extra w := by
  generalize hcontent : Content.extra = content at h
  cases h with
  | blank h =>
    obtain ⟨c, u, rfl, hc, hu⟩ := mem_charOf_mul_star.1 h.lexeme
    exact .blank (List.cons_ne_nil c u) (List.forall_mem_cons.2 ⟨hc, hu⟩)
  | lineComment h =>
    obtain ⟨_, rfl, u, hu, rfl⟩ := Language.mem_mul.1 h.lexeme
    exact .lineComment fun hbreak => by simpa using mem_star_charOf.1 hu _ hbreak
  | comment h hcs hn =>
    obtain ⟨u, rfl, hu⟩ := exists_of_scanBlockComment hn
    rw [mem_fixedText.1 h.lexeme]
    exact .comment hu
  | string | unicodeString | hexString =>
    obtain ⟨_, heq⟩ | ⟨_, heq⟩ := Content.ofScan_cases _ _ <;>
      (rw [heq] at hcontent; cases hcontent)
  | _ => cases hcontent

/-- Error tokens stand for faults alone. -/
theorem Begins.ne_error (h : Begins cs content w) : content ≠ .token .error := by
  intro hcontent
  cases h with
  | string | unicodeString | hexString =>
    obtain ⟨_, heq⟩ | ⟨_, heq⟩ := Content.ofScan_cases _ _ <;>
      (rw [heq] at hcontent; cases hcontent)
  | _ => cases hcontent

/-- The rules of what may stand between tokens. -/
def Rule.opensExtra (r : Rule) : Prop := r = .blank ∨ r = .lineComment ∨ r = .openComment

theorem Rule.opensExtra.mem_all (h : r.opensExtra) : r ∈ all := by
  rcases h with rfl | rfl | rfl <;> simp [all]

/-- A text that begins with a lexeme of such a rule is of its sort. -/
theorem Rule.opensExtra.sortOf_eq (h : r.opensExtra) (hu : u ∈ r.lexemes) (hstart : u <+: w) :
    sortOf w = r.sort := by
  have hsort := sortOf_of_mem h.mem_all hu
  obtain ⟨v, rfl⟩ := hstart
  rcases h with rfl | rfl | rfl
  · obtain ⟨c, u, rfl, hc, -⟩ := mem_charOf_mul_star.1 hu
    simp [sortOf, hc, sort]
  · obtain ⟨_, rfl, u, -, rfl⟩ := Language.mem_mul.1 hu
    simp [sortOf, sort, show isSeparator '/' = false by decide]
  · rw [mem_fixedText.1 hu]
    simp [sortOf, sort, show isSeparator '/' = false by decide]

/-- Where such a rule has a lexeme, the longest one is its own. -/
theorem Rule.Longest.eq_of_opensExtra (h : Longest cs r w) (hr' : r'.opensExtra)
    (hu : u ∈ r'.lexemes) (hstart : u <+: cs) : r = r' := by
  have hle := h.longest r' hr'.mem_all u hu hstart
  have hsort : r.sort = r'.sort :=
    calc r.sort = sortOf w := (sortOf_of_mem h.rule h.lexeme).symm
      _ = r'.sort := hr'.sortOf_eq hu (List.prefix_of_prefix_length_le hstart h.start hle)
  rcases hr' with rfl | rfl | rfl <;> cases r <;> first | rfl | simp [sort] at hsort

/-- What may stand between tokens begins with a lexeme of such a rule, and a comment is closed. -/
theorem Extra.exists_lexeme (h : Extra v) : ∃ r u, Rule.opensExtra r ∧ u ∈ r.lexemes ∧ u <+: v
    ∧ (r = .openComment → ∃ w, v = ['/', '*'] ++ (w ++ ['*', '/'])) := by
  cases h with
  | blank hne hw =>
    obtain ⟨c, v, rfl⟩ := List.exists_cons_of_ne_nil hne
    refine ⟨.blank, c :: v, .inl rfl, ?_, List.prefix_refl _, by simp⟩
    exact mem_charOf_mul_star.2 ⟨c, v, rfl, List.forall_mem_cons.1 hw⟩
  | lineComment hw =>
    refine ⟨.lineComment, ['/', '/'], .inr (.inl rfl), ?_, List.prefix_append _ _, by simp⟩
    exact ⟨_, rfl, [], mem_star_charOf.2 (by simp), rfl⟩
  | @comment w hw =>
    exact ⟨.openComment, ['/', '*'], .inr (.inr rfl), rfl, List.prefix_append _ _, fun _ => ⟨w, rfl⟩⟩

/-- A text that begins with what may stand between tokens begins with no token or fault. -/
theorem Begins.eq_extra (h : Begins cs content w) (hv : Extra v) (hstart : v <+: cs) :
    content = .extra := by
  obtain ⟨r, u, hr, hu, hbegins, hclosed⟩ := hv.exists_lexeme
  have hu' := hbegins.trans hstart
  cases h with
  | blank | lineComment | comment => rfl
  | invalid _ hnone => exact absurd hu' (hnone r hr.mem_all u hu)
  | openComment h hcs hn =>
    obtain ⟨body, rfl⟩ := hclosed (h.eq_of_opensExtra hr hu hu').symm
    obtain ⟨rest, rfl⟩ := hstart
    rw [mem_fixedText.1 h.lexeme, List.append_assoc] at hcs
    have hsome := scanBlockComment_isSome body rest
    rw [List.append_cancel_left hcs, hn] at hsome
    cases hsome
  | _ h =>
    have heq := h.eq_of_opensExtra hr hu hu'
    subst heq
    rcases hr with hr | hr | hr <;> cases hr

/-- A text that begins with the mark of a comment begins with no token. -/
theorem Begins.ne_token (h : Begins cs content w) (hstart : ['/', '*'] <+: cs) (t : Token) :
    content ≠ .token t := by
  have hr : Rule.opensExtra .openComment := .inr (.inr rfl)
  have hrule {r : Rule} {w : List Char} (h : Longest cs r w) : r = .openComment :=
    h.eq_of_opensExtra hr rfl hstart
  rintro rfl
  generalize hcontent : Content.token t = content at h
  cases h with
  | keyword h | elementaryType h | identifier h | decimalNumber h | hexNumber h | symbol h
  | string h | unicodeString h | hexString h => exact absurd (hrule h) (by simp)
  | _ => cases hcontent

end

/-! ### Tokens and gaps -/

/-- The segment under a span is what the text there begins with. -/
theorem exists_begins {source : String} (x y : List Char) (h : source.toList = x ++ y) :
    ∀ s ∈ segments (Location.origin.advanceBy x) y, ∃ rest,
      Begins ((s.span.text source).toList ++ rest) s.content (s.span.text source).toList := by
  generalize hhere : Location.origin.advanceBy x = here
  induction here, y using segments_induction generalizing x with
  | hnil here => simp [segments_nil]
  | hcons here c cs ih =>
    have hfirst := begins_first c cs
    rw [segments_cons]
    have hsplit := (List.take_append_drop (Content.first c cs).2 (c :: cs)).symm
    generalize (c :: cs).take (Content.first c cs).2 = w at *
    generalize (c :: cs).drop (Content.first c cs).2 = rest at *
    rw [hsplit, ← List.append_assoc] at h
    rw [List.forall_mem_cons]
    constructor
    · refine ⟨rest, ?_⟩
      dsimp only
      rw [← hhere, ← Location.advanceBy_append, text_advanceBy x w h, String.toList_ofList, ← hsplit]
      exact hfirst
    · exact ih (x ++ w) h (by rw [Location.advanceBy_append, hhere])

/-- The gaps between spans and the spans themselves in turn, from one place to another. -/
def stretches (stop : Location) : Location → List Span → List Span
  | here, [] => [⟨here, stop⟩]
  | here, s :: ss => ⟨here, s.start⟩ :: s :: stretches stop s.stop ss

/-- The texts of the stretches behind a token are the rest of the source, where some of it has
already been passed as a gap. -/
theorem flatMap_text_stretches {source : String} (x gap y : List Char)
    (h : source.toList = x ++ gap ++ y) :
    (stretches (Location.origin.advanceBy source.toList) (Location.origin.advanceBy x)
      (((segments (Location.origin.advanceBy (x ++ gap)) y).filterMap Segment.lexeme?).map
        Lexeme.span)).flatMap (fun s => (s.text source).toList) = gap ++ y := by
  generalize hhere : Location.origin.advanceBy (x ++ gap) = here
  induction here, y using segments_induction generalizing x gap with
  | hnil here =>
    rw [List.append_nil] at h
    have htext := text_advanceBy x gap (z := []) (by simpa using h)
    rw [segments_nil, List.filterMap_nil, List.map_nil, stretches, List.flatMap_singleton, h, htext,
      String.toList_ofList, List.append_nil]
  | hcons here c cs ih =>
    rw [segments_cons]
    have hsplit := (List.take_append_drop (Content.first c cs).2 (c :: cs)).symm
    generalize (c :: cs).take (Content.first c cs).2 = w at *
    generalize (c :: cs).drop (Content.first c cs).2 = rest at *
    rw [hsplit, ← List.append_assoc] at h
    have hstop : here.advanceBy w = Location.origin.advanceBy (x ++ gap ++ w) := by
      rw [Location.advanceBy_append, hhere]
    have hgap := text_advanceBy x gap (h.trans (List.append_assoc _ w rest))
    have hw := text_advanceBy (x ++ gap) w h
    rcases hlexeme : Segment.lexeme? ⟨(Content.first c cs).1, here, here.advanceBy w⟩ with _ | t
    · rw [List.filterMap_cons_none hlexeme, hsplit, ← List.append_assoc]
      exact ih x (gap ++ w) (by rw [h, List.append_assoc x]) (by rw [hstop, List.append_assoc])
    · have hspan := Segment.span_lexeme? hlexeme
      have hrest := ih (x ++ gap ++ w) [] (by simpa using h) (by rw [hstop, List.append_nil])
      rw [← hstop, List.nil_append] at hrest
      rw [List.filterMap_cons_some hlexeme, List.map_cons, hspan, stretches, List.flatMap_cons,
        List.flatMap_cons, hrest]
      dsimp only
      rw [hstop, ← hhere, hgap, hw, String.toList_ofList, String.toList_ofList, hsplit]

/-- A gap between spans of tokens is that behind some of them and before the others. -/
theorem exists_of_mem_gaps {stop : Location} {us vs : List Lexeme} {g : Span}
    (hg : g ∈ gaps stop (endOf us) (vs.map Lexeme.span)) :
    ∃ us' vs', us ++ vs = us' ++ vs' ∧ g = ⟨endOf us', startOf stop vs'⟩ := by
  induction vs generalizing us with
  | nil => exact ⟨us, [], rfl, List.mem_singleton.1 hg⟩
  | cons t vs ih =>
    rw [List.map_cons, gaps, List.mem_cons] at hg
    rcases hg with rfl | hg
    · exact ⟨us, t :: vs, rfl, rfl⟩
    · have hend : endOf (us ++ [t]) = t.span.stop := by simp [endOf]
      rw [← hend] at hg
      obtain ⟨us', vs', hsplit, hgap⟩ := ih hg
      exact ⟨us', vs', by rw [← hsplit, List.append_assoc]; rfl, hgap⟩

/-- A text without tokens is a row of what may stand between tokens. -/
theorem exists_extras {source : String} (h : (tokenize source).tokens = []) :
    ∃ parts : List (List Char), source.toList = parts.flatten ∧ ∀ w ∈ parts, Extra w := by
  rw [tokenize] at h
  dsimp only at h
  generalize source.toList = y, Location.origin = here at h ⊢
  induction here, y using segments_induction with
  | hnil here => exact ⟨[], rfl, by simp⟩
  | hcons here c cs ih =>
    rw [segments_cons, List.filterMap_cons] at h
    rcases hcontent : (Content.first c cs).1 with _ | t | f <;>
      simp only [Segment.lexeme?, hcontent] at h
    · obtain ⟨parts, hparts, hextra⟩ := ih h
      have hfirst := begins_first c cs
      rw [hcontent] at hfirst
      refine ⟨(c :: cs).take (Content.first c cs).2 :: parts, ?_, ?_⟩
      · rw [List.flatten_cons, ← hparts, List.take_append_drop]
      · exact List.forall_mem_cons.2 ⟨hfirst.extra, hextra⟩
    · simp at h
    · simp at h

/-- Faults are where error tokens are, as far as no token of the text itself is one. -/
theorem map_span_error? {S : List Segment} (h : ∀ s ∈ S, s.content ≠ .token .error) :
    (S.filterMap Segment.error?).map LexError.span
      = ((S.filterMap Segment.lexeme?).filter (·.token = .error)).map Lexeme.span := by
  induction S with
  | nil => rfl
  | cons s S ih =>
    obtain ⟨hs, hS⟩ := List.forall_mem_cons.1 h
    rcases hcontent : s.content with _ | t | f
    · simp [Segment.error?, Segment.lexeme?, hcontent, ih hS]
    · have ht : t ≠ .error := fun heq => hs (by rw [hcontent, heq])
      simp [Segment.error?, Segment.lexeme?, hcontent, ih hS, ht]
    · simp [Segment.error?, Segment.lexeme?, hcontent, ih hS]

theorem map_span_errors (source : String) : (tokenize source).errors.map LexError.span
    = ((tokenize source).tokens.filter (·.token = .error)).map Lexeme.span := by
  refine map_span_error? fun s hs => ?_
  obtain ⟨rest, h⟩ := exists_begins [] source.toList rfl s hs
  exact h.ne_error

/-- No token begins with what may stand between tokens, and only an error token begins with the
mark of a comment. -/
theorem not_extra_prefix {source : String} {t : Lexeme} (ht : t ∈ (tokenize source).tokens) :
    (∀ w, Extra w → ¬w <+: (t.span.text source).toList)
      ∧ (['/', '*'] <+: (t.span.text source).toList → t.token = .error) := by
  obtain ⟨s, hs, hlexeme⟩ := List.mem_filterMap.1 ht
  obtain ⟨rest, h⟩ := exists_begins [] source.toList rfl s hs
  rw [Segment.span_lexeme? hlexeme]
  have hbegins := List.prefix_append (s.span.text source).toList rest
  constructor
  · intro w hw hstart
    have hcontent := h.eq_extra hw (hstart.trans hbegins)
    simp [Segment.lexeme?, hcontent] at hlexeme
  · intro hstart
    have hcontent := h.ne_token (hstart.trans hbegins)
    rcases heq : s.content with _ | t' | f
    · simp [Segment.lexeme?, heq] at hlexeme
    · exact absurd heq (hcontent t')
    · simp only [Segment.lexeme?, heq, Option.some.injEq] at hlexeme
      rw [← hlexeme]

theorem byteLength_eq (cs : List Char) : byteLength cs = (String.ofList cs).utf8ByteSize := by
  induction cs with
  | nil => rfl
  | cons c cs ih =>
    rw [byteLength, String.ofList_cons, String.utf8ByteSize_append, String.utf8ByteSize_singleton, ih]

/-- The tokens of a source are in order and not empty, and with the gaps between them they are the
whole source. A gap is a row of blanks and comments, and has no token or fault when it stands alone;
the faults are where the error tokens are; no token begins with a blank or a comment, but for an
unclosed comment, which is an error; and the source ends where its bytes do. -/
theorem tokenize_lossless (source : String) :
    InOrder (tokenize source).tokens
      ∧ (stretches (tokenize source).stop.start .origin
          ((tokenize source).tokens.map Lexeme.span)).flatMap (fun s => (s.text source).toList)
        = source.toList
      ∧ (∀ g ∈ gaps (tokenize source).stop.start .origin
            ((tokenize source).tokens.map Lexeme.span),
          (∃ parts : List (List Char), (g.text source).toList = parts.flatten
              ∧ ∀ w ∈ parts, Extra w)
            ∧ (tokenize (g.text source)).tokens = [] ∧ (tokenize (g.text source)).errors = [])
      ∧ (tokenize source).errors.map LexError.span
        = ((tokenize source).tokens.filter (·.token = .error)).map Lexeme.span
      ∧ (∀ t ∈ (tokenize source).tokens, (∀ w, Extra w → ¬w <+: (t.span.text source).toList)
          ∧ (['/', '*'] <+: (t.span.text source).toList → t.token = .error))
      ∧ (tokenize source).stop.start = (tokenize source).stop.stop
      ∧ (tokenize source).stop.start.offset = source.utf8ByteSize := by
  refine ⟨tokenize_inOrder source, flatMap_text_stretches [] [] source.toList rfl, fun g hg => ?_,
    map_span_errors source, fun t ht => not_extra_prefix ht, rfl, ?_⟩
  · rw [← endOf_nil] at hg
    obtain ⟨us, vs, hsplit, rfl⟩ := exists_of_mem_gaps hg
    have htokens := tokenize_gap hsplit
    refine ⟨exists_extras htokens, htokens, ?_⟩
    have herrors := map_span_errors (Span.text ⟨endOf us, startOf (tokenize source).stop.start vs⟩
      source)
    rw [htokens] at herrors
    simpa using herrors
  · have hbytes := byteLength_eq source.toList
    rw [String.ofList_toList] at hbytes
    simp [tokenize, Span.point, Location.offset_advanceBy, Location.origin, hbytes]

theorem tokenize_lossless_faulty : ∃ g t,
    g ∈ gaps (tokenize "a/* b */ 'c").stop.start .origin
        ((tokenize "a/* b */ 'c").tokens.map Lexeme.span)
      ∧ g.text "a/* b */ 'c" = "/* b */ "
      ∧ (∃ parts : List (List Char), (g.text "a/* b */ 'c").toList = parts.flatten
        ∧ ∀ w ∈ parts, Extra w)
      ∧ t ∈ (tokenize "a/* b */ 'c").tokens ∧ t.token = .error
      ∧ ∀ w, Extra w → ¬w <+: (t.span.text "a/* b */ 'c").toList := by
  obtain ⟨-, -, hgaps, -, htokens, -⟩ := tokenize_lossless "a/* b */ 'c"
  have hgap : (gaps (tokenize "a/* b */ 'c").stop.start .origin
      ((tokenize "a/* b */ 'c").tokens.map Lexeme.span)).any
        (·.text "a/* b */ 'c" = "/* b */ ") := by
    rw [tokenize_ofList]
    decide +kernel
  have herror : (tokenize "a/* b */ 'c").tokens.any (·.token = .error) := by
    rw [tokenize_ofList]
    decide +kernel
  obtain ⟨g, hg, htext⟩ := List.any_eq_true.1 hgap
  obtain ⟨t, ht, ht'⟩ := List.any_eq_true.1 herror
  exact ⟨g, t, hg, of_decide_eq_true htext, (hgaps g hg).1, ht, of_decide_eq_true ht',
    (htokens t ht).1⟩

end SolidityFrontend
