import SolidityFrontend.Proofs.Composing
import SolidityFrontend.Proofs.Faultless
import SolidityFrontend.Proofs.Lagging
import SolidityFrontend.Proofs.Layout
import SolidityFrontend.Proofs.LongestMatch
import SolidityFrontend.Proofs.Spacing
import SolidityFrontend.Proofs.VersionLayout

/-!
# Version pragmas

The value of a version pragma is cut out of the source as text and read on its own, with blanks of its
own: a comment there, or a blank that is not a space, a tab or a line break, separates tokens but no
constraints. Where only such blanks stand between constraints, the pragma is read as the requirement
that it spells (`parse_pragma_spelled`).
-/

namespace SolidityFrontend

open Text

/-! ### The tokens of a requirement -/

/-- The characters of version requirements. -/
def isVersionChar (c : Char) : Bool :=
  Version.Cursor.isSpace c || isDigit c
    || ['x', 'X', '*', '.', '^', '~', '=', '<', '>', '|'].contains c

variable {c : Char} {cs rest w : List Char} {r : Rule} {content : Content}

/-- A character of a requirement is a blank, a digit, a letter or a symbol. -/
theorem isVersionChar_cases (h : isVersionChar c) :
    Rule.isSeparator c ∨ isDigit c ∨ (c = 'x' ∨ c = 'X') ∨ ∃ s : Symbol, s.text.toList = [c] := by
  simp only [isVersionChar, Bool.or_eq_true, List.contains_iff_mem, List.mem_cons, List.not_mem_nil,
    or_false] at h
  rcases h with (h | h) | rfl | rfl | rfl | rfl | rfl | rfl | rfl | rfl | rfl | rfl
  · simp only [Version.Cursor.isSpace, Bool.or_eq_true, beq_iff_eq] at h
    rcases h with ((rfl | rfl) | rfl) | rfl <;> exact .inl (by decide)
  · exact .inr (.inl h)
  · exact .inr (.inr (.inl (.inl rfl)))
  · exact .inr (.inr (.inl (.inr rfl)))
  · exact .inr (.inr (.inr ⟨.star, rfl⟩))
  · exact .inr (.inr (.inr ⟨.dot, rfl⟩))
  · exact .inr (.inr (.inr ⟨.caret, rfl⟩))
  · exact .inr (.inr (.inr ⟨.tilde, rfl⟩))
  · exact .inr (.inr (.inr ⟨.assign, rfl⟩))
  · exact .inr (.inr (.inr ⟨.less, rfl⟩))
  · exact .inr (.inr (.inr ⟨.greater, rfl⟩))
  · exact .inr (.inr (.inr ⟨.bar, rfl⟩))

/-- A character of a requirement begins none of these. -/
theorem ne_of_isVersionChar (h : isVersionChar c) {d : Char}
    (hd : d ∈ ['/', '"', '\x27', 'h', 'u', ';']) : c ≠ d := by
  rintro rfl
  revert h
  simp only [List.mem_cons, List.not_mem_nil, or_false] at hd
  rcases hd with rfl | rfl | rfl | rfl | rfl | rfl <;> decide

/-- A part of a text that is not faulty and ends no pragma. -/
def Content.Harmless (content : Content) : Prop :=
  (∀ f, content ≠ .fault f) ∧ ∀ t, content = .token t → Grammar.endsPragma t = false

/-- The first character of a lexeme is that of the text. -/
theorem Rule.Longest.head {d : Char} {ds : List Char} (h : Rule.Longest (c :: rest) r w)
    (hw : w = d :: ds) : c = d := by
  subst hw
  obtain ⟨tail, htail⟩ := h.start
  exact (List.cons.inj htail).1.symm

/-- What begins with a character of a requirement is harmless, and no lexeme of it has a semicolon. -/
theorem harmless_of_begins (h : Begins (c :: rest) content w) (hc : isVersionChar c) :
    content.Harmless ∧ ';' ∉ w := by
  have hne {d : Char} (hd : d ∈ ['/', '"', '\x27', 'h', 'u', ';']) : c ≠ d := ne_of_isVersionChar hc hd
  have hopen {kind : StringKind} {quote : Char} {u : List Char}
      (h : Rule.Longest (c :: rest) (.openString kind quote) u) : False := by
    have hu : u = kind.opener.toList ++ [quote] := h.lexeme
    obtain ⟨hkind, hquote⟩ := Rule.openString_cases h.rule
    rcases hkind with rfl | rfl | rfl <;> rcases hquote with rfl | rfl <;>
      exact hne (by decide) (h.head hu)
  cases h with
  | blank h =>
    obtain ⟨d, u, rfl, hd, hu⟩ := mem_charOf_mul_star.1 h.lexeme
    refine ⟨⟨by simp, by simp⟩, fun hmem => ?_⟩
    rcases List.mem_cons.1 hmem with rfl | hmem
    · exact absurd hd (by decide)
    · exact absurd (hu _ hmem) (by decide)
  | lineComment h =>
    obtain ⟨u, hu, v, -, rfl⟩ := h.lexeme
    obtain rfl : u = ['/', '/'] := hu
    exact absurd (h.head rfl) (hne (by decide))
  | @keyword k _ h =>
    have hletters : ∀ e ∈ Keyword.spellings, e.2.head?.any (!isVersionChar ·) := by decide
    obtain ⟨d, hhead, hd⟩ := (Option.any_eq_true _ _).1 (hletters _ k.mem_spellings)
    rw [Bool.not_eq_true'] at hd
    obtain ⟨ds, hk⟩ := List.head?_eq_some_iff.1 hhead
    rw [← h.head ((mem_fixedText.1 h.lexeme).trans hk), hc] at hd
    exact absurd hd (by decide)
  | elementaryType h =>
    obtain ⟨d, u, rfl, hd, hu⟩ := Rule.word_of_mem_elementaryNames h.lexeme
    refine ⟨⟨by simp, by rintro t ⟨⟩; rfl⟩, fun hmem => ?_⟩
    rcases List.mem_cons.1 hmem with rfl | hmem
    · exact absurd hd (by decide)
    · exact absurd (hu _ hmem) (by decide)
  | identifier h =>
    obtain ⟨d, u, rfl, hd, hu⟩ := mem_charOf_mul_star.1 h.lexeme
    refine ⟨⟨by simp, by rintro t ⟨⟩; rfl⟩, fun hmem => ?_⟩
    rcases List.mem_cons.1 hmem with rfl | hmem
    · exact absurd hd (by decide)
    · exact absurd (hu _ hmem) (by decide)
  | decimalNumber h =>
    refine ⟨⟨by simp, by rintro t ⟨⟩; rfl⟩, fun hmem => ?_⟩
    exact absurd (Rule.isDecimalChar_of_mem h.lexeme _ hmem) (by decide)
  | hexNumber h =>
    obtain ⟨x, u, rfl, hx, hu⟩ := Rule.hex_of_mem h.lexeme
    refine ⟨⟨by simp, by rintro t ⟨⟩; rfl⟩, fun hmem => ?_⟩
    simp only [List.mem_cons] at hmem
    rcases hmem with hmem | rfl | hmem
    · exact absurd hmem (by decide)
    · exact absurd hx (by decide)
    · exact absurd (hu _ hmem) (by decide)
  | @symbol s _ h =>
    obtain rfl := mem_fixedText.1 h.lexeme
    have hs : s ≠ .semicolon := by
      rintro rfl
      exact absurd (h.head (d := ';') rfl) (hne (by decide))
    have hothers : ∀ e ∈ Symbol.spellings, e.1 ≠ .semicolon →
        Grammar.endsPragma (.symbol e.1) = false ∧ ';' ∉ e.2 := by
      decide
    obtain ⟨hends, hsemicolon⟩ := hothers _ s.mem_spellings hs
    exact ⟨⟨by simp, by rintro t ⟨⟩; exact hends⟩, hsemicolon⟩
  | string h _ _ => exact (hopen h).elim
  | unicodeString h _ _ => exact (hopen h).elim
  | hexString h _ _ => exact (hopen h).elim
  | comment h _ _ => exact absurd (h.head (mem_fixedText.1 h.lexeme)) (hne (by decide))
  | openComment h _ _ => exact absurd (h.head (mem_fixedText.1 h.lexeme)) (hne (by decide))
  | invalid hcs h =>
    -- With each of these characters a lexeme begins.
    refine absurd h ?_
    simp only [not_forall, not_not]
    rcases isVersionChar_cases hc with hblank | hdigit | hletter | ⟨s, hs⟩
    · exact ⟨.blank, by decide, [c], mem_charOf_mul_star.2 ⟨c, [], rfl, hblank, by simp⟩,
        List.prefix_append [c] rest⟩
    · have hdigits : [c] ∈ Rule.digits := mem_charOf_mul_star.2 ⟨c, [], rfl, hdigit, by simp⟩
      exact ⟨.decimalNumber, by decide, [c],
        ⟨[c], .inl ⟨[c], hdigits, [], .inl rfl, rfl⟩, [], .inl rfl, rfl⟩, List.prefix_append [c] rest⟩
    · have hstart : Rule.startsIdentifier c := by rcases hletter with rfl | rfl <;> rfl
      exact ⟨.identifier, by decide, [c], mem_charOf_mul_star.2 ⟨c, [], rfl, hstart, by simp⟩,
        List.prefix_append [c] rest⟩
    · exact ⟨.symbol s, by simp [Rule.all, s.mem_all], [c], hs.symm, List.prefix_append [c] rest⟩

/-- What is taken without a character does not reach it. -/
theorem le_length_of_not_mem_take {d : Char} {xs ys : List Char} {m : Nat}
    (h : d ∉ (xs ++ d :: ys).take m) : m ≤ xs.length := by
  by_contra hlt
  obtain ⟨k, rfl⟩ := Nat.exists_eq_add_of_lt (Nat.lt_of_not_le hlt)
  refine h ?_
  rw [Nat.add_assoc, List.take_length_add_append, List.take_succ_cons]
  simp

/-- Up to the semicolon, the text of a requirement is cut into harmless parts. -/
theorem segments_version (here : Location) (hcs : ∀ c ∈ cs, isVersionChar c) (rest : List Char) :
    ∃ S, segments here (cs ++ ';' :: rest) = S ++ segments (here.advanceBy cs) (';' :: rest)
      ∧ ∀ s ∈ S, s.content.Harmless := by
  induction hn : cs.length using Nat.strong_induction_on generalizing here cs with
  | _ n ih =>
    rcases cs with _ | ⟨c, cs⟩
    · exact ⟨[], rfl, by simp⟩
    subst hn
    have hbegins := begins_first c (cs ++ ';' :: rest)
    obtain ⟨hharmless, hsemicolon⟩ := harmless_of_begins hbegins (hcs c List.mem_cons_self)
    have hpos := Content.first_pos c (cs ++ ';' :: rest)
    set m := (Content.first c (cs ++ ';' :: rest)).2
    have hle : m ≤ (c :: cs).length := le_length_of_not_mem_take hsemicolon
    have htake : (c :: (cs ++ ';' :: rest)).take m = (c :: cs).take m := by
      rw [← List.cons_append, List.take_append_of_le_length hle]
    have hdrop : (c :: (cs ++ ';' :: rest)).drop m = (c :: cs).drop m ++ ';' :: rest := by
      rw [← List.cons_append, List.drop_append_of_le_length hle]
    obtain ⟨S, hS, hall⟩ := ih ((c :: cs).drop m).length (by simp only [List.length_drop]; omega)
      (here.advanceBy ((c :: cs).take m)) (fun d hd => hcs d (List.mem_of_mem_drop hd)) rfl
    refine ⟨⟨(Content.first c (cs ++ ';' :: rest)).1, here, here.advanceBy ((c :: cs).take m)⟩ :: S,
      ?_, List.forall_mem_cons.2 ⟨hharmless, hall⟩⟩
    rw [List.cons_append, segments_cons, htake, hdrop, hS, ← Location.advanceBy_append,
      List.take_append_drop]
    rfl

/-- A word with a separator behind it is a part of its own. -/
theorem segments_word {c d : Char} {cs : List Char} {t : Token} (here : Location)
    (h : Content.first c cs = (.token t, cs.length + 1)) (ht : t.isPlain) (hd : Rule.isSeparator d)
    (rest : List Char) :
    segments here (c :: (cs ++ d :: rest)) = ⟨.token t, here, here.advanceBy (c :: cs)⟩
      :: segments (here.advanceBy (c :: cs)) (d :: rest) := by
  have htake : (c :: (cs ++ d :: rest)).take (cs.length + 1) = c :: cs := by simp
  have hdrop : (c :: (cs ++ d :: rest)).drop (cs.length + 1) = d :: rest := by simp
  rw [segments_cons, Content.first_separated hd rest h ht, htake, hdrop]

/-- The text of a version pragma with the text `cs` behind its name. -/
def pragmaText (cs : List Char) : String :=
  String.ofList ("pragma solidity".toList ++ cs ++ [';'])

theorem toList_pragmaText (cs : List Char) :
    (pragmaText cs).toList = "pragma solidity".toList ++ cs ++ [';'] := String.toList_ofList

theorem toList_pragmaText_cons (d : Char) (cs : List Char) : (pragmaText (d :: cs)).toList
    = 'p' :: ("ragma".toList ++ ' ' :: 's' :: ("olidity".toList ++ d :: (cs ++ [';']))) := by
  have hwords : "pragma solidity".toList
      = 'p' :: ("ragma".toList ++ ' ' :: 's' :: "olidity".toList) := by decide
  rw [toList_pragmaText, hwords]
  simp only [List.cons_append, List.append_assoc]

/-- The tokens of a version pragma. -/
theorem tokenize_pragmaText {d : Char} (hd : Rule.isSeparator d)
    (hcs : ∀ c ∈ d :: cs, isVersionChar c) :
    ∃ (first name stop : Span) (ts : List Lexeme),
      (tokenize (pragmaText (d :: cs))).tokens = ⟨.keyword .pragma, first⟩
          :: ⟨.identifier "solidity", name⟩ :: (ts ++ [⟨.symbol .semicolon, stop⟩])
        ∧ (tokenize (pragmaText (d :: cs))).errors = []
        ∧ name.stop = Location.origin.advanceBy "pragma solidity".toList
        ∧ stop.start = Location.origin.advanceBy ("pragma solidity".toList ++ d :: cs)
        ∧ ∀ t ∈ ts, Grammar.endsPragma t.token = false := by
  obtain ⟨S, hS, hharmless⟩ :=
    segments_version (Location.origin.advanceBy "pragma solidity".toList) hcs []
  set last := Location.origin.advanceBy ("pragma solidity".toList ++ d :: cs)
  have hpragma : Content.first 'p' "ragma".toList = (.token (.keyword .pragma), 6) := by
    rw [Content.first_eq_scan]
    decide
  have hname : Content.first 's' "olidity".toList = (.token (.identifier "solidity"), 8) := by
    rw [Content.first_eq_scan]
    decide
  have hend : segments last [';'] = [⟨.token (.symbol .semicolon), last, last.advanceBy [';']⟩] := by
    have hfirst : Content.first ';' [] = (.token (.symbol .semicolon), 1) := by
      rw [Content.first_eq_scan]
      decide
    rw [segments_cons, hfirst, List.drop_one, List.tail_cons, segments_nil]
    rfl
  have hparts : segments .origin (pragmaText (d :: cs)).toList
      = ⟨.token (.keyword .pragma), .origin, Location.origin.advanceBy "pragma".toList⟩
        :: ⟨.extra, Location.origin.advanceBy "pragma".toList,
          Location.origin.advanceBy "pragma ".toList⟩
        :: ⟨.token (.identifier "solidity"), Location.origin.advanceBy "pragma ".toList,
          Location.origin.advanceBy "pragma solidity".toList⟩
        :: (S ++ [⟨.token (.symbol .semicolon), last, last.advanceBy [';']⟩]) := by
    have hblank : Content.first ' ' ('s' :: ("olidity".toList ++ d :: (cs ++ [';']))) = (.extra, 1) :=
      Content.first_separator (by decide) (by decide)
    have hword : 'p' :: "ragma".toList = "pragma".toList := by decide
    have hspace : "pragma".toList ++ [' '] = "pragma ".toList := by decide
    have hwords : "pragma ".toList ++ 's' :: "olidity".toList = "pragma solidity".toList := by decide
    rw [toList_pragmaText_cons, segments_word _ hpragma (by decide) (by decide), segments_cons, hblank,
      List.drop_one, List.tail_cons, List.take_succ_cons, List.take_zero,
      segments_word _ hname (by decide) hd, hword, ← Location.advanceBy_append, hspace,
      ← Location.advanceBy_append, hwords, ← List.cons_append, hS, ← Location.advanceBy_append, hend]
  have herrors : S.filterMap Segment.error? = [] := by
    refine List.filterMap_eq_nil_iff.2 fun part hpart => ?_
    unfold Segment.error?
    split
    · rename_i f hf
      exact absurd hf ((hharmless part hpart).1 f)
    · rfl
  refine ⟨⟨.origin, Location.origin.advanceBy "pragma".toList⟩,
    ⟨Location.origin.advanceBy "pragma ".toList, Location.origin.advanceBy "pragma solidity".toList⟩,
    ⟨last, last.advanceBy [';']⟩, S.filterMap Segment.lexeme?, ?_, ?_, rfl, rfl, fun t ht => ?_⟩
  · simp only [tokenize, hparts, List.filterMap_cons, List.filterMap_append, Segment.lexeme?,
      List.filterMap_nil]
  · simp only [tokenize, hparts, List.filterMap_cons, List.filterMap_append, Segment.error?, herrors,
      List.filterMap_nil, List.append_nil]
  · obtain ⟨part, hpart, hlexeme⟩ := List.mem_filterMap.1 ht
    rw [Segment.lexeme?_eq] at hlexeme
    obtain ⟨token, htoken, rfl⟩ := Option.map_eq_some_iff.1 hlexeme
    cases hcontent : part.content with
    | extra => simp [hcontent, Content.token?] at htoken
    | token t =>
      obtain rfl : t = token := by simpa [hcontent, Content.token?] using htoken
      exact (hharmless part hpart).2 t hcontent
    | fault f => exact absurd hcontent ((hharmless part hpart).1 f)

/-! ### Reading the pragma -/

section

open SolidityFrontend.Parser Grammar

variable {c : Context} {ts : List Lexeme} {t : Lexeme} {es : Array SyntaxError}

/-- Takes a token of the value of a pragma. -/
def skipPragmaToken : Parser (Option Unit) := do
  match ← next? with
  | some t =>
    if endsPragma t then return none
    else
      advance
      return some ()
  | none => return none

theorem skipPragmaToken_of_ends (ht : endsPragma t.token) (previous : Option Lexeme)
    (rest : List Lexeme) : skipPragmaToken c ⟨previous, t :: rest, es⟩
      = (.ok none, ⟨previous, t :: rest, es⟩) := by
  rw [skipPragmaToken, next_bind]
  simp only [State.tokens, List.map_cons, List.head?_cons, ht, if_true]
  rfl

theorem skipPragmaToken_of_not_ends (ht : endsPragma t.token = false) (previous : Option Lexeme)
    (rest : List Lexeme) : skipPragmaToken c ⟨previous, t :: rest, es⟩
      = (.ok (some ()), ⟨some t, rest, es⟩) := by
  rw [skipPragmaToken, next_bind]
  simp only [State.tokens, List.map_cons, List.head?_cons, ht, Bool.false_eq_true, if_false]
  rfl

/-- The tokens up to the end of a pragma are skipped. -/
theorem skipPragmaValue_eq (hts : ∀ u ∈ ts, endsPragma u.token = false) (ht : endsPragma t.token)
    (previous : Option Lexeme) (rest : List Lexeme) :
    ∃ last, skipPragmaValue c ⟨previous, ts ++ t :: rest, es⟩ = (.ok (), ⟨last, t :: rest, es⟩) := by
  have hmany : ∀ (clock : List Lexeme) (previous : Option Lexeme), ts.length < clock.length →
      ∃ us last, manyOver skipPragmaToken clock c ⟨previous, ts ++ t :: rest, es⟩
        = (.ok us, ⟨last, t :: rest, es⟩) := by
    induction ts with
    | nil =>
      intro clock previous _
      exact ⟨[], previous, manyOver_of_idle (skipPragmaToken_of_ends ht previous rest) clock⟩
    | cons u ts ih =>
      intro clock previous hclock
      obtain ⟨_, clock, rfl⟩ := List.exists_cons_of_length_pos (Nat.zero_lt_of_lt hclock)
      obtain ⟨hu, hts⟩ := List.forall_mem_cons.1 hts
      obtain ⟨us, last, h⟩ := ih hts clock (some u) (by simpa using hclock)
      refine ⟨() :: us, last, ?_⟩
      rw [manyOver, List.cons_append, bind_ok (skipPragmaToken_of_not_ends hu previous _)]
      simp only [bind_ok h]
      rfl
  obtain ⟨us, last, h⟩ := hmany (ts ++ t :: rest) previous (by simp)
  have hskip : many skipPragmaToken c ⟨previous, ts ++ t :: rest, es⟩
      = (.ok us, ⟨last, t :: rest, es⟩) := h
  exact ⟨last, bind_ok (f := fun _ => pure ()) hskip⟩

/-- A pragma is read with the value in the text between its name and its semicolon. -/
theorem pragmaDirective_of_value {first place stop : Span} {name : String} {value : PragmaValue}
    (hts : ∀ u ∈ ts, endsPragma u.token = false)
    (hvalue : ∀ u, pragmaValue ⟨name, place⟩
      ((sliceBytes place.stop.offset stop.start.offset c.source).getD []) c u = (.ok value, u))
    (previous : Option Lexeme) (rest : List Lexeme) :
    ∃ span last, pragmaDirective c ⟨previous, ⟨.keyword .pragma, first⟩
        :: ⟨.identifier name, place⟩ :: (ts ++ ⟨.symbol .semicolon, stop⟩ :: rest), es⟩
      = (.ok ⟨⟨name, place⟩, value, span⟩, ⟨last, rest, es⟩) := by
  obtain ⟨last, hskip⟩ : ∃ last, skipPragmaValue c ⟨some ⟨.identifier name, place⟩,
      ts ++ ⟨.symbol .semicolon, stop⟩ :: rest, es⟩
        = (.ok (), ⟨last, ⟨.symbol .semicolon, stop⟩ :: rest, es⟩) := skipPragmaValue_eq hts rfl _ _
  let behind : State := ⟨some ⟨.symbol .semicolon, stop⟩, rest, es⟩
  obtain ⟨span, hspan⟩ : ∃ span, spanFrom first c behind = (.ok span, behind) :=
    ⟨_, looks_spanFrom first c behind⟩
  refine ⟨span, some ⟨.symbol .semicolon, stop⟩, ?_⟩
  refine (bind_ok (f := fun _ => pragmaRest first ⟨name, place⟩) hskip).trans ?_
  have hnext : nextIs (.symbol .semicolon) c ⟨last, ⟨.symbol .semicolon, stop⟩ :: rest, es⟩
      = (.ok true, ⟨last, ⟨.symbol .semicolon, stop⟩ :: rest, es⟩) :=
    congrArg (fun b => (Except.ok b, _)) (beq_self_eq_true _)
  rw [pragmaRest, bind_ok hnext, if_pos rfl]
  change pragmaEnd first ⟨name, place⟩
    ((sliceBytes place.stop.offset stop.start.offset c.source).getD []) c _ = _
  obtain ⟨close, hclose⟩ := symbol_of_head (c := c) (b := .semicolon)
    (s := ⟨last, ⟨.symbol .semicolon, stop⟩ :: rest, es⟩) rfl
  rw [pragmaEnd, bind_ok hclose]
  refine (bind_ok (hvalue behind)).trans ?_
  rw [bind_ok hspan]
  rfl

end

/-! ### Requirements as they are written -/

section

open Version Session SolidityFrontend.Parser

variable {wss : List (List (Option VersionOperator × List Char))} {gap tail text : List Char}

theorem isVersionChar_of_mem_version {version : List Char} (h : IsVersion version) :
    ∀ c ∈ version, isVersionChar c := by
  have hpart {part : List Char} (h : IsPart part) : ∀ c ∈ part, isVersionChar c := by
    cases h with
    | digits _ h => exact fun c hc => by simp [isVersionChar, h c hc]
    | any h =>
      refine List.forall_mem_singleton.2 ?_
      rcases h with rfl | rfl | rfl <;> decide
  obtain ⟨first, more, rfl, hfirst, -, hmore⟩ := h
  refine List.forall_mem_append.2 ⟨hpart hfirst, List.forall_mem_flatMap.2 fun part hp => ?_⟩
  exact List.forall_mem_cons.2 ⟨by decide, hpart (hmore part hp)⟩

theorem isVersionChar_of_mem_spelling {w : Option VersionOperator × List Char} (hw : IsVersion w.2) :
    ∀ c ∈ spelling w, isVersionChar c := by
  obtain ⟨op, version⟩ := w
  refine List.forall_mem_append.2 ⟨?_, isVersionChar_of_mem_version hw⟩
  rcases op with _ | op
  · simp [operatorText]
  · change ∀ c ∈ op.text.toList, isVersionChar c
    cases op <;> exact List.all_eq_true.1 (by decide)

theorem isVersionChar_of_mem_gap (h : IsGap gap) : ∀ c ∈ gap, isVersionChar c := fun c hc => by
  simp [isVersionChar, h c hc]

theorem isVersionChar_of_mem_spelled (h : Spelled IsRun wss cs) : ∀ c ∈ cs, isVersionChar c := by
  induction h with
  | one hw => exact isVersionChar_of_mem_spelling hw
  | next hw hgap _ ih =>
    exact List.forall_mem_append.2 ⟨List.forall_mem_append.2
      ⟨isVersionChar_of_mem_spelling hw, isVersionChar_of_mem_gap hgap.1⟩, ih⟩
  | alternative hw hgap hgap' _ ih =>
    exact List.forall_mem_append.2 ⟨List.forall_mem_append.2 ⟨List.forall_mem_append.2
      ⟨List.forall_mem_append.2 ⟨isVersionChar_of_mem_spelling hw, isVersionChar_of_mem_gap hgap.1⟩,
        List.all_eq_true.1 (by decide)⟩, isVersionChar_of_mem_gap hgap'.1⟩, ih⟩

/-- A requirement has a character that is no blank. -/
theorem exists_not_isBlank (h : Spelled IsRun wss cs) : ∃ d ∈ cs, isBlank d = false := by
  have hspelling {w : Option VersionOperator × List Char} (hw : IsVersion w.2) :
      ∃ d ∈ spelling w, isBlank d = false := by
    obtain ⟨d, ds, hds, hd⟩ := hw.exists_cons
    refine ⟨d, by simp [spelling, hds], ?_⟩
    rcases hd with hd | rfl | rfl | rfl
    · exact isBlank_of_isDigit hd
    all_goals decide
  cases h with
  | one hw => exact hspelling hw
  | next hw _ _ =>
    obtain ⟨d, hd, hblank⟩ := hspelling hw
    exact ⟨d, by simp [hd], hblank⟩
  | alternative hw _ _ _ =>
    obtain ⟨d, hd, hblank⟩ := hspelling hw
    exact ⟨d, by simp [hd], hblank⟩

theorem mem_dropWhile_of_mem {p : Char → Bool} {d : Char} {cs : List Char} (h : d ∈ cs)
    (hd : p d = false) : d ∈ cs.dropWhile p := by
  rw [← List.takeWhile_append_dropWhile (p := p) (l := cs), List.mem_append] at h
  refine h.resolve_left fun htaken => ?_
  rw [List.mem_takeWhile_imp htaken] at hd
  exact Bool.true_eq_false_eq_False hd

theorem mem_trim {d : Char} (h : d ∈ text) (hd : isBlank d = false) : d ∈ trim text :=
  List.mem_reverse.2 (mem_dropWhile_of_mem (List.mem_reverse.2 (mem_dropWhile_of_mem h hd)) hd)

/-- The value of a text that is read as a requirement. -/
theorem versionValue_of_parse {kss : List (List Constraint)} {d : Char} (hd : d ∈ text)
    (hblank : isBlank d = false) (h : Version.parse text = .ok kss) (origin : Location) :
    Grammar.versionValue origin text = .ok (.version
      ⟨kss.map (·.map (Grammar.placeConstraint origin text)), Grammar.trimmedSpan origin text⟩) := by
  have htrim : (trim text).isEmpty = false :=
    List.isEmpty_eq_false_iff.2 (List.ne_nil_of_mem (mem_trim hd hblank))
  simp only [Grammar.versionValue, htrim, Bool.false_eq_true, if_false, h]

theorem sliceBytes_advanceBy (x y z : List Char) :
    sliceBytes (Location.origin.advanceBy x).offset (Location.origin.advanceBy (x ++ y)).offset
      (x ++ y ++ z) = some y := by
  rw [Location.offset_advanceBy_origin, Location.offset_advanceBy_origin]
  exact sliceBytes_byteLength x y z

/-- A source with the tokens of a version pragma. -/
theorem parse_of_pragma {source : String} {text : List Char} {first name stop : Span}
    {ts : List Lexeme} {value : PragmaValue} (hclean : (tokenize source).errors = [])
    (htokens : (tokenize source).tokens = ⟨.keyword .pragma, first⟩ :: ⟨.identifier "solidity", name⟩
      :: (ts ++ [⟨.symbol .semicolon, stop⟩]))
    (hts : ∀ t ∈ ts, Grammar.endsPragma t.token = false)
    (htext : sliceBytes name.stop.offset stop.start.offset source.toList = some text)
    (hvalue : Grammar.versionValue name.stop text = .ok value) :
    (parse source).errors = []
      ∧ ∃ span, (parse source).file.items = [.pragma ⟨⟨"solidity", name⟩, value, span⟩] := by
  set context := (Session.ofSource source).context
  have hslice : sliceBytes name.stop.offset stop.start.offset context.source = some text := htext
  obtain ⟨span, last, hread⟩ : ∃ span last, Grammar.pragmaDirective context ⟨none,
      ⟨.keyword .pragma, first⟩ :: ⟨.identifier "solidity", name⟩
        :: (ts ++ [⟨.symbol .semicolon, stop⟩]), #[]⟩
      = (.ok ⟨⟨"solidity", name⟩, value, span⟩, ⟨last, [], #[]⟩) :=
    pragmaDirective_of_value hts (fun u => by
      simp only [Grammar.pragmaValue, if_true, hslice, Option.getD_some, hvalue]
      rfl) none []
  have hstate : (Session.ofSource source).state = ⟨none, (tokenize source).tokens, #[]⟩ := rfl
  rw [htokens] at hstate
  have hunit : Grammar.sourceUnit .full context (Session.ofSource source).state
      = (.ok (.pragma ⟨⟨"solidity", name⟩, value, span⟩), ⟨last, [], #[]⟩) := by
    rw [hstate]
    exact bind_ok (f := fun d => pure (SourceUnit.pragma d)) hread
  have hitems : Items context (Session.ofSource source).state
      [.pragma ⟨⟨"solidity", name⟩, value, span⟩] ⟨last, [], #[]⟩ :=
    .cons (by rw [hstate]; simp) ((recovering_ok (by rw [hunit])).trans hunit) (.nil _)
  obtain ⟨hfile, hrecorded⟩ := parse_of_items hitems rfl
  exact ⟨errors_eq_nil_iff.2 ⟨hclean, hrecorded⟩, span, hfile⟩

/-- A version pragma with blanks between its constraints is read as the requirement that it spells. -/
theorem parse_pragma_spelled (h : Spelled IsRun wss cs) (hgap : IsRun gap) (htail : IsGap tail) :
    (parse (pragmaText (gap ++ (cs ++ tail)))).errors = []
      ∧ ∃ (directive : PragmaDirective) (requirement : VersionRequirement),
        (parse (pragmaText (gap ++ (cs ++ tail)))).file.items = [.pragma directive]
          ∧ directive.name.name = "solidity" ∧ directive.value = .version requirement
          ∧ requirement.alternatives.map (·.map fun k => (k.operator, k.version.toList)) = wss := by
  obtain ⟨d, gap', rfl⟩ := List.exists_cons_of_ne_nil hgap.2
  have hspace : Version.Cursor.isSpace d := hgap.1 d List.mem_cons_self
  have hseparator : Rule.isSeparator d := by
    simp only [Version.Cursor.isSpace, Bool.or_eq_true, beq_iff_eq] at hspace
    rcases hspace with ((rfl | rfl) | rfl) | rfl <;> decide
  have hchars : ∀ c ∈ d :: (gap' ++ (cs ++ tail)), isVersionChar c :=
    List.forall_mem_append.2 ⟨isVersionChar_of_mem_gap hgap.1,
      List.forall_mem_append.2 ⟨isVersionChar_of_mem_spelled h, isVersionChar_of_mem_gap htail⟩⟩
  obtain ⟨kss, hparse, hkss⟩ := parse_spelled h hgap.1 htail
  obtain ⟨e, he, hblank⟩ := exists_not_isBlank h
  obtain ⟨first, name, stop, ts, htokens, hclean, hname, hstop, hts⟩ :=
    tokenize_pragmaText hseparator hchars
  have htext : sliceBytes name.stop.offset stop.start.offset
      (pragmaText (d :: gap' ++ (cs ++ tail))).toList = some (d :: gap' ++ (cs ++ tail)) := by
    rw [hname, hstop, toList_pragmaText]
    exact sliceBytes_advanceBy _ _ _
  have hvalue := versionValue_of_parse (List.mem_append_right (d :: gap') (List.mem_append_left tail he))
    hblank hparse name.stop
  obtain ⟨herrors, span, hitems⟩ := parse_of_pragma hclean htokens hts htext hvalue
  refine ⟨herrors, _, _, hitems, rfl, rfl, ?_⟩
  rw [← hkss, List.map_map]
  simp [Constraint.content, Grammar.placeConstraint]

/-- Two alternatives with a tab and line breaks between their parts. -/
theorem parse_pragma_spelled_breaks :
    (Spelled IsRun [[(some .caret, ['0', '.', '4'])], [(none, ['x'])]] "^0.4\r\n||\tx".toList
        ∧ IsRun [' '] ∧ IsGap ['\n'])
      ∧ (parse (pragmaText " ^0.4\r\n||\tx\n".toList)).errors = [] := by
  have hpart : IsVersion ['0', '.', '4'] := by
    refine ⟨['0'], [['4']], rfl, .digits (by simp) (List.all_eq_true.1 (by decide)), by simp, ?_⟩
    exact List.forall_mem_singleton.2 (.digits (by simp) (List.all_eq_true.1 (by decide)))
  have hany : IsVersion ['x'] := ⟨['x'], [], rfl, .any (.inl rfl), by simp, by simp⟩
  have hbreak : IsRun ['\r', '\n'] := ⟨by simp [IsGap, Cursor.isSpace], by simp⟩
  have htab : IsRun ['\t'] := ⟨by simp [IsGap, Cursor.isSpace], by simp⟩
  have hspelled : Spelled IsRun [[(some .caret, ['0', '.', '4'])], [(none, ['x'])]]
      "^0.4\r\n||\tx".toList := .alternative hpart hbreak htab (.one hany)
  have hrun : IsRun [' '] := isRun_space
  have htail : IsGap ['\n'] := by simp [IsGap, Cursor.isSpace]
  exact ⟨⟨hspelled, hrun, htail⟩, (parse_pragma_spelled hspelled hrun htail).1⟩

/-- Comments and other blanks between two constraints separate the same tokens, but the pragma is
faulty. -/
theorem pragma_with_comment :
    (parse "pragma solidity 1 <2;").hasErrors = false
      ∧ ∀ extra ∈ ["/* x */", "// x\n", "\x0c", "\u00A0", "\u200B", "\u2060", "\uFEFF"],
        tokensOf ("pragma solidity 1" ++ extra ++ "<2;")
            = tokensOf "pragma solidity 1 <2;"
          ∧ (parse ("pragma solidity 1" ++ extra ++ "<2;")).errors ≠ [] := by
  have htext (extra : String) : "pragma solidity 1" ++ extra ++ "<2;"
      = String.ofList ("pragma solidity 1".toList ++ extra.toList ++ "<2;".toList) := by
    rw [← String.toList_append, ← String.toList_append, String.ofList_toList]
  have hrecorded : ∀ extra ∈ ["/* x */", "// x\n", "\x0c", "\u00A0", "\u200B", "\u2060", "\uFEFF"],
      tokensOf ("pragma solidity 1" ++ extra ++ "<2;")
          = tokensOf "pragma solidity 1 <2;"
        ∧ recordedErrors ("pragma solidity 1" ++ extra ++ "<2;") ≠ [] := by
    rw [tokensOf_ofList]
    simp only [htext, tokensOf_ofList, recordedErrors, ofSource_ofList]
    decide +kernel
  have hclean : (parse "pragma solidity 1 <2;").hasErrors = false := by
    rw [parse_ofList]
    decide +kernel
  refine ⟨hclean, fun extra hextra => ?_⟩
  obtain ⟨htokens, hne⟩ := hrecorded extra hextra
  exact ⟨htokens, fun h => hne (errors_eq_nil_iff.1 h).2⟩

end

end SolidityFrontend
