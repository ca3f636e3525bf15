import SolidityFrontend.Proofs.Escaping
import SolidityFrontend.Proofs.Excerpts
import SolidityFrontend.Proofs.Tiers
import SolidityFrontend.Proofs.Yielding

/-!
# Strings that are joined

Adjacent strings of one kind make one literal. Its parts are the places of their tokens, which lie
in order with nothing but blanks and comments between them, and its bytes are those of the tokens,
one string behind the other (`StringLiteral.Joins`).

A hex string holds the digits that stand between its quotes, and there is an even number of them.
This is why the bytes of the parts are those of all the digits taken together: no pair of digits is
split between two parts (`StringLiteral.JoinsDigits`).
-/

namespace SolidityFrontend

open Text Rule Phrase

/-! ### The text of a token -/

/-- Each segment of a text is what begins where it stands. -/
theorem Cut.begins {here : Location} {cs : List Char} {S : List Segment} (h : Cut here cs S) :
    ∀ s ∈ S, ∃ x w rest, cs = x ++ w ++ rest ∧ Begins (w ++ rest) s.content w
      ∧ s.span = ⟨here.advanceBy x, here.advanceBy (x ++ w)⟩ := by
  induction h with
  | nil here => simp
  | @cons here content w rest S hfirst _ ih =>
    refine List.forall_mem_cons.2 ⟨⟨[], w, rest, by simp, hfirst, rfl⟩, fun s hs => ?_⟩
    obtain ⟨x, w', rest', rfl, hbegins, hspan⟩ := ih s hs
    refine ⟨w ++ x, w', rest', by simp, hbegins, ?_⟩
    rw [hspan, ← Location.advanceBy_append, ← Location.advanceBy_append, List.append_assoc]

/-- The text of a token that is no error is the lexeme it was read from. -/
theorem begins_of_mem_tokens {source : String} {l : Lexeme} (h : l ∈ (tokenize source).tokens)
    (hl : l.token ≠ .error) :
    ∃ w rest, Begins (w ++ rest) (.token l.token) w ∧ l.span.text source = String.ofList w := by
  obtain ⟨s, hs, hlexeme⟩ := List.mem_filterMap.1 h
  obtain ⟨x, w, rest, hsource, hbegins, hspan⟩ := ((cut_iff _ _ _).2 rfl).begins s hs
  refine ⟨w, rest, ?_, ?_⟩
  · rw [Segment.lexeme?] at hlexeme
    cases hcontent : s.content with
    | extra => simp [hcontent] at hlexeme
    | fault f =>
      rw [hcontent] at hlexeme
      exact absurd (congrArg Lexeme.token (Option.some.inj hlexeme)).symm hl
    | token t =>
      rw [hcontent] at hlexeme hbegins
      rwa [← Option.some.inj hlexeme]
  · rw [Segment.span_lexeme? hlexeme, hspan]
    exact text_advanceBy x w hsource

/-! ### Hex strings -/

/-- The text of a hex string with these digits, between which separators may stand. -/
def IsHexString (text digits : List Char) : Prop :=
  ∃ quote inner, (quote = '"' ∨ quote = '\x27') ∧ text = "hex".toList ++ quote :: (inner ++ [quote])
    ∧ (∀ c ∈ inner, isHexDigit c ∨ c = '_') ∧ digits = inner.filter (· ≠ '_')

theorem IsHexString.isHexDigit {text digits : List Char} (h : IsHexString text digits) :
    ∀ c ∈ digits, isHexDigit c := by
  obtain ⟨quote, inner, -, -, hinner, rfl⟩ := h
  intro c hc
  obtain ⟨hmem, hne⟩ := List.mem_filter.1 hc
  exact (hinner c hmem).resolve_right (by simpa using hne)

namespace Literal

/-- A closed body without faults is digits and separators up to the quote. -/
theorem exists_inner_of_closed {quote : Char} {cs : List Char} (hclosed : (hexBody quote cs).closed)
    (hexpected : (hexBody quote cs).unexpected = none) :
    ∃ inner rest, cs = inner ++ quote :: rest ∧ (hexBody quote cs).length = inner.length + 1
      ∧ (∀ c ∈ inner, isHexDigit c ∨ c = '_')
      ∧ (hexBody quote cs).digits = inner.filter (· ≠ '_') := by
  induction cs with
  | nil => simp [hexBody] at hclosed
  | cons c cs ih =>
    rw [hexBody] at hclosed hexpected ⊢
    split at hclosed
    · rename_i hquote
      exact ⟨[], cs, by simp [hquote], by simp [hquote]⟩
    rename_i hquote
    split at hclosed
    · simp at hclosed
    rename_i hline
    rw [if_neg hquote, if_neg hline] at hexpected ⊢
    by_cases hseparator : c = '_'
    · simp only [hseparator, if_true] at hclosed hexpected ⊢
      obtain ⟨inner, rest, rfl, hlength, hinner, hdigits⟩ := ih hclosed hexpected
      exact ⟨'_' :: inner, rest, by simp, by simp [hlength], by simpa using hinner,
        by simpa using hdigits⟩
    · by_cases hdigit : isHexDigit c
      · simp only [hseparator, hdigit, if_true, if_false] at hclosed hexpected ⊢
        obtain ⟨inner, rest, rfl, hlength, hinner, hdigits⟩ := ih hclosed hexpected
        exact ⟨c :: inner, rest, by simp, by simp [hlength],
          List.forall_mem_cons.2 ⟨.inl hdigit, hinner⟩, by simp [hseparator, hdigits]⟩
      · simp [hseparator, hdigit] at hexpected

end Literal

/-- The digits of a hex string come in pairs. -/
theorem Literal.scanHexString_eq_ok {quote : Char} {cs : List Char} {digits : String}
    (h : (scanHexString quote cs).2 = .ok digits) : ∃ inner rest, cs = inner ++ quote :: rest
      ∧ (scanHexString quote cs).1 = inner.length + 1
      ∧ (∀ c ∈ inner, isHexDigit c ∨ c = '_') ∧ digits.toList = inner.filter (· ≠ '_')
      ∧ digits.toList.length % 2 = 0 := by
  simp only [scanHexString] at h ⊢
  split at h
  · rename_i hclosed
    split at h
    · simp at h
    · rename_i hexpected
      split at h
      · rename_i heven
        obtain rfl := Except.ok.inj h
        obtain ⟨inner, rest, hcs, hlength, hinner, hdigits⟩ :=
          exists_inner_of_closed hclosed hexpected
        exact ⟨inner, rest, hcs, hlength, hinner, by rw [String.toList_ofList, hdigits],
          by rwa [String.toList_ofList]⟩
      · simp at h
  · simp at h

theorem Begins.isHexString {cs w : List Char} {digits : String}
    (h : Begins cs (.token (.hexString digits)) w) : IsHexString w digits.toList := by
  generalize hcontent : Content.token (.hexString digits) = content at h
  cases h with
  | @hexString quote w body rest h hcs hn =>
    cases hscan : (Literal.scanHexString quote (body ++ rest)).2 with
    | error f => simp [hscan, Content.ofScan] at hcontent
    | ok digits' =>
      rw [hscan] at hcontent
      obtain rfl : digits = digits' := Token.hexString.inj (Content.token.inj hcontent)
      obtain ⟨inner, rest', hsplit, hlength, hinner, hdigits, -⟩ :=
        Literal.scanHexString_eq_ok hscan
      have hsame : body ++ rest = (inner ++ [quote]) ++ rest' := by simpa using hsplit
      have hbody : body = inner ++ [quote] :=
        (List.append_inj hsame (by simpa [hlength] using hn)).1
      refine ⟨quote, inner, (openString_cases h.rule).2, ?_, hinner, hdigits⟩
      rw [hbody, show w = StringKind.hex.opener.toList ++ [quote] from h.lexeme]
      simp [StringKind.opener]
  | string | unicodeString =>
    unfold Content.ofScan at hcontent
    split at hcontent <;> simp at hcontent
  | _ => simp at hcontent

theorem Begins.even_digits {cs w : List Char} {digits : String}
    (h : Begins cs (.token (.hexString digits)) w) : digits.toList.length % 2 = 0 := h.spelt rfl

/-! ### The bytes of digits -/

/-- The digits of a text come in pairs, and each pair denotes one of these bytes. -/
structure Paired (digits : List Char) (bytes : List UInt8) : Prop where
  isHexDigit : ∀ c ∈ digits, isHexDigit c
  length_eq : digits.length = 2 * bytes.length
  pair : ∀ i (h : i < bytes.length), ∃ a b, digits[2 * i]? = some a ∧ digits[2 * i + 1]? = some b
    ∧ bytes[i].toNat = 16 * digitValue a + digitValue b

theorem paired_hexBytes {digits : List Char} (hdigits : ∀ c ∈ digits, isHexDigit c)
    (heven : digits.length % 2 = 0) : Paired digits (Grammar.hexBytes digits) := by
  refine ⟨hdigits, ?_, ?_⟩
  · clear hdigits
    induction digits using Grammar.hexBytes.induct with
    | case1 a b rest ih =>
      simp only [List.length_cons] at heven
      rw [Grammar.hexBytes, List.length_cons, List.length_cons, List.length_cons, ih (by omega)]
      omega
    | case2 digits hshort =>
      rcases digits with _ | ⟨a, _ | ⟨b, rest⟩⟩
      · rfl
      · simp at heven
      · exact absurd rfl (hshort a b rest)
  · clear hdigits heven
    induction digits using Grammar.hexBytes.induct with
    | case1 a b rest ih =>
      intro i hi
      simp only [Grammar.hexBytes] at hi ⊢
      rcases i with _ | i
      · refine ⟨a, b, rfl, rfl, ?_⟩
        have ha := Literal.digitValue_le a
        have hb := Literal.digitValue_le b
        simp only [List.getElem_cons_zero, ofDigits, List.foldl_cons, List.foldl_nil]
        rw [UInt8.toNat_ofNat_of_lt' (by simp [UInt8.size]; omega)]
        omega
      · exact ih i (by simpa using hi)
    | case2 digits hshort =>
      intro i hi
      rw [Grammar.hexBytes] at hi
      · simp at hi
      · exact hshort

example : Grammar.hexBytes "1234aB".toList = [0x12, 0x34, 0xab] := by decide

/-- Digits that are joined from pieces of whole pairs denote the bytes of the pieces. -/
theorem paired_intercalate {parts : List String}
    (hdigits : ∀ digits ∈ parts, ∀ c ∈ digits.toList, isHexDigit c)
    (heven : ∀ digits ∈ parts, digits.toList.length % 2 = 0) :
    Paired ("".intercalate parts).toList (parts.flatMap (Grammar.hexBytes ·.toList)) := by
  rw [← Grammar.hexBytes_intercalate heven]
  have hboth : (∀ c ∈ ("".intercalate parts).toList, isHexDigit c)
      ∧ ("".intercalate parts).toList.length % 2 = 0 := by
    induction parts with
    | nil => simp
    | cons digits parts ih =>
      obtain ⟨hdigit, hdigits⟩ := List.forall_mem_cons.1 hdigits
      obtain ⟨hpair, heven⟩ := List.forall_mem_cons.1 heven
      obtain ⟨hall, hlength⟩ := ih hdigits heven
      rcases parts with _ | ⟨digits', parts⟩
      · simpa using ⟨hdigit, hpair⟩
      · rw [String.intercalate_cons_cons, String.toList_append, String.toList_append,
          String.toList_empty, List.append_nil, List.length_append]
        exact ⟨List.forall_mem_append.2 ⟨hdigit, hall⟩, by omega⟩
  exact paired_hexBytes hboth.1 hboth.2

/-! ### Literals of strings -/

/-- The kind of a string token. -/
def Token.stringKind? : Token → Option StringKind
  | .string _ => some .plain
  | .hexString _ => some .hex
  | .unicodeString _ => some .unicode
  | _ => none

/-- The bytes that a string token holds. -/
def Token.stringBytes : Token → List UInt8
  | .string bytes | .unicodeString bytes => bytes
  | .hexString digits => Grammar.hexBytes digits.toList
  | _ => []

/-- The digits that the token of a hex string holds. -/
def Token.hexDigits : Token → String
  | .hexString digits => digits
  | _ => ""

/-- The literal of strings that an expression is, and the kind of the strings. -/
def Expr.strings? : Expr → Option (StringKind × StringLiteral)
  | .literal (.string l) => some (.plain, l)
  | .literal (.hexString l) => some (.hex, l)
  | .literal (.unicodeString l) => some (.unicode, l)
  | _ => none

/-- A literal joins the strings of one kind whose tokens these are. -/
structure StringLiteral.Joins (source : String) (kind : StringKind) (ts : List Token)
    (l : StringLiteral) : Prop where
  ne_nil : l.parts ≠ []
  nonempty : ∀ p ∈ l.parts, p.start.offset < p.stop.offset
  inOrder : l.parts.Pairwise fun p q => p.stop.offset ≤ q.start.offset
  span_eq : ∃ first last, l.parts.head? = some first ∧ l.parts.getLast? = some last
    ∧ l.span = first.through last
  /-- The text of each part is read as its token alone. -/
  alone : List.Forall₂ (fun p t => tokensOf (p.text source) = [t]) l.parts ts
  clean : ∀ p ∈ l.parts, (tokenize (p.text source)).errors = []
  /-- There are no other tokens between the parts. -/
  together : tokensOf (l.span.text source) = ts
  kind_eq : ∀ t ∈ ts, t.stringKind? = some kind
  bytes_eq : l.bytes = ts.flatMap Token.stringBytes

/-- A literal joins the hex strings whose tokens these are. -/
structure StringLiteral.JoinsDigits (source : String) (ts : List Token) (l : StringLiteral) :
    Prop where
  written : List.Forall₂ (fun p t => IsHexString (p.text source).toList t.hexDigits.toList)
    l.parts ts
  value_eq : l.value = "".intercalate (ts.map Token.hexDigits)
  paired : Paired l.value.toList l.bytes

theorem plainPart?_eq_some (t : Token) (bytes : List UInt8)
    (h : Grammar.plainPart? t = some bytes) : t = .string bytes := by
  cases t <;> simp_all [Grammar.plainPart?]

theorem unicodePart?_eq_some (t : Token) (bytes : List UInt8)
    (h : Grammar.unicodePart? t = some bytes) : t = .unicodeString bytes := by
  cases t <;> simp_all [Grammar.unicodePart?]

theorem hexPart?_eq_some (t : Token) (digits : String) (h : Grammar.hexPart? t = some digits) :
    t = .hexString digits := by
  cases t <;> simp_all [Grammar.hexPart?]

theorem of_stringParts {α : Type} {part? : Token → Option α} {make : α → Token}
    (hmake : ∀ t x, part? t = some x → t = make x) {parts : List (α × Span)}
    {ts rest : List Lexeme} {es : List SyntaxError} (h : stringParts part? parts ts es rest) :
    ts.map Lexeme.span = parts.map Prod.snd
      ∧ ts.map Lexeme.token = parts.map fun p => make p.1 := by
  induction parts generalizing ts es with
  | nil =>
    obtain ⟨rfl, -⟩ := h
    exact ⟨rfl, rfl⟩
  | cons p parts ih =>
    obtain ⟨_, _, _, _, rfl, rfl, ⟨t, rfl, rfl, hpart, hspan⟩, hparts⟩ := h
    obtain ⟨hspans, htokens⟩ := ih hparts
    exact ⟨by simp [hspan, hspans], by simp [hmake _ _ hpart, htokens]⟩

section

variable {source : String} {l : StringLiteral} {us : List Lexeme}

/-- A literal that is written in a source is read from tokens that stand side by side in it. -/
theorem StringLiteral.exists_strings {α : Type} {part? : Token → Option α} {make : α → Token}
    {bytes : α → List UInt8} {value : List α → String}
    (hmake : ∀ t x, part? t = some x → t = make x)
    (h : WrittenIn source (l.phrase part? bytes value)) :
    ∃ us xs, us <:+: (tokenize source).tokens ∧ Covers l.span us ∧ l.parts = us.map Lexeme.span
      ∧ us.map Lexeme.token = xs.map make ∧ l.bytes = xs.flatMap bytes ∧ l.value = value xs := by
  obtain ⟨before, us, es, after, htokens, hcovers, parts, hparts, hbytes, hvalue, hphrase⟩ := h
  obtain ⟨hspans, hpayloads⟩ := of_stringParts hmake hphrase
  refine ⟨us, parts.map Prod.fst, ⟨before, after, htokens.symm⟩, hcovers, ?_, ?_, ?_, hvalue⟩
  · rw [hparts, hspans]
  · rw [hpayloads, List.map_map]
    rfl
  · rw [hbytes, List.flatMap_map]

theorem StringLiteral.joins_of_covers {α : Type} {make : α → Token} {xs : List α}
    {kind : StringKind} (hkind : ∀ x, (make x).stringKind? = some kind)
    (hus : us <:+: (tokenize source).tokens) (hcovers : Covers l.span us)
    (hparts : l.parts = us.map Lexeme.span)
    (htokens : us.map Lexeme.token = xs.map make)
    (hbytes : l.bytes = xs.flatMap fun x => (make x).stringBytes) :
    l.Joins source kind (us.map Lexeme.token) := by
  have hkinds : ∀ t ∈ us.map Lexeme.token, t.stringKind? = some kind := by
    rw [htokens, List.forall_mem_map]
    exact fun x _ => hkind x
  have horder : InOrder us := (tokenize_inOrder source).sublist hus.sublist
  have halone : ∀ u ∈ us, tokensOf (u.span.text source) = [u.token] := fun u hu => by
    have hinfix : [u] <:+: (tokenize source).tokens :=
      ((List.singleton_infix_iff _ _).2 hu).trans hus
    exact tokensOf_covered hinfix (Covers.singleton u)
  refine ⟨?_, ?_, ?_, ?_, ?_, ?_, tokensOf_covered hus hcovers, ?_, ?_⟩
  · simpa [hparts] using hcovers.ne_nil
  · simpa [hparts] using horder.1
  · rw [hparts, List.pairwise_map]
    exact horder.2
  · obtain ⟨first, last, hfirst, hlast, hspan⟩ := hcovers
    exact ⟨first.span, last.span, by simp [hparts, hfirst], by simp [hparts, hlast], hspan⟩
  · rw [hparts, List.forall₂_map_left_iff, List.forall₂_map_right_iff, List.forall₂_same]
    exact halone
  · rw [hparts, List.forall_mem_map]
    intro u hu
    rw [tokenize_errors_eq_nil_iff, halone u hu, List.mem_singleton]
    intro herror
    have herror' := hkinds u.token (List.mem_map_of_mem hu)
    simp [← herror, Token.stringKind?] at herror'
  · exact hkinds
  · rw [hbytes, htokens, List.flatMap_map]

/-- The digits of joined hex strings, as they are written in the parts. -/
theorem StringLiteral.joinsDigits_of_tokens {digits : List String}
    (hus : us <:+: (tokenize source).tokens) (hparts : l.parts = us.map Lexeme.span)
    (hdigits : us.map Lexeme.token = digits.map Token.hexString)
    (hbytes : l.bytes = digits.flatMap (Grammar.hexBytes ·.toList))
    (hvalue : l.value = "".intercalate digits) :
    l.JoinsDigits source (us.map Lexeme.token) := by
  have hbegins : ∀ u ∈ us, ∃ d w rest, u.token = .hexString d ∧ d ∈ digits
      ∧ Begins (w ++ rest) (.token (.hexString d)) w ∧ u.span.text source = String.ofList w := by
    intro u hu
    have hmem : u.token ∈ digits.map Token.hexString := hdigits ▸ List.mem_map_of_mem hu
    obtain ⟨d, hd, htoken⟩ := List.mem_map.1 hmem
    obtain ⟨w, rest, hbegins, htext⟩ :=
      begins_of_mem_tokens (hus.sublist.mem hu) (by simp [← htoken])
    exact ⟨d, w, rest, htoken.symm, hd, htoken ▸ hbegins, htext⟩
  have hpieces : ∀ d ∈ digits, (∀ c ∈ d.toList, isHexDigit c) ∧ d.toList.length % 2 = 0 := by
    intro d hd
    have hmem : .hexString d ∈ us.map Lexeme.token := hdigits ▸ List.mem_map_of_mem hd
    obtain ⟨u, hu, htoken⟩ := List.mem_map.1 hmem
    obtain ⟨d', w, rest, htoken', -, hbegins, -⟩ := hbegins u hu
    obtain rfl : d' = d := Token.hexString.inj (htoken'.symm.trans htoken)
    exact ⟨hbegins.isHexString.isHexDigit, hbegins.even_digits⟩
  refine ⟨?_, ?_, ?_⟩
  · rw [hparts, List.forall₂_map_left_iff, List.forall₂_map_right_iff, List.forall₂_same]
    intro u hu
    obtain ⟨d, w, rest, htoken, -, hbegins, htext⟩ := hbegins u hu
    rw [htext, htoken, String.toList_ofList]
    exact hbegins.isHexString
  · rw [hvalue, hdigits, List.map_map]
    exact congrArg _ (List.map_id digits).symm
  · rw [hvalue, hbytes]
    exact paired_intercalate (fun d hd => (hpieces d hd).1) fun d hd => (hpieces d hd).2

end

namespace Session

/-- In whatever a session gives, a literal of strings joins strings that stand side by side in the
source, and a literal of hex strings joins their digits. -/
theorem Gives.joins {source : String} {s : Session} {ps : List Part} {e : Expr}
    {kind : StringKind} {l : StringLiteral} (h : s.Gives ps) (hs : Reachable source s)
    (he : .expr e ∈ ps) (hl : e.strings? = some (kind, l)) :
    ∃ ts, l.Joins source kind ts ∧ (kind = .hex → l.JoinsDigits source ts) := by
  have hwritten := h.writtenIn hs he
  unfold Expr.strings? at hl
  split at hl
  · obtain ⟨rfl, rfl⟩ := Prod.mk.inj (Option.some.inj hl)
    rw [Part.phrase, Expr.phrase, Literal.phrase] at hwritten
    obtain ⟨us, xs, hus, hcovers, hparts, htokens, hbytes, -⟩ :=
      StringLiteral.exists_strings plainPart?_eq_some hwritten
    exact ⟨_, StringLiteral.joins_of_covers (fun _ => rfl) hus hcovers hparts htokens hbytes,
      by simp⟩
  · obtain ⟨rfl, rfl⟩ := Prod.mk.inj (Option.some.inj hl)
    rw [Part.phrase, Expr.phrase, Literal.phrase] at hwritten
    obtain ⟨us, xs, hus, hcovers, hparts, htokens, hbytes, hvalue⟩ :=
      StringLiteral.exists_strings hexPart?_eq_some hwritten
    exact ⟨_, StringLiteral.joins_of_covers (fun _ => rfl) hus hcovers hparts htokens hbytes,
      fun _ => StringLiteral.joinsDigits_of_tokens hus hparts htokens hbytes hvalue⟩
  · obtain ⟨rfl, rfl⟩ := Prod.mk.inj (Option.some.inj hl)
    rw [Part.phrase, Expr.phrase, Literal.phrase] at hwritten
    obtain ⟨us, xs, hus, hcovers, hparts, htokens, hbytes, -⟩ :=
      StringLiteral.exists_strings unicodePart?_eq_some hwritten
    exact ⟨_, StringLiteral.joins_of_covers (fun _ => rfl) hus hcovers hparts htokens hbytes,
      by simp⟩
  · simp at hl

/-- Two hex strings, the first with three digits in front of a separator and one behind it. -/
theorem Gives.joins_hex : ∃ e l ts,
    (ofSource "hex\"123_4\" hex\x27aB\x27").expression.1 = .ok e
      ∧ e.strings? = some (.hex, l) ∧ l.value = "1234aB" ∧ l.bytes = [0x12, 0x34, 0xab]
      ∧ l.Joins "hex\"123_4\" hex\x27aB\x27" .hex ts
      ∧ l.JoinsDigits "hex\"123_4\" hex\x27aB\x27" ts := by
  have heval : ((ofSource "hex\"123_4\" hex\x27aB\x27").expression.1.toOption.bind
      Expr.strings?).map (fun l => (l.1, l.2.value, l.2.bytes))
        = some (.hex, "1234aB", [0x12, 0x34, 0xab]) := by
    rw [ofSource_ofList]
    decide +kernel
  rcases hexpression : (ofSource "hex\"123_4\" hex\x27aB\x27").expression.1 with error | e
  · rw [hexpression] at heval
    simp [Except.toOption] at heval
  · rw [hexpression] at heval
    obtain ⟨⟨kind, l⟩, hl, hvalue⟩ := Option.map_eq_some_iff.1 heval
    obtain ⟨rfl, hvalue⟩ := Prod.mk.inj hvalue
    obtain ⟨hvalue, hbytes⟩ := Prod.mk.inj hvalue
    obtain ⟨ts, hjoins, hdigits⟩ := Gives.joins (.expression hexpression) .start e.mem_parts hl
    exact ⟨e, l, ts, rfl, hl, hvalue, hbytes, hjoins, hdigits rfl⟩

end Session

end SolidityFrontend
