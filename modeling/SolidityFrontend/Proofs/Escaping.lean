import SolidityFrontend.Proofs.Legible

/-!
# Strings are decoded exactly

A string literal is written as a row of elements: characters that stand for themselves, and escapes,
each of which is a backslash and a sequence of its own length. Scanning takes exactly the elements and
the quote behind them, and gives the bytes of the elements one behind the other
(`scanString_elements`). There is an escape for every byte, so there is a literal for every row of
bytes.
-/

namespace SolidityFrontend.Literal

open Text

/-! ### Elements of a string -/

/-- The letters that stand for a control character behind a backslash. -/
def controls : List (Char × Char) :=
  [('n', '\n'), ('t', '\t'), ('r', '\r'), ('b', '\x08'), ('f', '\x0c'), ('v', '\x0b')]

/-- The characters with which a sequence begins that does not stand for its one character. -/
def leads : List Char := controls.map Prod.fst ++ ['\n', '\r', 'x', 'u']

/-- What may stand behind a backslash. -/
inductive Sequence where
  | control (letter value : Char) (h : (letter, value) ∈ controls)
  | hex (a b : Char) (h : ∀ c ∈ [a, b], isHexDigit c)
  | octal (a b c : Char) (h : ∀ d ∈ [a, b, c], isOctalDigit d)
      (hbyte : ofDigits 8 [a, b, c] ≤ 0xFF)
  | unicode (a b c d : Char) (h : ∀ e ∈ [a, b, c, d], isHexDigit e)
      (hscalar : ofDigits 16 [a, b, c, d] < 0xD800 ∨ 0xDFFF < ofDigits 16 [a, b, c, d])
  | braced (digits : List Char) (h : ∀ c ∈ digits, isHexDigit c) (hne : digits ≠ [])
      (hlength : digits.length ≤ 6) (hscalar : (ofDigits 16 digits).isValidChar)
  /-- A line break, which is left out. -/
  | lineBreak (text : List Char) (h : text ∈ [['\n'], ['\r'], ['\r', '\n']])
  /-- A character that stands for itself. -/
  | other (c : Char) (h : c ∉ leads) (hdigit : isOctalDigit c = false)

namespace Sequence

def text : Sequence → List Char
  | control letter _ _ => [letter]
  | hex a b _ => ['x', a, b]
  | octal a b c _ _ => [a, b, c]
  | unicode a b c d _ _ => ['u', a, b, c, d]
  | braced digits _ _ _ _ => 'u' :: '{' :: (digits ++ ['}'])
  | lineBreak text _ => text
  | other c _ _ => [c]

/-- The bytes that the sequence stands for. -/
def bytes : Sequence → List UInt8
  | control _ value _ => Utf8.encodeChar value
  | hex a b _ => [UInt8.ofNat (ofDigits 16 [a, b])]
  | octal a b c _ _ => [UInt8.ofNat (ofDigits 8 [a, b, c])]
  | unicode a b c d _ _ => Utf8.encodeChar (Char.ofNat (ofDigits 16 [a, b, c, d]))
  | braced digits _ _ _ _ => Utf8.encodeChar (Char.ofNat (ofDigits 16 digits))
  | lineBreak _ _ => []
  | other c _ _ => Utf8.encodeChar c

end Sequence

/-- A piece of a string between two quotes of one kind. -/
inductive Element (quote : Char) where
  | char (c : Char) (h : c ∉ [quote, '\\', '\n', '\r'])
  | escape (s : Sequence)

namespace Element

variable {quote : Char}

def text : Element quote → List Char
  | char c _ => [c]
  | escape s => '\\' :: s.text

/-- The bytes that the element stands for. -/
def bytes : Element quote → List UInt8
  | char c _ => Utf8.encodeChar c
  | escape s => s.bytes

end Element

/-! ### Sequences -/

theorem takeUpTo_length {p : Char → Bool} {ds rest : List Char} {n : Nat} (h : ∀ d ∈ ds, p d)
    (hn : ds.length = n) : takeUpTo n p (ds ++ rest) = ds := by
  rw [takeUpTo, ← hn, List.take_left, List.takeWhile_eq_self_iff]
  exact h

/-- A run of at most so many digits is taken up to the first other character. -/
theorem takeUpTo_run {p : Char → Bool} {ds rest : List Char} {c : Char} {n : Nat}
    (h : ∀ d ∈ ds, p d) (hc : p c = false) (hn : ds.length ≤ n) :
    takeUpTo n p (ds ++ c :: rest) = ds := by
  obtain ⟨m, rfl⟩ := Nat.exists_eq_add_of_le hn
  rw [takeUpTo, List.take_length_add_append, List.takeWhile_append_of_pos h]
  cases m <;> simp [hc]

theorem digitValue_le (c : Char) : digitValue c ≤ 15 := by
  have hnat {a : Char} (h : c ≤ a) : c.toNat ≤ a.toNat := UInt32.le_iff_toNat_le.1 h
  unfold digitValue
  split
  case isTrue h =>
    have hle : c.toNat ≤ 57 := hnat h.2
    change c.toNat - 48 ≤ 15
    omega
  case isFalse =>
    split
    case isTrue h =>
      have hle : c.toNat ≤ 102 := hnat h.2
      change c.toNat - 97 + 10 ≤ 15
      omega
    case isFalse =>
      split
      case isTrue h =>
        have hle : c.toNat ≤ 70 := hnat h.2
        change c.toNat - 65 + 10 ≤ 15
        omega
      case isFalse => exact Nat.zero_le _

/-- What begins with another character than the leads is octal, or that character. -/
theorem escape?_of_not_lead {c : Char} {cs : List Char} (h : c ∉ leads) :
    escape? (c :: cs) = some (if isOctalDigit c then octalEscape (c :: cs) else .char 1 c) := by
  unfold escape?
  simp only [leads, controls, List.map_cons, List.map_nil, List.mem_append, List.mem_cons,
    List.not_mem_nil, or_false, not_or] at h
  split <;> simp_all

theorem not_lead_of_isOctalDigit {c : Char} (h : isOctalDigit c) : c ∉ leads := by
  have hleads : ∀ d ∈ leads, isOctalDigit d = false := by
    simp [leads, controls, isOctalDigit]
  intro hc
  rw [hleads c hc] at h
  exact Bool.false_ne_true h

/-- A sequence is read as a whole, whatever stands behind it. A line break is only no part of the
next one. -/
theorem escape?_sequence (s : Sequence) {rest : List Char} (hrest : rest.head? ≠ some '\n') :
    escape? (s.text ++ rest) = some ⟨s.text.length, some s.bytes⟩ := by
  cases s with
  | control letter value h =>
    simp only [controls, List.mem_cons, Prod.mk.injEq, List.not_mem_nil, or_false] at h
    rcases h with ⟨rfl, rfl⟩ | ⟨rfl, rfl⟩ | ⟨rfl, rfl⟩ | ⟨rfl, rfl⟩ | ⟨rfl, rfl⟩ | ⟨rfl, rfl⟩ <;> rfl
  | hex a b h =>
    have hdigits : takeUpTo 2 isHexDigit (a :: b :: rest) = [a, b] := takeUpTo_length h rfl
    change some (hexEscape (a :: b :: rest)) = _
    simp [hexEscape, hdigits, Sequence.text, Sequence.bytes]
  | octal a b c h hbyte =>
    have hdigits : takeUpTo 3 isOctalDigit (a :: b :: c :: rest) = [a, b, c] := takeUpTo_length h rfl
    have ha : isOctalDigit a := h a List.mem_cons_self
    change escape? (a :: (b :: c :: rest)) = _
    rw [escape?_of_not_lead (not_lead_of_isOctalDigit ha), if_pos ha, octalEscape, hdigits]
    simp only [if_pos (Nat.lt_succ_of_le hbyte)]
    rfl
  | unicode a b c d h hscalar =>
    have hdigits : takeUpTo 4 isHexDigit (a :: b :: c :: d :: rest) = [a, b, c, d] :=
      takeUpTo_length h rfl
    have hbrace : (a :: b :: c :: d :: rest).head? ≠ some '{' := by
      rintro hbrace
      obtain rfl : a = '{' := by simpa using hbrace
      exact absurd (h _ List.mem_cons_self) (by decide)
    have hvalid : (ofDigits 16 [a, b, c, d]).isValidChar := by
      have hbound : ofDigits 16 [a, b, c, d] < 0x10000 := by
        have ha := digitValue_le a
        have hb := digitValue_le b
        have hc := digitValue_le c
        have hd := digitValue_le d
        simp only [ofDigits, List.foldl_cons, List.foldl_nil]
        omega
      exact hscalar.imp_right fun h => ⟨h, hbound.trans (by decide)⟩
    change some (unicodeEscape (a :: b :: c :: d :: rest)) = _
    rw [unicodeEscape_of_head_ne hbrace, hdigits]
    change some (Escape.codePoint 5 (ofDigits 16 [a, b, c, d])) = _
    rw [Escape.codePoint, if_pos hvalid]
    rfl
  | braced digits h hne hlength hscalar =>
    have hdigits : takeUpTo 6 isHexDigit (digits ++ '}' :: rest) = digits :=
      takeUpTo_run h (by decide) hlength
    have hend : (digits.isEmpty || ((digits ++ '}' :: rest).drop digits.length).head? != some '}')
        = false := by
      simp [hne]
    have htext : (Sequence.braced digits h hne hlength hscalar).text ++ rest
        = 'u' :: '{' :: (digits ++ '}' :: rest) := by
      simp [Sequence.text]
    have hsize : (Sequence.braced digits h hne hlength hscalar).text.length = 3 + digits.length := by
      simp [Sequence.text]
      omega
    rw [htext, hsize]
    change some (unicodeEscape ('{' :: (digits ++ '}' :: rest))) = _
    rw [unicodeEscape, hdigits, hend, Escape.codePoint, if_pos hscalar]
    rfl
  | lineBreak text h =>
    simp only [List.mem_cons, List.not_mem_nil, or_false] at h
    rcases h with rfl | rfl | rfl
    · rfl
    · change some (⟨if rest.head? = some '\n' then 2 else 1, some []⟩ : Escape) = _
      rw [if_neg hrest]
      rfl
    · rfl
  | other c h hdigit =>
    change escape? (c :: rest) = _
    rw [escape?_of_not_lead h, hdigit]
    rfl

/-! ### Bodies -/

section

variable {quote : Char}

/-- An element does not begin with a line break, so it leaves one in front of it as it is. -/
theorem Element.head_ne_newline (e : Element quote) (rest : List Char) :
    (e.text ++ rest).head? ≠ some '\n' := by
  cases e with
  | char c h =>
    rintro hnewline
    obtain rfl : c = '\n' := by simpa [text] using hnewline
    simp at h
  | escape s => simp [text]

theorem stringBody_element (hquote : quote ≠ '\\') (e : Element quote) {rest : List Char}
    (hrest : rest.head? ≠ some '\n') :
    stringBody quote (e.text ++ rest) =
      { stringBody quote rest with
        length := e.text.length + (stringBody quote rest).length
        bytes := e.bytes ++ (stringBody quote rest).bytes } := by
  cases e with
  | char c h =>
    simp only [List.mem_cons, List.not_mem_nil, or_false, not_or] at h
    obtain ⟨hc, hslash, hnewline, hreturn⟩ := h
    rw [Element.text, List.singleton_append, stringBody, if_neg hc, if_neg (by tauto),
      if_neg hslash, StringBody.consChar, List.length_singleton, Nat.add_comm]
    rfl
  | escape s =>
    rw [Element.text, List.cons_append, stringBody, if_neg hquote.symm, if_neg (by decide),
      if_pos rfl, escape?_sequence s hrest]
    simp only [List.drop_left, StringBody.consEscape, List.length_cons, Option.getD_some,
      Option.isNone_some, Bool.false_eq_true, if_false]
    congr 1
    omega

/-- The elements in front of the closing quote are the body. -/
theorem stringBody_elements (hquote : quote ≠ '\\') (hnewline : quote ≠ '\n')
    (es : List (Element quote)) (rest : List Char) :
    stringBody quote (es.flatMap Element.text ++ quote :: rest) =
      ⟨(es.flatMap Element.text).length + 1, true, es.flatMap Element.bytes, none⟩ := by
  induction es with
  | nil => rw [List.flatMap_nil, List.nil_append, stringBody, if_pos rfl]; rfl
  | cons e es ih =>
    have hrest : (es.flatMap Element.text ++ quote :: rest).head? ≠ some '\n' := by
      cases es with
      | nil => simpa using hnewline
      | cons e es =>
        rw [List.flatMap_cons, List.append_assoc]
        exact e.head_ne_newline _
    rw [List.flatMap_cons, List.append_assoc, stringBody_element hquote e hrest, ih,
      List.length_append]
    rfl

end

/-! ### Bytes -/

/-- The escape of two digits for a byte. -/
def Sequence.ofByte (b : UInt8) : Sequence :=
  .hex (b.toNat / 16).digitChar (b.toNat % 16).digitChar (by
    have hhigh : b.toNat / 16 < 16 := Nat.div_lt_of_lt_mul b.toNat_lt
    have hlow : b.toNat % 16 < 16 := Nat.mod_lt _ (by decide)
    simp [isHexDigit_digitChar hhigh, isHexDigit_digitChar hlow])

theorem Sequence.bytes_ofByte (b : UInt8) : (ofByte b).bytes = [b] := by
  have hhigh : b.toNat / 16 < 16 := Nat.div_lt_of_lt_mul b.toNat_lt
  have hlow : b.toNat % 16 < 16 := Nat.mod_lt _ (by decide)
  rw [ofByte, bytes, ofDigits, List.foldl_cons, List.foldl_cons, List.foldl_nil, Nat.zero_mul,
    Nat.zero_add, digitValue_digitChar hhigh, digitValue_digitChar hlow, Nat.div_add_mod',
    UInt8.ofNat_toNat]

theorem flatMap_bytes_ofByte {quote : Char} (bytes : List UInt8) :
    (bytes.map fun b => (Element.escape (.ofByte b) : Element quote)).flatMap Element.bytes = bytes := by
  rw [List.flatMap_map]
  induction bytes with
  | nil => rfl
  | cons b bytes ih =>
    rw [List.flatMap_cons, ih, Element.bytes, Sequence.bytes_ofByte, List.singleton_append]

/-- A string literal is scanned up to its closing quote, whatever follows, and its value is made of the
bytes of its elements. Every row of bytes is the value of a literal. -/
theorem scanString_elements {quote : Char} (hquote : quote = '"' ∨ quote = '\x27') :
    (∀ (es : List (Element quote)) (rest : List Char),
        scanString quote (es.flatMap Element.text ++ quote :: rest)
          = ((es.flatMap Element.text).length + 1, .ok (es.flatMap Element.bytes)))
      ∧ ∀ bytes : List UInt8, ∃ body : List Char, ∀ rest : List Char,
        scanString quote (body ++ quote :: rest) = (body.length + 1, .ok bytes) := by
  have hslash : quote ≠ '\\' := by rcases hquote with rfl | rfl <;> decide
  have hnewline : quote ≠ '\n' := by rcases hquote with rfl | rfl <;> decide
  have hscan (es : List (Element quote)) (rest : List Char) :
      scanString quote (es.flatMap Element.text ++ quote :: rest)
        = ((es.flatMap Element.text).length + 1, .ok (es.flatMap Element.bytes)) := by
    rw [scanString, stringBody_elements hslash hnewline es rest]
    rfl
  refine ⟨hscan, fun bytes => ?_⟩
  have hbytes := hscan (bytes.map fun b => .escape (.ofByte b))
  rw [flatMap_bytes_ofByte] at hbytes
  exact ⟨_, hbytes⟩

/-- Escapes of several lengths one behind the other, and a character of two bytes. -/
theorem scanString_elements_mixed :
    ('"' = '"' ∨ '"' = '\x27')
      ∧ scanString '"' ['\\', 'x', 'f', 'f', 'é', '\\', '\r', '\n', '\\', '3', '7', '7', '\\', '"', '"', ';']
          = (15, .ok [0xFF, 0xC3, 0xA9, 0xFF, 0x22])
      ∧ ∃ body : List Char, ∀ rest : List Char,
        scanString '"' (body ++ '"' :: rest) = (body.length + 1, .ok [0x80, 0x00]) :=
  ⟨.inl rfl, (scanString_elements (.inl rfl)).1
    [.escape (.hex 'f' 'f' (by simp [isHexDigit])), .char 'é' (by decide),
      .escape (.lineBreak ['\r', '\n'] (by decide)),
      .escape (.octal '3' '7' '7' (by simp [isOctalDigit]) (by decide)),
      .escape (.other '"' (by decide) (by decide))] [';'],
    (scanString_elements (.inl rfl)).2 [0x80, 0x00]⟩

end SolidityFrontend.Literal
