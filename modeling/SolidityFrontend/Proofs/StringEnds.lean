import SolidityFrontend.Proofs.Escaping
import SolidityFrontend.Proofs.LongestMatch
import SolidityFrontend.Proofs.Shifting

/-!
# Where strings end

No escape moves the end of a string. A scanner that knows no escapes, but skips a backslash together
with the character or the line break behind it, stops at the same place (`Outline`): whatever else an
escape takes are digits and braces, which end no string.

A string that is closed is faulty if one of its escapes is malformed, and the first of these is
reported (`scanString_outline`). Scanning may also be done by offsets in bytes, each of which then
lies between two characters of the text (`scanBytes`).
-/

namespace SolidityFrontend.Literal

open Text

/-! ### Malformed escapes -/

/-- The characters `ds` are all of a row of at most `n` that satisfy `p`, where `rest` follows. -/
structure IsRun (n : Nat) (p : Char → Bool) (ds rest : List Char) : Prop where
  all : ∀ d ∈ ds, p d
  length_le : ds.length ≤ n
  ends : ds.length < n → ∀ c, rest.head? = some c → p c = false

/-- Behind a backslash, `text` is all of an escape that stands for nothing, where `rest` follows. -/
inductive Malformed : List Char → List Char → Prop
  /-- Too few digits behind `x`. -/
  | hex {ds rest : List Char} (h : IsRun 2 isHexDigit ds rest) (hlt : ds.length < 2) :
    Malformed ('x' :: ds) rest
  /-- More than a byte holds. -/
  | octal {ds rest : List Char} (h : IsRun 3 isOctalDigit ds rest) (hbyte : 0xFF < ofDigits 8 ds) :
    Malformed ds rest
  /-- Too few digits behind `u`. -/
  | unicode {ds rest : List Char} (h : IsRun 4 isHexDigit ds rest) (hlt : ds.length < 4)
    (hbrace : (ds ++ rest).head? ≠ some '{') : Malformed ('u' :: ds) rest
  | surrogate {ds rest : List Char} (h : IsRun 4 isHexDigit ds rest) (hlength : ds.length = 4)
    (hscalar : ¬(ofDigits 16 ds).isValidChar) : Malformed ('u' :: ds) rest
  /-- No digits in the braces, or something else than the closing brace behind them. -/
  | unclosed {ds rest : List Char} (h : IsRun 6 isHexDigit ds rest)
    (hclose : ds = [] ∨ rest.head? ≠ some '}') : Malformed ('u' :: '{' :: ds) rest
  | scalar {ds rest : List Char} (h : IsRun 6 isHexDigit ds ('}' :: rest)) (hne : ds ≠ [])
    (hscalar : ¬(ofDigits 16 ds).isValidChar) : Malformed ('u' :: '{' :: (ds ++ ['}'])) rest

theorem isRun_takeUpTo (n : Nat) (p : Char → Bool) (cs : List Char) :
    IsRun n p (takeUpTo n p cs) (cs.drop (takeUpTo n p cs).length) := by
  induction cs generalizing n with
  | nil => exact ⟨by simp [takeUpTo], by simp [takeUpTo], by simp⟩
  | cons c cs ih =>
    rcases n with _ | n
    · exact ⟨by simp [takeUpTo], by simp [takeUpTo], by simp⟩
    by_cases hc : p c
    · have hcons : takeUpTo (n + 1) p (c :: cs) = c :: takeUpTo n p cs := by simp [takeUpTo, hc]
      obtain ⟨hall, hle, hends⟩ := ih n
      rw [hcons]
      refine ⟨List.forall_mem_cons.2 ⟨hc, hall⟩, by simpa using hle, fun hlt => ?_⟩
      rw [List.length_cons, List.drop_succ_cons]
      exact hends (by simpa using hlt)
    · have hnil : takeUpTo (n + 1) p (c :: cs) = [] := by simp [takeUpTo, hc]
      rw [hnil]
      exact ⟨by simp, Nat.zero_le _, by simpa using hc⟩

/-- A row of characters is all that is taken. -/
theorem IsRun.takeUpTo_eq {n : Nat} {p : Char → Bool} {ds rest : List Char} (h : IsRun n p ds rest) :
    takeUpTo n p (ds ++ rest) = ds := by
  rcases rest with _ | ⟨c, rest⟩
  · rw [List.append_nil, takeUpTo, List.take_of_length_le h.length_le, List.takeWhile_eq_self_iff]
    exact h.all
  rcases Nat.lt_or_ge ds.length n with hlt | hge
  · exact takeUpTo_run h.all (h.ends hlt c rfl) h.length_le
  · exact takeUpTo_length h.all (h.length_le.antisymm hge)

theorem append_drop_takeUpTo (n : Nat) (p : Char → Bool) (cs : List Char) :
    takeUpTo n p cs ++ cs.drop (takeUpTo n p cs).length = cs := by
  have hprefix : takeUpTo n p cs <+: cs :=
    (List.takeWhile_prefix p).trans (List.take_prefix n cs)
  rw [List.prefix_iff_eq_append.1 hprefix]

theorem bytes_codePoint {m n : Nat} : (Escape.codePoint m n).bytes = none ↔ ¬n.isValidChar := by
  unfold Escape.codePoint
  split <;> simp_all [Escape.char]

/-- What is malformed is read as such, and no further. -/
theorem escape?_of_malformed {text rest : List Char} (h : Malformed text rest) :
    escape? (text ++ rest) = some ⟨text.length, none⟩ := by
  cases h with
  | @hex ds _ h hlt =>
    change some (hexEscape (ds ++ rest)) = _
    rw [hexEscape, h.takeUpTo_eq, if_neg hlt.ne, List.length_cons, Nat.add_comm]
  | octal h hbyte =>
    rcases text with _ | ⟨c, ds⟩
    · exact absurd hbyte (by decide)
    have hc : isOctalDigit c := h.all c List.mem_cons_self
    rw [List.cons_append, escape?_of_not_lead (not_lead_of_isOctalDigit hc), if_pos hc, octalEscape,
      ← List.cons_append, h.takeUpTo_eq]
    simp only [if_neg (Nat.not_lt.2 hbyte)]
  | @unicode ds _ h hlt hbrace =>
    change some (unicodeEscape (ds ++ rest)) = _
    rw [unicodeEscape_of_head_ne hbrace, h.takeUpTo_eq, if_neg hlt.ne, List.length_cons, Nat.add_comm]
  | @surrogate ds _ h hlength hscalar =>
    have hbrace : (ds ++ rest).head? ≠ some '{' := by
      rcases ds with _ | ⟨d, ds⟩
      · simp at hlength
      rintro hd
      obtain rfl : d = '{' := by simpa using hd
      exact absurd (h.all _ List.mem_cons_self) (by decide)
    change some (unicodeEscape (ds ++ rest)) = _
    rw [unicodeEscape_of_head_ne hbrace, h.takeUpTo_eq, if_pos hlength, Escape.codePoint,
      if_neg hscalar, List.length_cons, hlength]
  | @unclosed ds _ h hclose =>
    have hopen : (ds.isEmpty || ((ds ++ rest).drop ds.length).head? != some '}') = true := by
      rw [List.drop_left]
      rcases hclose with rfl | hclose
      · rfl
      · simp [hclose]
    change some (unicodeEscape ('{' :: (ds ++ rest))) = _
    rw [unicodeEscape, h.takeUpTo_eq, hopen]
    simp only [if_true, List.length_cons]
    congr 2
    omega
  | @scalar ds _ h hne hscalar =>
    have hclosed : (ds.isEmpty || ((ds ++ '}' :: rest).drop ds.length).head? != some '}') = false := by
      simp [hne]
    have htext : 'u' :: '{' :: (ds ++ ['}']) ++ rest = 'u' :: '{' :: (ds ++ '}' :: rest) := by simp
    rw [htext]
    change some (unicodeEscape ('{' :: (ds ++ '}' :: rest))) = _
    rw [unicodeEscape, h.takeUpTo_eq, hclosed, Escape.codePoint, if_neg hscalar]
    simp only [Bool.false_eq_true, if_false, List.length_cons, List.length_append, List.length_nil]
    congr 2
    omega

/-- What is read as malformed is so. -/
theorem exists_malformed {cs : List Char} {e : Escape} (h : escape? cs = some e)
    (hnone : e.bytes = none) :
    ∃ text rest, cs = text ++ rest ∧ text.length = e.length ∧ Malformed text rest := by
  rcases cs with _ | ⟨c, cs⟩
  · simp [escape?] at h
  unfold escape? at h
  simp only [Option.some_inj] at h
  subst h
  split at hnone
  case h_9 =>
    have hrun := isRun_takeUpTo 2 isHexDigit cs
    have hne : (takeUpTo 2 isHexDigit cs).length ≠ 2 := by
      rintro htwo
      simp [hexEscape, htwo] at hnone
    refine ⟨'x' :: takeUpTo 2 isHexDigit cs, _, ?_, ?_, .hex hrun (hrun.length_le.lt_of_ne hne)⟩
    · rw [List.cons_append, append_drop_takeUpTo]
    · rw [hexEscape, if_neg hne, List.length_cons, Nat.add_comm]
  case h_10 =>
    by_cases hbrace : cs.head? = some '{'
    · obtain ⟨d, cs, rfl⟩ := List.exists_cons_of_ne_nil (l := cs) (by rintro rfl; simp at hbrace)
      obtain rfl : d = '{' := by simpa using hbrace
      have hrun := isRun_takeUpTo 6 isHexDigit cs
      have hsplit := append_drop_takeUpTo 6 isHexDigit cs
      rw [unicodeEscape] at hnone ⊢
      generalize takeUpTo 6 isHexDigit cs = ds at hrun hsplit hnone ⊢
      generalize cs.drop ds.length = rest at hrun hsplit hnone ⊢
      subst hsplit
      split at hnone
      case isTrue hopen =>
        rw [if_pos hopen]
        refine ⟨'u' :: '{' :: ds, rest, rfl, ?_, .unclosed hrun (by simpa using hopen)⟩
        simp only [List.length_cons]
        omega
      case isFalse hclosed =>
        obtain ⟨hne, hclose⟩ : ds ≠ [] ∧ rest.head? = some '}' := by simpa using hclosed
        obtain ⟨rest, rfl⟩ : ∃ rest', rest = '}' :: rest' := by
          rcases rest with _ | ⟨d, rest⟩
          · simp at hclose
          · exact ⟨rest, by rw [Option.some_inj.1 hclose]⟩
        rw [if_neg hclosed, Escape.length_codePoint]
        refine ⟨_, rest, by simp, ?_, .scalar hrun hne (bytes_codePoint.1 hnone)⟩
        simp only [List.length_cons, List.length_append, List.length_nil]
        omega
    · have hrun := isRun_takeUpTo 4 isHexDigit cs
      have hsplit := append_drop_takeUpTo 4 isHexDigit cs
      rw [unicodeEscape_of_head_ne hbrace] at hnone ⊢
      generalize takeUpTo 4 isHexDigit cs = ds at hrun hsplit hnone ⊢
      generalize cs.drop ds.length = rest at hrun hsplit hnone ⊢
      subst hsplit
      split at hnone
      case isTrue hfour =>
        rw [if_pos hfour, Escape.length_codePoint]
        refine ⟨'u' :: ds, rest, rfl, ?_, .surrogate hrun hfour (bytes_codePoint.1 hnone)⟩
        rw [List.length_cons, hfour]
      case isFalse hfew =>
        rw [if_neg hfew]
        exact ⟨'u' :: ds, rest, rfl, Nat.add_comm _ _,
          .unicode hrun (hrun.length_le.lt_of_ne hfew) hbrace⟩
  case h_11 =>
    split at hnone
    case isTrue hoctal =>
      rw [if_pos hoctal]
      have hrun := isRun_takeUpTo 3 isOctalDigit (c :: cs)
      refine ⟨takeUpTo 3 isOctalDigit (c :: cs), _, (append_drop_takeUpTo _ _ _).symm, rfl,
        .octal hrun ?_⟩
      simp only [octalEscape] at hnone
      split at hnone
      · simp at hnone
      · omega
    case isFalse => simp [Escape.char] at hnone
  all_goals simp [Escape.char] at hnone

/-! ### Scanning without escapes -/

/-- A string behind its opening quote as it looks to a scanner that knows no escapes: its bytes with
the closing quote, whether it is closed, and what follows each backslash up to the end of the text. -/
structure Outline where
  size : Nat
  closed : Bool
  escapes : List (List Char)

/-- How many characters are skipped together with the backslash before them: a line break of two
characters counts as one. -/
def skipped : List Char → Nat
  | [] => 0
  | c :: cs => if c = '\r' ∧ cs.head? = some '\n' then 2 else 1

/-- The scanner that skips what follows a backslash, and stops behind the quote, or else before a line
break or at the end of the text. -/
def outline (quote : Char) : List Char → Outline
  | [] => ⟨0, false, []⟩
  | c :: cs =>
    if c = quote then ⟨c.utf8Size, true, []⟩
    else if c = '\n' ∨ c = '\r' then ⟨0, false, []⟩
    else if c = '\\' then
      let rest := outline quote (cs.drop (skipped cs))
      ⟨c.utf8Size + byteLength (cs.take (skipped cs)) + rest.size, rest.closed, cs :: rest.escapes⟩
    else
      let rest := outline quote cs
      { rest with size := c.utf8Size + rest.size }
  termination_by cs => cs.length
  decreasing_by all_goals simp only [List.length_drop, List.length_cons]; omega

/-- The characters that an escape takes behind those that are skipped. -/
def isPlain (c : Char) : Bool := isHexDigit c || c == '{' || c == '}'

theorem isPlain_of_isOctalDigit {c : Char} (h : isOctalDigit c) : isPlain c := by
  simp only [isOctalDigit, Bool.and_eq_true, decide_eq_true_eq] at h
  have hle : c ≤ '9' := Char.le_trans h.2 (by decide)
  simp [isPlain, isHexDigit, isDigit, h.1, hle]

theorem skipped_of_ne {c : Char} (h : c ≠ '\r') (cs : List Char) : skipped (c :: cs) = 1 := by
  simp [skipped, h]

/-- An escape takes what is skipped, and behind it only digits and braces. -/
theorem escape?_plain {cs : List Char} {e : Escape} (h : escape? cs = some e) :
    ∃ w, e.length = skipped cs + w.length ∧ w <+: cs.drop (skipped cs) ∧ ∀ c ∈ w, isPlain c := by
  rcases cs with _ | ⟨c, cs⟩
  · simp [escape?] at h
  have hhex {n : Nat} {d : Char} (hd : d ∈ takeUpTo n isHexDigit cs) : isPlain d := by
    simp [isPlain, (isRun_takeUpTo n isHexDigit cs).all d hd]
  have htaken (n : Nat) (p : Char → Bool) (cs : List Char) : takeUpTo n p cs <+: cs :=
    ⟨_, append_drop_takeUpTo n p cs⟩
  unfold escape? at h
  simp only [Option.some_inj] at h
  subst h
  split
  case h_8 =>
    exact ⟨[], by simp [skipped], List.nil_prefix, by simp⟩
  case h_9 =>
    refine ⟨takeUpTo 2 isHexDigit cs, ?_, htaken _ _ _, fun d => hhex⟩
    rw [hexEscape]
    split
    case isTrue htwo => rw [htwo, skipped_of_ne (by decide)]
    case isFalse => rfl
  case h_10 =>
    by_cases hbrace : cs.head? = some '{'
    · obtain ⟨d, cs, rfl⟩ := List.exists_cons_of_ne_nil (l := cs) (by rintro rfl; simp at hbrace)
      obtain rfl : d = '{' := by simpa using hbrace
      have hrun := isRun_takeUpTo 6 isHexDigit cs
      have hsplit := append_drop_takeUpTo 6 isHexDigit cs
      rw [unicodeEscape]
      generalize takeUpTo 6 isHexDigit cs = ds at hrun hsplit ⊢
      generalize cs.drop ds.length = rest at hrun hsplit ⊢
      subst hsplit
      have hplain : ∀ d ∈ '{' :: ds, isPlain d :=
        List.forall_mem_cons.2 ⟨by decide, fun d hd => by simp [isPlain, hrun.all d hd]⟩
      split
      case isTrue =>
        refine ⟨'{' :: ds, ?_, List.prefix_append _ _, hplain⟩
        rw [skipped_of_ne (by decide), List.length_cons]
        simp only
        omega
      case isFalse hclosed =>
        obtain ⟨-, hclose⟩ : ds ≠ [] ∧ rest.head? = some '}' := by simpa using hclosed
        obtain ⟨rest, rfl⟩ : ∃ rest', rest = '}' :: rest' := by
          rcases rest with _ | ⟨d, rest⟩
          · simp at hclose
          · exact ⟨rest, by rw [Option.some_inj.1 hclose]⟩
        refine ⟨'{' :: ds ++ ['}'], ?_, ⟨rest, by simp [skipped]⟩, ?_⟩
        · rw [Escape.length_codePoint, skipped_of_ne (by decide)]
          simp only [List.length_append, List.length_cons, List.length_nil]
          omega
        · exact List.forall_mem_append.2 ⟨hplain, List.forall_mem_singleton.2 (by decide)⟩
    · rw [unicodeEscape_of_head_ne hbrace]
      refine ⟨takeUpTo 4 isHexDigit cs, ?_, htaken _ _ _, fun d => hhex⟩
      split
      case isTrue hfour => rw [Escape.length_codePoint, hfour]; rfl
      case isFalse => rfl
  case h_11 hreturn _ _ =>
    split
    case isTrue hoctal =>
      have hrun := isRun_takeUpTo 3 isOctalDigit (c :: cs)
      have hcons : takeUpTo 3 isOctalDigit (c :: cs) = c :: takeUpTo 2 isOctalDigit cs := by
        simp [takeUpTo, hoctal]
      rw [hcons] at hrun
      refine ⟨takeUpTo 2 isOctalDigit cs, ?_, ?_, fun d hd => ?_⟩
      · rw [octalEscape, hcons, skipped_of_ne hreturn, List.length_cons, Nat.add_comm]
      · rw [skipped_of_ne hreturn]
        exact htaken _ _ _
      · exact isPlain_of_isOctalDigit (hrun.all d (List.mem_cons_of_mem c hd))
    case isFalse => exact ⟨[], by rw [skipped_of_ne hreturn]; rfl, List.nil_prefix, by simp⟩
  all_goals exact ⟨[], rfl, List.nil_prefix, by simp⟩

section

variable {quote : Char} (hquote : isPlain quote = false)
include hquote

theorem outline_plain {w : List Char} (hw : ∀ c ∈ w, isPlain c) (cs : List Char) :
    outline quote (w ++ cs)
      = { outline quote cs with size := byteLength w + (outline quote cs).size } := by
  induction w with
  | nil => rw [List.nil_append, byteLength, Nat.zero_add]
  | cons c w ih =>
    obtain ⟨hc, hw⟩ := List.forall_mem_cons.1 hw
    have hne {d : Char} (hd : isPlain d = false) : c ≠ d := by
      rintro rfl
      exact Bool.false_ne_true (hd.symm.trans hc)
    rw [List.cons_append, outline, if_neg (hne hquote),
      if_neg (not_or.2 ⟨hne (by decide), hne (by decide)⟩), if_neg (hne (by decide)), ih hw]
    simp only [byteLength, Nat.add_assoc]

/-- Behind an escape both scanners are at the same place. -/
theorem outline_escape {cs : List Char} {e : Escape} (h : escape? cs = some e) :
    byteLength (cs.take (skipped cs)) + (outline quote (cs.drop (skipped cs))).size
        = byteLength (cs.take e.length) + (outline quote (cs.drop e.length)).size
      ∧ (outline quote (cs.drop (skipped cs))).closed = (outline quote (cs.drop e.length)).closed
      ∧ (outline quote (cs.drop (skipped cs))).escapes = (outline quote (cs.drop e.length)).escapes := by
  obtain ⟨w, hlength, ⟨rest, hrest⟩, hw⟩ := escape?_plain h
  have htake : cs.take e.length = cs.take (skipped cs) ++ w := by
    rw [hlength, List.take_add, ← hrest, List.take_left]
  have hdrop : cs.drop e.length = rest := by
    rw [hlength, ← List.drop_drop, ← hrest, List.drop_left]
  rw [htake, hdrop, ← hrest, outline_plain hquote hw, byteLength_append, Nat.add_assoc]
  exact ⟨rfl, rfl, rfl⟩

end

/-- The escape behind a backslash, from that on, if it is malformed. -/
def malformed? (cs : List Char) : Option String :=
  (escape? cs).bind fun e =>
    if e.bytes.isNone then some (String.ofList ('\\' :: cs.take e.length)) else none

theorem malformed?_eq_some {cs : List Char} {sequence : String} :
    malformed? cs = some sequence ↔ ∃ text rest, cs = text ++ rest ∧ Malformed text rest
      ∧ sequence = String.ofList ('\\' :: text) := by
  constructor
  · intro h
    obtain ⟨e, he, hsequence⟩ := Option.bind_eq_some_iff.1 h
    split at hsequence
    · rename_i hnone
      obtain ⟨text, rest, rfl, hlength, hmalformed⟩ := exists_malformed he (Option.isNone_iff_eq_none.1 hnone)
      rw [← hlength, List.take_left] at hsequence
      exact ⟨text, rest, rfl, hmalformed, (Option.some.inj hsequence).symm⟩
    · simp at hsequence
  · rintro ⟨text, rest, rfl, hmalformed, rfl⟩
    rw [malformed?, escape?_of_malformed hmalformed, Option.bind_some, Option.isNone_none, if_pos rfl,
      List.take_left]

/-- Scanning a string takes what the scanner without escapes takes, and finds the first of the escapes
that is malformed. -/
theorem stringBody_outline {quote : Char} (hquote : isPlain quote = false) (cs : List Char) :
    byteLength (cs.take (stringBody quote cs).length) = (outline quote cs).size
      ∧ (stringBody quote cs).closed = (outline quote cs).closed
      ∧ (stringBody quote cs).malformed = (outline quote cs).escapes.findSome? malformed? := by
  fun_induction stringBody quote cs with
  | case1 => simp [outline, byteLength]
  | case2 cs => simp [outline, byteLength]
  | case3 c cs hc hbreak => simp [outline, hc, hbreak, byteLength]
  | case4 cs hescape hc hbreak =>
    obtain rfl : cs = [] := by
      rcases cs with _ | ⟨c, cs⟩
      · rfl
      · simp [escape?] at hescape
    simp [outline, hc, skipped, byteLength, malformed?, escape?]
  | case5 cs e hescape hc hbreak ih =>
    obtain ⟨hsize, hclosed, hescapes⟩ := outline_escape hquote hescape
    obtain ⟨hlength, hends, hfirst⟩ := ih
    rw [outline, if_neg hc, if_neg hbreak, if_pos rfl]
    simp only [StringBody.consEscape]
    refine ⟨?_, hends.trans hclosed.symm, ?_⟩
    · rw [Nat.add_right_comm, List.take_succ_cons, Nat.add_comm _ e.length, List.take_add, byteLength,
        byteLength_append, hlength, Nat.add_assoc, hsize]
    · rw [List.findSome?_cons, malformed?, hescape, Option.bind_some, hescapes, ← hfirst]
      split <;> rfl
  | case6 c cs hc hbreak hslash ih =>
    obtain ⟨hlength, hends, hfirst⟩ := ih
    rw [outline, if_neg hc, if_neg hbreak, if_neg hslash]
    simp only [StringBody.consChar]
    exact ⟨by rw [List.take_succ_cons, byteLength, hlength], hends, hfirst⟩

/-! ### Offsets in bytes -/

/-- At most `n` leading characters that satisfy `p`, cut off behind as many bytes. -/
def cutRun (n : Nat) (p : Char → Bool) (cs : List Char) : Option (List Char) :=
  takeBytes (takeUpTo n p cs).length cs

/-- The escape behind `u`, its length in bytes. -/
def cutUnicode : List Char → Option Escape
  | '{' :: cs => do
    let digits ← cutRun 6 isHexDigit cs
    let behind ← dropBytes (byteLength digits) cs
    if digits.isEmpty || behind.head? != some '}' then return ⟨2 + byteLength digits, none⟩
    else return .codePoint (3 + byteLength digits) (ofDigits 16 digits)
  | cs => do
    let digits ← cutRun 4 isHexDigit cs
    if byteLength digits = 4 then return .codePoint 5 (ofDigits 16 digits)
    else return ⟨1 + byteLength digits, none⟩

/-- The escape after a backslash, its length in bytes, if anything follows. -/
def cutEscape : List Char → Option (Option Escape)
  | [] => some none
  | c :: cs => some <$>
    match c with
    | 'n' => some (.char 1 '\n')
    | 't' => some (.char 1 '\t')
    | 'r' => some (.char 1 '\r')
    | 'b' => some (.char 1 '\x08')
    | 'f' => some (.char 1 '\x0c')
    | 'v' => some (.char 1 '\x0b')
    | '\n' => some ⟨1, some []⟩
    | '\r' => do
      let behind ← dropBytes 1 (c :: cs)
      return ⟨if behind.head? = some '\n' then 2 else 1, some []⟩
    | 'x' => do
      let behind ← dropBytes 1 (c :: cs)
      let digits ← cutRun 2 isHexDigit behind
      if byteLength digits = 2 then return ⟨3, some [UInt8.ofNat (ofDigits 16 digits)]⟩
      else return ⟨1 + byteLength digits, none⟩
    | 'u' => do
      let behind ← dropBytes 1 (c :: cs)
      cutUnicode behind
    | _ =>
      if isOctalDigit c then do
        let digits ← cutRun 3 isOctalDigit (c :: cs)
        let n := ofDigits 8 digits
        return ⟨byteLength digits, if n < 256 then some [UInt8.ofNat n] else none⟩
      else some (.char c.utf8Size c)

theorem utf8Size_of_isPlain {c : Char} (h : isPlain c) : c.utf8Size = 1 := by
  have hle : c ≤ '}' := by
    simp only [isPlain, isHexDigit, isDigit, Bool.or_eq_true, Bool.and_eq_true, decide_eq_true_eq,
      beq_iff_eq] at h
    rcases h with (((h | h) | h) | rfl) | rfl
    · exact Char.le_trans h.2 (by decide)
    · exact Char.le_trans h.2 (by decide)
    · exact Char.le_trans h.2 (by decide)
    · decide
    · decide
  exact Char.utf8Size_eq_one_iff.2 (UInt32.le_trans hle (by decide))

theorem byteLength_of_plain {cs : List Char} (h : ∀ c ∈ cs, isPlain c) :
    byteLength cs = cs.length := by
  induction cs with
  | nil => rfl
  | cons c cs ih =>
    obtain ⟨hc, hcs⟩ := List.forall_mem_cons.1 h
    rw [byteLength, utf8Size_of_isPlain hc, ih hcs, List.length_cons, Nat.add_comm]

section

variable {n : Nat} {p : Char → Bool} (hp : ∀ c, p c → isPlain c)
include hp

theorem byteLength_takeUpTo (cs : List Char) :
    byteLength (takeUpTo n p cs) = (takeUpTo n p cs).length :=
  byteLength_of_plain fun c hc => hp c ((isRun_takeUpTo n p cs).all c hc)

/-- A run of digits is cut off between two characters. -/
theorem cutRun_eq (cs : List Char) : cutRun n p cs = some (takeUpTo n p cs) := by
  have hcut := takeBytes_byteLength (takeUpTo n p cs) (cs.drop (takeUpTo n p cs).length)
  rwa [append_drop_takeUpTo, byteLength_takeUpTo hp] at hcut

omit hp in
theorem dropBytes_takeUpTo (cs : List Char) :
    dropBytes (byteLength (takeUpTo n p cs)) cs = some (cs.drop (takeUpTo n p cs).length) := by
  have hcut := dropBytes_byteLength (takeUpTo n p cs) (cs.drop (takeUpTo n p cs).length)
  rwa [append_drop_takeUpTo] at hcut

end

theorem isPlain_of_isHexDigit (c : Char) (h : isHexDigit c) : isPlain c := by simp [isPlain, h]

theorem cutUnicode_eq (cs : List Char) : cutUnicode cs = some (unicodeEscape cs) := by
  by_cases hbrace : cs.head? = some '{'
  · obtain ⟨d, cs, rfl⟩ := List.exists_cons_of_ne_nil (l := cs) (by rintro rfl; simp at hbrace)
    obtain rfl : d = '{' := by simpa using hbrace
    rw [cutUnicode, cutRun_eq isPlain_of_isHexDigit, unicodeEscape]
    simp only [Option.bind_eq_bind, Option.bind_some]
    rw [dropBytes_takeUpTo, Option.bind_some,
      byteLength_takeUpTo isPlain_of_isHexDigit]
    split <;> rfl
  · rw [unicodeEscape_of_head_ne hbrace]
    have hcut : cutUnicode cs = (cutRun 4 isHexDigit cs >>= fun digits =>
        if byteLength digits = 4 then some (.codePoint 5 (ofDigits 16 digits))
        else some ⟨1 + byteLength digits, none⟩) := by
      unfold cutUnicode
      split
      · simp at hbrace
      · rfl
    rw [hcut, cutRun_eq isPlain_of_isHexDigit, Option.bind_eq_bind, Option.bind_some,
      byteLength_takeUpTo isPlain_of_isHexDigit]
    split <;> rfl

theorem dropBytes_one {c : Char} (hc : c.utf8Size = 1) (cs : List Char) :
    dropBytes 1 (c :: cs) = some cs := by
  have hcut := dropBytes_byteLength [c] cs
  rwa [byteLength, byteLength, hc] at hcut

/-- All of an escape that begins with a character of one byte are such characters. -/
theorem byteLength_take_escape {c : Char} {cs : List Char} {e : Escape}
    (h : escape? (c :: cs) = some e) (hc : c.utf8Size = 1) (hne : c ≠ '\r') :
    byteLength ((c :: cs).take e.length) = e.length := by
  obtain ⟨w, hlength, ⟨rest, hrest⟩, hw⟩ := escape?_plain h
  rw [skipped_of_ne hne, List.drop_succ_cons, List.drop_zero] at hrest
  rw [hlength, skipped_of_ne hne, ← hrest, Nat.add_comm, List.take_succ_cons, List.take_left, byteLength,
    byteLength_of_plain hw, hc, Nat.add_comm]

theorem cutEscape_of_not_lead {c : Char} {cs : List Char} (h : c ∉ leads) :
    cutEscape (c :: cs) = some <$>
      if isOctalDigit c then do
        let digits ← cutRun 3 isOctalDigit (c :: cs)
        let n := ofDigits 8 digits
        return ⟨byteLength digits, if n < 256 then some [UInt8.ofNat n] else none⟩
      else some (.char c.utf8Size c) := by
  unfold cutEscape
  simp only [leads, controls, List.map_cons, List.map_nil, List.mem_append, List.mem_cons,
    List.not_mem_nil, or_false, not_or] at h
  split <;> simp_all

/-- Cutting at offsets in bytes reads the same escape. -/
theorem cutEscape_eq (cs : List Char) :
    cutEscape cs
      = some ((escape? cs).map fun e => { e with length := byteLength (cs.take e.length) }) := by
  rcases cs with _ | ⟨c, cs⟩
  · rfl
  -- Where all characters have one byte the length in bytes is the same number.
  have hsame {e : Escape} (hc : c.utf8Size = 1) (hne : c ≠ '\r') (h : escape? (c :: cs) = some e)
      (hcut : cutEscape (c :: cs) = some (some e)) : cutEscape (c :: cs)
        = some ((escape? (c :: cs)).map fun e =>
          { e with length := byteLength ((c :: cs).take e.length) }) := by
    rw [hcut, h, Option.map_some, byteLength_take_escape h hc hne]
  by_cases hlead : c ∈ leads
  · simp only [leads, controls, List.map_cons, List.map_nil, List.cons_append, List.nil_append,
      List.mem_cons, List.not_mem_nil, or_false] at hlead
    rcases hlead with rfl | rfl | rfl | rfl | rfl | rfl | rfl | rfl | rfl | rfl
    case inr.inr.inr.inr.inr.inr.inr.inl =>
      have hcut : cutEscape ('\r' :: cs)
          = some (some ⟨if cs.head? = some '\n' then 2 else 1, some []⟩) := by
        change some <$> (dropBytes 1 ('\r' :: cs) >>= _) = _
        rw [dropBytes_one rfl]
        rfl
      have hread : escape? ('\r' :: cs) = some ⟨if cs.head? = some '\n' then 2 else 1, some []⟩ := rfl
      rw [hcut, hread, Option.map_some]
      rcases cs with _ | ⟨d, cs⟩
      · rfl
      · by_cases hd : d = '\n'
        · subst hd
          rfl
        · simp only [List.head?_cons, Option.some_inj, if_neg hd]
          rfl
    case inr.inr.inr.inr.inr.inr.inr.inr.inl =>
      refine hsame rfl (by decide) (e := hexEscape cs) rfl ?_
      change some <$> (dropBytes 1 ('x' :: cs) >>= _) = _
      rw [dropBytes_one rfl, Option.bind_eq_bind, Option.bind_some, cutRun_eq isPlain_of_isHexDigit,
        Option.bind_some, byteLength_takeUpTo isPlain_of_isHexDigit, hexEscape]
      split <;> rfl
    case inr.inr.inr.inr.inr.inr.inr.inr.inr =>
      refine hsame rfl (by decide) (e := unicodeEscape cs) rfl ?_
      change some <$> (dropBytes 1 ('u' :: cs) >>= cutUnicode) = _
      rw [dropBytes_one rfl, Option.bind_eq_bind, Option.bind_some, cutUnicode_eq]
      rfl
    all_goals rfl
  · rw [cutEscape_of_not_lead hlead, escape?_of_not_lead hlead]
    split
    case isTrue hoctal =>
      have hread : escape? (c :: cs) = _ := escape?_of_not_lead hlead
      rw [if_pos hoctal] at hread
      have hreturn : c ≠ '\r' := by
        rintro rfl
        exact absurd hoctal (by decide)
      have hlength := byteLength_take_escape hread
        (utf8Size_of_isPlain (isPlain_of_isOctalDigit hoctal)) hreturn
      rw [Option.map_some, hlength, cutRun_eq fun _ => isPlain_of_isOctalDigit, Option.bind_eq_bind,
        Option.bind_some, byteLength_takeUpTo fun _ => isPlain_of_isOctalDigit]
      rfl
    case isFalse =>
      simp [Escape.char, byteLength]

/-! ### Strings by offsets -/

theorem lt_of_dropBytes {c : Char} {n : Nat} {cs ds : List Char}
    (h : dropBytes n cs = some (c :: ds)) : n < byteLength cs := by
  have hlength := byteLength_of_dropBytes h
  have hpos := c.utf8Size_pos
  rw [byteLength] at hlength
  omega

/-- The value of a closed string, unless one of its escapes is malformed. -/
def StringBody.answer (b : StringBody) : Except LexFault (List UInt8) :=
  if b.closed then b.malformed.elim (.ok b.bytes) fun sequence => .error (.invalidEscape sequence)
  else .error .unterminatedString

theorem scanString_eq (quote : Char) (cs : List Char) :
    scanString quote cs = ((stringBody quote cs).length, (stringBody quote cs).answer) := by
  simp only [scanString, StringBody.answer]
  rcases (stringBody quote cs).malformed with _ | sequence <;> rfl

/-- Scanning a string by offsets in bytes, from an offset on: where it stops and its value, and `none`
where a slice lies beyond the text or ends inside a character. The bytes and the first malformed escape
before the offset are given. -/
def scanBytesFrom (quote : Char) (cs : List Char) (n : Nat) (bytes : List UInt8)
    (malformed : Option String) : Option (Nat × Except LexFault (List UInt8)) :=
  match _h : dropBytes n cs with
  | none => none
  | some [] => some (byteLength cs, .error .unterminatedString)
  | some (c :: _) =>
    if c = quote then some (n + c.utf8Size, StringBody.answer ⟨1, true, bytes, malformed⟩)
    else if c = '\n' ∨ c = '\r' then some (n, .error .unterminatedString)
    else if c = '\\' then do
      let after ← dropBytes (n + 1) cs
      match ← cutEscape after with
      | none => some (byteLength cs, .error .unterminatedString)
      | some e =>
        let text ← takeBytes e.length after
        scanBytesFrom quote cs (n + 1 + e.length) (bytes ++ e.bytes.getD [])
          (malformed <|> if e.bytes.isNone then some (String.ofList ('\\' :: text)) else none)
    else scanBytesFrom quote cs (n + c.utf8Size) (bytes ++ Utf8.encodeChar c) malformed
  termination_by byteLength cs - n
  decreasing_by
    all_goals
      have hlt := lt_of_dropBytes _h
      have hpos := c.utf8Size_pos
      omega

/-- Scanning a string by offsets in bytes. -/
def scanBytes (quote : Char) (cs : List Char) : Option (Nat × Except LexFault (List UInt8)) :=
  scanBytesFrom quote cs 0 [] none

theorem scanBytesFrom_of_cons {quote c : Char} {cs ds : List Char} {n : Nat}
    (h : dropBytes n cs = some (c :: ds)) (bytes : List UInt8) (malformed : Option String) :
    scanBytesFrom quote cs n bytes malformed =
      if c = quote then some (n + c.utf8Size, StringBody.answer ⟨1, true, bytes, malformed⟩)
      else if c = '\n' ∨ c = '\r' then some (n, .error .unterminatedString)
      else if c = '\\' then (dropBytes (n + 1) cs).bind fun after =>
        (cutEscape after).bind fun e? => e?.elim (some (byteLength cs, .error .unterminatedString))
          fun e => (takeBytes e.length after).bind fun text =>
            scanBytesFrom quote cs (n + 1 + e.length) (bytes ++ e.bytes.getD [])
              (malformed <|> if e.bytes.isNone then some (String.ofList ('\\' :: text)) else none)
      else scanBytesFrom quote cs (n + c.utf8Size) (bytes ++ Utf8.encodeChar c) malformed := by
  rw [scanBytesFrom]
  split
  · simp_all
  · simp_all
  · rename_i c' ds' h'
    obtain ⟨rfl, rfl⟩ := List.cons.inj (Option.some.inj (h.symm.trans h'))
    simp only [Option.bind_eq_bind]
    congr 4
    funext after
    congr 1
    funext e?
    cases e? <;> rfl

/-- Every slice of the scanner by offsets lies in the text and begins and ends between two characters,
and it stops where the scanner by characters does, with the same value. -/
theorem scanBytesFrom_eq (quote : Char) (before cs : List Char) (bytes : List UInt8)
    (malformed : Option String) :
    scanBytesFrom quote (before ++ cs) (byteLength before) bytes malformed
      = some (byteLength before + byteLength (cs.take (stringBody quote cs).length),
          StringBody.answer { stringBody quote cs with
            bytes := bytes ++ (stringBody quote cs).bytes
            malformed := malformed <|> (stringBody quote cs).malformed }) := by
  have hdrop := dropBytes_byteLength before cs
  have hslash : byteLength ['\\'] = 1 := rfl
  fun_induction stringBody quote cs generalizing before bytes malformed with
  | case1 =>
    rw [scanBytesFrom]
    split <;> simp_all [StringBody.answer, byteLength]
  | case2 cs =>
    rw [scanBytesFrom_of_cons hdrop, if_pos rfl]
    simp [byteLength, StringBody.answer]
  | case3 c cs hc hbreak =>
    rw [scanBytesFrom_of_cons hdrop, if_neg hc, if_pos hbreak]
    simp [byteLength, StringBody.answer]
  | case4 cs hescape hc hbreak =>
    obtain rfl : cs = [] := by
      rcases cs with _ | ⟨c, cs⟩
      · rfl
      · simp [escape?] at hescape
    have hafter : dropBytes (byteLength before + 1) (before ++ ['\\']) = some [] := by
      rw [← hslash, ← byteLength_append]
      simpa using dropBytes_byteLength (before ++ ['\\']) []
    rw [scanBytesFrom_of_cons hdrop, if_neg hc, if_neg hbreak, if_pos rfl, hafter]
    simp [cutEscape, byteLength, byteLength_append, StringBody.answer]
  | case5 cs e hescape hc hbreak ih =>
    have hsplit := List.take_append_drop e.length cs
    have hbehind : before ++ '\\' :: cs
        = (before ++ '\\' :: cs.take e.length) ++ cs.drop e.length := by
      rw [List.append_assoc, List.cons_append, hsplit]
    have hafter : dropBytes (byteLength before + 1) (before ++ '\\' :: cs) = some cs := by
      rw [← hslash, ← byteLength_append]
      simpa using dropBytes_byteLength (before ++ ['\\']) cs
    have htext : takeBytes (byteLength (cs.take e.length)) cs = some (cs.take e.length) := by
      have hcut := takeBytes_byteLength (cs.take e.length) (cs.drop e.length)
      rwa [hsplit] at hcut
    have hplace : byteLength before + 1 + byteLength (cs.take e.length)
        = byteLength (before ++ '\\' :: cs.take e.length) := by
      rw [byteLength_append, byteLength, Nat.add_assoc]
      rfl
    rw [scanBytesFrom_of_cons hdrop, if_neg hc, if_neg hbreak, if_pos rfl, hafter, Option.bind_some,
      cutEscape_eq, hescape, Option.map_some, Option.bind_some, Option.elim_some, htext,
      Option.bind_some, hplace, hbehind, ih _ _ _ (dropBytes_byteLength _ _)]
    refine congrArg some (Prod.ext ?_ ?_)
    · simp only [StringBody.consEscape]
      rw [Nat.add_right_comm, List.take_succ_cons, Nat.add_comm _ e.length, List.take_add,
        byteLength_append, Nat.add_assoc, byteLength, byteLength, byteLength_append, Nat.add_assoc]
    · simp only [StringBody.consEscape, StringBody.answer, List.append_assoc]
      congr 2
      cases malformed <;> cases e.bytes <;> rfl
  | case6 c cs hc hbreak hne ih =>
    have hbehind : before ++ c :: cs = (before ++ [c]) ++ cs := by simp
    have hplace : byteLength before + c.utf8Size = byteLength (before ++ [c]) := by
      simp [byteLength_append, byteLength]
    rw [scanBytesFrom_of_cons hdrop, if_neg hc, if_neg hbreak, if_neg hne, hplace, hbehind,
      ih _ _ _ (dropBytes_byteLength _ _)]
    refine congrArg some (Prod.ext ?_ ?_)
    · simp only [StringBody.consChar]
      rw [List.take_succ_cons, byteLength, ← hplace, Nat.add_assoc]
    · simp only [StringBody.consChar, StringBody.answer, List.append_assoc]
      rfl

theorem scanBytes_eq (quote : Char) (cs : List Char) :
    scanBytes quote cs
      = some (byteLength (cs.take (scanString quote cs).1), (scanString quote cs).2) := by
  rw [scanBytes, scanString_eq]
  simpa [byteLength, StringBody.answer] using scanBytesFrom_eq quote [] cs [] none

/-- A string stops where the scanner without escapes does, and every slice on the way begins and ends
between two characters of the text. It is unterminated if that scanner meets no quote, and otherwise
faulty if one of its escapes is malformed, with the first of these. -/
theorem scanString_outline {quote : Char} (hquote : quote = '"' ∨ quote = '\x27') (cs : List Char) :
    scanBytes quote cs = some ((outline quote cs).size, (scanString quote cs).2)
      ∧ (scanString quote cs).1 ≤ cs.length
      ∧ byteLength (cs.take (scanString quote cs).1) = (outline quote cs).size
      ∧ ((scanString quote cs).2 = .error .unterminatedString ↔ (outline quote cs).closed = false)
      ∧ ∀ sequence, (scanString quote cs).2 = .error (.invalidEscape sequence) ↔
          (outline quote cs).closed = true
            ∧ ∃ earlier text rest later, (outline quote cs).escapes = earlier ++ (text ++ rest) :: later
              ∧ (∀ ds ∈ earlier, ∀ text rest, ds = text ++ rest → ¬Malformed text rest)
              ∧ Malformed text rest ∧ sequence = String.ofList ('\\' :: text) := by
  have hplain : isPlain quote = false := by rcases hquote with rfl | rfl <;> rfl
  obtain ⟨hsize, hclosed, hfirst⟩ := stringBody_outline hplain cs
  have hnone (ds : List Char) :
      malformed? ds = none ↔ ∀ text rest, ds = text ++ rest → ¬Malformed text rest := by
    rw [Option.eq_none_iff_forall_ne_some]
    constructor
    · rintro h text rest rfl hmalformed
      exact h _ (malformed?_eq_some.2 ⟨text, rest, rfl, hmalformed, rfl⟩)
    · rintro h sequence hsequence
      obtain ⟨text, rest, hds, hmalformed, -⟩ := malformed?_eq_some.1 hsequence
      exact h text rest hds hmalformed
  rw [scanBytes_eq, scanString_eq, hsize]
  refine ⟨rfl, length_stringBody_le quote cs, rfl, ?_, fun sequence => ?_⟩
  · rw [StringBody.answer, hclosed, hfirst]
    cases (outline quote cs).closed <;>
      cases (outline quote cs).escapes.findSome? malformed? <;> simp
  · have hanswer : (stringBody quote cs).answer = .error (.invalidEscape sequence) ↔
        (outline quote cs).closed = true
          ∧ (outline quote cs).escapes.findSome? malformed? = some sequence := by
      rw [StringBody.answer, hclosed, hfirst]
      cases (outline quote cs).closed <;>
        cases (outline quote cs).escapes.findSome? malformed? <;> simp
    rw [hanswer, List.findSome?_eq_some_iff]
    refine and_congr_right fun _ => ⟨?_, ?_⟩
    · rintro ⟨earlier, ds, later, hescapes, hds, hearlier⟩
      obtain ⟨text, rest, rfl, hmalformed, hsequence⟩ := malformed?_eq_some.1 hds
      exact ⟨earlier, text, rest, later, hescapes, fun ds hds => (hnone ds).1 (hearlier ds hds),
        hmalformed, hsequence⟩
    · rintro ⟨earlier, text, rest, later, hescapes, hearlier, hmalformed, hsequence⟩
      exact ⟨earlier, _, later, hescapes, malformed?_eq_some.2 ⟨text, rest, rfl, hmalformed, hsequence⟩,
        fun ds hds => (hnone ds).2 (hearlier ds hds)⟩

/-- An escape next to the closing quote that is cut short. -/
theorem scanString_outline_hex :
    ('"' = '"' ∨ '"' = '\x27')
      ∧ scanBytes '"' "a\\x1\" b".toList = some (5, .error (.invalidEscape "\\x1")) := by
  obtain ⟨hscan, -, -, -, hmalformed⟩ := scanString_outline (.inl rfl) "a\\x1\" b".toList
  have houtline : outline '"' "a\\x1\" b".toList = ⟨5, true, ["x1\" b".toList]⟩ := by
    simp [outline, skipped, byteLength, Char.utf8Size]
  have hrun : IsRun 2 isHexDigit ['1'] "\" b".toList := by
    refine ⟨List.forall_mem_singleton.2 (by decide), by decide, fun _ c hc => ?_⟩
    obtain rfl : '"' = c := by simpa using hc
    rfl
  have hvalue := (hmalformed "\\x1").2 (by
    rw [houtline]
    exact ⟨rfl, [], "x1".toList, "\" b".toList, [], rfl, by simp, .hex hrun (by decide), rfl⟩)
  exact ⟨.inl rfl, by rw [hscan, houtline, hvalue]⟩

end SolidityFrontend.Literal
