import Mathlib.Data.List.Basic
import Mathlib.Data.Nat.Basic
import SolidityFrontend.Session

/-!
# Scanning

The rule with the longest lexeme can be found without asking every rule: a reserved word or a symbol
is compared with a text only if it begins with the first character of that, and the widths behind
the name of a type only if a digit stands there. `scan` cuts a text in this way, and `tokenize` gives
the same tokens (`tokenize_ofList`), so that those of a given text can be computed.
-/

namespace SolidityFrontend

open Text

/-! ### Spellings -/

/-- The reserved words with the characters of their spellings. -/
def Keyword.spellings : List (Keyword × List Char) :=
  [(.pragma, ['p', 'r', 'a', 'g', 'm', 'a']), (.import_, ['i', 'm', 'p', 'o', 'r', 't']),
   (.contract, ['c', 'o', 'n', 't', 'r', 'a', 'c', 't']),
   (.interface, ['i', 'n', 't', 'e', 'r', 'f', 'a', 'c', 'e']),
   (.library, ['l', 'i', 'b', 'r', 'a', 'r', 'y']),
   (.abstract, ['a', 'b', 's', 't', 'r', 'a', 'c', 't']), (.struct, ['s', 't', 'r', 'u', 'c', 't']),
   (.enum, ['e', 'n', 'u', 'm']), (.event, ['e', 'v', 'e', 'n', 't']),
   (.function, ['f', 'u', 'n', 'c', 't', 'i', 'o', 'n']),
   (.modifier, ['m', 'o', 'd', 'i', 'f', 'i', 'e', 'r']),
   (.constructor, ['c', 'o', 'n', 's', 't', 'r', 'u', 'c', 't', 'o', 'r']), (.if_, ['i', 'f']),
   (.else_, ['e', 'l', 's', 'e']), (.for_, ['f', 'o', 'r']), (.while_, ['w', 'h', 'i', 'l', 'e']),
   (.do_, ['d', 'o']), (.break_, ['b', 'r', 'e', 'a', 'k']),
   (.continue_, ['c', 'o', 'n', 't', 'i', 'n', 'u', 'e']),
   (.return_, ['r', 'e', 't', 'u', 'r', 'n']), (.returns, ['r', 'e', 't', 'u', 'r', 'n', 's']),
   (.try_, ['t', 'r', 'y']), (.catch_, ['c', 'a', 't', 'c', 'h']), (.emit, ['e', 'm', 'i', 't']),
   (.new, ['n', 'e', 'w']), (.delete, ['d', 'e', 'l', 'e', 't', 'e']),
   (.mapping, ['m', 'a', 'p', 'p', 'i', 'n', 'g']), (.is_, ['i', 's']),
   (.using_, ['u', 's', 'i', 'n', 'g']), (.assembly, ['a', 's', 's', 'e', 'm', 'b', 'l', 'y']),
   (.throw, ['t', 'h', 'r', 'o', 'w']), (.true_, ['t', 'r', 'u', 'e']),
   (.false_, ['f', 'a', 'l', 's', 'e'])]

theorem Keyword.map_fst_spellings : spellings.map Prod.fst = all := rfl

theorem Keyword.toList_text_of_mem : ∀ e ∈ spellings, e.1.text.toList = e.2 := by decide

theorem Keyword.mem_spellings (k : Keyword) : (k, k.text.toList) ∈ spellings := by
  obtain ⟨e, he, rfl⟩ : ∃ e ∈ spellings, e.1 = k := List.mem_map.1 (map_fst_spellings ▸ k.mem_all)
  rwa [toList_text_of_mem e he]

/-- The symbols with their characters. -/
def Symbol.spellings : List (Symbol × List Char) :=
  [(.plus, ['+']), (.minus, ['-']), (.star, ['*']), (.slash, ['/']), (.percent, ['%']),
   (.starStar, ['*', '*']), (.plusPlus, ['+', '+']), (.minusMinus, ['-', '-']), (.eqEq, ['=', '=']),
   (.bangEq, ['!', '=']), (.less, ['<']), (.greater, ['>']), (.lessEq, ['<', '=']),
   (.greaterEq, ['>', '=']), (.ampersandAmpersand, ['&', '&']), (.barBar, ['|', '|']),
   (.bang, ['!']), (.ampersand, ['&']), (.bar, ['|']), (.caret, ['^']), (.tilde, ['~']),
   (.shiftLeft, ['<', '<']), (.shiftRight, ['>', '>']), (.shiftRightSigned, ['>', '>', '>']),
   (.assign, ['=']), (.plusAssign, ['+', '=']), (.minusAssign, ['-', '=']),
   (.starAssign, ['*', '=']), (.slashAssign, ['/', '=']), (.percentAssign, ['%', '=']),
   (.barAssign, ['|', '=']), (.ampersandAssign, ['&', '=']), (.caretAssign, ['^', '=']),
   (.shiftLeftAssign, ['<', '<', '=']), (.shiftRightAssign, ['>', '>', '=']),
   (.shiftRightSignedAssign, ['>', '>', '>', '=']), (.arrow, ['=', '>']), (.question, ['?']),
   (.leftParen, ['(']), (.rightParen, [')']), (.leftBracket, ['[']), (.rightBracket, [']']),
   (.leftBrace, ['\x7b']), (.rightBrace, ['\x7d']), (.comma, [',']), (.semicolon, [';']),
   (.colon, [':']), (.dot, ['.'])]

theorem Symbol.map_fst_spellings : spellings.map Prod.fst = all := rfl

theorem Symbol.toList_text_of_mem : ∀ e ∈ spellings, e.1.text.toList = e.2 := by decide

theorem Symbol.mem_spellings (s : Symbol) : (s, s.text.toList) ∈ spellings := by
  obtain ⟨e, he, rfl⟩ : ∃ e ∈ spellings, e.1 = s := List.mem_map.1 (map_fst_spellings ▸ s.mem_all)
  rwa [toList_text_of_mem e he]

namespace Rule

/-- The rules for string literals with what opens them. -/
def openings : List (Rule × List Char) :=
  [(.openString .plain '"', ['"']), (.openString .plain '\x27', ['\x27']),
   (.openString .hex '"', ['h', 'e', 'x', '"']), (.openString .hex '\x27', ['h', 'e', 'x', '\x27']),
   (.openString .unicode '"', ['u', 'n', 'i', 'c', 'o', 'd', 'e', '"']),
   (.openString .unicode '\x27', ['u', 'n', 'i', 'c', 'o', 'd', 'e', '\x27'])]

theorem map_fst_openings : openings.map Prod.fst = strings := rfl

/-- Names of types, with numbers behind their letters. -/
def numbered (letters : List Char) (numbers : List Nat) : List (List Char) :=
  numbers.map fun n => letters ++ Nat.toDigits 10 n

def byteNumbers : List Nat := (List.range 32).map fun i => i + 1

def bitNumbers : List Nat := (List.range 32).map fun i => 8 * (i + 1)

/-- The names of elementary types without numbers. -/
def plainWords : List (List Char) :=
  [['a', 'd', 'd', 'r', 'e', 's', 's'], ['b', 'o', 'o', 'l'], ['s', 't', 'r', 'i', 'n', 'g'],
   ['v', 'a', 'r'], ['b', 'y', 't', 'e'], ['b', 'y', 't', 'e', 's'], ['i', 'n', 't'],
   ['u', 'i', 'n', 't']]

theorem map_toList_append_decimal (letters : List Char) (number : Nat → Nat) (is : List Nat) :
    (is.map fun i => String.ofList letters ++ decimal (number i)).map String.toList
      = numbered letters (is.map number) := by
  simp [numbered, decimal]

theorem elementaryWords_eq : elementaryWords = plainWords
    ++ numbered ['b', 'y', 't', 'e', 's'] byteNumbers ++ numbered ['i', 'n', 't'] bitNumbers
    ++ numbered ['u', 'i', 'n', 't'] bitNumbers := by
  have hplain : ["address", "bool", "string", "var", "byte", "bytes", "int", "uint"].map String.toList
      = plainWords := by decide
  rw [elementaryWords, List.map_append, List.map_append, List.map_append, hplain]
  exact congrArg₂ _ (congrArg₂ _ (congrArg _ (map_toList_append_decimal _ _ _))
    (map_toList_append_decimal _ _ _)) (map_toList_append_decimal _ _ _)

theorem mem_byteNumbers {n : Nat} : n ∈ byteNumbers ↔ 1 ≤ n ∧ n ≤ 32 := by
  rw [byteNumbers, List.mem_map]
  constructor
  · rintro ⟨i, hi, rfl⟩
    have := List.mem_range.1 hi
    omega
  · exact fun h => ⟨n - 1, List.mem_range.2 (by omega), by omega⟩

theorem mem_bitNumbers {n : Nat} : n ∈ bitNumbers ↔ n % 8 = 0 ∧ 8 ≤ n ∧ n ≤ 256 := by
  rw [bitNumbers, List.mem_map]
  constructor
  · rintro ⟨i, hi, rfl⟩
    have := List.mem_range.1 hi
    omega
  · exact fun h => ⟨n / 8 - 1, List.mem_range.2 (by omega), by omega⟩

theorem append_decimal_mem_numbered {letters : List Char} {numbers : List Nat} {n : Nat}
    (h : n ∈ numbers) : (String.ofList letters ++ decimal n).toList ∈ numbered letters numbers :=
  List.mem_map.2 ⟨n, h, by simp [decimal]⟩

/-! ### The choice of a rule -/

/-- Whether a text begins with a character. -/
def begins (c : Char) (text : List Char) : Bool := text.head?.any (· == c)

variable {c : Char} {cs text : List Char} {best : Option (Rule × Nat)}

theorem spellingLength_of_not_begins (hne : text ≠ []) (h : begins c text = false) :
    spellingLength text (c :: cs) = 0 := by
  obtain ⟨d, text, rfl⟩ := List.exists_cons_of_ne_nil hne
  have hd : d ≠ c := by simpa [begins] using h
  simp [spellingLength, List.isPrefixOf, hd]

/-- The better of a choice and a lexeme of some length. -/
def improve (best : Option (Rule × Nat)) (r : Rule) (n : Nat) : Option (Rule × Nat) :=
  if (best.elim 0 Prod.snd) < n then some (r, n) else best

theorem improve_zero (r : Rule) : improve best r 0 = best := by simp [improve]

/-- The best of a choice and the fixed texts that begin with the first character. -/
def improveBy {α : Type} (rule : α → Rule) (spellings : List (α × List Char)) (c : Char)
    (cs : List Char) (best : Option (Rule × Nat)) : Option (Rule × Nat) :=
  (spellings.filter fun e => begins c e.2).foldl
    (fun best e => improve best (rule e.1) (spellingLength e.2 (c :: cs))) best

theorem foldl_better_eq_improveBy {α : Type} {rule : α → Rule} {spellings : List (α × List Char)}
    (h : ∀ e ∈ spellings, e.2 ≠ [] ∧ (rule e.1).length = spellingLength e.2) :
    ((spellings.map Prod.fst).map rule).foldl (better (c :: cs)) best
      = improveBy rule spellings c cs best := by
  rw [improveBy, List.foldl_filter, List.map_map, List.foldl_map]
  refine List.foldl_ext _ _ _ fun best e he => ?_
  obtain ⟨hne, hlength⟩ := h e he
  have hbetter : better (c :: cs) best (rule e.1)
      = improve best (rule e.1) (spellingLength e.2 (c :: cs)) := by
    rw [better, hlength]
    rfl
  split
  · exact hbetter
  · rename_i hbegins
    rw [Function.comp_apply, hbetter, spellingLength_of_not_begins hne (Bool.eq_false_iff.2 hbegins),
      improve_zero]

/-! ### Elementary types -/

/-- The length of the longest name with a number at the start of a text, if it is more than `n`. -/
def numberedLength (letters : List Char) (numbers : List Nat) (cs : List Char) (n : Nat) : Nat :=
  if letters.isPrefixOf cs && (cs.drop letters.length).head?.any isDigit then
    (numbered letters numbers).foldl (fun n word => max n (spellingLength word cs)) n
  else n

theorem isDigit_of_mem_toDigits {n : Nat} : ∀ c ∈ Nat.toDigits 10 n, isDigit c := by
  intro c hc
  have hdigit := Nat.isDigit_of_mem_toDigits (by omega) (by omega) hc
  simpa [Char.isDigit, isDigit, Char.le_def] using hdigit

theorem foldl_max_spellingLength {words : List (List Char)} {n : Nat}
    (h : ∀ word ∈ words, spellingLength word cs = 0) :
    words.foldl (fun n word => max n (spellingLength word cs)) n = n := by
  induction words with
  | nil => rfl
  | cons word words ih =>
    rw [List.forall_mem_cons] at h
    rw [List.foldl_cons, h.1, Nat.max_zero, ih h.2]

theorem foldl_numbered (letters : List Char) (numbers : List Nat) (cs : List Char) (n : Nat) :
    (numbered letters numbers).foldl (fun n word => max n (spellingLength word cs)) n
      = numberedLength letters numbers cs n := by
  unfold numberedLength
  split
  · rfl
  · rename_i h
    refine foldl_max_spellingLength fun word hword => if_neg fun hprefix => h ?_
    obtain ⟨i, -, rfl⟩ := List.mem_map.1 hword
    obtain ⟨rest, rfl⟩ := List.isPrefixOf_iff_prefix.1 hprefix
    obtain ⟨d, ds, hds⟩ := List.exists_cons_of_ne_nil (Nat.toDigits_ne_nil (n := i) (b := 10))
    have hd : isDigit d := isDigit_of_mem_toDigits (n := i) d (by simp [hds])
    simp [hds, hd, List.isPrefixOf_iff_prefix]

/-- The length of the name of an elementary type at the start of a text. -/
def typeLength (c : Char) (cs : List Char) : Nat :=
  let fixed := if c == 'f' || c == 'u' then fixedLength (c :: cs) else 0
  let plain := (plainWords.filter (begins c)).foldl
    (fun n word => max n (spellingLength word (c :: cs))) fixed
  numberedLength ['u', 'i', 'n', 't'] bitNumbers (c :: cs)
    (numberedLength ['i', 'n', 't'] bitNumbers (c :: cs)
      (numberedLength ['b', 'y', 't', 'e', 's'] byteNumbers (c :: cs) plain))

theorem elementaryLength_cons : elementaryLength (c :: cs) = typeLength c cs := by
  have hfixed : (if c == 'f' || c == 'u' then fixedLength (c :: cs) else 0)
      = fixedLength (c :: cs) := by
    split
    · rfl
    · rename_i h
      have h : 'f' ≠ c ∧ 'u' ≠ c := by
        constructor <;> (rintro rfl; simp at h)
      have hword : "fixed".toList = ['f', 'i', 'x', 'e', 'd'] := String.toList_ofList
      simp [fixedLength, hword, spellingLength, List.isPrefixOf, h.1, h.2]
  have hne : ∀ word ∈ plainWords, word ≠ [] := by decide
  have hplain (n : Nat) : (plainWords.filter (begins c)).foldl
      (fun n word => max n (spellingLength word (c :: cs))) n
        = plainWords.foldl (fun n word => max n (spellingLength word (c :: cs))) n := by
    rw [List.foldl_filter]
    refine List.foldl_ext _ _ _ fun n word hword => ?_
    split
    · rfl
    · rename_i hbegins
      rw [spellingLength_of_not_begins (hne word hword) (Bool.eq_false_iff.2 hbegins), Nat.max_zero]
  simp only [elementaryLength, elementaryWords_eq, List.foldl_append, foldl_numbered, typeLength,
    hfixed, hplain]

/-! ### The longest lexeme -/

/-- The rule with the longest lexeme at the start of a text, and the length of that lexeme. -/
def choose (c : Char) (cs : List Char) : Option (Rule × Nat) :=
  let best := [.blank, .lineComment].foldl (better (c :: cs)) none
  let best := improveBy .keyword Keyword.spellings c cs best
  let best := improve best .elementaryType (typeLength c cs)
  let best := [.identifier, .decimalNumber, .hexNumber].foldl (better (c :: cs)) best
  let best := improveBy .symbol Symbol.spellings c cs best
  let best := improveBy id openings c cs best
  better (c :: cs) best .openComment

theorem longest_cons : longest (c :: cs) = choose c cs := by
  have hkeyword : ∀ e ∈ Keyword.spellings, e.2 ≠ []
      ∧ (Rule.keyword e.1).length = spellingLength e.2 := fun e he =>
    ⟨(by decide : ∀ e ∈ Keyword.spellings, e.2 ≠ []) e he,
      funext fun cs => by rw [length, Keyword.toList_text_of_mem e he]⟩
  have hsymbol : ∀ e ∈ Symbol.spellings, e.2 ≠ []
      ∧ (Rule.symbol e.1).length = spellingLength e.2 := fun e he =>
    ⟨(by decide : ∀ e ∈ Symbol.spellings, e.2 ≠ []) e he,
      funext fun cs => by rw [length, Symbol.toList_text_of_mem e he]⟩
  have hopening : ∀ e ∈ openings, e.2 ≠ [] ∧ (id e.1 : Rule).length = spellingLength e.2 := by
    have hhex : "hex".toList = ['h', 'e', 'x'] := String.toList_ofList
    have hunicode : "unicode".toList = ['u', 'n', 'i', 'c', 'o', 'd', 'e'] := String.toList_ofList
    simp [openings, funext_iff, length, StringKind.opener, hhex, hunicode]
  have htype (best : Option (Rule × Nat)) : better (c :: cs) best .elementaryType
      = improve best .elementaryType (typeLength c cs) := by
    rw [better, length, elementaryLength_cons]
    rfl
  rw [longest, all, ← Keyword.map_fst_spellings, ← Symbol.map_fst_spellings, ← map_fst_openings,
    ← List.map_id (openings.map Prod.fst)]
  simp only [List.foldl_append, foldl_better_eq_improveBy hkeyword,
    foldl_better_eq_improveBy hsymbol, foldl_better_eq_improveBy hopening]
  simp only [List.foldl_cons, List.foldl_nil, htype, choose]

end Rule

/-! ### Segments -/

/-- What stands at the start of a text, and its length. -/
def Content.scan (c : Char) (cs : List Char) : Content × Nat :=
  match Rule.choose c cs with
  | some (r, n) => ofRule r n (c :: cs)
  | none => (.fault (.invalidCharacter c), 1)

theorem Content.first_eq_scan (c : Char) (cs : List Char) : first c cs = scan c cs := by
  rcases h : Rule.choose c cs with _ | ⟨r, n⟩ <;> simp [first, scan, Rule.longest_cons, h]

/-- The segments of a text of at most `n` characters. -/
def scanUpTo : Nat → Location → List Char → List Segment
  | 0, _, _ => []
  | _, _, [] => []
  | n + 1, here, c :: cs =>
    let (content, length) := Content.scan c cs
    let stop := here.advanceBy ((c :: cs).take length)
    ⟨content, ⟨here, stop⟩⟩ :: scanUpTo n stop (cs.drop (length - 1))

theorem segments_eq_scanUpTo {n : Nat} : ∀ {here : Location} {cs : List Char}, cs.length ≤ n →
    segments here cs = scanUpTo n here cs := by
  induction n with
  | zero =>
    intro here cs h
    obtain rfl := List.eq_nil_of_length_eq_zero (Nat.le_zero.1 h)
    rw [segments, scanUpTo]
  | succ n ih =>
    intro here cs h
    rcases cs with _ | ⟨c, cs⟩
    · rw [segments, scanUpTo]
      simp
    · rw [segments, scanUpTo, Content.first_eq_scan]
      dsimp only
      rw [ih]
      rw [List.length_cons] at h
      rw [List.length_drop]
      omega

/-- The tokens of a text. -/
def scan (cs : List Char) : Tokenized :=
  let parts := scanUpTo cs.length .origin cs
  { tokens := parts.filterMap Segment.lexeme?
    errors := parts.filterMap Segment.error?
    stop := .point (Location.origin.advanceBy cs) }

theorem tokenize_ofList (cs : List Char) : tokenize (String.ofList cs) = scan cs := by
  rw [tokenize, scan, segments_eq_scanUpTo (by rw [String.toList_ofList]), String.toList_ofList]

/-- A session at the start of a text. -/
def Session.scanned (cs : List Char) : Session :=
  ⟨String.ofList cs, scan cs, .start (scan cs).tokens⟩

theorem Session.ofSource_ofList (cs : List Char) : ofSource (String.ofList cs) = scanned cs := by
  rw [ofSource, scanned, tokenize_ofList]

theorem parse_ofList (cs : List Char) : parse (String.ofList cs)
    = ⟨(Session.scanned cs).file.1, (Session.scanned cs).file.2.errors⟩ := by
  rw [parse, Session.ofSource_ofList]

end SolidityFrontend
