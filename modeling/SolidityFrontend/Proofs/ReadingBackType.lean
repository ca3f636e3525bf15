import SolidityFrontend.Proofs.LongestMatch
import SolidityFrontend.Proofs.ReadingBack
import SolidityFrontend.Proofs.Wording

/-!
# Type names are read back

A type tree is a type name that the language can write: its elementary types have widths that exist,
and its names are none of the words that may stand behind a type. Written as the tokens of its phrase,
it is read back as the same tree. What stands on the left of brackets is read by the steps of the loop
over brackets, so the induction over the tree gives the values of that loop before any token that is
not taken into the type (`TypeTree.grows`).
-/

namespace SolidityFrontend

open Computability Text Rule SolidityFrontend.Parser SolidityFrontend.Grammar

/-! ### Elementary types -/

theorem Token.lexes_elementaryType {w : String} (hw : w.toList ∈ elementaryNames) :
    (Token.elementaryType w).Lexes := by
  refine lexes_of_begins ?_
  have hrule : Rule.elementaryType ∈ all := by simp [all]
  have hlongest : Longest w.toList .elementaryType w.toList :=
    { rule := hrule
      start := List.prefix_refl _
      lexeme := hw
      longest := fun _ _ _ _ hstart => hstart.length_le
      wins := fun r hr hw' => by
        rcases eq_or_priority_lt hr hrule hw' hw with heq | ⟨-, hlt⟩ | ⟨heq, -⟩
        · exact .inl heq
        · exact .inr hlt
        · simp at heq }
  simpa [text] using Begins.elementaryType hlongest

namespace ElementaryType

/-- The widths are those that the language has. -/
def IsProper : ElementaryType → Prop
  | .fixedBytes size => 1 ≤ size ∧ size ≤ 32
  | .int bits | .uint bits => bits % 8 = 0 ∧ 8 ≤ bits ∧ bits ≤ 256
  | .fixed widths | .ufixed widths => ∀ w ∈ widths, w.1 < 0x10000 ∧ w.2 < 0x10000
  | _ => True

theorem shortNumber?_decimal {n : Nat} (hn : n < 0x10000) :
    shortNumber? (decimal n).toList = some n := by
  have hdigits : (decimal n).toList.all isDigit := List.all_eq_true.2 isDigit_of_mem_decimal
  have hvalue : ofDigits 10 (decimal n).toList = n := by
    rw [decimal, String.toList_ofList, ofDigits_toDigits (by omega) (by omega)]
  rw [shortNumber?, if_neg, hvalue, Option.filter_some_pos (by simpa using hn)]
  rw [hdigits, List.isEmpty_eq_false_iff.2 (decimal_ne_empty n)]
  decide

theorem toList_widthsText (m n : Nat) :
    (widthsText (some (m, n))).toList = (decimal m).toList ++ 'x' :: (decimal n).toList := by
  simp [widthsText]

theorem widths?_append {total : List Char} (h : ∀ c ∈ total, isDigit c) (decimals : List Char) :
    widths? (total ++ 'x' :: decimals)
      = do return (← shortNumber? total, ← shortNumber? decimals) := by
  have hdigits : ∀ c ∈ total, (c != 'x') = true := by
    intro c hc
    rw [bne_iff_ne]
    rintro rfl
    exact absurd (h _ hc) (by decide)
  have hspan : (total ++ 'x' :: decimals).span (· != 'x') = (total, 'x' :: decimals) := by
    rw [List.span_eq_takeWhile_dropWhile, List.takeWhile_append_of_pos hdigits,
      List.dropWhile_append_of_pos hdigits]
    simp
  rw [widths?, hspan]

theorem widths?_widthsText {m n : Nat} (hm : m < 0x10000) (hn : n < 0x10000) :
    widths? (widthsText (some (m, n))).toList = some (m, n) := by
  rw [toList_widthsText, widths?_append isDigit_of_mem_decimal]
  simp [shortNumber?_decimal hm, shortNumber?_decimal hn]

theorem decimal_mem (n : Nat) : (decimal n).toList ∈ charOf isDigit * (charOf isDigit)∗ := by
  obtain ⟨c, cs, hcs⟩ := List.exists_cons_of_ne_nil (decimal_ne_empty n)
  have hdigits := isDigit_of_mem_decimal (n := n)
  rw [hcs, List.forall_mem_cons] at hdigits
  exact hcs ▸ mem_charOf_mul_star.2 ⟨c, cs, rfl, hdigits.1, hdigits.2⟩

theorem widthsText_mem (m n : Nat) : (widthsText (some (m, n))).toList ∈ fixedWidths := by
  rw [toList_widthsText]
  exact ⟨_, decimal_mem m, _, ⟨['x'], ⟨'x', rfl, rfl⟩, _, decimal_mem n, rfl⟩, rfl⟩

/-- The words of the table are shorter than the name of a type with two widths. -/
theorem lookup_named_eq_none {w : String} (h : 8 ≤ w.toList.length) : named.lookup w = none := by
  have hnamed : ∀ p ∈ named, p.1.toList.length < 8 := by decide
  rw [List.lookup_eq_none_iff]
  intro p hp
  have hlt := hnamed p hp
  rw [bne_iff_ne]
  rintro rfl
  omega

theorem ofWord?_widths {word : String} {widths : Option (Nat × Nat)}
    (kind : Option (Nat × Nat) → ElementaryType) (hword : named.lookup word = some (kind none))
    (hfive : 5 ≤ word.toList.length)
    (hbase : ∀ cs, ofBase? (word.toList ++ cs) = (widths? cs).map (kind ∘ some))
    (hw : ∀ w ∈ widths, w.1 < 0x10000 ∧ w.2 < 0x10000) :
    ofWord? (word ++ widthsText widths) = some (kind widths) := by
  rcases widths with _ | ⟨m, n⟩
  · rw [widthsText, String.append_empty, ofWord?, hword]
  · obtain ⟨hm, hn⟩ := hw (m, n) rfl
    have hlength : 8 ≤ (word ++ widthsText (some (m, n))).toList.length := by
      have hm' := List.length_pos_of_ne_nil (decimal_ne_empty m)
      have hn' := List.length_pos_of_ne_nil (decimal_ne_empty n)
      rw [String.toList_append, toList_widthsText]
      simp only [List.length_append, List.length_cons]
      omega
    rw [ofWord?, lookup_named_eq_none hlength]
    simp [hbase, widths?_widthsText hm hn]

theorem ofBase?_fixed (cs : List Char) :
    ofBase? ("fixed".toList ++ cs) = (widths? cs).map (.fixed ∘ some) := by
  have hlength : "fixed".length = 5 := by decide
  simp [ofBase?, strip?, hlength]

theorem ofBase?_ufixed (cs : List Char) :
    ofBase? ("ufixed".toList ++ cs) = (widths? cs).map (.ufixed ∘ some) := by
  have hlength : "ufixed".length = 6 := by decide
  simp [ofBase?, strip?, hlength]

/-- No word of the table ends with a number. -/
theorem ofWord?_append_decimal (word : String) (n : Nat) :
    ofWord? (word ++ decimal n) = ofBase? (word.toList ++ (decimal n).toList) := by
  have hnamed : ∀ p ∈ named, p.1.toList.all (!isDigit ·) := by decide
  obtain ⟨c, cs, hcs⟩ := List.exists_cons_of_ne_nil (decimal_ne_empty n)
  have hdigit : isDigit c := isDigit_of_mem_decimal (n := n) c (by simp [hcs])
  have hlookup : named.lookup (word ++ decimal n) = none := by
    rw [List.lookup_eq_none_iff]
    intro p hp
    rw [bne_iff_ne]
    intro hword
    have hmem : c ∈ p.1.toList := by simp [← hword, hcs]
    simpa [hdigit] using List.all_eq_true.1 (hnamed p hp) c hmem
  rw [ofWord?, hlookup, String.toList_append]

theorem ofBase?_bytes (cs : List Char) :
    ofBase? ("bytes".toList ++ cs) = (byteSize? cs).map .fixedBytes := by
  have hlength : "bytes".length = 5 := by decide
  simp [ofBase?, strip?, hlength]

theorem ofBase?_int (cs : List Char) : ofBase? ("int".toList ++ cs) = (bitWidth? cs).map .int := by
  have hlength : "int".length = 3 := by decide
  simp [ofBase?, strip?, hlength]

theorem ofBase?_uint (cs : List Char) : ofBase? ("uint".toList ++ cs) = (bitWidth? cs).map .uint := by
  have hlength : "uint".length = 4 := by decide
  simp [ofBase?, strip?, hlength]

/-- A kind of type other than `address payable` is named by one word, its spelling. -/
theorem spelt {type : ElementaryType} (h : type.IsProper) (hne : type ≠ .addressPayable) :
    type.text.toList ∈ elementaryNames ∧ ofWord? type.text = some type := by
  have hbytes : ∀ n ∈ byteNumbers, byteSize? (decimal n).toList = some n := by decide
  have hbits : ∀ n ∈ bitNumbers, bitWidth? (decimal n).toList = some n := by decide
  have hwidths (w : Option (Nat × Nat)) : (widthsText w).toList ∈ perhapsText fixedWidths := by
    rcases w with _ | ⟨m, n⟩
    · exact .inl rfl
    · exact .inr (widthsText_mem m n)
  rw [elementaryNames_eq, elementaryWords_eq]
  cases type with
  | fixedBytes n =>
    have hn := mem_byteNumbers.2 h
    refine ⟨.inr (mem_anyText.2 ?_), ?_⟩
    · exact List.mem_append_left _ (List.mem_append_left _ (List.mem_append_right _
        (append_decimal_mem_numbered hn)))
    · rw [text, ofWord?_append_decimal, ofBase?_bytes, hbytes n hn, Option.map_some]
  | int n =>
    have hn := mem_bitNumbers.2 h
    refine ⟨.inr (mem_anyText.2 ?_), ?_⟩
    · exact List.mem_append_left _ (List.mem_append_right _ (append_decimal_mem_numbered hn))
    · rw [text, ofWord?_append_decimal, ofBase?_int, hbits n hn, Option.map_some]
  | uint n =>
    have hn := mem_bitNumbers.2 h
    refine ⟨.inr (mem_anyText.2 (List.mem_append_right _ (append_decimal_mem_numbered hn))), ?_⟩
    rw [text, ofWord?_append_decimal, ofBase?_uint, hbits n hn, Option.map_some]
  | fixed w =>
    refine ⟨?_, ofWord?_widths .fixed rfl (by decide) ofBase?_fixed h⟩
    rw [text, String.toList_append]
    exact .inl ⟨[], .inl rfl, _, ⟨_, rfl, _, hwidths w, rfl⟩, rfl⟩
  | ufixed w =>
    refine ⟨?_, ofWord?_widths .ufixed rfl (by decide) ofBase?_ufixed h⟩
    rw [text, String.toList_append]
    exact .inl ⟨['u'], .inr rfl, _, ⟨_, rfl, _, hwidths w, rfl⟩, by simp⟩
  | addressPayable => exact absurd rfl hne
  | _ => exact ⟨.inr (mem_anyText.2 (by decide)), by decide⟩

end ElementaryType
/-! ### Type trees -/

/-- A name that has no meaning behind a type. -/
structure Identifier.IsPlain (i : Identifier) : Prop where
  lexes : (Token.identifier i.name).Lexes
  location : StorageLocation.ofWord? i.name = none
  visibility : Visibility.ofWord? i.name = none
  mutability : Mutability.ofWord? i.name = none

/-- An attribute that a function type may have. -/
def FunctionTypeAttribute.IsProper : FunctionTypeAttribute → Prop
  | .visibility v _ => v = .internal ∨ v = .external
  | .mutability _ _ => True

/-- Types of proper widths, with plain names and operator trees as sizes. -/
inductive TypeTree : TypeName → Prop
  | elementary {type : ElementaryTypeName} (h : type.kind.IsProper) : TypeTree (.elementary type)
  | userDefined {p : Path} (hne : p.segments ≠ []) (h : ∀ i ∈ p.segments, i.IsPlain) :
      TypeTree (.userDefined p)
  | mapping {key value : TypeName} {span : Span} (hkey : TypeTree key) (hisKey : key.isKey)
      (hvalue : TypeTree value) : TypeTree (.mapping key value span)
  | array {base : TypeName} {size : Option Expr} {span : Span} (h : TypeTree base)
      (hsize : ∀ e ∈ size, OperatorTree e) : TypeTree (.array base size span)
  | function {parameters returns : List Parameter} {attributes : List FunctionTypeAttribute}
      {span : Span} (hparameters : ∀ p ∈ parameters, TypeTree p.type)
      (hnames : ∀ p ∈ parameters, ∀ i ∈ p.name, i.IsPlain) (hattributes : ∀ a ∈ attributes, a.IsProper)
      (hreturns : ∀ p ∈ returns, TypeTree p.type) (hnames' : ∀ p ∈ returns, ∀ i ∈ p.name, i.IsPlain) :
      TypeTree (.function parameters attributes returns span)

/-- The type is the same up to spans. -/
def TypeName.Same (t x : TypeName) : Prop := erase x = erase t

/-- Whether a type name ends before a token, or only goes on with brackets. -/
def Token.isBehindType : Token → Bool
  | .identifier w => !isTypeAttribute w
  | .keyword k => k != .returns
  | .symbol s => s != .dot
  | _ => true

/-- Tokens before which a type name ends or goes on with brackets. -/
def BehindType (k : List Token) : Prop := ∀ t ∈ k.head?, t.isBehindType

theorem BehindType.cons {t : Token} {k : List Token} (h : t.isBehindType) : BehindType (t :: k) := by
  simpa [BehindType] using h

theorem BehindType.nil : BehindType [] := by simp [BehindType]

theorem BehindType.head_ne {t : Token} {k : List Token} (h : BehindType k) (ht : t.isBehindType = false) :
    k.head? ≠ some t := by
  intro hk
  rw [h t hk] at ht
  simp at ht

/-! ### Rounds -/


section

variable {α : Type} [Placed α] {c : Context} {more : Parser (Option α)} {tokens : α → List Token}
  {k : List Token}

/-- Each round of a loop reads one value, and before `k` there is none. -/
theorem accepts_rounds (hstop : ∀ s : State, s.tokens = k → more c s = (.ok none, s)) :
    ∀ xs : List α, (∀ x rest, x :: rest <:+ xs → tokens x ≠ []
        ∧ Accepts c more (tokens x) (rest.flatMap tokens ++ k) fun o => ∃ y, o = some y
          ∧ erase y = erase x) →
      Accepts c (many more) (xs.flatMap tokens) k (erase · = erase xs) := by
  intro xs h
  have hover : ∀ clock : List Lexeme, xs.length ≤ clock.length →
      Accepts c (manyOver more clock) (xs.flatMap tokens) k (erase · = erase xs) := by
    induction xs with
    | nil =>
      rintro (_ | ⟨l, clock⟩) - s hs
      · exact ⟨[], s, rfl, rfl, hs, rfl⟩
      · refine ⟨[], s, ?_, rfl, hs, rfl⟩
        rw [manyOver, bind_ok (hstop s hs)]
        rfl
    | cons x xs ih =>
      rintro (_ | ⟨l, clock⟩) hclock
      · simp at hclock
      · refine (h x xs List.suffix_rfl).2.bind fun o ho => ?_
        obtain ⟨y, rfl, hy⟩ := ho
        have hrest := ih (fun x' rest hsuffix => h x' rest (hsuffix.trans (List.suffix_cons x xs)))
          clock (Nat.le_of_succ_le_succ hclock)
        refine hrest.bind_last fun ys hys => accepts_pure ?_
        exact congrArg₂ List.cons hy hys
  have hlength : ∀ ys : List α, ys <:+ xs → ys.length ≤ (ys.flatMap tokens).length := by
    intro ys
    induction ys with
    | nil => exact fun _ => Nat.zero_le _
    | cons y ys ih =>
      intro hsuffix
      have hpos := List.length_pos_of_ne_nil (h y ys hsuffix).1
      have hle := ih ((List.suffix_cons y ys).trans hsuffix)
      rw [List.flatMap_cons, List.length_append, List.length_cons]
      omega
  intro s hs
  have htokens := congrArg List.length hs
  rw [State.tokens, List.length_map, List.length_append] at htokens
  have hle := hlength xs List.suffix_rfl
  exact hover s.rest (by omega) s hs

omit [Placed α] in
theorem commas_map_cons (x : α) (xs : List α) :
    commas ((x :: xs).map tokens) = tokens x ++ xs.flatMap fun y => .symbol .comma :: tokens y := by
  induction xs generalizing x with
  | nil => simp [commas, List.intercalate]
  | cons y ys ih =>
    have htail := ih y
    rw [List.map_cons] at htail
    rw [List.map_cons, List.map_cons, commas_cons_cons, htail]
    simp

/-- Items with commas between them. -/
theorem accepts_separated {item : Parser α} (x : α) (xs : List α)
    (h : ∀ y ∈ x :: xs, ∀ us, Accepts c item (tokens y) (.symbol .comma :: us) (erase · = erase y)
      ∧ Accepts c item (tokens y) k (erase · = erase y))
    (hk : k.head? ≠ some (.symbol .comma)) :
    Accepts c (separated item) (commas ((x :: xs).map tokens)) k (erase · = erase (x :: xs)) := by
  have hitem : ∀ y ∈ x :: xs, ∀ ys : List α,
      Accepts c item (tokens y) (ys.flatMap (fun y => .symbol .comma :: tokens y) ++ k)
        (erase · = erase y) := by
    rintro y hy (_ | ⟨z, zs⟩)
    · exact (h y hy []).2
    · rw [List.flatMap_cons, List.append_assoc, List.cons_append]
      exact (h y hy _).1
  rw [commas_map_cons]
  refine (hitem x List.mem_cons_self xs).bind fun x' hx' => ?_
  refine (accepts_rounds (fun s hs => ?_) xs fun y rest hsuffix => ⟨by simp, ?_⟩).bind_last
    fun xs' hxs' => accepts_pure (congrArg₂ List.cons hx' hxs')
  · rw [bind_ok (accept_eq_false (by rwa [hs]))]
    rfl
  · have hy : y ∈ x :: xs := List.mem_cons_of_mem x (hsuffix.subset List.mem_cons_self)
    exact accepts_accept ((hitem y hy rest).bind_last fun y' hy' => accepts_pure ⟨y', rfl, hy'⟩)

end

/-! ### Names and words -/

section

variable {c : Context} {k : List Token}

theorem accepts_elementaryTypeName {type : ElementaryTypeName} (allowPayable : Bool)
    (h : type.kind.IsProper) (hpayable : type.kind = .addressPayable → allowPayable)
    (hk : k.head? ≠ some (.identifier "payable")) :
    Accepts c (elementaryTypeName allowPayable) type.kind.tokens k (erase · = erase type) := by
  obtain ⟨kind, span⟩ := type
  by_cases hkind : kind = .addressPayable
  · subst hkind
    obtain rfl : allowPayable = true := hpayable rfl
    have hword : ElementaryType.ofWord? "address" = some .address := by decide
    refine looks_here.accepts fun start => sees_next.accepts ?_
    simp only [ElementaryType.tokens, List.cons_append, List.head?_cons, hword]
    refine accepts_advance ?_
    rw [if_pos (by simp)]
    refine accepts_accept (accepts_spanFrom fun span => accepts_pure ?_)
    simp [erase]
  · obtain ⟨-, hword⟩ := ElementaryType.spelt h hkind
    have htokens : kind.tokens = [.elementaryType kind.text] := by
      cases kind <;> first | rfl | exact absurd rfl hkind
    refine looks_here.accepts fun start => sees_next.accepts ?_
    simp only [htokens, List.cons_append, List.head?_cons, hword]
    refine accepts_advance ?_
    have hend : Accepts c (spanFrom start >>= fun span => pure (⟨kind, span⟩ : ElementaryTypeName))
        [] k (erase · = erase (⟨kind, span⟩ : ElementaryTypeName)) :=
      accepts_spanFrom fun span => accepts_pure (by simp [erase])
    split
    · exact accepts_without hk hend
    · exact hend

theorem path_tokens (i : Identifier) (is : List Identifier) (span : Span) :
    Path.tokens ⟨i :: is, span⟩
      = .identifier i.name :: is.flatMap fun j => [.symbol .dot, .identifier j.name] := by
  simp only [Path.tokens]
  induction is generalizing i with
  | nil => rfl
  | cons j is ih =>
    have htail := ih j
    simp only [List.map_cons] at htail
    simp [List.intercalate] at htail ⊢
    exact htail

theorem erase_eq_of_name {i j : Identifier} (h : j.name = i.name) : erase j = erase i := by
  obtain ⟨_, _⟩ := i
  obtain ⟨_, _⟩ := j
  obtain rfl := h
  rfl

theorem accepts_path {p : Path} (hne : p.segments ≠ []) (hk : k.head? ≠ some (.symbol .dot)) :
    Accepts c path p.tokens k (erase · = erase p) := by
  obtain ⟨segments, span⟩ := p
  obtain ⟨i, is, rfl⟩ := List.exists_cons_of_ne_nil hne
  rw [path_tokens]
  refine accepts_identifier fun i' hi' => ?_
  refine (accepts_rounds (fun s hs => ?_) is fun j rest _ => ⟨by simp, ?_⟩).bind_last
    fun is' his' => accepts_spanFrom fun span' => accepts_pure ?_
  · rw [pathSegment?, bind_ok (sees_nextIs _ c s), hs, if_neg (by simpa using hk)]
    rfl
  · refine accepts_nextIs (by simp) ((sees_peek 1).accepts ?_)
    rw [if_pos (by simp [Token.identifier?])]
    refine accepts_advance (accepts_identifier fun j' hj' => accepts_pure ⟨j', rfl, erase_eq_of_name hj'⟩)
  · have hi := erase_eq_of_name hi'
    simp only [erase] at hi his'
    simp [erase, hi, his']

theorem accepts_storageLocation? {location : Option StorageLocation}
    (hk : k.head?.bind Token.identifier? |>.bind StorageLocation.ofWord? |>.isNone) :
    Accepts c storageLocation? (location.map fun l => Token.identifier l.text).toList k
      (· = location) := by
  refine sees_nextWord.accepts ?_
  rcases location with _ | l
  · have hnone := Option.isNone_iff_eq_none.1 hk
    simp only [Option.map_none, Option.toList_none, List.nil_append, hnone]
    exact accepts_pure rfl
  · have hword : StorageLocation.ofWord? l.text = some l := by cases l <;> decide
    simp only [Option.map_some, Option.toList_some, List.cons_append, List.head?_cons,
      Option.bind_some, Token.identifier?, hword]
    exact accepts_advance (accepts_pure rfl)

theorem functionTypeAttribute?_text {a : FunctionTypeAttribute} (h : a.IsProper) :
    ∃ w, a.tokens = [.identifier w] ∧ ∀ span, ∃ b, functionTypeAttribute? w span = some b
      ∧ erase b = erase a := by
  cases a with
  | visibility v _ =>
    refine ⟨v.text, rfl, fun span => ⟨.visibility v span, ?_, rfl⟩⟩
    rcases h with rfl | rfl <;> rfl
  | mutability m _ =>
    refine ⟨m.text, rfl, fun span => ⟨.mutability m span, ?_, rfl⟩⟩
    cases m <;> rfl

theorem accepts_functionTypeAttributes {attributes : List FunctionTypeAttribute}
    (h : ∀ a ∈ attributes, a.IsProper) (hk : BehindType k ∨ k.head? = some (.keyword .returns)) :
    Accepts c functionTypeAttributes (attributes.flatMap FunctionTypeAttribute.tokens) k
      (erase · = erase attributes) := by
  refine accepts_rounds (fun s hs => ?_) attributes fun a rest hsuffix => ?_
  · have hnone (span : Span) :
        (k.head?.bind Token.identifier?).bind (functionTypeAttribute? · span) = none := by
      rcases hhead : k.head? with _ | t
      · rfl
      · cases t with
        | identifier w =>
          rcases hk with hk | hk
          · have hword := hk _ hhead
            rw [Token.isBehindType, Bool.not_eq_true', ← isSome_functionTypeAttribute? w span] at hword
            simpa [Token.identifier?] using hword
          · simp [hhead] at hk
        | _ => rfl
    rw [bind_ok (looks_here c s), bind_ok (sees_nextWord c s), hs]
    simp only [hnone]
    rfl
  · obtain ⟨w, hw, hattribute⟩ :=
      functionTypeAttribute?_text (h a (hsuffix.subset List.mem_cons_self))
    refine ⟨by simp [hw], looks_here.accepts fun span => Sees.accepts sees_nextWord ?_⟩
    obtain ⟨b, hb, hsame⟩ := hattribute span
    simp only [hw, List.cons_append, List.head?_cons, Option.bind_some, Token.identifier?, hb]
    exact accepts_advance (accepts_pure ⟨b, rfl, hsame⟩)

end

/-! ### Types -/

/-- Whether a token begins a type name. -/
def Token.isTypeStart : Token → Bool
  | .elementaryType _ | .identifier _ | .keyword .mapping | .keyword .function => true
  | _ => false

theorem TypeTree.head {t : TypeName} (h : TypeTree t) :
    ∃ a ts, t.tokens = a :: ts ∧ a.isTypeStart := by
  induction h with
  | @elementary type h =>
    obtain ⟨kind, span⟩ := type
    cases kind <;> exact ⟨_, _, rfl, rfl⟩
  | @userDefined p hne h =>
    obtain ⟨segments, span⟩ := p
    obtain ⟨i, is, rfl⟩ := List.exists_cons_of_ne_nil hne
    exact ⟨_, _, path_tokens i is span, rfl⟩
  | mapping | function => exact ⟨_, _, rfl, rfl⟩
  | array h _ ih =>
    obtain ⟨a, ts, hts, ha⟩ := ih
    exact ⟨a, _, by rw [TypeName.tokens, hts, List.cons_append], ha⟩

section

variable {c : Context} {d : Nested} {k : List Token}

/-- The parsers of one level deeper read a type back before tokens that end it. -/
def ReadsBack (d : Nested) (c : Context) (t : TypeName) : Prop :=
  ∀ k, BehindType k → k.head? ≠ some (.symbol .leftBracket) → Accepts c d.typeName t.tokens k t.Same

theorem StorageLocation.isBehindType_text (l : StorageLocation) :
    Token.isBehindType (.identifier l.text) := by
  cases l <;> decide

theorem Identifier.IsPlain.isBehindType {i : Identifier} (h : i.IsPlain) :
    Token.isBehindType (.identifier i.name) := by
  simp [Token.isBehindType, isTypeAttribute_of_none h.visibility h.mutability]

theorem accepts_parameter {p : Parameter} (h : ReadsBack d c p.type) (hname : ∀ i ∈ p.name, i.IsPlain)
    (hk : BehindType k) (hword : ∀ w, k.head? ≠ some (.identifier w))
    (hbracket : k.head? ≠ some (.symbol .leftBracket)) :
    Accepts c (parameter d) p.tokens k (erase · = erase p) := by
  obtain ⟨type, location, name, span⟩ := p
  have hnone : k.head?.bind Token.identifier? = none := by
    rcases hhead : k.head? with _ | t
    · rfl
    · cases t with
      | identifier w => exact absurd hhead (hword w)
      | _ => rfl
  -- What stands behind the type is a location, the name or the end.
  have hbehind : BehindType ((location.map fun l => Token.identifier l.text).toList
      ++ ((name.map fun i => Token.identifier i.name).toList ++ k))
      ∧ ((location.map fun l => Token.identifier l.text).toList
      ++ ((name.map fun i => Token.identifier i.name).toList ++ k)).head?
        ≠ some (.symbol .leftBracket) := by
    cases location with
    | some l => exact ⟨.cons l.isBehindType_text, by simp⟩
    | none =>
      cases name with
      | some i => exact ⟨.cons (hname i rfl).isBehindType, by simp⟩
      | none => exact ⟨hk, hbracket⟩
  refine looks_here.accepts fun start => ?_
  rw [Parameter.tokens, List.append_assoc]
  refine (h _ ?_ ?_).bind fun type' htype => ?_
  · simpa using hbehind.1
  · simpa using hbehind.2
  refine (accepts_storageLocation? ?_).bind fun location' hlocation => ?_
  · cases name with
    | none => simp [hnone]
    | some i => simp [Token.identifier?, (hname i rfl).location]
  have hidentifier : Accepts c identifier? (name.map fun i => Token.identifier i.name).toList k
      (erase · = erase name) := by
    refine sees_nextWord.accepts ?_
    cases name with
    | none =>
      simp only [Option.map_none, Option.toList_none, List.nil_append, hnone]
      exact accepts_pure rfl
    | some i => 
      simp only [Option.map_some, Option.toList_some, List.cons_append, List.head?_cons,
        Option.bind_some, Token.identifier?]
      exact accepts_identifier fun j hj => accepts_pure (congrArg some (erase_eq_of_name hj))
  refine hidentifier.bind_last fun name' hname' => accepts_spanFrom fun span' => accepts_pure ?_
  subst hlocation
  simp only [TypeName.Same, erase] at htype hname'
  simp [erase, htype, hname']

theorem parameterTokens_eq (ps : List Parameter) : parameterTokens ps = ps.map Parameter.tokens := by
  induction ps with
  | nil => rfl
  | cons p ps ih => rw [parameterTokens, ih, List.map_cons]

theorem accepts_parameters {ps : List Parameter} (h : ∀ p ∈ ps, TypeTree p.type)
    (hread : ∀ p ∈ ps, ReadsBack d c p.type) (hnames : ∀ p ∈ ps, ∀ i ∈ p.name, i.IsPlain) :
    Accepts c (parameters d) (inParens (parameterTokens ps)) k (erase · = erase ps) := by
  refine accepts_symbol fun _ => ?_
  rw [parameterTokens_eq]
  rcases ps with _ | ⟨p, ps⟩
  · exact accepts_accept (accepts_pure rfl)
  · refine accepts_without ?_ ?_
    · obtain ⟨a, ts, hts, ha⟩ := (h p List.mem_cons_self).head
      obtain ⟨type, location, name, span⟩ := p
      rw [commas_map_cons, Parameter.tokens, hts]
      simp only [List.cons_append]
      intro heq
      obtain rfl := Option.some.inj heq
      exact absurd ha (by decide)
    · refine Accepts.bind (accepts_separated p ps (fun q hq us => ⟨?_, ?_⟩) (by simp)) fun ps' hps => ?_
      · exact accepts_parameter (hread q hq) (hnames q hq) (.cons rfl) (by simp) (by simp)
      · exact accepts_parameter (hread q hq) (hnames q hq) (.cons rfl) (by simp) (by simp)
      · exact accepts_symbol fun _ => accepts_pure hps

theorem accepts_returnParameters {ps : List Parameter} (h : ∀ p ∈ ps, TypeTree p.type)
    (hread : ∀ p ∈ ps, ReadsBack d c p.type) (hnames : ∀ p ∈ ps, ∀ i ∈ p.name, i.IsPlain)
    (hk : BehindType k) : Accepts c (returnParameters d)
      (if ps.isEmpty then [] else .keyword .returns :: inParens (parameterTokens ps)) k
      (erase · = erase ps) := by
  split
  · rename_i hempty
    obtain rfl := List.isEmpty_iff.1 hempty
    exact accepts_without (hk.head_ne rfl) (accepts_pure rfl)
  · exact accepts_accept (accepts_parameters h hread hnames)

theorem accepts_functionType {ps returns : List Parameter} {attributes : List FunctionTypeAttribute}
    {span : Span} (h : TypeTree (.function ps attributes returns span))
    (hps : ∀ p ∈ ps, ReadsBack d c p.type) (hreturns : ∀ p ∈ returns, ReadsBack d c p.type)
    (hk : BehindType k) :
    Accepts c (baseType d) (TypeName.function ps attributes returns span).tokens k
      (TypeName.function ps attributes returns span).Same := by
  cases h with
  | function hparameters hnames hattributes hreturns' hnames' =>
    refine sees_next.accepts ?_
    simp only [TypeName.tokens, List.cons_append, List.head?_cons]
    refine accepts_keyword.bind_cons fun start _ => ?_
    rw [List.append_assoc]
    refine (accepts_parameters hparameters hps hnames).bind fun ps' hps' => ?_
    refine (accepts_functionTypeAttributes hattributes ?_).bind fun attributes' hattributes' => ?_
    · split
      · exact .inl hk
      · exact .inr rfl
    refine (accepts_returnParameters hreturns' hreturns hnames' hk).bind_last fun rs hrs => ?_
    refine accepts_spanFrom fun span' => accepts_pure ?_
    simp only [erase] at hps' hattributes' hrs
    simp [TypeName.Same, erase, hps', hattributes', hrs]

theorem accepts_mappingKey {key : TypeName} (h : TypeTree key) (hkey : key.isKey)
    (hdot : k.head? ≠ some (.symbol .dot)) (hpayable : k.head? ≠ some (.identifier "payable")) :
    Accepts c mappingKey key.tokens k key.Same := by
  cases h with
  | @elementary type htype =>
    have hnot : type.kind ≠ .addressPayable := hkey
    obtain ⟨w, hw⟩ : ∃ w, type.kind.tokens = [.elementaryType w] := by
      cases hkind : type.kind <;> first | exact ⟨_, rfl⟩ | exact absurd hkind hnot
    refine sees_next.accepts ?_
    have haccepts := accepts_elementaryTypeName (c := c) false htype
      (fun heq => absurd heq hnot) hpayable
    rw [TypeName.tokens]
    rw [hw] at haccepts ⊢
    exact haccepts.bind_last fun type' htype' => accepts_pure (by
      simp only [erase] at htype'
      simp [TypeName.Same, erase, htype'])
  | @userDefined p hne hplain =>
    have haccepts := accepts_path (c := c) hne hdot
    obtain ⟨segments, span⟩ := p
    obtain ⟨i, is, rfl⟩ := List.exists_cons_of_ne_nil hne
    refine sees_next.accepts ?_
    rw [TypeName.tokens]
    rw [path_tokens] at haccepts ⊢
    exact haccepts.bind_last fun p' hp' => accepts_pure (by
      simp only [erase] at hp'
      simp [TypeName.Same, erase, hp'])
  | _ => exact absurd hkey id

theorem accepts_arraySuffix? {base x : TypeName} {size : Option Expr} {span : Span}
    (hx : base.Same x) (hsize : ∀ e ∈ size, BeginsTree e.tokens
      ∧ ∀ k, Loose 0 k → Accepts c d.expression e.tokens k e.Same) :
    Accepts c (arraySuffix? d x)
      (.symbol .leftBracket :: (optionTokens size ++ [Token.symbol .rightBracket])) k
      fun o => ∃ y, o = some y ∧ (TypeName.array base size span).Same y := by
  have hend {size' : Option Expr} (hsize' : erase size' = erase size) :
      Accepts c (symbol .rightBracket >>= fun _ => spanFrom x.span >>= fun span =>
        pure (some (.array x size' span))) [.symbol .rightBracket] k
        fun o => ∃ y, o = some y ∧ (TypeName.array base size span).Same y := by
    refine accepts_symbol fun _ => accepts_spanFrom fun span' => accepts_pure ⟨_, rfl, ?_⟩
    simp only [TypeName.Same, erase] at hx hsize'
    simp [TypeName.Same, erase, hx, hsize']
  refine accepts_accept ?_
  cases size with
  | none => exact accepts_nextIs rfl (hend rfl)
  | some e =>
    obtain ⟨hbegins, he⟩ := hsize e rfl
    refine accepts_nextIs_ne ?_ ?_
    · rw [optionTokens, List.append_assoc]
      exact hbegins.head_ne (by decide)
    · refine Accepts.bind (P := fun size' => erase size' = erase (some e)) ?_ fun _ => hend
      exact (he _ (.cons (by decide))).bind_last fun y hy => accepts_pure (congrArg some hy)

theorem Grows.readsBack {t : TypeName} {n : Nat}
    (h : ∀ k, BehindType k → Grows c (baseType (.ofDepth n)) (arraySuffix? (.ofDepth n)) t.tokens k
      t.Same) : ReadsBack (.ofDepth (n + 1)) c t := by
  intro k hk hbracket
  refine (h k hk).accepts fun x s hs => ?_
  rw [arraySuffix?, bind_ok (accept_eq_false (by rwa [hs]))]
  rfl

end

theorem nesting_lt_parameterNesting {ps : List Parameter} {p : Parameter} (h : p ∈ ps) :
    p.type.nesting + 1 ≤ parameterNesting ps := by
  induction ps with
  | nil => simp at h
  | cons q ps ih =>
    obtain ⟨type, location, name, span⟩ := q
    rw [parameterNesting]
    rcases List.mem_cons.1 h with rfl | h
    · exact Nat.le_max_left _ _
    · exact (ih h).trans (Nat.le_max_right _ _)

/-- The parsers of the levels that are left read a type tree back, but for the brackets behind it. -/
theorem TypeTree.grows {t : TypeName} (h : TypeTree t) : ∀ (n : Nat) (c : Context), t.nesting ≤ n →
    ∀ k, BehindType k →
      Grows c (baseType (.ofDepth n)) (arraySuffix? (.ofDepth n)) t.tokens k t.Same := by
  induction h with
  | @elementary type h =>
    intro n c _ k hk
    have haccepts := accepts_elementaryTypeName (c := c) true h (fun _ => rfl)
      (hk.head_ne (by decide))
    obtain ⟨w, ts, hts⟩ : ∃ w ts, type.kind.tokens = .elementaryType w :: ts := by
      cases type.kind <;> exact ⟨_, _, rfl⟩
    refine Accepts.grows (sees_next.accepts ?_)
    rw [TypeName.tokens]
    rw [hts] at haccepts ⊢
    exact haccepts.bind_last fun type' htype' => accepts_pure (by
      simp only [erase] at htype'
      simp [TypeName.Same, erase, htype'])
  | @userDefined p hne h =>
    intro n c _ k hk
    have haccepts := accepts_path (c := c) hne (hk.head_ne (by decide))
    obtain ⟨segments, span⟩ := p
    obtain ⟨i, is, rfl⟩ := List.exists_cons_of_ne_nil hne
    refine Accepts.grows (sees_next.accepts ?_)
    rw [TypeName.tokens]
    rw [path_tokens] at haccepts ⊢
    exact haccepts.bind_last fun p' hp' => accepts_pure (by
      simp only [erase] at hp'
      simp [TypeName.Same, erase, hp'])
  | @mapping key value span hkey hisKey _ _ ih =>
    intro n c hn k hk
    rw [TypeName.nesting] at hn
    obtain ⟨n, rfl, hn'⟩ := exists_level hn
    have hvalue : ReadsBack (.ofDepth (n + 1)) c value := Grows.readsBack (ih n c hn')
    refine Accepts.grows (sees_next.accepts ?_)
    simp only [TypeName.tokens, List.cons_append, List.head?_cons]
    refine accepts_keyword.bind_cons fun start _ => accepts_symbol fun _ => ?_
    have htokens : (commas [key.tokens ++ Token.symbol .arrow :: value.tokens]).append
        [.symbol .rightParen] = key.tokens
          ++ Token.symbol .arrow :: (value.tokens ++ [Token.symbol .rightParen]) := by
      simp [commas]
    rw [htokens]
    refine (accepts_mappingKey hkey hisKey (by simp) (by simp)).bind fun key' hkey' => ?_
    refine accepts_symbol fun _ => (hvalue _ (.cons rfl) (by simp)).bind fun value' hvalue' => ?_
    refine accepts_symbol fun _ => accepts_spanFrom fun span' => accepts_pure ?_
    simp only [TypeName.Same, erase] at hkey' hvalue'
    simp [TypeName.Same, erase, hkey', hvalue']
  | @array base size span _ hsize ih =>
    intro n c hn k hk
    rw [TypeName.nesting, Nat.max_le] at hn
    rw [TypeName.tokens]
    refine (ih n c hn.1 _ (.cons rfl)).step (by simp) fun x hx => accepts_arraySuffix? hx ?_
    intro e he
    obtain rfl : size = some e := he
    obtain ⟨n, rfl, hn'⟩ := exists_level hn.2
    exact ⟨(hsize e rfl).begins, fun k hk => ((hsize e rfl).readBack n c hn').nested hk⟩
  | @function ps returns attributes span hparameters hnames hattributes hreturns hnames' ih ih' =>
    intro n c hn k hk
    rw [TypeName.nesting, Nat.max_le] at hn
    refine (accepts_functionType (.function hparameters hnames hattributes hreturns hnames')
      (fun p hp => ?_) (fun p hp => ?_) hk).grows
    · obtain ⟨n, rfl, hn'⟩ := exists_level ((nesting_lt_parameterNesting hp).trans hn.1)
      exact Grows.readsBack (ih p hp n c hn')
    · obtain ⟨n, rfl, hn'⟩ := exists_level ((nesting_lt_parameterNesting hp).trans hn.2)
      exact Grows.readsBack (ih' p hp n c hn')

/-! ### Text -/

/-- The words that type names are written with. -/
def Token.typeWords : List Token :=
  [Token.keyword .mapping, .keyword .function, .keyword .returns, .elementaryType "address"]
    ++ (StorageLocation.all.map StorageLocation.text ++ Visibility.all.map Visibility.text
      ++ Mutability.all.map Mutability.text).map .identifier

theorem Token.written_of_mem_typeWords : ∀ t ∈ Token.typeWords, t.Written := by
  have hplain : ∀ t ∈ Token.typeWords, t.isPlain := by decide
  have hlexes : ∀ t ∈ Token.typeWords, t.Lexes := by
    simp only [Token.lexes_iff]
    decide
  exact fun t ht => ⟨hplain t ht, hlexes t ht⟩

theorem ElementaryType.written {type : ElementaryType} (h : type.IsProper) :
    ∀ t ∈ type.tokens, t.Written := by
  by_cases hkind : type = .addressPayable
  · subst hkind
    have hsub : ∀ t ∈ ElementaryType.addressPayable.tokens, t ∈ Token.typeWords := by decide
    exact fun t ht => Token.written_of_mem_typeWords t (hsub t ht)
  · have htokens : type.tokens = [.elementaryType type.text] := by
      cases type <;> first | rfl | exact absurd rfl hkind
    rw [htokens, List.forall_mem_singleton]
    exact ⟨rfl, Token.lexes_elementaryType (type.spelt h hkind).1⟩

theorem Path.written {p : Path} (hne : p.segments ≠ []) (h : ∀ i ∈ p.segments, i.IsPlain) :
    ∀ t ∈ p.tokens, t.Written := by
  obtain ⟨segments, span⟩ := p
  obtain ⟨i, is, rfl⟩ := List.exists_cons_of_ne_nil hne
  rw [List.forall_mem_cons] at h
  rw [path_tokens, List.forall_mem_cons]
  refine ⟨⟨rfl, h.1.lexes⟩, fun t ht => ?_⟩
  obtain ⟨j, hj, ht⟩ := List.mem_flatMap.1 ht
  rcases List.mem_pair.1 ht with rfl | rfl
  · exact Token.written_symbol _
  · exact ⟨rfl, (h.2 j hj).lexes⟩

theorem written_inParens {tss : List (List Token)} (h : ∀ ts ∈ tss, ∀ t ∈ ts, t.Written) :
    ∀ t ∈ inParens tss, t.Written := by
  intro t ht
  simp only [inParens, List.cons_append, List.mem_cons, List.mem_append, List.not_mem_nil,
    or_false] at ht
  rcases ht with rfl | ht | rfl
  · exact Token.written_symbol _
  · rcases mem_commas ht with rfl | ⟨ts, hts, ht⟩
    · exact Token.written_symbol _
    · exact h ts hts t ht
  · exact Token.written_symbol _

theorem written_parameters {ps : List Parameter} (h : ∀ p ∈ ps, ∀ t ∈ p.type.tokens, t.Written)
    (hnames : ∀ p ∈ ps, ∀ i ∈ p.name, i.IsPlain) :
    ∀ t ∈ inParens (parameterTokens ps), t.Written := by
  rw [parameterTokens_eq]
  refine written_inParens fun ts hts t ht => ?_
  obtain ⟨p, hp, rfl⟩ := List.mem_map.1 hts
  have htype := h p hp
  have hname := hnames p hp
  obtain ⟨type, location, name, span⟩ := p
  rw [Parameter.tokens, List.mem_append, List.mem_append] at ht
  rcases ht with (ht | ht) | ht
  · exact htype t ht
  · obtain ⟨l, -, rfl⟩ : ∃ l, location = some l ∧ .identifier l.text = t := by simpa using ht
    exact Token.written_of_mem_typeWords _ (by cases l <;> decide)
  · obtain ⟨i, rfl, rfl⟩ : ∃ i, name = some i ∧ .identifier i.name = t := by simpa using ht
    exact ⟨rfl, (hname i rfl).lexes⟩

theorem TypeTree.written {t : TypeName} (h : TypeTree t) : ∀ a ∈ t.tokens, a.Written := by
  have hsymbol := Token.written_symbol
  have hword := Token.written_of_mem_typeWords
  induction h with
  | elementary h => exact ElementaryType.written h
  | userDefined hne h => exact Path.written hne h
  | @mapping key value _ _ _ _ ihkey ihvalue =>
    rw [TypeName.tokens, List.forall_mem_cons]
    refine ⟨hword _ (by decide), written_inParens ?_⟩
    rw [List.forall_mem_singleton, List.forall_mem_append, List.forall_mem_cons]
    exact ⟨ihkey, hsymbol _, ihvalue⟩
  | @array base size _ _ hsize ih =>
    have hsize' : ∀ a ∈ optionTokens size, a.Written := by
      cases size with
      | none => simp [optionTokens]
      | some e => exact (hsize e rfl).written
    rw [TypeName.tokens, List.forall_mem_append, List.forall_mem_cons, List.forall_mem_append]
    exact ⟨ih, hsymbol _, hsize', by simpa using hsymbol _⟩
  | @function ps returns attributes _ _ hnames _ _ hnames' ih ih' =>
    have hattributes : ∀ a ∈ attributes.flatMap FunctionTypeAttribute.tokens, a.Written := by
      intro a ha
      obtain ⟨b, -, ha⟩ := List.mem_flatMap.1 ha
      refine hword a ?_
      cases b with
      | visibility v _ => cases v <;> (obtain rfl := List.mem_singleton.1 ha; decide)
      | mutability m _ => cases m <;> (obtain rfl := List.mem_singleton.1 ha; decide)
    rw [TypeName.tokens, List.forall_mem_cons, List.forall_mem_append, List.forall_mem_append]
    refine ⟨hword _ (by decide), ⟨written_parameters ih hnames, hattributes⟩, ?_⟩
    split
    · simp
    · rw [List.forall_mem_cons]
      exact ⟨hword _ (by decide), written_parameters ih' hnames'⟩

/-! ### Sessions -/

namespace TypeName

/-- The array types over a type that brackets behind it make, one after the other. -/
def withBrackets (base : TypeName) (sizes : List (Option Expr)) : TypeName :=
  sizes.foldl (fun type size => .array type size .origin) base

theorem tokens_withBrackets (base : TypeName) (sizes : List (Option Expr)) :
    (base.withBrackets sizes).tokens = base.tokens ++ sizes.flatMap fun size =>
      .symbol .leftBracket :: (optionTokens size ++ [Token.symbol .rightBracket]) := by
  induction sizes generalizing base with
  | nil => simp [withBrackets]
  | cons size sizes ih =>
    rw [withBrackets, List.foldl_cons, ← withBrackets, ih, tokens]
    simp

theorem nesting_withBrackets {base : TypeName} {sizes : List (Option Expr)} {n : Nat}
    (hbase : base.nesting ≤ n) (hsizes : ∀ size ∈ sizes, optionNesting size ≤ n) :
    (base.withBrackets sizes).nesting ≤ n := by
  induction sizes generalizing base with
  | nil => exact hbase
  | cons size sizes ih =>
    rw [List.forall_mem_cons] at hsizes
    refine ih ?_ hsizes.2
    rw [nesting]
    exact Nat.max_le.2 ⟨hbase, hsizes.1⟩

end TypeName

theorem TypeTree.withBrackets {base : TypeName} {sizes : List (Option Expr)} (h : TypeTree base)
    (hsizes : ∀ size ∈ sizes, ∀ e ∈ size, OperatorTree e) : TypeTree (base.withBrackets sizes) := by
  induction sizes generalizing base with
  | nil => exact h
  | cons size sizes ih =>
    rw [List.forall_mem_cons] at hsizes
    exact ih (.array h hsizes.1) hsizes.2

namespace Session

/-- The tokens of a type tree, written with single blanks, are read back as the tree; and behind any
tree each pair of brackets makes an array of all that stands in front of it. -/
theorem typeName_spaced :
    (∀ T : TypeName, TypeTree T → T.nesting < nestingLimit →
      ∃ x next, (ofSource (spaced T.tokens)).typeName = (.ok x, next) ∧ erase x = erase T
        ∧ next.errors = [])
      ∧ ∀ (base : TypeName) (sizes : List (Option Expr)), TypeTree base → base.nesting < nestingLimit →
        (∀ size ∈ sizes, ∀ e ∈ size, OperatorTree e) →
        (∀ size ∈ sizes, optionNesting size < nestingLimit) →
          ∃ x next, (ofSource (spaced (base.tokens ++ sizes.flatMap fun size =>
              .symbol .leftBracket :: (optionTokens size ++ [.symbol .rightBracket])))).typeName
                = (.ok x, next)
            ∧ erase x = erase (base.withBrackets sizes) ∧ next.errors = [] := by
  have htree (T : TypeName) (h : TypeTree T) (hn : T.nesting ≤ 127) :
      ∃ x next, (ofSource (spaced T.tokens)).typeName = (.ok x, next) ∧ erase x = erase T
        ∧ next.errors = [] := by
    obtain ⟨htokens, hlexes⟩ := tokenize_spaced h.written
    refine run_whole hlexes ?_
    rw [htokens]
    exact Grows.readsBack (h.grows 127 _ hn) [] .nil (by simp)
  refine ⟨fun T h hn => htree T h (Nat.le_of_lt_succ hn), fun base sizes h hn hsizes hnesting => ?_⟩
  rw [← TypeName.tokens_withBrackets]
  refine htree _ (h.withBrackets hsizes) (TypeName.nesting_withBrackets (Nat.le_of_lt_succ hn) ?_)
  exact fun size hsize => Nat.le_of_lt_succ (hnesting size hsize)

example : (ofSource "mapping ( a => b [ ] )").typeName.1.toBool := by
  rw [ofSource_ofList]
  decide +kernel

theorem typeName_spaced_function :
    let i (name : String) : Identifier := ⟨name, .origin⟩
    let three : Expr := .literal (.number ⟨"3", .decimal, none, .origin⟩)
    let path : TypeName := .userDefined ⟨[i "a", i "b"], .origin⟩
    let p : Parameter := ⟨.elementary ⟨.addressPayable, .origin⟩, none, some (i "x"), .origin⟩
    let q : Parameter := ⟨.array path (some three) .origin, some .memory, none, .origin⟩
    let F : TypeName :=
      .function [p, q] [.visibility .internal .origin, .mutability .view .origin] [q] .origin
    let T : TypeName := .mapping (.elementary ⟨.fixed (some (128, 18)), .origin⟩) F .origin
    TypeTree T ∧ T.nesting < nestingLimit
      ∧ spaced T.tokens = "mapping ( fixed128x18 => function ( address payable x , a . b [ 3 ] memory "
          ++ ") internal view returns ( a . b [ 3 ] memory ) )"
      ∧ (∃ x next, (ofSource (spaced T.tokens)).typeName = (.ok x, next) ∧ erase x = erase T
        ∧ next.errors = [])
      ∧ ∃ x next, (ofSource (spaced (T.tokens ++ [some three, none].flatMap fun size =>
            .symbol .leftBracket :: (optionTokens size ++ [.symbol .rightBracket])))).typeName
              = (.ok x, next)
          ∧ erase x = erase (TypeName.array (.array T (some three) .origin) none .origin)
          ∧ next.errors = [] := by
  intro i three path p q F T
  have hname (name : String) (hmem : name ∈ ["a", "b", "x"]) : (i name).IsPlain := by
    have hall : ∀ name ∈ ["a", "b", "x"], (Token.identifier name).Lexes
        ∧ StorageLocation.ofWord? name = none ∧ Visibility.ofWord? name = none
        ∧ Mutability.ofWord? name = none := by
      simp only [Token.lexes_iff]
      decide
    obtain ⟨hlexes, hlocation, hvisibility, hmutability⟩ := hall name hmem
    exact ⟨hlexes, hlocation, hvisibility, hmutability⟩
  have hthree : OperatorTree three := by
    refine .number ?_
    rw [Token.lexes_iff]
    decide
  have hpath : TypeTree path := by
    refine .userDefined (by simp) ?_
    rintro j hj
    simp only [List.mem_cons, List.not_mem_nil, or_false] at hj
    rcases hj with rfl | rfl <;> exact hname _ (by decide)
  have hq : TypeTree q.type := .array hpath fun e he => Option.some.inj he ▸ hthree
  have hF : TypeTree F := by
    refine .function ?_ ?_ ?_ ?_ ?_
    · simp only [List.forall_mem_cons, List.not_mem_nil, false_implies, implies_true, and_true]
      exact ⟨.elementary trivial, hq⟩
    · simp only [List.forall_mem_cons, List.not_mem_nil, false_implies, implies_true, and_true]
      exact ⟨fun j hj => Option.some.inj hj ▸ hname _ (by decide), by simp [q]⟩
    · simp [FunctionTypeAttribute.IsProper]
    · simpa using hq
    · simp [q]
  have hT : TypeTree T := .mapping (.elementary (by simp [ElementaryType.IsProper]))
    (by simp [TypeName.isKey]) hF
  have hn : T.nesting < nestingLimit := by decide
  refine ⟨hT, hn, by decide +kernel, typeName_spaced.1 T hT hn, ?_⟩
  refine typeName_spaced.2 T [some three, none] hT hn ?_ (by decide)
  simp [hthree]

end Session

end SolidityFrontend
