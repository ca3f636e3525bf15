import SolidityFrontend.Proofs.Ending
import SolidityFrontend.Proofs.LongestMatch

/-!
# What parsers yield

`Yields p P` says that every value the parser gives has the property `P`, where the tokens are spelt
as the lexical rules say (`tokenize_spelt`). A `Trait` is a property of the expressions and the type
names of a level. If it passes from what is nested to what is put together from that
(`Trait.Extends`), then whatever the parsers of a level yield has the trait of that level
(`Nested.yields_ofDepth`): one induction over the grammar serves every such property.
-/

namespace SolidityFrontend

open Text Rule SolidityFrontend.Parser

/-! ### The spelling of tokens -/

/-- What the lexical rules say of the text of a token. -/
def Token.Spelt : Token → Prop
  | .decimalNumber text => ∀ c ∈ text.toList, isDecimalChar c
  | .hexNumber text => ∃ x cs, text.toList = '0' :: x :: cs ∧ (x = 'x' ∨ x = 'X')
      ∧ ∀ d ∈ cs, isHexDigit d || d == '_'
  | .hexString digits => digits.toList.length % 2 = 0
  | _ => True

theorem Begins.spelt {cs w : List Char} {content : Content} (h : Begins cs content w) {t : Token}
    (ht : content = .token t) : t.Spelt := by
  cases h with
  | blank | lineComment | comment | openComment | invalid => simp at ht
  | keyword | symbol | elementaryType | identifier => exact Content.token.inj ht ▸ trivial
  | decimalNumber h =>
    rw [← Content.token.inj ht]
    intro c hc
    rw [String.toList_ofList] at hc
    exact isDecimalChar_of_mem h.lexeme c hc
  | hexNumber h =>
    rw [← Content.token.inj ht, Token.Spelt, String.toList_ofList]
    exact hex_of_mem h.lexeme
  | @string quote w body rest =>
    cases hscan : (Literal.scanString quote (body ++ rest)).2 with
    | error f => simp [hscan, Content.ofScan] at ht
    | ok bytes =>
      rw [hscan] at ht
      exact Content.token.inj ht ▸ trivial
  | @unicodeString quote w body rest =>
    cases hscan : (Literal.scanString quote (body ++ rest)).2 with
    | error f => simp [hscan, Content.ofScan] at ht
    | ok bytes =>
      rw [hscan] at ht
      exact Content.token.inj ht ▸ trivial
  | @hexString quote w body rest =>
    cases hscan : (Literal.scanHexString quote (body ++ rest)).2 with
    | error f => simp [hscan, Content.ofScan] at ht
    | ok digits =>
      rw [hscan] at ht
      rw [← Content.token.inj ht, Token.Spelt]
      simp only [Literal.scanHexString] at hscan
      split at hscan
      · split at hscan
        · simp at hscan
        · split at hscan
          · rwa [← Except.ok.inj hscan, String.toList_ofList]
          · simp at hscan
      · simp at hscan

/-- The tokens of a source are spelt as the lexical rules say. -/
theorem tokenize_spelt (source : String) : ∀ l ∈ (tokenize source).tokens, l.token.Spelt := by
  obtain ⟨S, hS, htokens, -⟩ := tokenize_cut source
  have hcut := (hS S).2 rfl
  rw [htokens]
  clear hS htokens
  generalize Location.origin = here, source.toList = cs at hcut
  induction hcut with
  | nil here => simp
  | @cons here content w rest S hfirst _ ih =>
    intro l hl
    rw [List.filterMap_cons] at hl
    cases content with
    | extra => exact ih l hl
    | token t =>
      rcases List.mem_cons.1 hl with rfl | hl
      · exact hfirst.spelt rfl
      · exact ih l hl
    | fault f =>
      rcases List.mem_cons.1 hl with rfl | hl
      · trivial
      · exact ih l hl

/-- The tokens that are left are spelt as the lexical rules say. -/
def State.Spelt (s : State) : Prop := ∀ l ∈ s.rest, l.token.Spelt

theorem State.Took.spelt {s t : State} {ts : List Lexeme} {es : List SyntaxError}
    (h : s.Took ts es t) (hs : s.Spelt) : t.Spelt :=
  fun l hl => hs l (h.1 ▸ List.mem_append_right ts hl)

/-! ### Rules -/

namespace Parser

variable {α β : Type} {p q : Parser α} {f : α → Parser β} {P P' : α → Prop} {Q : β → Prop}

/-- From tokens that are spelt well the parser gives only values with a property. -/
def Yields (p : Parser α) (P : α → Prop) : Prop :=
  ∀ c s x t, s.Spelt → p c s = (.ok x, t) → P x ∧ t.Spelt

theorem Yields.mono (h : Yields p P) (hP : ∀ x, P x → P' x) : Yields p P' :=
  fun c s x t hs hx => (h c s x t hs hx).imp_left (hP x)

theorem yields_pure {x : α} (h : P x) : Yields (pure x) P := by
  intro c s y t hs hy
  obtain ⟨rfl, rfl⟩ := pure_eq_ok hy
  exact ⟨h, hs⟩

theorem yields_fail (e : SyntaxError) : Yields (fail e) P := by
  intro c s x t _ hx
  simp [fail] at hx

theorem yields_violation (v : Violation) (span : Span) : Yields (violation v span) P := yields_fail _

theorem yields_unexpected (e : Expected) : Yields (unexpected e) P :=
  fun c s x t _ hx => absurd hx (unexpected_ne_ok e c s x t)

theorem Onward.yields (h : Onward p) : Yields p fun _ => True := by
  intro c s x t hs hx
  obtain ⟨ts, es, htook⟩ := h c s
  rw [hx] at htook
  exact ⟨trivial, htook.spelt hs⟩

theorem Yields.bind (h : Yields p P) (hf : ∀ x, P x → Yields (f x) Q) : Yields (p >>= f) Q := by
  intro c s y u hs hy
  obtain ⟨x, t, hx, hfx⟩ := bind_eq_ok hy
  obtain ⟨hP, ht⟩ := h c s x t hs hx
  exact hf x hP c t y u ht hfx

/-- A part whose value does not matter. -/
theorem Onward.bind_yields (h : Onward p) (hf : ∀ x, Yields (f x) Q) : Yields (p >>= f) Q :=
  h.yields.bind fun x _ => hf x

theorem Yields.map {g : α → β} (h : Yields p P) (hg : ∀ x, P x → Q (g x)) : Yields (g <$> p) Q :=
  h.bind fun x hx => yields_pure (hg x hx)

theorem Yields.ite {b : Prop} [Decidable b] (h : Yields p P) (h' : Yields q P) :
    Yields (if b then p else q) P := by
  split
  · exact h
  · exact h'

theorem Yields.structLiterals {allowed : Bool} (h : Yields p P) :
    Yields (structLiterals allowed p) P := fun _ s x t hs hx => h _ s x t hs hx

theorem yields_spanFrom {start : Span} {l : Span → Parser β} (h : ∀ span, Yields (l span) Q) :
    Yields (spanFrom start >>= l) Q := (onward_spanFrom start).bind_yields h

theorem yields_here {l : Span → Parser β} (h : ∀ span, Yields (l span) Q) : Yields (here >>= l) Q :=
  looks_here.onward.bind_yields h

/-- Behind a look at the next token, which is spelt well. -/
theorem yields_next {l : Option Token → Parser β} (h : ∀ o, (∀ a ∈ o, a.Spelt) → Yields (l o) Q) :
    Yields (next? >>= l) Q := by
  intro c s y t hs hy
  rw [next_bind] at hy
  refine h s.tokens.head? (fun a ha => ?_) c s y t hs hy
  rw [State.tokens, List.head?_map, Option.mem_def, Option.map_eq_some_iff] at ha
  obtain ⟨l, hl, rfl⟩ := ha
  exact hs l (List.mem_of_mem_head? hl)

theorem yields_if_nextIs {a : Token} (h : Yields p P) (h' : Yields q P) :
    Yields (nextIs a >>= fun b => if b = true then p else q) P :=
  (peeks_nextIs a).looks.onward.bind_yields fun _ => h.ite h'

theorem yields_if_accept {a : Token} (h : Yields p P) (h' : Yields q P) :
    Yields (accept a >>= fun b => if b = true then p else q) P :=
  (onward_accept a).bind_yields fun _ => h.ite h'

theorem onward_take (a : Token) (e : Expected) : Onward (take a e) :=
  looks_here.onward.bind fun _ => (onward_accept a).bind fun _ =>
    .ite (fun _ => onward_pure _) fun _ => onward_unexpected e

/-! ### Repetition -/

theorem yields_iterate {step : α → Parser (Option α)}
    (h : ∀ x, P x → Yields (step x) fun o => ∀ y ∈ o, P y) {x : α} (hx : P x) :
    Yields (iterate step x) P := by
  have hover (clock : List Lexeme) {x : α} (hx : P x) : Yields (iterateOver step clock x) P := by
    induction clock generalizing x with
    | nil => exact yields_pure hx
    | cons l clock ih =>
      refine (h x hx).bind fun o ho => ?_
      cases o with
      | none => exact yields_pure hx
      | some y => exact ih (ho y rfl)
  exact fun c s => hover s.rest hx c s

theorem yields_many {more : Parser (Option α)} (h : Yields more fun o => ∀ x ∈ o, P x) :
    Yields (many more) fun xs => ∀ x ∈ xs, P x := by
  have hover (clock : List Lexeme) : Yields (manyOver more clock) fun xs => ∀ x ∈ xs, P x := by
    induction clock with
    | nil => exact yields_pure (by simp)
    | cons l clock ih =>
      refine h.bind fun o ho => ?_
      cases o with
      | none => exact yields_pure (by simp)
      | some x => exact ih.bind fun xs hxs => yields_pure (List.forall_mem_cons.2 ⟨ho x rfl, hxs⟩)
  exact fun c s => hover s.rest c s

theorem Yields.some (h : Yields p P) :
    Yields (p >>= fun x => pure (some x)) fun o => ∀ x ∈ o, P x :=
  h.bind fun _ hx => yields_pure fun _ hy => Option.some.inj hy ▸ hx

theorem yields_none : Yields (pure none) fun o => ∀ x ∈ o, P x := yields_pure (by simp)

theorem yields_separated (h : Yields p P) : Yields (separated p) fun xs => ∀ x ∈ xs, P x :=
  h.bind fun _ hx => (yields_many (yields_if_accept h.some yields_none)).bind fun _ hxs =>
    yields_pure (List.forall_mem_cons.2 ⟨hx, hxs⟩)

theorem yields_itemsUntil {close : Symbol} {continues : Parser Bool} (h : Yields p P)
    (hcontinues : Onward continues) :
    Yields (itemsUntil close continues p) fun xs => ∀ x ∈ xs, P x := by
  have hover (clock : List Lexeme) :
      Yields (itemsOver close continues p clock) fun xs => ∀ x ∈ xs, P x := by
    induction clock with
    | nil => exact yields_pure (by simp)
    | cons l clock ih =>
      refine peeks_atEnd.looks.onward.bind_yields fun _ => (yields_pure (by simp)).ite ?_
      refine yields_if_nextIs (yields_pure (by simp)) (h.bind fun x hx => ?_)
      refine hcontinues.bind_yields fun _ => Yields.ite ?_ (yields_pure (by simpa using hx))
      exact ih.bind fun xs hxs => yields_pure (List.forall_mem_cons.2 ⟨hx, hxs⟩)
  exact fun c s => hover s.rest c s

theorem yields_either {r : Reading} (h : Yields p P) (h' : Yields q P) :
    Yields (either r p q) P :=
  fun c s x t hs hx => (either_eq_ok hx).elim (h c s x t hs) (h' c s x t hs)

/-- A part, or a mark in its place. -/
theorem yields_recovering {mark : ErrorMark → α} (ho : Onward p) (h : Yields p P)
    (hmark : ∀ m, P (mark m)) : Yields (recovering mark p) P := by
  intro c s x t hs hx
  refine ⟨?_, ((onward_recovering mark ho).yields c s x t hs hx).2⟩
  rw [recovering, state_bind, attempt_bind] at hx
  rcases hp : p c s with ⟨e | y, u⟩ <;> rw [hp] at hx
  · obtain ⟨m, v, -, hm⟩ := bind_eq_ok hx
    exact (pure_eq_ok hm).1 ▸ hmark m
  · exact (pure_eq_ok hx).1 ▸ (h c s y u hs hp).1

/-- The parts of a body, and the marks for what could not be read. -/
theorem yields_body {mark : ErrorMark → α} (ho : Onward p) (h : Yields p P)
    (hmark : ∀ m, P (mark m)) : Yields (body mark p) fun xs => ∀ x ∈ xs, P x := by
  have hpart := yields_recovering ho h hmark
  have hover (clock : List Lexeme) :
      Yields (partsOver (recovering mark p) clock) fun xs => ∀ x ∈ xs, P x := by
    induction clock with
    | nil => exact yields_pure (by simp)
    | cons l clock ih =>
      refine peeks_atEnd.looks.onward.bind_yields fun _ => (yields_pure (by simp)).ite ?_
      refine yields_if_nextIs (yields_pure (by simp)) (hpart.bind fun x hx => ?_)
      exact ih.bind fun xs hxs => yields_pure (List.forall_mem_cons.2 ⟨hx, hxs⟩)
  have hbrace : Onward missingBrace :=
    looks_previousSpan.onward.bind fun _ => (onward_record _).bind fun _ => onward_pure _
  intro c s
  rw [body, state_bind]
  refine ((hover s.rest).bind fun xs hxs => peeks_atEnd.looks.onward.bind_yields fun _ => ?_) c s
  refine Yields.ite (hbrace.bind_yields fun m => yields_pure ?_)
    ((onward_symbol _).bind_yields fun _ => yields_pure hxs)
  exact List.forall_mem_append.2 ⟨hxs, by simpa using hmark m⟩

end Parser

/-! ### Traits -/

/-- What the parsers make of a literal. -/
def Literal.Spelt : Literal → Prop
  | .string l | .unicodeString l => l.value = String.ofList (Utf8.decodeLossy l.bytes)
  | .hexString l => l.bytes = Grammar.hexBytes l.value.toList
  | .number l => l.token.Spelt
  | .boolean .. => True

/-- All arguments have a property. -/
def Arguments.All (P : Expr → Prop) : Arguments → Prop
  | .positional es _ => ∀ e ∈ es, P e
  | .named as _ => ∀ a ∈ as, P a.value

/-- A type name without parts that nest. -/
def TypeName.isSimple : TypeName → Prop
  | .elementary _ | .userDefined _ => True
  | _ => False

/-- A property of what the parsers of a level give, for each of the parsers of expressions. -/
structure Trait where
  /-- Of what is not built with operators. -/
  suffixed : Expr → Prop
  /-- Of what stands behind an operator in front. -/
  operand : Expr → Prop
  /-- Of operands with operators of the `n` tightest tiers between them; with none, of powers. -/
  tier : Nat → Expr → Prop
  conditional : Expr → Prop
  expression : Expr → Prop
  typeName : TypeName → Prop

/-- Parts that have the traits of the level below make wholes that have those of the level. -/
structure Trait.Extends (I O : Trait) : Prop where
  literal {l} : l.Spelt → O.suffixed (.literal l)
  identifier i : O.suffixed (.identifier i)
  elementary t : O.suffixed (.elementary t)
  cast {e} t span : I.expression e → O.suffixed (.cast t e span)
  payable {a : Arguments} span : a.All I.expression → O.suffixed (.payable a span)
  metaType {t} span : I.typeName t → O.suffixed (.metaType t span)
  new {t} span : I.typeName t → O.suffixed (.new t span)
  parenthesized {e} span : I.expression e → O.suffixed (.parenthesized e span)
  tuple {es : List (Option Expr)} span : (∀ o ∈ es, ∀ e ∈ o, I.expression e) →
    O.suffixed (.tuple es span)
  inlineArray {es : List Expr} span : (∀ e ∈ es, I.expression e) → O.suffixed (.inlineArray es span)
  index {b} {i : Option Expr} span : O.suffixed b → (∀ e ∈ i, I.expression e) →
    O.suffixed (.index b i span)
  slice {b} {l u : Option Expr} span : O.suffixed b → (∀ e ∈ l, I.expression e) →
    (∀ e ∈ u, I.expression e) → O.suffixed (.slice b l u span)
  member {e} i span : O.suffixed e → O.suffixed (.member e i span)
  call {e} {a : Arguments} span : O.suffixed e → a.All I.expression → O.suffixed (.call e a span)
  struct {e} {fields : List NamedArgument} span : O.suffixed e →
    (∀ a ∈ fields, I.expression a.value) → O.suffixed (.struct e fields span)
  updateAfter {e} op span : O.suffixed e → O.suffixed (.update op .after e span)
  operand {e} : O.suffixed e → O.operand e
  unary {e} op span : I.operand e → O.operand (.unary op e span)
  updateBefore {e} op span : I.operand e → O.operand (.update op .before e span)
  power {e} : O.operand e → O.tier 0 e
  powerOf {e e'} span : O.operand e → I.tier 0 e' → O.tier 0 (.binary e .pow e' span)
  tier {n e} : O.tier n e → O.tier (n + 1) e
  binary {n l r op} span : op ≠ .pow → O.tier (n + 1) l → O.tier n r →
    O.tier (n + 1) (.binary l op r span)
  conditional {e} : O.tier BinaryOp.tiers.length e → O.conditional e
  ternary {e a b} span : O.tier BinaryOp.tiers.length e → I.expression a → I.expression b →
    O.conditional (.ternary e a b span)
  expression {e} : O.conditional e → O.expression e
  assignment {e e'} op span : O.conditional e → I.expression e' →
    O.expression (.assignment e op e' span)
  elementaryType t : O.typeName (.elementary t)
  userDefined p : O.typeName (.userDefined p)
  mapping {k v} span : k.isSimple → I.typeName v → O.typeName (.mapping k v span)
  array {t} {size : Option Expr} span : O.typeName t → (∀ e ∈ size, I.expression e) →
    O.typeName (.array t size span)
  function {ps rs : List Parameter} as span : (∀ p ∈ ps, I.typeName p.type) →
    (∀ p ∈ rs, I.typeName p.type) → O.typeName (.function ps as rs span)

/-- The parsers of a level yield what has a trait. -/
structure Nested.Yields (d : Nested) (T : Trait) : Prop where
  expression : d.expression.Yields T.expression
  operand : d.operand.Yields T.operand
  exponent : d.exponent.Yields (T.tier 0)
  typeName : d.typeName.Yields T.typeName

namespace Grammar

/-! ### Literals and names -/

theorem onward_identifier? : Onward identifier? := by
  rw [identifier?, nextWord_bind]
  refine onward_next fun o => ?_
  cases o.bind Token.identifier? with
  | none => exact onward_pure none
  | some name => exact onward_identifier.bind fun _ => onward_pure _

theorem onward_elementaryTypeName (allowPayable : Bool) :
    Onward (elementaryTypeName allowPayable) := by
  refine looks_here.onward.bind fun start => onward_next fun next => ?_
  split
  · split
    · exact onward_fail _
    · refine onward_advance.bind fun _ => .ite (fun _ => ?_) fun _ => ?_
      · exact (onward_accept _).bind fun _ => .ite
          (fun _ => (onward_spanFrom _).bind fun _ => onward_pure _)
          fun _ => (onward_spanFrom _).bind fun _ => onward_pure _
      · exact (onward_spanFrom _).bind fun _ => onward_pure _
  · exact onward_unexpected _

theorem onward_path : Onward path := by
  refine onward_identifier.bind fun first => (onward_many ?_).bind fun more =>
    (onward_spanFrom _).bind fun _ => onward_pure _
  refine (peeks_nextIs _).looks.onward.bind fun _ => .ite (fun _ => ?_) fun _ => onward_pure _
  refine (peeks_peek 1).looks.onward.bind fun _ => .ite (fun _ => ?_) fun _ => onward_pure _
  exact onward_advance.bind fun _ => onward_identifier.bind fun _ => onward_pure _

theorem onward_storageLocation? : Onward storageLocation? := by
  rw [storageLocation?, nextWord_bind]
  refine onward_next fun o => ?_
  cases (o.bind Token.identifier?).bind StorageLocation.ofWord? with
  | none => exact onward_pure _
  | some location => exact onward_advance.bind fun _ => onward_pure _

theorem onward_functionTypeAttributes : Onward functionTypeAttributes := by
  refine onward_many (looks_here.onward.bind fun span => ?_)
  rw [nextWord_bind]
  refine onward_next fun o => ?_
  cases (o.bind Token.identifier?).bind (functionTypeAttribute? · span) with
  | none => exact onward_pure _
  | some a => exact onward_advance.bind fun _ => onward_pure _

theorem hexBytes_append {a : List Char} (h : a.length % 2 = 0) (b : List Char) :
    hexBytes (a ++ b) = hexBytes a ++ hexBytes b := by
  induction a using hexBytes.induct with
  | case1 x y rest ih =>
    rw [List.length_cons, List.length_cons] at h
    rw [List.cons_append, List.cons_append, hexBytes, hexBytes, ih (by omega), List.cons_append]
  | case2 a hshort =>
    rcases a with _ | ⟨x, _ | ⟨y, rest⟩⟩
    · rfl
    · simp at h
    · exact absurd rfl (hshort x y rest)

theorem hexBytes_intercalate {parts : List String} (h : ∀ digits ∈ parts, digits.toList.length % 2 = 0) :
    hexBytes ("".intercalate parts).toList = parts.flatMap (hexBytes ·.toList) := by
  induction parts with
  | nil => rfl
  | cons digits parts ih =>
    obtain ⟨hdigits, hparts⟩ := List.forall_mem_cons.1 h
    rcases parts with _ | ⟨digits', parts⟩
    · simp
    · rw [String.intercalate_cons_cons, String.toList_append, String.toList_append, String.toList_empty,
        List.append_nil, hexBytes_append hdigits, ih hparts]
      rfl

theorem yields_literal {a : Token} (ha : a.Spelt) {p : Parser Literal} (h : literal? a = some p) :
    Yields p Literal.Spelt := by
  have hpart {α : Type} (part? : Token → Option α) (P : α → Prop)
      (hP : ∀ a x, part? a = some x → a.Spelt → P x) :
      Yields (many (stringPart? part?)) fun parts => ∀ x ∈ parts, P x.1 := by
    refine yields_many (yields_here fun span => yields_next fun o ho => ?_)
    cases hx : o.bind part? with
    | none => exact yields_none
    | some x =>
      obtain ⟨a, hao, hax⟩ := Option.bind_eq_some_iff.1 hx
      refine onward_advance.bind_yields fun _ => yields_pure fun y hy => ?_
      rw [← Option.some.inj hy]
      exact hP a x hax (ho a hao)
  have hnumber (value : String) (kind : NumberKind)
      (hspelt : ∀ unit span, (NumberLiteral.mk value kind unit span).token.Spelt) :
      Yields (numberLiteral value kind) Literal.Spelt := by
    refine yields_here fun start => onward_advance.bind_yields fun _ => ?_
    refine peeks_nextWord.looks.onward.bind_yields fun o => ?_
    have hend : Yields (spanFrom start >>= fun span =>
        pure (Literal.number ⟨value, kind, o.bind NumberUnit.ofWord?, span⟩)) Literal.Spelt :=
      yields_spanFrom fun span => yields_pure (hspelt _ span)
    exact (onward_advance.bind_yields fun _ => hend).ite hend
  have hbytes (part? : Token → Option (List UInt8)) : Yields (byteStrings part?) fun l =>
      l.value = String.ofList (Utf8.decodeLossy l.bytes) :=
    yields_here fun start => (hpart part? (fun _ => True) fun _ _ _ _ => trivial).bind
      fun parts _ => yields_spanFrom fun span => yields_pure rfl
  have hhex : Yields hexStrings fun l => l.bytes = hexBytes l.value.toList := by
    refine yields_here fun start => (hpart hexPart? (fun digits => digits.toList.length % 2 = 0)
      fun a x hax ha => ?_).bind fun parts hparts => yields_spanFrom fun span => yields_pure ?_
    · cases a with
      | hexString digits => exact Option.some.inj hax ▸ ha
      | _ => simp [hexPart?] at hax
    · change (parts.map Prod.fst).flatMap (hexBytes ·.toList)
        = hexBytes ("".intercalate (parts.map Prod.fst)).toList
      rw [hexBytes_intercalate]
      simpa using fun digits span => hparts (digits, span)
  unfold literal? at h
  split at h
  · exact Option.some.inj h ▸ yields_here fun _ => onward_advance.bind_yields fun _ => yields_pure trivial
  · exact Option.some.inj h ▸ yields_here fun _ => onward_advance.bind_yields fun _ => yields_pure trivial
  · exact Option.some.inj h ▸ hnumber _ _ fun _ _ => ha
  · exact Option.some.inj h ▸ hnumber _ _ fun _ _ => ha
  · exact Option.some.inj h ▸ (hbytes _).map fun _ hl => hl
  · exact Option.some.inj h ▸ hhex.map fun _ hl => hl
  · exact Option.some.inj h ▸ (hbytes _).map fun _ hl => hl
  · simp at h

/-! ### Type names -/

variable {d : Nested} {I O : Trait} (hd : d.Yields I) (h : I.Extends O)
include hd

theorem yields_parameters : Yields (parameters d) fun ps => ∀ p ∈ ps, I.typeName p.type := by
  have hparameter : Yields (parameter d) fun p => I.typeName p.type :=
    yields_here fun _ => hd.typeName.bind fun type htype =>
      onward_storageLocation?.bind_yields fun _ => onward_identifier?.bind_yields fun _ =>
        yields_spanFrom fun _ => yields_pure htype
  refine (onward_symbol _).bind_yields fun _ => yields_if_accept (yields_pure (by simp)) ?_
  exact (yields_separated hparameter).bind fun ps hps => (onward_symbol _).bind_yields fun _ =>
    yields_pure hps

theorem yields_returnParameters :
    Yields (returnParameters d) fun ps => ∀ p ∈ ps, I.typeName p.type :=
  yields_if_accept (yields_parameters hd) (yields_pure (by simp))

include h

theorem yields_mappingType : Yields (mappingType d) O.typeName := by
  have hkey : Yields mappingKey TypeName.isSimple := by
    refine yields_next fun o _ => ?_
    split
    · exact (onward_elementaryTypeName false).bind_yields fun _ => yields_pure trivial
    · exact onward_path.bind_yields fun _ => yields_pure trivial
    · exact yields_here fun _ => yields_violation _ _
  exact (onward_take _ _).bind_yields fun start => (onward_symbol _).bind_yields fun _ =>
    hkey.bind fun k hk => (onward_symbol _).bind_yields fun _ => hd.typeName.bind fun v hv =>
      (onward_symbol _).bind_yields fun _ => yields_spanFrom fun span =>
        yields_pure (h.mapping span hk hv)

theorem yields_functionType : Yields (functionType d) O.typeName :=
  (onward_take _ _).bind_yields fun _ => (yields_parameters hd).bind fun _ hps =>
    onward_functionTypeAttributes.bind_yields fun as => (yields_returnParameters hd).bind
      fun _ hrs => yields_spanFrom fun span => yields_pure (h.function as span hps hrs)

theorem yields_arraySuffix? {t : TypeName} (ht : O.typeName t) :
    Yields (arraySuffix? d t) fun o => ∀ y ∈ o, O.typeName y := by
  have hclose (size : Option Expr) (hsize : ∀ e ∈ size, I.expression e) :
      Yields (symbol .rightBracket >>= fun _ => spanFrom t.span >>= fun span =>
        pure (some (TypeName.array t size span))) fun o => ∀ y ∈ o, O.typeName y :=
    (onward_symbol _).bind_yields fun _ => yields_spanFrom fun span =>
      yields_pure fun y hy => Option.some.inj hy ▸ h.array span ht hsize
  refine yields_if_accept (yields_if_nextIs (yields_none.bind hclose) ?_) yields_none
  exact (hd.expression.map fun e he x hx => Option.some.inj hx ▸ he).bind hclose

theorem yields_typeName : Yields (typeName d) O.typeName := by
  refine Yields.bind (yields_next fun o _ => ?_) fun t ht =>
    yields_iterate (fun t ht => yields_arraySuffix? hd h ht) ht
  split
  · exact (onward_elementaryTypeName true).bind_yields fun t => yields_pure (h.elementaryType t)
  · exact yields_mappingType hd h
  · exact yields_functionType hd h
  · exact onward_path.bind_yields fun p => yields_pure (h.userDefined p)
  · exact yields_unexpected _

/-! ### Arguments -/

omit h in
theorem yields_inside : Yields (inside d) I.expression := hd.expression.structLiterals

omit h in
theorem yields_namedArguments :
    Yields (namedArguments d) fun as => ∀ a ∈ as, I.expression a.value := by
  have hargument : Yields (namedArgument d) fun a => I.expression a.value :=
    onward_identifier.bind_yields fun _ => (onward_symbol _).bind_yields fun _ =>
      hd.expression.bind fun _ he => yields_spanFrom fun _ => yields_pure he
  refine Yields.structLiterals ((onward_symbol _).bind_yields fun _ => ?_)
  exact (yields_itemsUntil hargument (onward_accept _)).bind fun _ has =>
    (onward_symbol _).bind_yields fun _ => yields_pure has

omit h in
theorem yields_callArguments : Yields (callArguments d) (Arguments.All I.expression) := by
  have hcontinues : Onward argumentsContinue :=
    (peeks_nextIs _).looks.onward.bind fun _ => .ite (fun _ => onward_pure _)
      fun _ => (onward_symbol _).bind fun _ => onward_pure _
  refine (onward_symbol _).bind_yields fun _ => yields_if_nextIs ?_ ?_
  · exact (yields_namedArguments hd).bind fun _ has => (onward_symbol _).bind_yields fun _ =>
      yields_spanFrom fun _ => yields_pure has
  · exact (yields_itemsUntil (yields_inside hd) hcontinues).bind fun _ hes =>
      (onward_symbol _).bind_yields fun _ => yields_spanFrom fun _ => yields_pure hes

/-! ### Expressions -/

theorem yields_identifierExpr (name : String) : Yields (identifierExpr d name) O.suffixed := by
  have hname : Yields (identifier >>= fun i => pure (Expr.identifier i)) O.suffixed :=
    onward_identifier.bind_yields fun i => yields_pure (h.identifier i)
  have hpayable : Yields (payableExpr d) O.suffixed :=
    (onward_take _ _).bind_yields fun _ => (yields_callArguments hd).bind fun _ ha =>
      yields_spanFrom fun span => yields_pure (h.payable span ha)
  have htype : Yields (metaTypeExpr d) O.suffixed :=
    (onward_take _ _).bind_yields fun _ => (onward_symbol _).bind_yields fun _ =>
      hd.typeName.bind fun _ ht => (onward_symbol _).bind_yields fun _ =>
        yields_spanFrom fun span => yields_pure (h.metaType span ht)
  exact (peeks_peek 1).looks.onward.bind_yields fun _ => (hpayable.ite (htype.ite hname)).ite hname

theorem yields_parenthesizedOrTuple : Yields (parenthesizedOrTuple d) O.suffixed := by
  have hplace : Yields (tuplePlace (inside d)) fun o => ∀ e ∈ o, I.expression e :=
    yields_if_nextIs yields_none (yields_if_nextIs yields_none (yields_inside hd).some)
  refine (onward_symbol _).bind_yields fun _ => yields_if_accept
    (yields_spanFrom fun span => yields_pure (h.tuple span (by simp))) ?_
  refine (yields_separated hplace).bind fun elements helements =>
    (onward_symbol _).bind_yields fun _ => yields_spanFrom fun span => ?_
  split
  · exact yields_pure (h.parenthesized span (helements _ List.mem_cons_self _ rfl))
  · exact yields_pure (h.tuple span helements)

theorem yields_primaryExpr : Yields (primaryExpr d) O.suffixed := by
  refine yields_next fun o ho => ?_
  rcases o with _ | t
  · exact yields_unexpected _
  dsimp only
  cases hliteral : literal? t with
  | some p => exact (yields_literal (ho t rfl) hliteral).bind fun l hl => yields_pure (h.literal hl)
  | none =>
    dsimp only
    split
    · exact yields_identifierExpr hd h _
    · exact (onward_elementaryTypeName false).bind_yields fun type => yields_if_accept
        ((yields_inside hd).bind fun _ he => (onward_symbol _).bind_yields fun _ =>
          yields_spanFrom fun span => yields_pure (h.cast type span he))
        (yields_pure (h.elementary type))
    · exact (onward_take _ _).bind_yields fun _ => hd.typeName.bind fun _ ht =>
        yields_spanFrom fun span => yields_pure (h.new span ht)
    · exact yields_parenthesizedOrTuple hd h
    · exact (onward_symbol _).bind_yields fun _ => (yields_itemsUntil (yields_inside hd)
        (onward_accept _)).bind fun _ hes => (onward_symbol _).bind_yields fun _ =>
          yields_spanFrom fun span => yields_pure (h.inlineArray span hes)
    · exact yields_unexpected _

section

variable {e : Expr} (he : O.suffixed e)
include he

theorem yields_indexOrSlice : Yields (indexOrSlice d e) O.suffixed := by
  have hbound (stop : Symbol) : Yields (bound? d stop) fun o => ∀ e ∈ o, I.expression e :=
    yields_if_nextIs yields_none (yields_inside hd).some
  refine (onward_symbol _).bind_yields fun _ => yields_if_accept
    (yields_spanFrom fun span => yields_pure (h.index span he (by simp))) ?_
  refine (hbound _).bind fun lower hlower => yields_if_accept ?_ ?_
  · exact (hbound _).bind fun upper hupper => (onward_symbol _).bind_yields fun _ =>
      yields_spanFrom fun span => yields_pure (h.slice span he hlower hupper)
  · exact (onward_symbol _).bind_yields fun _ =>
      yields_spanFrom fun span => yields_pure (h.index span he hlower)

theorem yields_structFields? : Yields (structFields? d e) fun o => ∀ y ∈ o, O.suffixed y := by
  intro c s o t hs hrun
  rw [structFields?_eq] at hrun
  rcases hfields : namedArguments d c s with ⟨error | fields, u⟩
  · simp [hfields] at hrun
  · obtain ⟨hall, hu⟩ := yields_namedArguments hd c s fields u hs hfields
    rw [hfields] at hrun
    dsimp only at hrun
    split at hrun
    · have hmade : Yields (spanFrom e.span >>= fun span => pure (some (Expr.struct e fields span)))
          fun o => ∀ y ∈ o, O.suffixed y :=
        yields_spanFrom fun span => yields_pure fun y hy => Option.some.inj hy ▸ h.struct span he hall
      exact hmade c u o t hu hrun
    · obtain ⟨ho, rfl⟩ := Prod.mk.inj hrun
      exact ⟨by simp [← Except.ok.inj ho], hs⟩

theorem yields_suffix? : Yields (suffix? d e) fun o => ∀ y ∈ o, O.suffixed y := by
  refine yields_next fun o _ => ?_
  split
  · exact (yields_indexOrSlice hd h he).some
  · exact onward_advance.bind_yields fun _ => onward_identifier.bind_yields fun i =>
      yields_spanFrom fun span => yields_pure fun y hy => Option.some.inj hy ▸ h.member i span he
  · exact (yields_callArguments hd).bind fun _ ha => yields_spanFrom fun span =>
      yields_pure fun y hy => Option.some.inj hy ▸ h.call span he ha
  · have hbegin : Onward fieldsBegin := onward_of_state_eq fun c s => by rw [sees_fieldsBegin c s]
    exact hbegin.bind_yields fun _ => (yields_structFields? hd h he).ite yields_none
  · split
    · exact onward_advance.bind_yields fun _ => yields_spanFrom fun span =>
        yields_pure fun y hy => Option.some.inj hy ▸ h.updateAfter _ span he
    · exact yields_none
  · exact yields_none

end

theorem yields_suffixedExpr : Yields (suffixedExpr d) O.suffixed :=
  (yields_primaryExpr hd h).bind fun _ he => yields_iterate (fun _ he => yields_suffix? hd h he) he

theorem yields_unaryExpr : Yields (unaryExpr d) O.operand := by
  have hsuffixed : Yields (suffixedExpr d) O.operand :=
    (yields_suffixedExpr hd h).mono fun _ => h.operand
  refine yields_here fun start => yields_next fun o _ => ?_
  split
  · exact hsuffixed
  · split
    · exact onward_advance.bind_yields fun _ => hd.operand.bind fun _ he =>
        yields_spanFrom fun span => yields_pure (h.unary _ span he)
    · exact onward_advance.bind_yields fun _ => hd.operand.bind fun _ he =>
        yields_spanFrom fun span => yields_pure (h.updateBefore _ span he)
    · exact hsuffixed

theorem yields_powerExpr : Yields (powerExpr d) (O.tier 0) :=
  (yields_unaryExpr hd h).bind fun _ he => yields_if_accept
    (hd.exponent.bind fun _ he' => yields_pure (h.powerOf _ he he')) (yields_pure (h.power he))

theorem yields_binaryExpr {tiers : List (List BinaryOp)} (htiers : ∀ ops ∈ tiers, .pow ∉ ops) :
    Yields (binaryExpr d tiers) (O.tier tiers.length) := by
  induction tiers with
  | nil => exact yields_powerExpr hd h
  | cons ops tighter ih =>
    obtain ⟨hops, htighter⟩ := List.forall_mem_cons.1 htiers
    have hoperand := ih htighter
    refine hoperand.bind fun e he => yields_iterate (fun left hleft => ?_) (h.tier he)
    refine yields_next fun o _ => ?_
    cases hop : o.bind (BinaryOp.ofToken? ops) with
    | none => exact yields_none
    | some op =>
      obtain ⟨t, -, ht⟩ := Option.bind_eq_some_iff.1 hop
      have hne : op ≠ .pow := fun hpow => hops (hpow ▸ (BinaryOp.ofToken?_eq_some ht).2)
      exact onward_advance.bind_yields fun _ => hoperand.bind fun right hright =>
        yields_pure fun y hy => Option.some.inj hy ▸ h.binary _ hne hleft hright

theorem yields_conditionalExpr : Yields (conditionalExpr d) O.conditional :=
  (yields_binaryExpr hd h (by decide)).bind fun _ hc => yields_if_accept
    ((yields_inside hd).bind fun _ ha => (onward_symbol _).bind_yields fun _ =>
      hd.expression.bind fun _ hb => yields_pure (h.ternary _ hc ha hb))
    (yields_pure (h.conditional hc))

theorem yields_expression : Yields (expression d) O.expression := by
  refine (yields_conditionalExpr hd h).bind fun left hleft => yields_next fun o _ => ?_
  cases o.bind AssignOp.ofToken? with
  | none => exact yields_pure (h.expression hleft)
  | some op =>
    refine onward_advance.bind_yields fun _ => Yields.ite ?_ (yields_violation _ _)
    exact hd.expression.bind fun _ hright => yields_pure (h.assignment op _ hleft hright)

end Grammar

/-! ### Levels of nesting -/

theorem Nested.yields_tooDeep {α : Type} {P : α → Prop} : (tooDeep : Parser α).Yields P :=
  yields_here fun _ => yields_violation _ _

/-- If each level has its traits, given that those of the level below have theirs, then all levels
have. -/
theorem Nested.yields_ofDepth {T : Nat → Trait} (h : ∀ n, (T n).Extends (T (n + 1))) :
    ∀ n, (ofDepth n).Yields (T n)
  | 0 => ⟨yields_tooDeep, yields_tooDeep, yields_tooDeep, yields_tooDeep⟩
  | n + 1 =>
    have hd := yields_ofDepth h n
    ⟨Grammar.yields_expression hd (h n), Grammar.yields_unaryExpr hd (h n),
      Grammar.yields_powerExpr hd (h n), Grammar.yields_typeName hd (h n)⟩

end SolidityFrontend
