import SolidityFrontend.Proofs.ReadingFile
import SolidityFrontend.Proofs.RespanningDecl

/-!
# Values at the places of a text

A location of a text is where some of its characters end, and a span of a text runs from one of them
forward to another. `Fits source x` says that every span in `x` is of that kind.

`Located source p` says of a parser that where the tokens are at places of the source, so are its
value, the error with which it fails and the errors that it records. Its rules follow the steps of a
parser. `Locates` also knows something of the state before and of the state behind a parser.
-/

namespace SolidityFrontend

/-! ### Locations and spans of a text -/

/-- The location is where some of the characters of a text end. -/
def Location.In (source : List Char) (l : Location) : Prop :=
  ∃ before, before <+: source ∧ l = .advanceBy .origin before

/-- The span runs forward between two locations of a text. -/
structure Span.In (source : List Char) (s : Span) : Prop where
  start : s.start.In source
  stop : s.stop.In source
  le : s.start.offset ≤ s.stop.offset

/-- The function keeps every span of a text. -/
def Keeps (source : List Char) (f : Span → Span) : Prop := ∀ s : Span, s.In source → f s = s

/-- Every span in a value is a span of a text: changing any others changes nothing. -/
def Fits {α : Type} [Placed α] (source : List Char) (x : α) : Prop :=
  ∀ f, Keeps source f → respan f x = x

variable {source : List Char}

theorem Location.In.origin : Location.In source .origin := ⟨[], List.nil_prefix, rfl⟩

theorem Span.In.point {l : Location} (h : l.In source) : (Span.point l).In source :=
  ⟨h, h, le_rfl⟩

theorem Span.In.after {s : Span} (h : s.In source) : s.after.In source := .point h.stop

/-- From a span to one that ends no earlier than it starts. -/
theorem Span.In.through {a b : Span} (ha : a.start.In source) (hb : b.stop.In source)
    (hle : a.start.offset ≤ b.stop.offset) : (a.through b).In source := ⟨ha, hb, hle⟩

/-- A span is within a text if it is a span of that text. -/
theorem fits_span {s : Span} : Fits source s ↔ s.In source := by
  refine ⟨fun h => ?_, fun h f hf => hf s h⟩
  by_contra hs
  -- The function that moves this span alone keeps the text, and so would have to keep the span.
  let elsewhere : Span := if s = .origin then .point ⟨1, .origin⟩ else .origin
  have hne : elsewhere ≠ s := by
    unfold elsewhere
    split
    · rename_i horigin
      rw [horigin]
      decide
    · rename_i horigin
      exact Ne.symm horigin
  have hkept := h (fun t => if t = s then elsewhere else t) fun t ht => if_neg <| by
    rintro rfl
    exact hs ht
  rw [respan_span, if_pos rfl] at hkept
  exact hne hkept

theorem Span.In.eq {s : Span} (h : s.In source) {f : Span → Span} (hf : Keeps source f) : f s = s :=
  hf s h

theorem Fits.eq {α : Type} [Placed α] {x : α} (h : Fits source x) {f : Span → Span}
    (hf : Keeps source f) : respan f x = x := h f hf

section

variable {α : Type} [Placed α] {x : α}

theorem fits_none : Fits source (none : Option α) := fun _ _ => rfl

theorem fits_nil : Fits source ([] : List α) := fun _ _ => rfl

theorem Fits.some (h : Fits source x) : Fits source (Option.some x) := fun f hf => by
  rw [respan_some, h.eq hf]

theorem Fits.of_some (h : Fits source (Option.some x)) : Fits source x := fun f hf => by
  have hsome := h.eq hf
  rwa [respan_some, Option.some.injEq] at hsome

theorem Fits.cons {xs : List α} (h : Fits source x) (hs : Fits source xs) :
    Fits source (x :: xs) := fun f hf => by rw [respan_cons, h.eq hf, hs.eq hf]

end

theorem fits_bool (b : Bool) : Fits source b := fun _ _ => rfl

theorem fits_unit : Fits source () := fun _ _ => rfl

theorem Identifier.span_in {i : Identifier} (h : Fits source i) : i.span.In source :=
  fits_span.1 fun _ hf => congrArg Identifier.span (h.eq hf)

theorem ElementaryTypeName.span_in {t : ElementaryTypeName} (h : Fits source t) :
    t.span.In source :=
  fits_span.1 fun _ hf => congrArg ElementaryTypeName.span (h.eq hf)

theorem Path.span_in {p : Path} (h : Fits source p) : p.span.In source :=
  fits_span.1 fun _ hf => congrArg Path.span (h.eq hf)

theorem Expr.span_in {e : Expr} (h : Fits source e) : e.span.In source :=
  fits_span.1 fun f hf => by rw [respan_span, ← Expr.span_respan (f := f), h.eq hf]

theorem TypeName.span_in {t : TypeName} (h : Fits source t) : t.span.In source :=
  fits_span.1 fun f hf => by rw [respan_span, ← TypeName.span_respan (f := f), h.eq hf]

/-! ### Parsers -/

/-- Reading stands among tokens of a text. -/
structure Sits (source : List Char) (c : Context) (s : State) : Prop where
  text : c.source = source
  stop : c.stop.In source
  ordered : s.Ordered
  tokens : ∀ t ∈ s.previous.toList ++ s.rest, t.span.In source

namespace Sits

variable {c : Context} {s s' : State} {ts : List Lexeme} {es : List SyntaxError}

theorem of_took (h : Sits source c s) (ht : s.Took ts es s') : Sits source c s' where
  text := h.text
  stop := h.stop
  ordered := h.ordered.of_took ht
  tokens t hmem := by
    refine h.tokens t ?_
    rw [ht.1]
    rcases List.mem_append.1 hmem with hprevious | hrest
    · rw [Option.mem_toList, ht.2.1, Option.or_eq_some_iff] at hprevious
      rcases hprevious with hlast | ⟨-, hbefore⟩
      · simp [List.mem_of_getLast? hlast]
      · simp [hbefore]
    · simp [hrest]

theorem previousSpan (h : Sits source c s) : s.previousSpan.In source := by
  rcases hp : s.previous with _ | t
  · rw [State.previousSpan, hp]
    exact .point .origin
  · rw [State.previousSpan, hp]
    exact h.tokens t (by simp [hp])

theorem nextSpan (h : Sits source c s) : (s.nextSpan c.stop).In source := by
  rcases hr : s.rest with _ | ⟨t, rest⟩
  · simpa [State.nextSpan, hr] using h.stop
  · simpa [State.nextSpan, hr] using h.tokens t (by simp [hr])

theorem literals (h : Sits source c s) (allowed : Bool) :
    Sits source { c with structLiterals := allowed } s := ⟨h.text, h.stop, h.ordered, h.tokens⟩

end Sits

namespace Parser

variable {α β : Type}

/-- The answer of a parser that began at a state: a value with a property and an error at its place
in the text, behind errors that were recorded at theirs. -/
structure Answers (source : List Char) (V : α → State → Prop) (s : State)
    (r : Except SyntaxError α × State) : Prop where
  took : ∃ ts es, s.Took ts es r.2 ∧ ∀ e ∈ es, e.span.In source
  ok : ∀ x, r.1 = .ok x → V x r.2
  error : ∀ e, r.1 = .error e → e.span.In source

/-- Among tokens of a text, where something is known of the state, the parser gives a value with a
property or fails at a place of the text. -/
def Locates (source : List Char) (A : State → Prop) (p : Parser α) (V : α → State → Prop) : Prop :=
  ∀ c s, Sits source c s → A s → Answers source V s (p c s)

/-- Among tokens of a text, what the parser gives and the errors are within the text. -/
abbrev Located [Placed α] (source : List Char) (p : Parser α) : Prop :=
  Locates source (fun _ => True) p fun x _ => Fits source x

variable {c : Context} {s : State} {A B : State → Prop} {V V' : α → State → Prop}
  {W : β → State → Prop} {p : Parser α} {f : α → Parser β}

/-! ### Steps -/

theorem Answers.refl {x : α} (h : V x s) : Answers source V s (.ok x, s) where
  took := ⟨[], [], .refl s, by simp⟩
  ok := by simpa using h
  error := by simp

theorem Answers.fail {e : SyntaxError} (h : e.span.In source) :
    Answers source V s (.error e, s) where
  took := ⟨[], [], .refl s, by simp⟩
  ok := by simp
  error := by simpa using h

/-- Behind what was read since a state. -/
theorem Answers.behind {s' : State} {ts : List Lexeme} {es : List SyntaxError}
    {r : Except SyntaxError α × State} (h : Answers source V s' r) (ht : s.Took ts es s')
    (hes : ∀ e ∈ es, e.span.In source) : Answers source V s r where
  took := by
    obtain ⟨us, ds, hu, hds⟩ := h.took
    exact ⟨ts ++ us, es ++ ds, ht.trans hu, List.forall_mem_append.2 ⟨hes, hds⟩⟩
  ok := h.ok
  error := h.error

theorem Answers.mono {r : Except SyntaxError α × State} (h : Answers source V s r)
    (hV : ∀ x, V x r.2 → V' x r.2) : Answers source V' s r :=
  ⟨h.took, fun x hx => hV x (h.ok x hx), h.error⟩

theorem Locates.mono (h : Locates source A p V) (hA : ∀ s, B s → A s)
    (hV : ∀ x s, V x s → V' x s) : Locates source B p V' :=
  fun c s hs hB => (h c s hs (hA s hB)).mono fun x => hV x _

theorem Locates.bind (h : Locates source A p V) (hf : ∀ x, Locates source (V x) (f x) W) :
    Locates source A (p >>= f) W := by
  intro c s hs hA
  have hp := h c s hs hA
  obtain ⟨ts, es, ht, hes⟩ := hp.took
  rcases hr : p c s with ⟨e | x, s'⟩
  · rw [hr] at ht hp
    rw [bind_error hr]
    exact ⟨⟨ts, es, ht, hes⟩, by simp, by simpa using hp.error e rfl⟩
  · rw [hr] at ht hp
    rw [bind_ok hr]
    exact (hf x c s' (hs.of_took ht) (hp.ok x rfl)).behind ht hes

/-- Where what is known of the state tells only of values that are known before. -/
theorem locates_of {P : Prop} (h : P → Locates source (fun _ => True) p V) :
    Locates source (fun _ => P) p V := fun c s hs hP => h hP c s hs trivial

/-- A step, and the steps behind it, which know that its value is within the text. -/
theorem Located.bind [Placed α] (h : Located source p)
    (hf : ∀ x, Fits source x → Locates source (fun _ => True) (f x) W) :
    Locates source (fun _ => True) (p >>= f) W :=
  Locates.bind h fun x => locates_of (hf x)

theorem locates_pure {x : α} (h : ∀ s, A s → V x s) : Locates source A (pure x) V :=
  fun _ s _ hA => .refl (h s hA)

theorem located_pure [Placed α] {x : α} (h : Fits source x) : Located source (pure x) :=
  locates_pure fun _ _ => h

theorem locates_fail {e : SyntaxError} (h : e.span.In source) : Locates source A (fail e) V :=
  fun _ _ _ _ => .fail h

theorem locates_violation (v : Violation) {span : Span} (h : span.In source) :
    Locates source A (violation v span) V := locates_fail h

theorem locates_ite {b : Prop} [Decidable b] {q : Parser α} (h : b → Locates source A p V)
    (h' : ¬b → Locates source A q V) : Locates source A (if b then p else q) V := by
  split
  · exact h ‹_›
  · exact h' ‹_›

theorem Located.map [Placed α] [Placed β] {g : α → β} (h : Located source p)
    (hg : ∀ x, Fits source x → Fits source (g x)) : Located source (g <$> p) :=
  h.bind fun x hx => located_pure (hg x hx)

theorem Located.some [Placed α] (h : Located source p) : Located source (some <$> p) :=
  h.map fun _ => Fits.some

theorem Located.structLiterals [Placed α] {allowed : Bool} (h : Located source p) :
    Located source (structLiterals allowed p) := fun _ s hs => h _ s (hs.literals allowed)

/-! ### Looking ahead -/

/-- Behind a look, whatever it shows. -/
theorem Looks.locates {g : Context → State → α} (h : Looks p g)
    (hf : ∀ x, Locates source A (f x) W) : Locates source A (p >>= f) W := by
  intro c s hs hA
  rw [bind_ok (h c s)]
  exact hf _ c s hs hA

theorem Peeks.locates {g : List Lexeme → α} (h : Peeks p g)
    (hf : ∀ x, Locates source A (f x) W) : Locates source A (p >>= f) W := h.looks.locates hf

theorem located_here : Located source here :=
  fun _ _ hs _ => .refl (fits_span.2 hs.nextSpan)

theorem located_previousSpan : Located source previousSpan :=
  fun _ _ hs _ => .refl (fits_span.2 hs.previousSpan)

/-- From a place of the text to the token read last, which ends no earlier. -/
theorem located_spanFrom {start : Span} (h : start.In source) : Located source (spanFrom start) := by
  refine located_previousSpan.bind fun previous hprevious => ?_
  rw [fits_span] at hprevious
  by_cases hlt : previous.stop.offset < start.start.offset
  · rw [if_pos hlt]
    exact located_pure (fits_span.2 (.point h.start))
  · rw [if_neg hlt]
    exact located_pure (fits_span.2 (.through h.start hprevious.stop (Nat.le_of_not_lt hlt)))

/-- A value with the span of a part that ends here. -/
theorem located_covered [Placed α] {start : Span} {make : Span → α} (h : start.In source)
    (hmake : ∀ span : Span, span.In source → Fits source (make span)) :
    Located source (spanFrom start >>= fun span => pure (make span)) :=
  (located_spanFrom h).bind fun span hspan => located_pure (hmake span (fits_span.1 hspan))

theorem locates_unexpected (e : Expected) : Locates source A (unexpected e) V := by
  refine Locates.mono (A := fun _ => True) ?_ (fun _ _ => trivial) fun _ _ => id
  refine located_here.bind fun span hspan => peeks_next.locates fun next => ?_
  rw [fits_span] at hspan
  cases next
  · exact locates_fail hspan
  · exact locates_fail hspan

/-! ### Taking tokens -/

theorem located_advance : Located source advance := by
  intro c s hs _
  rcases hr : s.rest with _ | ⟨t, rest⟩
  · have hstay : s.advance = s := by rw [State.advance, hr]
    simp only [advance, hstay]
    exact .refl fits_unit
  · exact ⟨⟨[t], [], .advance hr, by simp⟩, fun x _ => fits_unit, by simp [advance]⟩

theorem located_accept (t : Token) : Located source (accept t) := by
  refine (peeks_nextIs t).locates fun b => locates_ite (fun _ => ?_) fun _ => ?_
  · exact located_advance.bind fun _ _ => located_pure (fits_bool _)
  · exact located_pure (fits_bool _)

theorem located_take (t : Token) (e : Expected) : Located source (take t e) := by
  refine located_here.bind fun span hspan => (located_accept t).bind fun b _ => ?_
  exact locates_ite (fun _ => located_pure hspan) fun _ => locates_unexpected e

theorem located_keyword (k : Keyword) : Located source (keyword k) := located_take _ _

theorem located_word (w : String) : Located source (word w) := located_take _ _

theorem located_symbol (k : Symbol) : Located source (symbol k) := by
  refine located_here.bind fun span hspan => (located_accept _).bind fun b _ => ?_
  refine locates_ite (fun _ => located_pure hspan) fun _ => locates_ite (fun _ => ?_) fun _ => ?_
  · refine located_previousSpan.bind fun previous hprevious => ?_
    exact locates_fail (fits_span.1 hprevious).after
  · exact locates_unexpected _

theorem located_identifier : Located source identifier := by
  refine located_here.bind fun span hspan => peeks_nextWord.locates fun word => ?_
  cases word with
  | none => exact locates_unexpected _
  | some name =>
    refine located_advance.bind fun _ _ => located_pure fun f hf => ?_
    rw [respan_identifier, (fits_span.1 hspan).eq hf]

theorem located_identifier? : Located source identifier? := by
  refine peeks_nextWord.locates fun word => ?_
  cases word with
  | none => exact located_pure fits_none
  | some _ => exact located_identifier.bind fun i hi => located_pure hi.some

theorem located_stringText : Located source stringText := by
  refine located_here.bind fun span hspan => peeks_next.locates fun next => ?_
  split
  · refine located_advance.bind fun _ _ => located_pure fun f hf => ?_
    rw [respan_pair, hspan.eq hf, respan_text]
  · exact locates_unexpected _

theorem located_endOfInput : Located source endOfInput :=
  peeks_atEnd.locates fun _ => locates_ite (fun _ => located_pure fits_unit) fun _ =>
    locates_unexpected _

theorem located_record {e : SyntaxError} (h : e.span.In source) : Located source (record e) :=
  fun _ s _ _ => ⟨⟨[], [e], by simp [record, State.Took], by simpa using h⟩,
    fun _ _ => fits_unit, by simp [record]⟩

/-! ### Repetition -/

theorem locates_iterateOver {step : α → Parser (Option α)} {V : α → State → Prop}
    (h : ∀ x, Locates source (V x) (step x) fun o s => V (o.getD x) s) :
    ∀ clock x, Locates source (V x) (iterateOver step clock x) V
  | [], _ => locates_pure fun _ => id
  | _ :: clock, x => (h x).bind fun
    | some y => locates_iterateOver h clock y
    | none => locates_pure fun _ => id

/-- A value that keeps a property as long as each step does. -/
theorem locates_iterate {step : α → Parser (Option α)} {V : α → State → Prop}
    (h : ∀ x, Locates source (V x) (step x) fun o s => V (o.getD x) s) (x : α) :
    Locates source (V x) (iterate step x) V :=
  fun c s => locates_iterateOver h s.rest x c s

section

variable [Placed α]

/-- A value that stays within the text as long as each step leaves it there. -/
theorem located_iterate {step : α → Parser (Option α)}
    (h : ∀ x, Fits source x → Located source (step x)) {x : α} (hx : Fits source x) :
    Located source (iterate step x) := by
  refine Locates.mono (locates_iterate (V := fun x _ => Fits source x) (fun x => ?_) x)
    (fun _ _ => hx) fun _ _ => id
  refine locates_of fun hx => (h x hx).mono (fun _ => id) fun o s ho => ?_
  cases o with
  | none => exact hx
  | some y => exact ho.of_some

theorem located_manyOver {more : Parser (Option α)} (h : Located source more) :
    ∀ clock, Located source (manyOver more clock)
  | [] => located_pure fits_nil
  | _ :: clock => h.bind fun
    | some _, hx => (located_manyOver h clock).bind fun _ hxs => located_pure (hx.of_some.cons hxs)
    | none, _ => located_pure fits_nil

theorem located_many {more : Parser (Option α)} (h : Located source more) :
    Located source (many more) := fun c s => located_manyOver h s.rest c s

theorem located_separated {item : Parser α} (h : Located source item) :
    Located source (separated item) := by
  refine h.bind fun x hx => Located.bind (located_many ?_) fun xs hxs => located_pure (hx.cons hxs)
  refine (located_accept _).bind fun b _ => locates_ite (fun _ => ?_) fun _ => ?_
  · exact h.bind fun y hy => located_pure hy.some
  · exact located_pure fits_none

theorem located_itemsOver {close : Symbol} {continues : Parser Bool} {item : Parser α}
    (h : Located source item) (hc : Located source continues) :
    ∀ clock, Located source (itemsOver close continues item clock)
  | [] => located_pure fits_nil
  | _ :: clock => by
    refine peeks_atEnd.locates fun _ => locates_ite (fun _ => located_pure fits_nil) fun _ => ?_
    refine (peeks_nextIs _).locates fun _ => locates_ite (fun _ => located_pure fits_nil)
      fun _ => ?_
    refine h.bind fun x hx => hc.bind fun b _ => locates_ite (fun _ => ?_) fun _ =>
      located_pure (hx.cons fits_nil)
    exact (located_itemsOver h hc clock).bind fun xs hxs => located_pure (hx.cons hxs)

theorem located_itemsUntil {close : Symbol} {continues : Parser Bool} {item : Parser α}
    (h : Located source item) (hc : Located source continues) :
    Located source (itemsUntil close continues item) :=
  fun c s => located_itemsOver h hc s.rest c s

theorem located_commaItems {close : Symbol} {item : Parser α} (h : Located source item) :
    Located source (commaItems close item) := located_itemsUntil h (located_accept _)

/-! ### Choice and recovery -/

theorem located_either {r : Reading} {q : Parser α} (h : Located source p) (h' : Located source q) :
    Located source (either r p q) := by
  intro c s hs _
  have hfirst := h c s hs trivial
  have hsecond := h' c s hs trivial
  rw [either_eq]
  generalize p c s = a, q c s = b at hfirst hsecond ⊢
  rcases a with ⟨e | x, t⟩
  · rcases b with ⟨e' | y, t'⟩
    · dsimp only
      split
      · refine ⟨hfirst.took, by simp, ?_⟩
        rintro _ ⟨rfl⟩
        have hspan : (farther r e).span = e.span := by
          unfold farther
          split <;> rfl
        exact hspan ▸ hfirst.error e rfl
      · exact hsecond
    · exact hsecond
  · exact hfirst

/-- Reading goes on in the text after an error in a part of it. -/
theorem located_recovering {mark : ErrorMark → α} (h : Located source p)
    (hmark : ∀ m, Fits source m → Fits source (mark m)) :
    Located source (recovering mark p) := by
  intro c s hs _
  have hp := h c s hs trivial
  obtain ⟨ts, es, ht, hes⟩ := hp.took
  rw [recovering, state_bind, attempt_bind]
  rcases hr : p c s with ⟨e | x, t⟩
  · rw [hr] at ht hp
    have he := hp.error e rfl
    obtain ⟨us, hu⟩ : ∃ us, s.Took us es (s.resume e.fault t) := by
      obtain ⟨vs, hv⟩ := took_synchronize t
      have hnext (keep : Bool) : ∃ us, s.Took us es (if keep then t else t.synchronize) := by
        cases keep with
        | true => exact ⟨ts, ht⟩
        | false => exact ⟨ts ++ vs, by simpa using ht.trans hv⟩
      unfold State.resume
      extract_lets progressed keep next
      obtain ⟨us, hu⟩ : ∃ us, s.Took us es next := hnext keep
      split
      · exact ⟨us, hu⟩
      · rcases hrest : next.rest with _ | ⟨l, rest⟩
        · exact ⟨us, by rwa [State.advance, hrest]⟩
        · exact ⟨us ++ [l], by simpa using hu.trans (.advance hrest)⟩
    have hspan : Located source (spanFrom (s.nextSpan c.stop) >>= fun span =>
        record e >>= fun _ => pure (mark (e.mark span))) := by
      refine (located_spanFrom hs.nextSpan).bind fun span hspan => ?_
      refine (located_record he).bind fun _ _ => located_pure (hmark _ fun f hf => ?_)
      rw [SyntaxError.mark, respan_errorMark, (fits_span.1 hspan).eq hf]
    exact (hspan c _ (hs.of_took hu) trivial).behind hu hes
  · rw [hr] at ht hp
    exact ⟨⟨ts, es, ht, hes⟩, fun y hy => hp.ok y hy, by simp [pure]⟩

theorem located_missingBrace : Located source missingBrace := by
  refine located_previousSpan.bind fun previous hprevious => ?_
  have hafter := (fits_span.1 hprevious).after
  refine (located_record hafter).bind fun _ _ => located_pure fun f hf => ?_
  rw [SyntaxError.mark, respan_errorMark, hafter.eq hf]

theorem located_partsOver {part : Parser α} (h : Located source part) :
    ∀ clock, Located source (partsOver part clock)
  | [] => located_pure fits_nil
  | _ :: clock => by
    refine peeks_atEnd.locates fun _ => locates_ite (fun _ => located_pure fits_nil) fun _ => ?_
    refine (peeks_nextIs _).locates fun _ => locates_ite (fun _ => located_pure fits_nil)
      fun _ => ?_
    exact h.bind fun x hx => (located_partsOver h clock).bind fun xs hxs =>
      located_pure (hx.cons hxs)

theorem located_body {mark : ErrorMark → α} {part : Parser α} (h : Located source part)
    (hmark : ∀ m, Fits source m → Fits source (mark m)) : Located source (body mark part) := by
  refine looks_state.locates fun s => ?_
  refine (located_partsOver (located_recovering h hmark) _).bind fun parts hparts => ?_
  refine peeks_atEnd.locates fun _ => locates_ite (fun _ => ?_) fun _ => ?_
  · refine located_missingBrace.bind fun m hm => located_pure fun f hf => ?_
    rw [respan_append, hparts.eq hf, respan_cons, (hmark m hm).eq hf, respan_nil]
  · exact (located_symbol _).bind fun _ _ => located_pure hparts

end

end Parser

end SolidityFrontend
