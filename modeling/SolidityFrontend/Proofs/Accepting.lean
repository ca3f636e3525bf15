import SolidityFrontend.Proofs.Reading

/-!
# What parsers accept

`Accepts c p ts k P` says that a parser takes the tokens `ts` wherever they stand before `k`, gives a
value with the property `P` and records no error. Its rules follow the steps of a parser. A parser
that begins with a value and changes it step by step is described before it stops by `Grows`, so that
what stands on the left of a chain is read by the same steps as the whole chain.
-/

namespace SolidityFrontend

/-- The tokens that are left, without their places. -/
def State.tokens (s : State) : List Token := s.rest.map Lexeme.token

namespace Parser

variable {α β : Type} {c : Context} {p : Parser α} {f : α → Parser β} {ts us k : List Token}
  {P : α → Prop} {Q : β → Prop}

/-- The parser takes the tokens `ts` before `k` and gives a value with a property. -/
def Accepts (c : Context) (p : Parser α) (ts k : List Token) (P : α → Prop) : Prop :=
  ∀ s : State, s.tokens = ts ++ k →
    ∃ x s', p c s = (.ok x, s') ∧ P x ∧ s'.tokens = k ∧ s'.errors = s.errors

theorem accepts_pure {x : α} (h : P x) : Accepts c (pure x) [] k P :=
  fun s hs => ⟨x, s, rfl, h, hs, rfl⟩

theorem Accepts.mono {P' : α → Prop} (h : Accepts c p ts k P) (hP : ∀ x, P x → P' x) :
    Accepts c p ts k P' := by
  intro s hs
  obtain ⟨x, s', hrun, hx, hs', herrors⟩ := h s hs
  exact ⟨x, s', hrun, hP x hx, hs', herrors⟩

theorem Accepts.bind (h : Accepts c p ts (us ++ k) P) (hf : ∀ x, P x → Accepts c (f x) us k Q) :
    Accepts c (p >>= f) (ts ++ us) k Q := by
  intro s hs
  rw [List.append_assoc] at hs
  obtain ⟨x, s₁, hrun, hx, hs₁, herrors⟩ := h s hs
  obtain ⟨y, s₂, hrun', hy, hs₂, herrors'⟩ := hf x hx s₁ hs₁
  exact ⟨y, s₂, by rw [bind_ok hrun, hrun'], hy, hs₂, herrors'.trans herrors⟩

/-- The last step of a parser that takes tokens. -/
theorem Accepts.bind_last (h : Accepts c p ts k P) (hf : ∀ x, P x → Accepts c (f x) [] k Q) :
    Accepts c (p >>= f) ts k Q := by
  rw [← List.append_nil ts]
  exact Accepts.bind h hf

/-- A first step that takes one token. -/
theorem Accepts.bind_cons {t : Token} (h : Accepts c p [t] (us ++ k) P)
    (hf : ∀ x, P x → Accepts c (f x) us k Q) : Accepts c (p >>= f) (t :: us) k Q :=
  Accepts.bind h hf

/-- A first step that takes no token. -/
theorem Accepts.bind_nil (h : Accepts c p [] (us ++ k) P)
    (hf : ∀ x, P x → Accepts c (f x) us k Q) : Accepts c (p >>= f) us k Q :=
  Accepts.bind h hf

theorem Accepts.structLiterals {allowed : Bool}
    (h : Accepts { c with structLiterals := allowed } p ts k P) :
    Accepts c (structLiterals allowed p) ts k P := h

/-! ### Looking ahead -/

/-- A parser that only looks at the tokens that are left, and not at their places. -/
def Sees (p : Parser α) (g : List Token → α) : Prop := ∀ c s, p c s = (.ok (g s.tokens), s)

theorem sees_peek (n : Nat) : Sees (peek? n) fun ts => ts[n]? := by
  intro c s
  have hmap : s.tokens[n]? = s.rest[n]?.map Lexeme.token := List.getElem?_map
  dsimp only
  rw [hmap]
  rfl

theorem sees_next : Sees next? List.head? := by
  intro c s
  rw [List.head?_eq_getElem?]
  exact sees_peek 0 c s

theorem sees_nextIs (t : Token) : Sees (nextIs t) fun ts => ts.head? == some t := by
  intro c s
  rw [nextIs, bind_ok (sees_next c s)]
  rfl

theorem sees_nextWord : Sees nextWord? fun ts => ts.head?.bind Token.identifier? := by
  intro c s
  rw [nextWord?, bind_ok (sees_next c s)]
  rfl

theorem sees_atEnd : Sees atEnd List.isEmpty := by
  intro c s
  have hmap : s.tokens.isEmpty = s.rest.isEmpty := List.isEmpty_map
  rw [hmap]
  rfl

theorem Sees.accepts {g : List Token → α} (h : Sees p g) (hf : Accepts c (f (g (ts ++ k))) ts k Q) :
    Accepts c (p >>= f) ts k Q := by
  intro s hs
  rw [bind_ok (h c s), hs]
  exact hf s hs

theorem Looks.accepts {g : Context → State → α} (h : Looks p g)
    (hf : ∀ x, Accepts c (f x) ts k Q) : Accepts c (p >>= f) ts k Q := by
  intro s hs
  rw [bind_ok (h c s)]
  exact hf _ s hs

theorem looks_spanFrom (start : Span) : Looks (spanFrom start) fun _ s =>
    if s.previousSpan.stop.offset < start.start.offset then .point start.start
    else start.through s.previousSpan := fun _ _ => rfl

/-- The span of what was read may be any. -/
theorem accepts_spanFrom {start : Span} {f : Span → Parser β}
    (h : ∀ span, Accepts c (f span) ts k Q) : Accepts c (spanFrom start >>= f) ts k Q :=
  (looks_spanFrom start).accepts h

/-! ### Taking tokens -/

theorem accepts_advance {t : Token} {f : Unit → Parser β} (hf : Accepts c (f ()) ts k Q) :
    Accepts c (advance >>= f) (t :: ts) k Q := by
  intro s hs
  obtain ⟨l, rest, hrest, -, htokens⟩ := List.map_eq_cons_iff.1 hs
  have hadvance : s.advance = { s with previous := some l, rest } := by rw [State.advance, hrest]
  have htokens' : s.advance.tokens = ts ++ k := by
    rw [hadvance, State.tokens, htokens]
    rfl
  obtain ⟨y, s', hrun, hy, hs', herrors⟩ := hf s.advance htokens'
  exact ⟨y, s', hrun, hy, hs', by rw [herrors, hadvance]⟩

theorem accept_eq_true {t : Token} {s : State} (ht : s.tokens.head? = some t) :
    accept t c s = (.ok true, s.advance) := by
  have hnext : nextIs t c s = (.ok true, s) := by
    rw [sees_nextIs t c s]
    simpa using ht
  rw [accept, bind_ok hnext]
  rfl

theorem accept_eq_false {t : Token} {s : State} (ht : s.tokens.head? ≠ some t) :
    accept t c s = (.ok false, s) := by
  have hnext : nextIs t c s = (.ok false, s) := by
    rw [sees_nextIs t c s]
    simpa using ht
  rw [accept, bind_ok hnext]
  rfl

/-- The next token is the one that is due. -/
theorem accepts_accept {t : Token} {p p' : Parser β} (h : Accepts c p ts k Q) :
    Accepts c (accept t >>= fun b => if b = true then p else p') (t :: ts) k Q := by
  intro s hs
  obtain ⟨y, s', hrun, hy⟩ := accepts_advance (t := t) (f := fun _ => p) h s hs
  refine ⟨y, s', ?_, hy⟩
  rw [bind_ok (accept_eq_true (by simp [hs]))]
  exact hrun

/-- The next token is not the one that may stand here. -/
theorem accepts_without {t : Token} {p p' : Parser β} (ht : (ts ++ k).head? ≠ some t)
    (h : Accepts c p' ts k Q) :
    Accepts c (accept t >>= fun b => if b = true then p else p') ts k Q := by
  intro s hs
  obtain ⟨y, s', hrun, hy⟩ := h s hs
  refine ⟨y, s', ?_, hy⟩
  rw [bind_ok (accept_eq_false (by rwa [hs]))]
  exact hrun

/-- A choice by the next token, which is another one. -/
theorem accepts_nextIs_ne {t : Token} {p p' : Parser β} (ht : (ts ++ k).head? ≠ some t)
    (h : Accepts c p' ts k Q) :
    Accepts c (nextIs t >>= fun b => if b = true then p else p') ts k Q := by
  refine (sees_nextIs t).accepts ?_
  rwa [if_neg (by simpa using ht)]

/-- A choice by the next token, which is this one. -/
theorem accepts_nextIs {t : Token} {p p' : Parser β} (ht : (ts ++ k).head? = some t)
    (h : Accepts c p ts k Q) :
    Accepts c (nextIs t >>= fun b => if b = true then p else p') ts k Q := by
  refine (sees_nextIs t).accepts ?_
  rwa [if_pos (by simpa using ht)]

theorem accepts_symbol {k' : Symbol} {f : Span → Parser β}
    (h : ∀ span, Accepts c (f span) ts k Q) :
    Accepts c (symbol k' >>= f) (.symbol k' :: ts) k Q := by
  intro s hs
  let span := s.nextSpan c.stop
  obtain ⟨y, s', hrun, hy⟩ :=
    accepts_advance (t := .symbol k') (f := fun _ => f span) (h span) s hs
  refine ⟨y, s', ?_, hy⟩
  have hsymbol : symbol k' c s = (.ok span, s.advance) := by
    rw [symbol, bind_ok (looks_here c s), bind_ok (accept_eq_true (by simp [hs]))]
    rfl
  rw [bind_ok hsymbol]
  exact hrun

theorem accepts_keyword {word : Keyword} :
    Accepts c (keyword word) [.keyword word] k fun _ => True := by
  refine looks_here.accepts fun span => accepts_accept ?_
  exact accepts_pure trivial

theorem accepts_identifier {name : String} {f : Identifier → Parser β}
    (h : ∀ i : Identifier, i.name = name → Accepts c (f i) ts k Q) :
    Accepts c (identifier >>= f) (.identifier name :: ts) k Q := by
  intro s hs
  let i : Identifier := ⟨name, s.nextSpan c.stop⟩
  obtain ⟨y, s', hrun, hy⟩ :=
    accepts_advance (t := .identifier name) (f := fun _ => f i) (h i rfl) s hs
  have hword : nextWord? c s = (.ok (some name), s) := by
    rw [sees_nextWord c s, hs]
    rfl
  have hidentifier : identifier c s = (.ok i, s.advance) := by
    rw [identifier, bind_ok (looks_here c s), bind_ok hword]
    rfl
  exact ⟨y, s', by rw [bind_ok hidentifier]; exact hrun, hy⟩

/-- Where nothing more follows, nothing is read. -/
theorem accepts_many_nil {more : Parser (Option α)}
    (h : ∀ s : State, s.tokens = k → more c s = (.ok none, s)) :
    Accepts c (many more) [] k (· = []) := by
  intro s hs
  refine ⟨[], s, ?_, rfl, hs, rfl⟩
  rw [many, state_bind]
  cases s.rest with
  | nil => rfl
  | cons t clock =>
    rw [manyOver, bind_ok (h s hs)]
    rfl

/-! ### Values that grow -/

/-- Steps from a value and a state to others, each of which takes a token. -/
inductive Steps (step : α → Parser (Option α)) (c : Context) (x : α) (s : State) : α → State → Prop
  | refl : Steps step c x s x s
  | tail {y z : α} {s₁ s₂ : State} (h : Steps step c x s y s₁)
      (hstep : step y c s₁ = (.ok (some z), s₂)) (htakes : s₂.rest.length < s₁.rest.length) :
      Steps step c x s z s₂

/-- The bound of a repetition leaves room for every step. -/
theorem Steps.exists_iterateOver {step : α → Parser (Option α)} {x y : α} {s s' : State}
    (h : Steps step c x s y s') : ∃ clock : List Lexeme, s'.rest.length ≤ clock.length
      ∧ iterateOver step s.rest x c s = iterateOver step clock y c s' := by
  induction h with
  | refl => exact ⟨s.rest, le_rfl, rfl⟩
  | tail _ hstep htakes ih =>
    obtain ⟨clock, hle, hrun⟩ := ih
    rcases clock with _ | ⟨t, clock⟩
    · rw [List.length_nil] at hle
      omega
    · rw [List.length_cons] at hle
      refine ⟨clock, by omega, ?_⟩
      rw [hrun, iterateOver, bind_ok hstep]

/-- Where no step is left, `iterate` has taken all of them. -/
theorem iterate_of_steps {step : α → Parser (Option α)} {x y : α} {s s' : State}
    (h : Steps step c x s y s') (hstop : step y c s' = (.ok none, s')) :
    iterate step x c s = (.ok y, s') := by
  obtain ⟨clock, -, hrun⟩ := h.exists_iterateOver
  rw [iterate, state_bind, hrun]
  cases clock with
  | nil => rfl
  | cons t clock =>
    rw [iterateOver, bind_ok hstop]
    rfl

/-- The parser `base` and some steps behind it take the tokens `ts` before `k` and come to a value
with a property. -/
def Grows (c : Context) (base : Parser α) (step : α → Parser (Option α)) (ts k : List Token)
    (P : α → Prop) : Prop :=
  ∀ s : State, s.tokens = ts ++ k → ∃ x₀ s₀ x s', base c s = (.ok x₀, s₀)
    ∧ Steps step c x₀ s₀ x s' ∧ P x ∧ s'.tokens = k ∧ s'.errors = s.errors

section

variable {base : Parser α} {next : α → Parser (Option α)} {P' : α → Prop}

theorem Accepts.grows (h : Accepts c base ts k P) : Grows c base next ts k P := by
  intro s hs
  obtain ⟨x, s', hrun, hx, hs', herrors⟩ := h s hs
  exact ⟨x, s', x, s', hrun, .refl, hx, hs', herrors⟩

/-- One more step. -/
theorem Grows.step (h : Grows c base next ts (us ++ k) P) (hus : us ≠ [])
    (hnext : ∀ x, P x → Accepts c (next x) us k fun o => ∃ y, o = some y ∧ P' y) :
    Grows c base next (ts ++ us) k P' := by
  intro s hs
  rw [List.append_assoc] at hs
  obtain ⟨x₀, s₀, x, s₁, hrun, hsteps, hx, hs₁, herrors⟩ := h s hs
  obtain ⟨_, s₂, hrun', ⟨y, rfl, hy⟩, hs₂, herrors'⟩ := hnext x hx s₁ hs₁
  refine ⟨x₀, s₀, y, s₂, hrun, hsteps.tail hrun' ?_, hy, hs₂, herrors'.trans herrors⟩
  have hlength : s₁.rest.length = us.length + s₂.rest.length := by
    have htokens := congrArg List.length (hs₁.trans (congrArg (us ++ ·) hs₂.symm))
    simpa [State.tokens] using htokens
  have hpos := List.length_pos_of_ne_nil hus
  omega

/-- The steps end before tokens at which there is none. -/
theorem Grows.accepts (h : Grows c base next ts k P)
    (hstop : ∀ x s, s.tokens = k → next x c s = (.ok none, s)) :
    Accepts c (base >>= iterate next) ts k P := by
  intro s hs
  obtain ⟨x₀, s₀, x, s', hrun, hsteps, hx, hs', herrors⟩ := h s hs
  refine ⟨x, s', ?_, hx, hs', herrors⟩
  rw [bind_ok hrun]
  exact iterate_of_steps hsteps (hstop x s' hs')

end

end Parser

end SolidityFrontend
