import SolidityFrontend.Proofs.Writing

/-!
# What parsers read

`Reads q p L` says of a parser that where it gives `x` it has gone forward over a phrase `L x`, and
that where it fails it has only gone forward; if `q` holds it has recorded no error either way.
`ReadsAfter` says the same of the rest of a parser, behind a phrase that was read since a given
state. Its rules follow the steps of a parser: each step multiplies the phrase by what it reads, and
the last one compares the product with the phrase of the value.
-/

namespace SolidityFrontend

open Phrase

namespace State

variable {s s₁ s₂ : State} {ts us : List Lexeme} {es ds : List SyntaxError}

/-- One state comes from another by taking tokens and recording errors. -/
def Took (s : State) (ts : List Lexeme) (es : List SyntaxError) (s' : State) : Prop :=
  s.rest = ts ++ s'.rest ∧ s'.previous = ts.getLast?.or s.previous
    ∧ s'.errors.toList = s.errors.toList ++ es

theorem Took.refl (s : State) : s.Took [] [] s := by simp [Took]

theorem Took.trans (h : s.Took ts es s₁) (h' : s₁.Took us ds s₂) :
    s.Took (ts ++ us) (es ++ ds) s₂ := by
  obtain ⟨hrest, hprevious, herrors⟩ := h
  obtain ⟨hrest', hprevious', herrors'⟩ := h'
  refine ⟨by rw [hrest, hrest', List.append_assoc], ?_, by simp [herrors, herrors']⟩
  rw [hprevious', hprevious, List.getLast?_append, Option.or_assoc]

theorem Took.advance {t : Lexeme} {rest : List Lexeme} (h : s.rest = t :: rest) :
    s.Took [t] [] s.advance := by
  simp [Took, State.advance, h]

/-- The token read last and those that are left are in order. -/
def Ordered (s : State) : Prop := InOrder (s.previous.toList ++ s.rest)

theorem Ordered.of_took (hs : s.Ordered) (h : s.Took ts es s') : s'.Ordered := by
  obtain ⟨hrest, hprevious, -⟩ := h
  unfold Ordered at hs ⊢
  rw [hrest] at hs
  rcases List.eq_nil_or_concat ts with rfl | ⟨us, t, rfl⟩
  · simpa [hprevious] using hs
  · refine hs.sublist ?_
    rw [hprevious, List.concat_eq_append, List.getLast?_concat, ← List.append_assoc]
    exact (List.sublist_append_of_sublist_right (List.sublist_append_right us [t])).append
      (List.Sublist.refl _)

theorem Ordered.inOrder (hs : s.Ordered) (h : s.Took ts es s') : InOrder ts :=
  (h.1 ▸ InOrder.right hs).left

end State

namespace Parser

variable {α β : Type} {q : Prop} {c : Context} {s₀ s : State}

/-! ### Running a parser -/

section

variable {p : Parser α} {f : α → Parser β} {s' : State}

theorem bind_ok {x : α} (h : p c s = (.ok x, s')) : (p >>= f) c s = f x c s' := by
  simp only [bind, h]

theorem bind_error {e : SyntaxError} (h : p c s = (.error e, s')) :
    (p >>= f) c s = (.error e, s') := by
  simp only [bind, h]

theorem state_bind (g : State → Parser β) : (state >>= g) c s = g s c s := rfl

theorem goTo_bind (t : State) (g : Unit → Parser β) : (goTo t >>= g) c s = g () c t := rfl

theorem attempt_bind (p : Parser α) (g : Except SyntaxError α → Parser β) :
    (attempt p >>= g) c s = g (p c s).1 c (p c s).2 := rfl

theorem run_ite {b : Prop} [Decidable b] (p p' : Parser α) :
    (if b then p else p') c s = if b then p c s else p' c s := by
  split <;> rfl

end

/-! ### Reading phrases -/

/-- A state that is reached from another by reading a phrase, without errors if `q` holds. -/
def Reached (q : Prop) (s₀ : State) (A : Phrase) (s : State) : Prop :=
  ∃ ts es, s₀.Took ts es s ∧ A ts es s.rest ∧ (q → es = [])

theorem Reached.mono {A B : Phrase} (h : Reached q s₀ A s) (hAB : A ≤ B) : Reached q s₀ B s := by
  obtain ⟨ts, es, ht, hA, hq⟩ := h
  exact ⟨ts, es, ht, hAB _ _ _ hA, hq⟩

theorem Reached.top {A : Phrase} (h : Reached q s₀ A s) : Reached q s₀ ⊤ s := h.mono le_top

theorem Reached.refl (q : Prop) (s : State) : Reached q s 1 s :=
  ⟨[], [], .refl s, ⟨rfl, rfl⟩, fun _ => rfl⟩

theorem Reached.mul {A B : Phrase} {s₁ s₂ : State} (h : Reached q s₀ A s₁)
    (h' : Reached q s₁ B s₂) : Reached q s₀ (A * B) s₂ := by
  obtain ⟨ts, es, ht, hA, hq⟩ := h
  obtain ⟨us, ds, hu, hB, hq'⟩ := h'
  refine ⟨ts ++ us, es ++ ds, ht.trans hu, mul_intro (hu.1 ▸ hA) hB, fun h => ?_⟩
  rw [hq h, hq' h, List.append_nil]

theorem Reached.ordered {A : Phrase} (h : Reached q s₀ A s) (hs : s₀.Ordered) : s.Ordered := by
  obtain ⟨ts, es, ht, -⟩ := h
  exact hs.of_took ht

theorem reached_mul_before {A : Phrase} {P : List Lexeme → Prop} :
    Reached q s₀ (A * before P) s ↔ Reached q s₀ A s ∧ P s.rest := by
  constructor
  · rintro ⟨_, _, ht, ⟨a, _, d, _, rfl, rfl, hA, rfl, rfl, hP⟩, hq⟩
    rw [List.append_nil] at ht hq
    exact ⟨⟨a, d, by rwa [List.append_nil] at ht, hA, hq⟩, hP⟩
  · rintro ⟨h, hP⟩
    exact h.mul ⟨[], [], .refl s, ⟨rfl, rfl, hP⟩, fun _ => rfl⟩

/-- What is known of the answer of a parser that began at a state. -/
inductive Effect (q : Prop) (s₀ : State) (L : α → Phrase) : Except SyntaxError α × State → Prop
  | ok {x : α} {s : State} (h : Reached q s₀ (L x) s) : Effect q s₀ L (.ok x, s)
  | error {e : SyntaxError} {s : State} (h : Reached q s₀ ⊤ s) : Effect q s₀ L (.error e, s)

theorem Effect.reached {L : α → Phrase} {x : α} (h : Effect q s₀ L (.ok x, s)) :
    Reached q s₀ (L x) s := by
  cases h with
  | ok h => exact h

theorem Effect.reached_top {L : α → Phrase} {e : SyntaxError}
    (h : Effect q s₀ L (.error e, s)) : Reached q s₀ ⊤ s := by
  cases h with
  | error h => exact h

/-- The parser reads a phrase of what it gives. -/
def Reads (q : Prop) (p : Parser α) (L : α → Phrase) : Prop :=
  ∀ c s, s.Ordered → Effect q s L (p c s)

/-- The parser goes on behind a phrase that was read since a state, to a phrase of what it gives. -/
def ReadsAfter (q : Prop) (c : Context) (s₀ : State) (A : Phrase) (p : Parser α)
    (L : α → Phrase) : Prop :=
  s₀.Ordered → ∀ s, Reached q s₀ A s → Effect q s₀ L (p c s)

variable {A A' B : Phrase} {L L' M : α → Phrase} {N : β → Phrase} {p : Parser α} {f : α → Parser β}

/-! ### Steps -/

theorem reads_of_after (h : ∀ c s, ReadsAfter q c s 1 p L) : Reads q p L :=
  fun c s hs => h c s hs s (.refl q s)

theorem Reads.effect_ok {x : α} {s' : State} (h : Reads q p L) (hs : s.Ordered)
    (hp : p c s = (.ok x, s')) : Reached q s (L x) s' := by
  have hok := h c s hs
  rw [hp] at hok
  exact hok.reached

theorem Effect.mul {r : Except SyntaxError α × State} (hA : Reached q s₀ A s)
    (h : Effect q s L r) : Effect q s₀ (fun x => A * L x) r := by
  cases h with
  | ok h => exact .ok (hA.mul h)
  | error h => exact .error (hA.mul h).top

theorem Effect.mono {r : Except SyntaxError α × State} (h : Effect q s₀ L r)
    (hL : ∀ x, L x ≤ L' x) : Effect q s₀ L' r := by
  cases h with
  | ok h => exact .ok (h.mono (hL _))
  | error h => exact .error h

theorem Reads.mono (h : Reads q p L) (hL : ∀ x, L x ≤ L' x) : Reads q p L' :=
  fun c s hs => (h c s hs).mono hL

/-- What a parser reads, it reads behind any phrase. -/
theorem Reads.after (h : Reads q p L) (c : Context) (s₀ : State) (A : Phrase) :
    ReadsAfter q c s₀ A p fun x => A * L x :=
  fun hs s hA => (h c s (hA.ordered hs)).mul hA

theorem ReadsAfter.mono (h : ReadsAfter q c s₀ A p L) (hA : A' ≤ A) (hL : ∀ x, L x ≤ L' x) :
    ReadsAfter q c s₀ A' p L' :=
  fun hs s hA' => (h hs s (hA'.mono hA)).mono hL

theorem ReadsAfter.weaken (h : ReadsAfter q c s₀ A p L) (hA : A' ≤ A) :
    ReadsAfter q c s₀ A' p L := h.mono hA fun _ => le_rfl

theorem ReadsAfter.bind (h : ReadsAfter q c s₀ A p M) (hf : ∀ x, ReadsAfter q c s₀ (M x) (f x) N) :
    ReadsAfter q c s₀ A (p >>= f) N := by
  intro hs s hA
  have hp := h hs s hA
  rcases hr : p c s with ⟨e | x, s'⟩
  · rw [hr] at hp
    rw [bind_error hr]
    exact .error hp.reached_top
  · rw [hr] at hp
    rw [bind_ok hr]
    exact hf x hs s' hp.reached

/-- A step that reads `M x` and the steps behind it. -/
theorem Reads.bind (h : Reads q p M) (hf : ∀ x, ReadsAfter q c s₀ (A * M x) (f x) N) :
    ReadsAfter q c s₀ A (p >>= f) N := (h.after c s₀ A).bind hf

/-- A parser that begins with a step that reads `M x`. -/
theorem Reads.first (h : Reads q p M) (hf : ∀ c s x, ReadsAfter q c s (M x) (f x) N) :
    Reads q (p >>= f) N := by
  refine reads_of_after fun c s => (h.after c s 1).bind fun x => ?_
  exact (hf c s x).weaken (one_mul (M x)).le

/-- A step whose value has a property. -/
theorem Reads.bind_such {P : α → Prop} (h : Reads q p fun x => such (P x) (M x))
    (hf : ∀ x, P x → ReadsAfter q c s₀ (A * M x) (f x) N) : ReadsAfter q c s₀ A (p >>= f) N := by
  refine h.bind fun x => ?_
  rintro hs s ⟨_, _, ht, ⟨a, b, d, e, rfl, rfl, hA, hP, hM⟩, hq⟩
  exact hf x hP hs s ⟨_, _, ht, mul_intro hA hM, hq⟩

/-- A parser that begins with a step whose value has a property. -/
theorem Reads.first_such {P : α → Prop} (h : Reads q p fun x => such (P x) (M x))
    (hf : ∀ c s x, P x → ReadsAfter q c s (M x) (f x) N) : Reads q (p >>= f) N := by
  refine reads_of_after fun c s => h.bind_such fun x hx => ?_
  exact (hf c s x hx).weaken (one_mul (M x)).le

theorem after_pure {x : α} (h : A ≤ L x) : ReadsAfter q c s₀ A (pure x) L :=
  fun _ _ hA => .ok (hA.mono h)

theorem after_fail (e : SyntaxError) : ReadsAfter q c s₀ A (fail e) L := fun _ _ hA => .error hA.top

theorem reads_fail (e : SyntaxError) : Reads q (fail e) L :=
  reads_of_after fun _ _ => after_fail e

/-- Behind one of two phrases, the same steps. -/
theorem ReadsAfter.sup (h : ReadsAfter q c s₀ A p L) (h' : ReadsAfter q c s₀ B p L) :
    ReadsAfter q c s₀ (A ⊔ B) p L := by
  rintro hs s ⟨ts, es, ht, hA | hB, hq⟩
  · exact h hs s ⟨ts, es, ht, hA, hq⟩
  · exact h' hs s ⟨ts, es, ht, hB, hq⟩

theorem after_such {P : Prop} (h : P → ReadsAfter q c s₀ A p L) :
    ReadsAfter q c s₀ (such P A) p L := by
  rintro hs s ⟨ts, es, ht, ⟨hP, hA⟩, hq⟩
  exact h hP hs s ⟨ts, es, ht, hA, hq⟩

/-- Behind a state that is kept. -/
theorem bind_state {f : State → Parser β}
    (h : ∀ s, Reached q s₀ A s → ReadsAfter q c s₀ A (f s) N) :
    ReadsAfter q c s₀ A (state >>= f) N := fun hs s hA => h s hA hs s hA

/-- Going back to a state that was kept. -/
theorem after_goTo (h : Reached q s₀ B s) : ReadsAfter q c s₀ A (goTo s) fun _ => B :=
  fun _ _ _ => .ok h

theorem after_ite {b : Prop} [Decidable b] {p p' : Parser α} (h : b → ReadsAfter q c s₀ A p L)
    (h' : ¬b → ReadsAfter q c s₀ A p' L) : ReadsAfter q c s₀ A (if b then p else p') L := by
  split
  · exact h ‹_›
  · exact h' ‹_›

/-- A choice between two ways to a value with which the same steps go on. -/
theorem bind_ite {b : Prop} [Decidable b] {p p' : Parser α}
    (h : b → ReadsAfter q c s₀ A p M) (h' : ¬b → ReadsAfter q c s₀ A p' M)
    (hf : ∀ x, ReadsAfter q c s₀ (M x) (f x) N) :
    ReadsAfter q c s₀ A (if b then p >>= f else p' >>= f) N :=
  after_ite (fun hb => (h hb).bind hf) fun hb => (h' hb).bind hf

theorem Reads.map {g : α → β} (h : Reads q p L) (hg : ∀ x, L x ≤ N (g x)) :
    Reads q (g <$> p) N :=
  reads_of_after fun _ _ => h.bind fun x => after_pure ((one_mul (L x)).le.trans (hg x))

theorem Reads.some (h : Reads q p L) : Reads q (some <$> p) fun o => perhaps (o.map L) :=
  h.map fun _ => le_rfl

/-- A value behind a phrase that stands and falls with it. -/
theorem Reads.after_some (h : Reads q p L) :
    ReadsAfter q c s₀ (A * B) (Option.some <$> p) fun o => A * perhaps (o.map fun x => B * L x) :=
  h.bind fun x => after_pure (mul_assoc A B (L x)).le

theorem Reads.structLiterals {allowed : Bool} (h : Reads q p L) :
    Reads q (structLiterals allowed p) L := fun _ s hs => h _ s hs

/-! ### Looking ahead -/

/-- A parser that only looks at the state. -/
def Looks (p : Parser α) (g : Context → State → α) : Prop := ∀ c s, p c s = (.ok (g c s), s)

/-- A parser that only looks at the tokens that are left. -/
def Peeks (p : Parser α) (g : List Lexeme → α) : Prop := ∀ c s, p c s = (.ok (g s.rest), s)

theorem looks_state : Looks state fun _ s => s := fun _ _ => rfl

theorem looks_context : Looks context fun c _ => c := fun _ _ => rfl

theorem looks_here : Looks here fun c s => s.nextSpan c.stop := fun _ _ => rfl

theorem looks_previousSpan : Looks previousSpan fun _ s => s.previousSpan := fun _ _ => rfl

theorem peeks_peek (n : Nat) : Peeks (peek? n) fun rest => rest[n]?.map Lexeme.token :=
  fun _ _ => rfl

theorem peeks_next : Peeks next? fun rest => rest[0]?.map Lexeme.token := fun _ _ => rfl

theorem peeks_nextWord :
    Peeks nextWord? fun rest => (rest[0]?.map Lexeme.token).bind Token.identifier? := fun _ _ => rfl

theorem peeks_nextIs (t : Token) :
    Peeks (nextIs t) fun rest => rest[0]?.map Lexeme.token == some t := fun _ _ => rfl

theorem peeks_atEnd : Peeks atEnd List.isEmpty := fun _ _ => rfl

/-- Behind a look, whatever it shows. -/
theorem Looks.bind {g : Context → State → α} (h : Looks p g)
    (hf : ∀ x, ReadsAfter q c s₀ A (f x) N) : ReadsAfter q c s₀ A (p >>= f) N := by
  intro hs s hA
  rw [bind_ok (h c s)]
  exact hf _ hs s hA

theorem Peeks.apply {g : List Lexeme → α} (h : Peeks p g) (f : α → Parser β) (c : Context)
    (s : State) : (p >>= f) c s = f (g s.rest) c s := bind_ok (h c s)

theorem Peeks.looks {g : List Lexeme → α} (h : Peeks p g) : Looks p fun _ s => g s.rest := h

/-- Behind a look at the tokens that are left, knowing what it shows. -/
theorem Peeks.bind {g : List Lexeme → α} (h : Peeks p g)
    (hf : ∀ x, ReadsAfter q c s₀ (A * before fun rest => g rest = x) (f x) N) :
    ReadsAfter q c s₀ A (p >>= f) N := by
  intro hs s hA
  rw [bind_ok (h c s)]
  exact hf _ hs s (reached_mul_before.2 ⟨hA, rfl⟩)

theorem reads_here : Reads q here opening := by
  intro c s hs
  refine .ok ⟨[], [], .refl s, ⟨rfl, rfl, ?_⟩, fun _ => rfl⟩
  intro t ht
  simp [State.nextSpan, Option.mem_def.1 ht]

/-- A parser that begins with a look at the tokens that are left. -/
theorem Peeks.first {g : List Lexeme → α} (h : Peeks p g)
    (hf : ∀ c s x, ReadsAfter q c s (before fun rest => g rest = x) (f x) N) :
    Reads q (p >>= f) N := by
  refine reads_of_after fun c s => h.bind fun x => ?_
  exact (hf c s x).weaken (one_mul _).le

/-- A parser that begins with a look. -/
theorem Looks.first {g : Context → State → α} (h : Looks p g) (hf : ∀ x, Reads q (f x) N) :
    Reads q (p >>= f) N := by
  refine reads_of_after fun c s => h.bind fun x => ?_
  exact (((hf x).after c s 1).mono le_rfl fun _ => (one_mul _).le)

/-! ### Failing -/

theorem reads_pure {x : α} (h : 1 ≤ L x) : Reads q (pure x) L := 
  fun _ s _ => .ok ((Reached.refl q s).mono h)

theorem reads_ite {b : Prop} [Decidable b] {p p' : Parser α} (h : b → Reads q p L)
    (h' : ¬b → Reads q p' L) : Reads q (if b then p else p') L := by
  split
  · exact h ‹_›
  · exact h' ‹_›

theorem after_unexpected (e : Expected) : ReadsAfter q c s₀ A (unexpected e) L := by
  refine looks_here.bind fun span => peeks_next.looks.bind fun next => ?_
  cases next
  · exact after_fail _
  · exact after_fail _

theorem after_violation (v : Violation) (span : Span) : ReadsAfter q c s₀ A (violation v span) L :=
  after_fail _

/-! ### Taking tokens -/

/-- The next token, of which something is known, is taken. -/
theorem after_advance {P : List Lexeme → Prop} {Q : Lexeme → Prop} (hnil : ¬P [])
    (hcons : ∀ t rest, P (t :: rest) → Q t) :
    ReadsAfter q c s₀ (A * before P) advance fun _ => A * lexeme Q := by
  intro hs s hAP
  obtain ⟨hA, hP⟩ := reached_mul_before.1 hAP
  rcases hrest : s.rest with _ | ⟨t, rest⟩
  · rw [hrest] at hP
    exact absurd hP hnil
  · rw [hrest] at hP
    exact .ok (hA.mul ⟨[t], [], .advance hrest, ⟨t, rfl, rfl, hcons t rest hP⟩, fun _ => rfl⟩)

/-- The next token is taken that was seen before. -/
theorem after_advance_token (t : Token) :
    ReadsAfter q c s₀ (A * before fun rest => rest[0]?.map Lexeme.token = some t) advance
      fun _ => A * token t :=
  after_advance (by simp) (by simp)

theorem reads_accept (t : Token) :
    Reads q (accept t) fun b => if b then token t else before (notNext t) := by
  refine reads_of_after fun c s => ?_
  refine (peeks_nextIs t).bind fun b => after_ite (fun hb => ?_) fun hb => ?_
  · have hadvance : ReadsAfter q c s (1 * before fun rest =>
        (rest[0]?.map Lexeme.token == some t) = b) advance fun _ => 1 * token t :=
      after_advance (by simp [hb]) (by simp [hb])
    exact hadvance.bind fun _ => after_pure (one_mul _).le
  · refine after_pure ((one_mul _).le.trans (before_mono fun rest h => ?_))
    simpa [notNext, hb, List.head?_eq_getElem?] using h

/-- Behind a token that may be there, one way or the other. -/
theorem bind_accept {t : Token} {f : Bool → Parser β}
    (htrue : ReadsAfter q c s₀ (A * token t) (f true) N)
    (hfalse : ReadsAfter q c s₀ (A * before (notNext t)) (f false) N) :
    ReadsAfter q c s₀ A (accept t >>= f) N := by
  refine (reads_accept t).bind fun b => ?_
  cases b
  · exact hfalse
  · exact htrue

/-- A choice by a token that may be there. -/
theorem if_accept {t : Token} {p p' : Parser β} (htrue : ReadsAfter q c s₀ (A * token t) p N)
    (hfalse : ReadsAfter q c s₀ (A * before (notNext t)) p' N) :
    ReadsAfter q c s₀ A (accept t >>= fun b => if b = true then p else p') N :=
  bind_accept htrue hfalse

/-- A choice by a token that may be there between two ways to a value with which the same steps go
on. -/
theorem if_accept_bind {t : Token} {p p' : Parser α} (h : ReadsAfter q c s₀ (A * token t) p M)
    (h' : ReadsAfter q c s₀ (A * before (notNext t)) p' M)
    (hf : ∀ x, ReadsAfter q c s₀ (M x) (f x) N) :
    ReadsAfter q c s₀ A (accept t >>= fun b => if b = true then p >>= f else p' >>= f) N :=
  if_accept (h.bind hf) (h'.bind hf)

/-- A parser that begins with a choice by a token that may be there. -/
theorem reads_if_accept {t : Token} {p p' : Parser β}
    (htrue : ∀ c s, ReadsAfter q c s (token t) p N) (hfalse : Reads q p' N) :
    Reads q (accept t >>= fun b => if b = true then p else p') N := by
  refine (reads_accept t).first fun c s b => ?_
  cases b
  · refine ((hfalse.after c s 1).weaken ?_).mono le_rfl fun _ => (one_mul _).le
    exact before_le_one
  · exact htrue c s

theorem reads_take (t : Token) (e : Expected) : Reads q (take t e) fun span => tokenAt t span := by
  refine reads_of_after fun c s => ?_
  refine reads_here.bind fun span => if_accept (after_pure ?_) (after_unexpected e)
  rw [one_mul]
  exact opening_mul_token

theorem reads_symbolAt (k : Symbol) : Reads q (symbol k) fun span => tokenAt (.symbol k) span := by
  refine reads_of_after fun c s => ?_
  refine reads_here.bind fun span => if_accept (after_pure ?_) ?_
  · rw [one_mul]
    exact opening_mul_token
  · refine after_ite (fun _ => ?_) fun _ => after_unexpected _
    exact looks_previousSpan.bind fun _ => after_fail _

theorem reads_symbol (k : Symbol) : Reads q (symbol k) fun _ => Phrase.symbol k :=
  (reads_symbolAt k).mono fun _ => tokenAt_le

theorem reads_keywordAt (k : Keyword) :
    Reads q (keyword k) fun span => tokenAt (.keyword k) span := reads_take _ _

theorem reads_keyword (k : Keyword) : Reads q (keyword k) fun _ => Phrase.keyword k :=
  (reads_take _ _).mono fun _ => tokenAt_le

theorem reads_word (w : String) : Reads q (word w) fun _ => Phrase.word w :=
  (reads_take _ _).mono fun _ => tokenAt_le

theorem reads_identifier : Reads q identifier Identifier.phrase := by
  refine reads_of_after fun c s => ?_
  refine reads_here.bind fun span => peeks_nextWord.bind fun word => ?_
  cases word with
  | none => exact after_unexpected _
  | some name =>
    have hadvance : ReadsAfter q c s (1 * opening span * before fun rest =>
        (rest[0]?.map Lexeme.token).bind Token.identifier? = some name) advance
        fun _ => 1 * opening span * token (.identifier name) := by
      refine after_advance (by simp) fun t rest ht => ?_
      cases hl : t.token <;> simp_all [Token.identifier?]
    refine hadvance.bind fun _ => after_pure ?_
    rw [one_mul]
    exact opening_mul_token

theorem reads_identifier? :
    Reads q identifier? fun o => perhaps (o.map Identifier.phrase) := by
  refine reads_of_after fun c s => peeks_nextWord.looks.bind fun word => ?_
  cases word with
  | none => exact after_pure le_rfl
  | some _ => exact reads_identifier.bind fun i => after_pure (one_mul _).le

theorem reads_stringText : Reads q stringText fun p => lexeme fun l => ∃ bytes,
    l.token = .string bytes ∧ l.span = p.2
      ∧ p.1 = String.ofList (Text.Utf8.decodeLossy bytes) := by
  refine reads_of_after fun c s => ?_
  refine reads_here.bind fun span => peeks_next.bind fun next => ?_
  split
  · rename_i bytes
    refine (after_advance_token (.string bytes)).bind fun _ => after_pure ?_
    rw [one_mul]
    refine opening_mul_token.trans ?_
    rintro ts es rest ⟨l, rfl, rfl, hl, hspan⟩
    exact ⟨l, rfl, rfl, bytes, hl, hspan, rfl⟩
  · exact after_unexpected _

theorem reads_endOfInput : Reads q endOfInput fun _ => before (· = []) := by
  refine reads_of_after fun c s => peeks_atEnd.bind fun ended => ?_
  refine after_ite (fun h => after_pure ?_) fun _ => after_unexpected _
  refine (one_mul _).le.trans (before_mono fun rest hrest => ?_)
  simpa [h] using hrest

/-! ### Spans and errors -/

/-- A span from the start of a phrase to the token read last covers the phrase, whatever was read
before it. -/
theorem after_spanFrom_last {start : Span} (hB : B.Opens start) :
    ReadsAfter q c s₀ (A * B) (spanFrom start) fun span => A * covered span B := by
  rintro hs s ⟨_, _, ht, ⟨us, ts, ds, es, rfl, rfl, hA, hread⟩, hq⟩
  obtain ⟨first, hfirst, hstart⟩ := hB _ _ _ hread
  have hne : ts ≠ [] := by
    rintro rfl
    simp at hfirst
  have hlast : ts.getLast? = some (ts.getLast hne) := List.getLast?_eq_some_getLast hne
  have hprevious : s.previousSpan = (ts.getLast hne).span := by
    simp [State.previousSpan, ht.2.1, List.getLast?_append, hlast]
  have horder := (hs.inOrder ht).right
  have hle : start.start.offset ≤ (ts.getLast hne).span.stop.offset := by
    obtain ⟨us, rfl⟩ := List.head?_eq_some_iff.1 hfirst
    have hhead := horder.head_start_le (List.getLast_mem hne)
    have hpos := horder.1 _ (List.getLast_mem hne)
    rw [← hstart]
    omega
  have hspan : (if s.previousSpan.stop.offset < start.start.offset then Span.point start.start
      else start.through s.previousSpan) = first.span.through (ts.getLast hne).span := by
    rw [hprevious, if_neg (Nat.not_lt.2 hle)]
    simp [Span.through, hstart]
  exact .ok ⟨_, _, ht, mul_intro hA ⟨⟨first, _, hfirst, hlast, hspan⟩, hread⟩, hq⟩

theorem after_spanFrom {start : Span} (hA : A.Opens start) :
    ReadsAfter q c s₀ A (spanFrom start) fun span => covered span A :=
  ((after_spanFrom_last hA).weaken (one_mul A).ge).mono le_rfl fun _ => (one_mul _).le

theorem after_record (hq : ¬q) (e : SyntaxError) :
    ReadsAfter q c s₀ A (record e) fun _ => A * recording e := by
  intro hs s hA
  exact .ok (hA.mul ⟨[], [e], by simp [State.Took], ⟨rfl, rfl⟩, fun h => absurd h hq⟩)

end Parser

end SolidityFrontend
