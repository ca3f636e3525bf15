import SolidityFrontend.Proofs.Resuming

/-!
# Readings that are echoed

A `Setting` describes tokens that stand in two texts with other places there, and what follows them
in each. Where the first reading gives a value, records no error and does not go on behind the
tokens, the second one gives the same value up to its spans: it echoes the first.

The tokens that are left of the passage are counted. `Echoes H P I j k p p'` tells of a reading that
is known to leave at least `k` of them that it began before at least `j`: with `k + 1` and `k` the
parser takes a token, with `k` and `k` it may take none. Only where `k` is zero may it end at the end
of the passage, so only there does it matter what follows.
-/

namespace SolidityFrontend

/-- Two values that are the same up to their spans. -/
abbrev Alike {α : Type} [Placed α] (x x' : α) : Prop :=
  respan (fun _ => Span.origin) x' = respan (fun _ => Span.origin) x

/-- Whether named fields begin: a brace, a name and a colon. -/
def fieldsAhead (ts : List Token) : Bool :=
  ts[0]? == some (Token.symbol .leftBrace) && (ts[1]?.bind Token.identifier?).isSome
    && ts[2]? == some (Token.symbol .colon)

/-- Whether a path goes on: a point and a name. -/
def pathAhead (ts : List Token) : Bool :=
  ts[0]? == some (Token.symbol .dot) && (ts[1]?.bind Token.identifier?).isSome

/-- Some tokens that stand in two texts, what follows them in each, and the errors that were recorded
before them. -/
structure Setting where
  tokens : List Token
  next₁ : List Lexeme
  next₂ : List Lexeme
  errors₁ : Array SyntaxError
  errors₂ : Array SyntaxError
  /-- Where named fields begin before the end of the tokens in the second text, they do so in the
  first. -/
  fields : ∀ ts : List Token, ts <:+ tokens → ts ≠ [] →
    fieldsAhead (ts ++ next₂.map Lexeme.token) → fieldsAhead (ts ++ next₁.map Lexeme.token)
  /-- Where a path goes on before the end of the tokens in the second text, it does so in the first. -/
  path : ∀ ts : List Token, ts <:+ tokens → ts ≠ [] →
    pathAhead (ts ++ next₂.map Lexeme.token) → pathAhead (ts ++ next₁.map Lexeme.token)

namespace Setting

variable {H : Setting} {w : List Lexeme} {s s' : State}

/-- The token behind the passage in the first text. -/
def head₁ (H : Setting) : Option Token := H.next₁.head?.map Lexeme.token

/-- The token behind the passage in the second text. -/
def head₂ (H : Setting) : Option Token := H.next₂.head?.map Lexeme.token

/-- Both readings stand before `w`, without new errors. -/
structure At (H : Setting) (w : List Lexeme) (s s' : State) : Prop where
  suffix : w.map Lexeme.token <:+ H.tokens
  rest₁ : s.rest = w ++ H.next₁
  rest₂ : ∃ w' : List Lexeme, w'.map Lexeme.token = w.map Lexeme.token ∧ s'.rest = w' ++ H.next₂
  errors₁ : s.errors = H.errors₁
  errors₂ : s'.errors = H.errors₂

/-- The first reading has recorded no error and left at least `k` tokens of the passage. -/
def Kept (H : Setting) (k : Nat) (s : State) : Prop :=
  s.errors.size ≤ H.errors₁.size ∧ H.next₁.length + k ≤ s.rest.length

namespace At

theorem length₁ (h : H.At w s s') : s.rest.length = w.length + H.next₁.length := by
  rw [h.rest₁, List.length_append]

theorem length₂ (h : H.At w s s') : s'.rest.length = w.length + H.next₂.length := by
  obtain ⟨w', htokens, hrest⟩ := h.rest₂
  have hlength := congrArg List.length htokens
  rw [List.length_map, List.length_map] at hlength
  rw [hrest, List.length_append, hlength]

theorem tokens₁ (h : H.At w s s') :
    s.tokens = w.map Lexeme.token ++ H.next₁.map Lexeme.token := by
  rw [State.tokens, h.rest₁, List.map_append]

theorem tokens₂ (h : H.At w s s') :
    s'.tokens = w.map Lexeme.token ++ H.next₂.map Lexeme.token := by
  obtain ⟨w', htokens, hrest⟩ := h.rest₂
  rw [State.tokens, hrest, List.map_append, htokens]

/-- Before a token of the passage both readings see the same. -/
theorem head_eq (h : H.At w s s') (hw : w ≠ []) : s'.tokens.head? = s.tokens.head? := by
  obtain ⟨l, w, rfl⟩ := List.exists_cons_of_ne_nil hw
  rw [h.tokens₁, h.tokens₂]
  rfl

theorem head_nil₁ (h : H.At [] s s') : s.tokens.head? = H.head₁ := by
  rw [h.tokens₁, head₁, List.map_nil, List.nil_append, List.head?_map]

theorem head_nil₂ (h : H.At [] s s') : s'.tokens.head? = H.head₂ := by
  rw [h.tokens₂, head₂, List.map_nil, List.nil_append, List.head?_map]

theorem kept (h : H.At w s s') : H.Kept w.length s :=
  ⟨by rw [h.errors₁], by rw [h.length₁, Nat.add_comm]⟩

theorem ne_nil {k : Nat} (h : H.At w s s') (hk : H.Kept (k + 1) s) : w ≠ [] := by
  rintro rfl
  have hle := hk.2
  rw [h.length₁, List.length_nil] at hle
  omega

/-- Both readings go behind the next token of the passage. -/
theorem advance {l : Lexeme} (h : H.At (l :: w) s s') : H.At w s.advance s'.advance := by
  obtain ⟨w', htokens, hrest⟩ := h.rest₂
  obtain ⟨l', w', rfl, -, hw'⟩ := List.map_eq_cons_iff.1 htokens
  have hrest₁ : s.rest = l :: (w ++ H.next₁) := h.rest₁
  have hrest₂ : s'.rest = l' :: (w' ++ H.next₂) := hrest
  have hadvance : s.advance = { s with previous := some l, rest := w ++ H.next₁ } := by
    rw [State.advance, hrest₁]
  have hadvance' : s'.advance = { s' with previous := some l', rest := w' ++ H.next₂ } := by
    rw [State.advance, hrest₂]
  exact ⟨(List.suffix_cons _ _).trans h.suffix, by rw [hadvance], ⟨w', hw', by rw [hadvance']⟩,
    by rw [hadvance]; exact h.errors₁, by rw [hadvance']; exact h.errors₂⟩

end At

/-- What is known of the two contexts. At the end of the passage the second text may have named fields
anywhere, and everywhere where the first may. -/
structure Knows (k : Nat) (c c' : Context) : Prop where
  structLiterals : c.structLiterals = true → c'.structLiterals = true
  open_end : k = 0 → c'.structLiterals = true

/-- At the end of the passage the second reading sees a token only where the first one does. -/
def Bars (H : Setting) (k : Nat) (t : Token) : Prop := k = 0 → H.head₂ = some t → H.head₁ = some t

end Setting

namespace Parser

variable {α β : Type} [Placed α] [Placed β] {H : Setting} {j j' k m : Nat}
  {c c' : Context} {s s' t : State} {w : List Lexeme} {p p' : Parser α} {f f' : α → Parser β}

/-- What is asked of the value and the end of a first reading. -/
abbrev Proviso (α : Type) : Type := α → Context → State → Prop

/-- Nothing is asked. -/
abbrev always : Proviso α := fun _ _ _ => True

/-- Whatever the next tokens are. -/
abbrev anywhere : List Lexeme → Prop := fun _ => True

/-- The next token is known. -/
def facing (I : List Lexeme → Prop) (o : Option Token) : List Lexeme → Prop :=
  fun rest => I rest ∧ rest.head?.map Lexeme.token = o

/-- The second parser gives what the first one does, where that leaves enough of a passage. -/
structure Echoes (H : Setting) (P : Proviso α) (I : List Lexeme → Prop) (j k : Nat)
    (p p' : Parser α) : Prop where
  onward : Onward p
  steps : ∀ c s x t, I s.rest → p c s = (.ok x, t) → t.rest.length + j ≤ s.rest.length + k
  run : ∀ {c c'}, Setting.Knows k c c' → ∀ {w s s'}, H.At w s s' → I s.rest → ∀ {x t},
    p c s = (.ok x, t) → H.Kept k t → P x c t →
    ∃ x' t' v, p' c' s' = (.ok x', t') ∧ Alike x x' ∧ H.At v t t'

variable {P P' : Proviso α} {Q : Proviso β} {I I' : List Lexeme → Prop}

omit [Placed α] [Placed β] in
/-- What a parser leaves without errors began without errors. -/
theorem Onward.errors_size_le (h : Onward p) (c : Context) (s : State) :
    s.errors.size ≤ (p c s).2.errors.size := by
  obtain ⟨ts, es, ht⟩ := h c s
  have herrors := congrArg List.length ht.2.2
  simp only [List.length_append, Array.length_toList] at herrors
  omega

omit [Placed α] [Placed β] in
theorem Onward.length_le (h : Onward p) (c : Context) (s : State) :
    (p c s).2.rest.length ≤ s.rest.length := by
  obtain ⟨ts, es, ht⟩ := h c s
  exact ht.length_le

omit [Placed α] [Placed β] in
/-- What two parsers give one after the other. -/
theorem bind_eq_ok {f : α → Parser β} {y : β} {u : State} (h : (p >>= f) c s = (.ok y, u)) :
    ∃ x t, p c s = (.ok x, t) ∧ f x c t = (.ok y, u) := by
  rcases hp : p c s with ⟨e | x, t⟩
  · rw [bind_error hp] at h
    simp at h
  · exact ⟨x, t, rfl, by rwa [bind_ok hp] at h⟩

/-! ### Weakening -/

theorem Echoes.weaken (h : Echoes H P I j k p p') (hI : ∀ rest, I' rest → I rest) :
    Echoes H P I' j k p p' :=
  ⟨h.onward, fun c s x t hs => h.steps c s x t (hI _ hs),
    fun hc _ _ _ hs hI' => h.run hc hs (hI _ hI')⟩

theorem Echoes.at (h : Echoes H P anywhere j k p p') : Echoes H P I j k p p' :=
  h.weaken fun _ _ => trivial

theorem Echoes.lower (h : Echoes H P I j k p p') (hj : j' ≤ j) : Echoes H P I j' k p p' where
  onward := h.onward
  steps c s x t hs hx := by
    have hle := h.steps c s x t hs hx
    omega
  run := h.run

/-- A parser that takes a token may be read as one that takes perhaps none. -/
theorem Echoes.perhaps (h : Echoes H P I (k + 1) k p p') : Echoes H P I k k p p' :=
  h.lower (Nat.le_succ k)

theorem Echoes.proviso (h : Echoes H P I j k p p') (hP : ∀ x c t, P' x c t → P x c t) :
    Echoes H P' I j k p p' :=
  ⟨h.onward, h.steps, fun hc _ _ _ hs hI _ _ hx hk hx' => h.run hc hs hI hx hk (hP _ _ _ hx')⟩

/-- At the end of the passage no token can be taken. -/
theorem Echoes.ne_nil (h : Echoes H P I j k p p') (hj : 0 < j) (hs : H.At w s s') (hI : I s.rest)
    {x : α} (hx : p c s = (.ok x, t)) (hk : H.Kept k t) : w ≠ [] := by
  rintro rfl
  have hle := h.steps c s x t hI hx
  have hkept := hk.2
  rw [hs.length₁, List.length_nil] at hle
  omega

/-! ### Steps -/

omit [Placed α] in
theorem pure_eq_ok {x y : α} (h : (pure x : Parser α) c s = (.ok y, t)) : y = x ∧ t = s := by
  obtain ⟨hy, ht⟩ := Prod.mk.inj h
  exact ⟨(Except.ok.inj hy).symm, ht.symm⟩

theorem echoes_pure {x x' : α} (hx : Alike x x') : Echoes H P I k k (pure x) (pure x') where
  onward := onward_pure x
  steps c s y t _ hy := by rw [(pure_eq_ok hy).2]
  run _ _ _ _ hs _ _ _ hy _ _ := by
    obtain ⟨rfl, rfl⟩ := pure_eq_ok hy
    exact ⟨x', _, _, rfl, hx, hs⟩

/-- A parser that always fails has no echo to give. -/
theorem echoes_of_fails (ho : Onward p) (h : ∀ c s x t, I s.rest → p c s ≠ (.ok x, t)) :
    Echoes H P I j k p p' :=
  ⟨ho, fun c s x t hs hx => absurd hx (h c s x t hs),
    fun _ _ _ _ _ hI _ _ hx => absurd hx (h _ _ _ _ hI)⟩

theorem echoes_fail {e : SyntaxError} : Echoes H P I j k (fail e) p' :=
  echoes_of_fails (onward_fail e) fun _ _ _ _ _ h => by simp [fail] at h

/-- A place with `k` tokens of the passage left does not lie before one with `m` left. The places at
which the parts of a parser end are compared by instances. -/
class Later (k m : Nat) : Prop where
  le : k ≤ m

instance : Later k k := ⟨le_rfl⟩

instance : Later 0 k := ⟨Nat.zero_le k⟩

instance [h : Later k m] : Later k (m + 1) := ⟨Nat.le_succ_of_le h.le⟩

instance [h : Later k m] : Later (k + 1) (m + 1) := ⟨Nat.succ_le_succ h.le⟩

/-- What may be left behind a part that began where `I` holds. -/
def leaving (I : List Lexeme → Prop) (j m : Nat) : List Lexeme → Prop :=
  fun rest' => ∃ rest, I rest ∧ rest'.length + j ≤ rest.length + m

/-- A part whose proviso follows from what stands behind it, where that records no error, and which
may know how many tokens are left. -/
theorem Echoes.bind_leaving {R : Proviso α} (h : Echoes H R I j m p p')
    (hf : ∀ x x', Alike x x' → Echoes H Q (leaving I j m) m k (f x) (f' x'))
    (hR : ∀ x c t y u, f x c t = (.ok y, u) → u.errors.size ≤ t.errors.size → Q y c u → R x c t)
    [hkm : Later k m] : Echoes H Q I j k (p >>= f) (p' >>= f') where
  onward := h.onward.bind fun x => (hf x x rfl).onward
  steps c s y u hs hy := by
    obtain ⟨x, t, hp, hf'⟩ := bind_eq_ok hy
    have hle := h.steps c s x t hs hp
    have hle' := (hf x x rfl).steps c t y u ⟨_, hs, hle⟩ hf'
    omega
  run {c c'} hc w s s' hs hI y u hy hk hQ := by
    obtain ⟨x, t, hp, hf'⟩ := bind_eq_ok hy
    have hstage : leaving I j m t.rest := ⟨_, hI, h.steps c s x t hI hp⟩
    have hle := (hf x x rfl).steps c t y u hstage hf'
    have hfirst := h.onward.errors_size_le c s
    have herrors := (hf x x rfl).onward.errors_size_le c t
    rw [hp, hs.errors₁] at hfirst
    rw [hf'] at herrors
    have hkept : H.Kept m t := ⟨herrors.trans hk.1, by have := hk.2; omega⟩
    have hc' : Setting.Knows m c c' :=
      ⟨hc.structLiterals, fun hm => hc.open_end (Nat.le_zero.1 (hm ▸ hkm.le))⟩
    obtain ⟨x', t', v, hx', halike, ht⟩ :=
      h.run hc' hs hI hp hkept (hR x c t y u hf' (hk.1.trans hfirst) hQ)
    obtain ⟨y', u', v', hy', halike', hu⟩ := (hf x x' halike).run hc ht hstage hf' hk hQ
    exact ⟨y', u', v', by rw [bind_ok hx', hy'], halike', hu⟩

theorem Echoes.bind_if {R : Proviso α} (h : Echoes H R I j m p p')
    (hf : ∀ x x', Alike x x' → Echoes H Q anywhere m k (f x) (f' x'))
    (hR : ∀ x c t y u, f x c t = (.ok y, u) → Q y c u → R x c t) [Later k m] :
    Echoes H Q I j k (p >>= f) (p' >>= f') :=
  h.bind_leaving (fun x x' hx => (hf x x' hx).at) (fun x c t y u hy _ => hR x c t y u hy)

theorem Echoes.bind (h : Echoes H always I j m p p')
    (hf : ∀ x x', Alike x x' → Echoes H Q anywhere m k (f x) (f' x')) [Later k m] :
    Echoes H Q I j k (p >>= f) (p' >>= f') :=
  h.bind_if hf fun _ _ _ _ _ _ _ => trivial

theorem Echoes.map {g g' : α → β} (h : Echoes H P I j k p p')
    (hg : ∀ x x', Alike x x' → Alike (g x) (g' x')) (hP : ∀ x c t, Q (g x) c t → P x c t) :
    Echoes H Q I j k (g <$> p) (g' <$> p') :=
  h.bind_if (fun x x' hx => echoes_pure (hg x x' hx)) fun x c t y u hy hQ => by
    obtain ⟨rfl, rfl⟩ : y = g x ∧ u = t := pure_eq_ok (c := c) hy
    exact hP x c _ hQ

theorem Echoes.structLiterals {allowed : Bool} {R : Proviso α} (h : Echoes H R I j k p p')
    (hR : ∀ x c t, P x c t → R x { c with structLiterals := allowed } t)
    (hallowed : k = 0 → allowed = true) :
    Echoes H P I j k (structLiterals allowed p) (structLiterals allowed p') where
  onward c s := h.onward _ s
  steps c s x t hs hx := h.steps _ s x t hs hx
  run {c c'} _ _ _ _ hs hI _ _ hx hk hP := by
    have hc : Setting.Knows k { c with structLiterals := allowed }
        { c' with structLiterals := allowed } := ⟨id, hallowed⟩
    exact h.run hc hs hI hx hk (hR _ _ _ hP)

theorem echoes_ite {b : Prop} [Decidable b] {q q' : Parser α} (h : b → Echoes H P I j k p p')
    (h' : ¬b → Echoes H P I j k q q') :
    Echoes H P I j k (if b then p else q) (if b then p' else q') := by
  split
  · exact h ‹_›
  · exact h' ‹_›

/-! ### Looking ahead -/

omit [Placed α] in
/-- Behind a look at the places, which may be any. -/
theorem Looks.echoes {q q' : Parser α} {l l' : α → Parser β} {g g' : Context → State → α}
    (h : Looks q g) (h' : Looks q' g') (hk : ∀ x x', Echoes H Q I j k (l x) (l' x')) :
    Echoes H Q I j k (q >>= l) (q' >>= l') where
  onward := h.onward.bind fun x => (hk x x).onward
  steps c s y t hs hy := by
    rw [bind_ok (h c s)] at hy
    exact (hk _ (g c s)).steps c s y t hs hy
  run {c c'} hc w s s' hs hI y t hy := by
    rw [bind_ok (h c s)] at hy
    rw [bind_ok (h' c' s')]
    exact (hk _ _).run hc hs hI hy

theorem echoes_here {l l' : Span → Parser β} (hk : ∀ a a', Echoes H Q I j k (l a) (l' a')) :
    Echoes H Q I j k (here >>= l) (here >>= l') := looks_here.echoes looks_here hk

theorem echoes_spanFrom {start start' : Span} {l l' : Span → Parser β}
    (hk : ∀ a a', Echoes H Q I j k (l a) (l' a')) :
    Echoes H Q I j k (spanFrom start >>= l) (spanFrom start' >>= l') :=
  (looks_spanFrom start).echoes (looks_spanFrom start') hk

omit [Placed β] in
theorem next_bind (l : Option Token → Parser β) (c : Context) (s : State) :
    (next? >>= l) c s = l s.tokens.head? c s := bind_ok (sees_next c s)

omit [Placed β] in
theorem onward_next {l : Option Token → Parser β} (h : ∀ o, Onward (l o)) : Onward (next? >>= l) :=
  peeks_next.looks.onward.bind h

theorem facing_head (hI : I s.rest) : facing I s.tokens.head? s.rest :=
  ⟨hI, by rw [State.tokens, List.head?_map]⟩

/-- Behind a look at a token of the passage. -/
theorem echoes_next {l l' : Option Token → Parser β}
    (h : ∀ o, Echoes H Q (facing I o) j k (l o) (l' o)) [hj : Later 1 j] :
    Echoes H Q I j k (next? >>= l) (next? >>= l') where
  onward := onward_next fun o => (h o).onward
  steps c s y t hs hy := by
    rw [next_bind] at hy
    exact (h _).steps c s y t (facing_head hs) hy
  run {c c'} hc w s s' hs hI y t hy hk hQ := by
    rw [next_bind] at hy
    rw [next_bind, hs.head_eq ((h _).ne_nil hj.le hs (facing_head hI) hy hk)]
    exact (h _).run hc hs (facing_head hI) hy hk hQ

/-- Behind a look at a token that may be the one behind the passage: tokens of one kind begin
something that takes them, and behind the passage the second text has such a token only where the
first one has. -/
theorem echoes_next_or {T : Option Token → Prop} {l l' : Option Token → Parser β} {q q' : Parser β}
    (h : ∀ o, T o → Echoes H Q (facing I o) (k + 1) k (l o) (l' o))
    (hl : ∀ o, ¬T o → l o = q ∧ l' o = q') (hq : Echoes H Q I k k q q')
    (hbars : k = 0 → T H.head₂ → T H.head₁) :
    Echoes H Q I k k (next? >>= l) (next? >>= l') where
  onward := onward_next fun o => by
    by_cases ho : T o
    · exact (h o ho).onward
    · exact (hl o ho).1 ▸ hq.onward
  steps c s y t hs hy := by
    rw [next_bind] at hy
    by_cases ho : T s.tokens.head?
    · exact (h _ ho).perhaps.steps c s y t (facing_head hs) hy
    · rw [(hl _ ho).1] at hy
      exact hq.steps c s y t hs hy
  run {c c'} hc w s s' hs hI y t hy hk hQ := by
    rw [next_bind] at hy
    rw [next_bind]
    by_cases ho : T s.tokens.head?
    · have hw := (h _ ho).ne_nil (Nat.succ_pos k) hs (facing_head hI) hy hk
      rw [hs.head_eq hw]
      exact (h _ ho).run hc hs (facing_head hI) hy hk hQ
    · rw [(hl _ ho).1] at hy
      have ho' : ¬T s'.tokens.head? := by
        by_cases hw : w = []
        · subst hw
          rcases Nat.eq_zero_or_pos k with hk₀ | hpos
          · rw [hs.head_nil₂]
            rw [hs.head_nil₁] at ho
            exact mt (hbars hk₀) ho
          · exact absurd rfl (hq.ne_nil hpos hs hI hy hk)
        · rwa [hs.head_eq hw]
      rw [(hl _ ho').2]
      exact hq.run hc hs hI hy hk hQ

omit [Placed β] in
theorem nextIs_bind (t : Token) (f : Bool → Parser β) :
    (nextIs t >>= f) = next? >>= fun o => f (o == some t) := rfl

omit [Placed β] in
theorem nextWord_bind (f : Option String → Parser β) :
    (nextWord? >>= f) = next? >>= fun o => f (o.bind Token.identifier?) := rfl

/-- A choice by a token of the passage. -/
theorem echoes_if_nextIs_inside {t : Token} {q q' : Parser α}
    (htrue : Echoes H P (facing I (some t)) j k p p') (hfalse : Echoes H P I j k q q')
    [Later 1 j] :
    Echoes H P I j k (nextIs t >>= fun b => if b = true then p else q)
      (nextIs t >>= fun b => if b = true then p' else q') := by
  rw [nextIs_bind, nextIs_bind]
  refine echoes_next fun o => echoes_ite (fun ho => ?_) fun _ => ?_
  · exact htrue.weaken fun rest h => ⟨h.1, h.2.trans (beq_iff_eq.1 ho)⟩
  · exact hfalse.weaken fun _ => And.left

/-- A choice by a token that begins something. -/
theorem echoes_if_nextIs {t : Token} {q q' : Parser α}
    (htrue : Echoes H P (facing I (some t)) (k + 1) k p p') (hfalse : Echoes H P I k k q q')
    (hbars : H.Bars k t) :
    Echoes H P I k k (nextIs t >>= fun b => if b = true then p else q)
      (nextIs t >>= fun b => if b = true then p' else q') := by
  rw [nextIs_bind, nextIs_bind]
  refine echoes_next_or (fun o (ho : o = some t) => ?_) (fun o ho => ?_) hfalse hbars
  · rw [if_pos (beq_iff_eq.2 ho), if_pos (beq_iff_eq.2 ho), ho]
    exact htrue
  · rw [if_neg (mt beq_iff_eq.1 ho), if_neg (mt beq_iff_eq.1 ho)]
    exact ⟨rfl, rfl⟩

/-! ### Failing -/

omit [Placed α] in
theorem unexpected_ne_ok (e : Expected) (c : Context) (s : State) (x : α) (t : State) :
    unexpected e c s ≠ (.ok x, t) := by
  rw [unexpected, bind_ok (looks_here c s), next_bind]
  cases s.tokens.head? <;> simp [fail]

theorem echoes_unexpected (e : Expected) : Echoes H P I j k (unexpected e) p' :=
  echoes_of_fails (onward_unexpected e) fun c s x t _ => unexpected_ne_ok e c s x t

theorem echoes_violation (v : Violation) (span : Span) : Echoes H P I j k (violation v span) p' :=
  echoes_fail

/-! ### Taking tokens -/

theorem echoes_advance (hI : ∀ rest, I rest → rest ≠ []) {P : Proviso Unit} :
    Echoes H P I (k + 1) k advance advance where
  onward := onward_advance
  steps c s x t hs hx := by
    obtain ⟨l, rest, hrest⟩ := List.exists_cons_of_ne_nil (hI _ hs)
    obtain ⟨-, rfl⟩ := Prod.mk.inj hx
    rw [State.advance, hrest]
    simp only [List.length_cons]
    omega
  run {c c'} _ w s s' hs hI' x t hx hk _ := by
    obtain ⟨-, rfl⟩ := Prod.mk.inj hx
    rcases w with _ | ⟨l, w⟩
    · obtain ⟨l, rest, hrest⟩ := List.exists_cons_of_ne_nil (hI _ hI')
      have hle := hk.2
      have hlength := hs.length₁
      rw [State.advance, hrest] at hle
      rw [hrest, List.length_nil, List.length_cons] at hlength
      dsimp only at hle
      omega
    · exact ⟨(), s'.advance, w, rfl, rfl, hs.advance⟩

omit [Placed α] [Placed β] in
theorem ne_nil_of_facing {a : Token} {rest : List Lexeme} (h : facing I (some a) rest) :
    rest ≠ [] := by
  rintro rfl
  simp [facing] at h

theorem echoes_advance_seen {a : Token} {P : Proviso Unit} :
    Echoes H P (facing I (some a)) (k + 1) k advance advance :=
  echoes_advance fun _ => ne_nil_of_facing

omit [Placed α] [Placed β] in
theorem accept_bind (t : Token) (f : Bool → Parser β) :
    (accept t >>= f) = nextIs t >>= fun b =>
      if b = true then advance >>= fun _ => f true else f false := by
  funext c s
  rw [bind_ok (sees_nextIs t c s)]
  by_cases ht : s.tokens.head? = some t
  · rw [bind_ok (accept_eq_true ht), if_pos (by simpa using ht)]
    rfl
  · rw [bind_ok (accept_eq_false ht), if_neg (by simpa using ht)]

/-- A choice by a token of the passage, which is taken. -/
theorem echoes_if_accept_inside {t : Token} {q q' : Parser α}
    (htrue : Echoes H P anywhere m k p p') (hfalse : Echoes H P I j k q q')
    [Later 1 j] [hm : Later j (m + 1)] [Later k m] :
    Echoes H P I j k (accept t >>= fun b => if b = true then p else q)
      (accept t >>= fun b => if b = true then p' else q') := by
  rw [accept_bind, accept_bind]
  refine echoes_if_nextIs_inside ?_ hfalse
  exact (echoes_advance_seen.bind fun _ _ _ => htrue).lower hm.le

/-- A choice by a token that may be there. -/
theorem echoes_if_accept {t : Token} {q q' : Parser α} (htrue : Echoes H P anywhere k k p p')
    (hfalse : Echoes H P I k k q q') (hbars : H.Bars k t) :
    Echoes H P I k k (accept t >>= fun b => if b = true then p else q)
      (accept t >>= fun b => if b = true then p' else q') := by
  rw [accept_bind, accept_bind]
  exact echoes_if_nextIs (echoes_advance_seen.bind fun _ _ _ => htrue) hfalse hbars

theorem echoes_take {P : Proviso Span} (t : Token) (e : Expected) :
    Echoes H P I (k + 1) k (take t e) (take t e) := by
  refine echoes_here fun span span' => echoes_if_accept_inside (m := k) ?_ (echoes_unexpected e)
  exact echoes_pure rfl

theorem echoes_keyword {P : Proviso Span} (word : Keyword) :
    Echoes H P I (k + 1) k (keyword word) (keyword word) := echoes_take _ _

theorem echoes_word {P : Proviso Span} (w : String) :
    Echoes H P I (k + 1) k (word w) (word w) := echoes_take _ _

theorem echoes_symbol {P : Proviso Span} (t : Symbol) :
    Echoes H P I (k + 1) k (symbol t) (symbol t) := by
  refine echoes_here fun span span' => echoes_if_accept_inside (m := k) (echoes_pure rfl) ?_
  refine echoes_ite (fun _ => ?_) fun _ => echoes_unexpected _
  exact looks_previousSpan.echoes looks_previousSpan fun _ _ => echoes_fail

theorem echoes_identifier {P : Proviso Identifier} :
    Echoes H P I (k + 1) k identifier identifier := by
  refine echoes_here fun span span' => ?_
  rw [nextWord_bind, nextWord_bind]
  refine echoes_next fun o => ?_
  rcases o with _ | a
  · exact echoes_unexpected _
  · dsimp only [Option.bind_some]
    cases a.identifier? with
    | none => exact echoes_unexpected _
    | some name => exact echoes_advance_seen.bind fun _ _ _ => echoes_pure rfl

/-- An identifier that may be there, before other tokens of the passage. -/
theorem echoes_identifier? {P : Proviso (Option Identifier)} :
    Echoes H P I (k + 1) (k + 1) identifier? identifier? := by
  rw [identifier?, nextWord_bind]
  refine echoes_next fun o => ?_
  cases o.bind Token.identifier? with
  | none => exact echoes_pure rfl
  | some name =>
    refine (echoes_identifier.bind fun i i' hi => echoes_pure ?_).perhaps
    exact congrArg some hi

theorem echoes_stringText {P : Proviso (String × Span)} :
    Echoes H P I (k + 1) k stringText stringText := by
  refine echoes_here fun span span' => echoes_next fun o => ?_
  rcases o with _ | a
  · exact echoes_unexpected _
  · cases a with
    | string bytes => exact echoes_advance_seen.bind fun _ _ _ => echoes_pure rfl
    | _ => exact echoes_unexpected _

end Parser

end SolidityFrontend
