import SolidityFrontend.Proofs.Agreeing
import SolidityFrontend.Proofs.RespanningDecl

/-!
# Repetition, choice and recovery in two readings

A loop takes the same parts in both readings of a passage, since none of its bounds is reached before
the passage ends. Where a part cannot be read, both readings go on at the same place: the error leads
no farther than the passage, and so does skipping. An item may be `Spoilt` in the first reading, and
then an error is recorded for it or before it.
-/

namespace SolidityFrontend

namespace Parser

variable {α β : Type} [Placed α] [Placed β] {H : Passage} {k n : Nat} {w₀ w v : List Lexeme}
  {I : Stage} {c c' : Context} {s s' : State} {p p' : Parser α} {f f' : α → Parser β}
  {O M : α → Stage} {N : β → Stage}

/-! ### Repetition -/

/-- The bounds of a loop in both readings leave room for what is left of the passage, and where
nothing follows the passage they are the same. -/
structure Clocks (H : Passage) (w clock clock' : List Lexeme) : Prop where
  le₁ : w.length ≤ clock.length
  le₂ : w.length ≤ clock'.length
  eq : H.next₁ = [] → H.next₂ = [] → clock.length = clock'.length

theorem clocks_rest (hs : H.At w₀ w s s') : Clocks H w s.rest s'.rest := by
  refine ⟨?_, ?_, fun h₁ h₂ => ?_⟩
  · simp [hs.rest₁]
  · simp [hs.rest₂]
  · simp [hs.rest₁, hs.rest₂, h₁, h₂]

theorem length_lt_of_suffix {u w : List Lexeme} (h : u <:+ w) (hne : u ≠ w) :
    u.length < w.length :=
  lt_of_le_of_ne h.length_le fun hlength => hne (h.eq_of_length hlength)

theorem Clocks.tail {t t' : Lexeme} {clock clock' : List Lexeme}
    (h : Clocks H w (t :: clock) (t' :: clock')) (hv : v <:+ w) (hne : v ≠ w) :
    Clocks H v clock clock' := by
  have hlt := length_lt_of_suffix hv hne
  have h₁ := h.le₁
  have h₂ := h.le₂
  simp only [List.length_cons] at h₁ h₂
  refine ⟨by omega, by omega, fun hnext₁ hnext₂ => ?_⟩
  simpa using h.eq hnext₁ hnext₂

/-- The bounds run out together. -/
theorem Clocks.nil_iff {clock clock' : List Lexeme} (h : Clocks H w clock clock')
    (hw : H.inside n w) : clock = [] ↔ clock' = [] := by
  have hends {a b : List Lexeme} (ha : a = []) (hle : w.length ≤ a.length)
      (heq : H.next₁ = [] → H.next₂ = [] → a.length = b.length) : b = [] := by
    subst ha
    obtain rfl : w = [] := List.eq_nil_of_length_eq_zero (Nat.le_zero.1 hle)
    obtain ⟨h₁, h₂⟩ := H.ends_of_inside hw
    exact List.eq_nil_of_length_eq_zero (heq h₁ h₂).symm
  exact ⟨fun ha => hends ha h.le₁ h.eq, fun ha => hends ha h.le₂ fun h₁ h₂ => (h.eq h₁ h₂).symm⟩

/-- A stage at which the bounds leave room. -/
def clocked (H : Passage) (I : Stage) (clock clock' : List Lexeme) : Stage := fun w₀ w =>
  I w₀ w ∧ Clocks H w clock clock'

instance {I : Stage} [Within H n I] {clock clock' : List Lexeme} :
    Within H n (clocked H I clock clock') := ⟨fun h => Within.inside h.1⟩

/-- The stage behind a step that may have been the last. -/
def stepped (H : Passage) (n : Nat) (more : Bool) : Stage :=
  if more then H.amid n else H.before n

theorem inside_of_stepped {more : Bool} {w₀ w : List Lexeme} (h : stepped H n more w₀ w) :
    H.inside n w := by
  cases more with
  | true => exact h.1
  | false => exact h

theorem agrees_manyOver {more more' : Parser (Option α)}
    (h : Agrees H k n (H.before n) more more' fun o => stepped H n o.isSome) :
    ∀ clock clock', Agrees H k n (clocked H (H.before n) clock clock')
      (manyOver more clock) (manyOver more' clock') fun _ => H.before n
  | [], clock' => by
    refine ⟨onward_pure [], fun c c' _ w₀ w s s' hs hw => ?_⟩
    rw [(hw.2.nil_iff hw.1).1 rfl]
    exact .inl (.ok rfl hs hw.1)
  | t :: clock, [] => by
    refine ⟨onward_manyOver h.onward _, fun _ _ _ _ _ _ _ _ hw => ?_⟩
    exact absurd ((hw.2.nil_iff hw.1).2 rfl) (by simp)
  | t :: clock, t' :: clock' => by
    refine h.step fun o => ?_
    cases o with
    | none => exact agrees_pure rfl fun _ _ ⟨_, _, _, hv, _⟩ => hv
    | some x =>
      refine Agrees.bind (M := fun _ => H.before n) ?_ fun xs => agrees_value rfl
      refine (agrees_manyOver h clock clock').weaken fun w₀ v ⟨w, hw, _, _, hv, hsuffix⟩ => ?_
      exact ⟨hv.1, hw.2.tail hsuffix hv.2⟩

theorem agrees_many {more more' : Parser (Option α)}
    (h : Agrees H k n (H.before n) more more' fun o => stepped H n o.isSome) :
    Agrees H k n (H.before n) (many more) (many more') fun _ => H.before n where
  onward := onward_many h.onward
  run _ _ hc _ _ _ _ hs hw := (agrees_manyOver h _ _).same hc hs ⟨hw, clocks_rest hs⟩

/-- Parts of which the first was seen. -/
theorem agrees_many_cons {more more' : Parser (Option α)} {t : Token}
    (hfirst : Agrees H k n (seeing (H.before n) (some t)) more more'
      fun o w₀ w => o.isSome ∧ H.amid n w₀ w)
    (h : Agrees H k n (H.before n) more more' fun o => stepped H n o.isSome) :
    Agrees H k n (seeing (H.before n) (some t)) (many more) (many more') fun _ => H.amid n where
  onward := onward_many h.onward
  run c c' hc w₀ w s s' hs hw := by
    have hcons (l l' : Lexeme) (clock clock' : List Lexeme) : Agrees H k n
        (clocked H (seeing (H.before n) (some t)) (l :: clock) (l' :: clock'))
        (manyOver more (l :: clock)) (manyOver more' (l' :: clock')) fun _ => H.amid n := by
      refine hfirst.stepFrom (fun w₀ w hw => ⟨hw.1, hw.1⟩) fun o => ?_
      cases o with
      | none => exact agrees_pure rfl fun _ _ ⟨_, _, _, hO, _⟩ => absurd hO.1 (by simp)
      | some x =>
        refine Agrees.bind (M := fun _ => H.amid n) ?_ fun xs => agrees_value rfl
        have hrest := agrees_manyOver h clock clock'
        refine ⟨hrest.onward, fun c c' hc w₀ v s s' hs ⟨w, hw, hsuffix, hO, hv, hvw⟩ => ?_⟩
        refine (hrest.restart hc hs ⟨hO.2.1, hw.2.tail hvw hv.2.2⟩
          ⟨hO.2.1, hw.2.tail hvw hv.2.2⟩).imp_left fun hsame => hsame.mono fun xs u hu => ?_
        exact ⟨hu.1, ne_of_suffix hs.suffix hu.2.2 hO.2.2⟩
    rcases w with _ | ⟨l, w⟩
    · simp [seeing] at hw
    · have hclocks := clocks_rest hs
      have hrest : s.rest = l :: (w ++ H.next₁) := hs.rest₁
      have hrest' : s'.rest = H.move l :: (H.move w ++ H.next₂) := hs.rest₂
      rw [many, many, state_bind, state_bind]
      rw [hrest, hrest'] at hclocks ⊢
      exact (hcons _ _ _ _).same hc hs ⟨hw, hclocks⟩

/-- A value that changes step by step, behind a first token. -/
theorem agrees_iterateOver {step step' : α → Parser (Option α)}
    (h : ∀ x, Agrees H k n (H.before n) (step x) (step' (H.move x)) fun o => stepped H n o.isSome) :
    ∀ clock clock' x, Agrees H k n (clocked H (H.amid n) clock clock')
      (iterateOver step clock x) (iterateOver step' clock' (H.move x)) fun _ => H.amid n
  | [], clock', x => by
    refine ⟨onward_pure x, fun c c' _ w₀ w s s' hs hw => ?_⟩
    rw [(hw.2.nil_iff hw.1.1).1 rfl]
    exact .inl (.ok rfl hs hw.1)
  | t :: clock, [], x => by
    refine ⟨onward_iterateOver (fun x => (h x).onward) _ x, fun _ _ _ _ _ _ _ _ hw => ?_⟩
    exact absurd ((hw.2.nil_iff hw.1.1).2 rfl) (by simp)
  | t :: clock, t' :: clock', x => by
    refine (h x).step fun o => ?_
    cases o with
    | none =>
      refine agrees_pure rfl fun w₀ v ⟨w, hw, hsuffix, _, hv, hsuffix'⟩ => ⟨hv, ?_⟩
      exact ne_of_suffix hsuffix hsuffix' hw.1.2
    | some y =>
      refine (agrees_iterateOver h clock clock' y).weaken
        fun w₀ v ⟨w, hw, _, hO, hv, hsuffix⟩ => ⟨hO, hw.2.tail hsuffix hv.2⟩

theorem agrees_iterate {step step' : α → Parser (Option α)} (x : α)
    (h : ∀ x, Agrees H k n (H.before n) (step x) (step' (H.move x)) fun o => stepped H n o.isSome) :
    Agrees H k n (H.amid n) (iterate step x) (iterate step' (H.move x)) fun _ => H.amid n where
  onward := onward_iterate (fun x => (h x).onward) x
  run _ _ hc _ _ _ _ hs hw := (agrees_iterateOver h _ _ x).same hc hs ⟨hw, clocks_rest hs⟩

/-- Items with commas between them, behind a first token. -/
theorem agrees_separated {item item' : Parser α}
    (h : Agrees H k n (H.amid n) item item' fun _ => H.amid n) :
    Agrees H k n (H.amid n) (separated item) (separated item') fun _ => H.amid n := by
  refine h.bind fun x => Agrees.bind (M := fun _ => H.amid n) ?_ fun xs => agrees_value rfl
  refine (agrees_many ?_).amid fun _ _ _ => id
  refine agrees_if_accept (Passage.leads_inner rfl) ?_ (agrees_pure rfl fun _ _ => id)
  exact h.bind fun x => agrees_pure rfl fun _ _ => id

theorem agrees_itemsOver {close : Symbol} {continues continues' : Parser Bool}
    {item item' : Parser α} (h : Agrees H k n (H.before n) item item' fun _ => H.amid n)
    (hcontinues : Agrees H k n (H.before n) continues continues' fun _ => H.before n) :
    ∀ clock clock', Agrees H k n (clocked H (H.amid n) clock clock')
      (itemsOver close continues item clock) (itemsOver close continues' item' clock')
      fun _ => H.amid n
  | [], clock' => by
    refine ⟨onward_pure [], fun c c' _ w₀ w s s' hs hw => ?_⟩
    rw [(hw.2.nil_iff hw.1.1).1 rfl]
    exact .inl (.ok rfl hs hw.1)
  | t :: clock, [] => by
    refine ⟨onward_itemsOver h.onward hcontinues.onward _, fun _ _ _ _ _ _ _ _ hw => ?_⟩
    exact absurd ((hw.2.nil_iff hw.1.1).2 rfl) (by simp)
  | t :: clock, t' :: clock' => by
    refine agrees_atEnd (agrees_pure rfl fun _ _ hw => hw.1.1) ?_
    refine agrees_if_nextIs (agrees_pure rfl fun _ _ hw => hw.1.1.1) ?_
    refine h.step fun x => ?_
    refine hcontinues.step fun b => ?_
    cases b with
    | false =>
      refine agrees_pure rfl fun w₀ u ⟨v, ⟨w, _, hsuffix, hv, _⟩, hsuffix', hu, _, hsuffix''⟩ => ?_
      exact ⟨hu, ne_of_suffix hsuffix' hsuffix'' hv.2⟩
    | true =>
      refine Agrees.bind (M := fun _ => H.amid n) ?_ fun xs => agrees_value rfl
      refine (agrees_itemsOver h hcontinues clock clock').weaken
        fun w₀ u ⟨v, ⟨w, hw, _, hv, hv', hsuffix⟩, hsuffix', hu, _, hsuffix''⟩ => ?_
      refine ⟨⟨hu, ne_of_suffix hsuffix' hsuffix'' hv.2⟩, ?_⟩
      exact hw.1.2.tail (hsuffix''.trans hsuffix) (ne_of_suffix hsuffix hsuffix'' hv'.2)

theorem agrees_itemsUntil {close : Symbol} {continues continues' : Parser Bool}
    {item item' : Parser α} (h : Agrees H k n (H.before n) item item' fun _ => H.amid n)
    (hcontinues : Agrees H k n (H.before n) continues continues' fun _ => H.before n) :
    Agrees H k n (H.amid n) (itemsUntil close continues item) (itemsUntil close continues' item')
      fun _ => H.amid n where
  onward := onward_itemsUntil h.onward hcontinues.onward
  run _ _ hc _ _ _ _ hs hw :=
    (agrees_itemsOver h hcontinues _ _).same hc hs ⟨hw, clocks_rest hs⟩

theorem agrees_commaItems {close : Symbol} {item item' : Parser α}
    (h : Agrees H k n (H.before n) item item' fun _ => H.amid n) :
    Agrees H k n (H.amid n) (commaItems close item) (commaItems close item') fun _ => H.amid n := by
  refine agrees_itemsUntil h ((agrees_accept (Passage.leads_inner rfl)).mono (fun _ _ => id) ?_)
  intro b w₀ w hw
  cases b with
  | true => exact hw.1
  | false => exact hw

/-! ### Items that are spoilt -/

/-- The first reading has failed or met an error, or it went on behind the end of the passage where
no brace was open. -/
def Spoilt (H : Passage) (n : Nat) (r : Except SyntaxError α × State) : Prop :=
  ¬H.strict ∧ ((∃ e, r.1 = .error e) ∨ r.2.errors ≠ #[]
    ∨ n = 0 ∧ r.2.rest.length < H.next₁.length)

/-- Two readings of an item go the same way, unless the first one is spoilt. -/
structure Follows (H : Passage) (n : Nat) (I : Stage) (p p' : Parser α) (O : α → Stage) :
    Prop where
  onward : Onward p
  takes : n = 0 → Takes p
  run : ∀ c c', H.Knows n c c' → ∀ w₀ w s s', H.At w₀ w s s' → I w₀ w →
    Same H n w₀ O (p c s) (p' c' s') ∨ Spoilt H n (p c s)

theorem Follows.same (h : Follows H n I p p' O) (hc : H.Knows n c c') (hs : H.At w₀ w s s')
    (hw : I w₀ w) : Same H n w₀ O (p c s) (p' c' s') ∨ Spoilt H n (p c s) :=
  h.run c c' hc w₀ w s s' hs hw

omit [Placed α] in
theorem spoilt_of_lost (h : H.Lost (k + 1) (p c s).2) : Spoilt H n (p c s) :=
  ⟨h.1, .inr (.inl h.errors)⟩

/-- The end of an item, behind which no reading is lost but by an error. -/
theorem Agrees.follows (h : Agrees H (k + 1) n I p p' O) (htakes : n = 0 → Takes p) :
    Follows H n I p p' O where
  onward := h.onward
  takes := htakes
  run _ _ hc _ _ _ _ hs hw :=
    (h.same ⟨hc.structLiterals, fun hk => absurd hk (Nat.succ_ne_zero k), hc.stop, hc.slice⟩ hs
      hw).imp_right spoilt_of_lost

theorem Follows.weaken {I' : Stage} (h : Follows H n I p p' O) (hI : ∀ w₀ w, I' w₀ w → I w₀ w) :
    Follows H n I' p p' O :=
  ⟨h.onward, h.takes, fun c c' hc w₀ w s s' hs hw => h.run c c' hc w₀ w s s' hs (hI w₀ w hw)⟩

/-- A part of an item and the steps behind it, which take a token where no brace is open. -/
theorem Agrees.bind_follows (h : Agrees H n n I p p' M)
    (hf : ∀ x, Follows H n (M x) (f x) (f' (H.move x)) N) :
    Follows H n I (p >>= f) (p' >>= f') N where
  onward := h.onward.bind fun x => (hf x).onward
  takes hn := h.onward.bind_takes fun x => (hf x).takes hn
  run c c' hc w₀ w s s' hs hw := by
    have hsame := h.same hc hs hw
    rcases hr : p c s with ⟨r, t⟩
    rcases hr' : p' c' s' with ⟨r', t'⟩
    rw [hr, hr'] at hsame
    rcases hsame with hsame | ⟨hstrict, hlost⟩
    · cases hsame with
      | ok hx ht hM =>
        subst hx
        rw [bind_ok hr, bind_ok hr']
        exact (hf _).same hc ht hM
      | error he ht hv =>
        rw [bind_error hr, bind_error hr']
        exact .inl (.error he ht hv)
    · refine .inr ⟨hstrict, ?_⟩
      rcases r with e | x
      · rw [bind_error hr]
        exact .inl ⟨e, rfl⟩
      · rw [bind_ok hr]
        obtain ⟨ts, es, ht⟩ := (hf x).onward c t
        rcases hlost with herrors | ⟨rfl, hle⟩
        · exact .inr (.inl (ht.errors_ne herrors))
        · obtain ⟨us, ds, hu⟩ := h.onward c s
          have hordered := hs.ordered.of_took hu
          rw [hr] at hordered
          rcases hr'' : f x c t with ⟨e | y, u⟩
          · exact .inl ⟨e, rfl⟩
          · have hlt := (hf x).takes rfl c t y u hordered hr''
            exact .inr (.inr ⟨rfl, lt_of_lt_of_le hlt hle⟩)

/-- The steps behind an item, which no longer read. -/
theorem Follows.bind_agrees (h : Follows H n I p p' M)
    (hf : ∀ x, Agrees H (k + 1) n (M x) (f x) (f' (H.move x)) N) :
    Follows H n I (p >>= f) (p' >>= f') N where
  onward := h.onward.bind fun x => (hf x).onward
  takes hn := (h.takes hn).bind fun x => (hf x).onward
  run c c' hc w₀ w s s' hs hw := by
    have hsame := h.same hc hs hw
    rcases hr : p c s with ⟨r, t⟩
    rcases hr' : p' c' s' with ⟨r', t'⟩
    rw [hr, hr'] at hsame
    have hc' : H.Knows (k + 1) c c' :=
      ⟨hc.structLiterals, fun hk => absurd hk (Nat.succ_ne_zero k), hc.stop, hc.slice⟩
    rcases hsame with hsame | ⟨hstrict, hspoilt⟩
    · cases hsame with
      | ok hx ht hM =>
        subst hx
        rw [bind_ok hr, bind_ok hr']
        exact ((hf _).same hc' ht hM).imp_right spoilt_of_lost
      | error he ht hv =>
        rw [bind_error hr, bind_error hr']
        exact .inl (.error he ht hv)
    · refine .inr ⟨hstrict, ?_⟩
      rcases r with e | x
      · rw [bind_error hr]
        exact .inl ⟨e, rfl⟩
      · rw [bind_ok hr]
        obtain ⟨ts, es, ht⟩ := (hf x).onward c t
        rcases hspoilt with ⟨e, he⟩ | herrors | ⟨hn, hlt⟩
        · simp at he
        · exact .inr (.inl (ht.errors_ne herrors))
        · exact .inr (.inr ⟨hn, lt_of_le_of_lt ht.length_le hlt⟩)

/-- What is made of an item. -/
theorem Follows.make {make : α → β} {I' : Stage} (h : Follows H n I p p fun _ => H.behind n)
    (hI : ∀ w₀ w, I' w₀ w → I w₀ w) (hmake : ∀ x, make (H.move x) = H.move (make x)) :
    Follows H n I' (p >>= fun x => pure (make x)) (p >>= fun x => pure (make x))
      fun _ => H.behind n :=
  (h.weaken hI).bind_agrees (k := 0) fun x => agrees_value (hmake x)

/-- Behind looks at two states of which the readings tell the same. -/
theorem Looks.follows {γ : Type} [Placed γ] {q q' : Parser γ} {l l' : γ → Parser β}
    {g g' : Context → State → γ} (h : Looks q g) (h' : Looks q' g')
    (hg : ∀ {c c' w₀ w s s'}, H.Knows n c c' → H.At w₀ w s s' → I w₀ w →
      g' c' s' = H.move (g c s))
    (hl : ∀ x, Follows H n I (l x) (l' (H.move x)) N) :
    Follows H n I (q >>= l) (q' >>= l') N where
  onward := h.onward.bind fun x => (hl x).onward
  takes hn := h.onward.bind_takes fun x => (hl x).takes hn
  run c c' hc w₀ w s s' hs hw := by
    rw [bind_ok (h c s), bind_ok (h' c' s'), hg hc hs hw]
    exact (hl _).same hc hs hw

theorem follows_here [Within H n I] {l l' : Span → Parser β}
    (hl : ∀ span, Follows H n I (l span) (l' (H.motion.span span)) N) :
    Follows H n I (here >>= l) (here >>= l') N :=
  looks_here.follows looks_here (fun hc hs hw => nextSpan_eq hc hs (Within.inside hw)) hl

/-- Behind a look at the tokens that are left, which shows the same in both readings. -/
theorem Peeks.follows {γ : Type} {q : Parser γ} {l l' : γ → Parser β} {g : List Lexeme → γ}
    (h : Peeks q g) (hg : ∀ {w₀ w}, I w₀ w → g (H.move w ++ H.next₂) = g (w ++ H.next₁))
    (hl : ∀ x, Follows H n (fun w₀ w => I w₀ w ∧ g (w ++ H.next₁) = x) (l x) (l' x) N) :
    Follows H n I (q >>= l) (q >>= l') N where
  onward := h.looks.onward.bind fun x => (hl x).onward
  takes hn := h.looks.onward.bind_takes fun x => (hl x).takes hn
  run c c' hc w₀ w s s' hs hw := by
    rw [bind_ok (h c s), bind_ok (h c' s'), hs.rest₁, hs.rest₂, hg hw]
    exact (hl _).same hc hs ⟨hw, rfl⟩

/-- Behind a look at the next token. -/
theorem follows_next [Within H n I] {l l' : Option Token → Parser β}
    (hl : ∀ x, Follows H n (seeing I x) (l x) (l' x) N) :
    Follows H n I (next? >>= l) (next? >>= l') N :=
  peeks_next.follows (fun hw => next_eq hw) fun x => (hl x).weaken fun _ _ hw => seeing_of_next hw

omit [Placed α] [Placed β] in
theorem head?_of_seeing {t : Token} (hw : seeing I (some t) w₀ w) :
    (w ++ H.next₁).head?.map Lexeme.token = some t := by
  obtain ⟨-, hw⟩ := hw
  rcases w with _ | ⟨l, w⟩
  · simp at hw
  · exact hw

/-- Behind a look at the token after the next one, which was seen. -/
theorem follows_peek_seen [Within H n I] {m : Nat} {t : Token} (ht : H.Leads t n m)
    {l l' : Option Token → Parser β}
    (hl : ∀ x, Follows H n
      (fun w₀ w => seeing I (some t) w₀ w ∧ (w ++ H.next₁)[1]?.map Lexeme.token = x) (l x) (l' x) N) :
    Follows H n (seeing I (some t)) (peek? 1 >>= l) (peek? 1 >>= l') N :=
  (peeks_peek 1).follows (fun hw => peek_one_eq ht hw) hl

theorem follows_peek_one [Within H n I] {m : Nat} {t : Token} (ht : H.Leads t n m)
    {l l' : Option Token → Parser β} (hl : ∀ x, Follows H n (seeing I (some t)) (l x) (l' x) N) :
    Follows H n (seeing I (some t)) (peek? 1 >>= l) (peek? 1 >>= l') N :=
  follows_peek_seen ht fun x => (hl x).weaken fun _ _ => And.left

/-- A choice by the next token, and the steps behind it. -/
theorem follows_if_nextIs [Within H n I] {t : Token} {q q' : Parser α}
    (htrue : Agrees H n n (seeing I (some t)) p p' M) (hfalse : Agrees H n n I q q' M)
    (hf : ∀ x, Follows H n (M x) (f x) (f' (H.move x)) N) :
    Follows H n I (nextIs t >>= fun b => if b = true then p >>= f else q >>= f)
      (nextIs t >>= fun b => if b = true then p' >>= f' else q' >>= f') N := by
  have hbind (p q : Parser α) (f : α → Parser β) :
      (nextIs t >>= fun b => if b = true then p >>= f else q >>= f)
        = (nextIs t >>= fun b => if b = true then p else q) >>= f := by
    have hchoice (b : Bool) : (if b = true then p >>= f else q >>= f)
        = (if b = true then p else q) >>= f := by cases b <;> rfl
    funext c s
    exact congrFun (congrFun (hchoice (s.rest[0]?.map Lexeme.token == some t)) c) s
  rw [hbind, hbind]
  exact (agrees_if_nextIs htrue hfalse).bind_follows hf

theorem follows_ite {b : Prop} [Decidable b] {q q' : Parser α} (h : b → Follows H n I p p' O)
    (h' : ¬b → Follows H n I q q' O) :
    Follows H n I (if b then p else q) (if b then p' else q') O := by
  split
  · exact h ‹_›
  · exact h' ‹_›

/-! ### Choice -/

theorem farther_move (r : Reading) (e : SyntaxError) :
    farther r (H.move e) = H.move (farther r e) := by
  obtain ⟨fault, span⟩ := e
  cases fault <;> rfl

/-- The reading that came farther is the same one in both texts. -/
theorem progressed_eq {u₀ u v₀ v : List Lexeme} {t t' : State} (hs : H.At u₀ u s s')
    (ht : H.At v₀ v t t') : s'.progressed t' = s.progressed t := by
  have hmove (w : List Lexeme) : (H.move w).length = w.length := length_respan w
  simp only [State.progressed, hs.rest₁, hs.rest₂, ht.rest₁, ht.rest₂, List.length_append, hmove,
    Nat.add_lt_add_iff_right]

theorem Same.either {r : Reading} {first first' second second' : Parser α}
    (h : Same H n w₀ O (first c s) (first' c' s'))
    (h' : Same H n w₀ O (second c s) (second' c' s')) :
    Same H n w₀ O (either r first second c s) (either r first' second' c' s') := by
  rw [either_eq, either_eq]
  generalize first c s = a, first' c' s' = a' at h ⊢
  generalize second c s = b, second' c' s' = b' at h' ⊢
  cases h with
  | ok hx ht hO => exact .ok hx ht hO
  | error he ht hv =>
    cases h' with
    | ok hx ht' hO => exact .ok hx ht' hO
    | error he' ht' hv' =>
      subst he he'
      dsimp only
      rw [progressed_eq ht' ht, farther_move]
      split
      · exact .error rfl ht hv
      · exact .error rfl ht' hv'

omit [Placed α] in
/-- A choice between readings that record no error records none. -/
theorem Quiet.either {r : Reading} {q : Parser α} (h : Quiet p) (h' : Quiet q) :
    Quiet (either r p q) := by
  intro c s hs
  have hfirst := h c s hs
  have hsecond := h' c s hs
  rw [either_eq]
  generalize p c s = a, q c s = b at hfirst hsecond ⊢
  rcases a with ⟨e | x, t⟩
  · rcases b with ⟨e' | y, t'⟩
    · dsimp only
      split
      · exact hfirst
      · exact hsecond
    · exact hsecond
  · exact hfirst

theorem agrees_either [Within H n I] {r : Reading} {q q' : Parser α}
    (h : Agrees H (k + 1) n I p p' O) (h' : Agrees H (k + 1) n I q q' O) (hp : Quiet p)
    (hq : Quiet q) : Agrees H (k + 1) n I (either r p q) (either r p' q') O where
  onward := h.onward.either r h'.onward
  run c c' hc w₀ w s s' hs hw := by
    have hlost {t : State} (ht : H.Lost (k + 1) t) (herrors : t.errors = s.errors) :
        H.Lost (k + 1) (either r p q c s).2 := by
      refine ⟨ht.1, .inl ?_⟩
      rw [hp.either hq c s hs.ordered, ← herrors]
      exact ht.errors
    rcases h.same hc hs hw with hfirst | hfirst
    · rcases h'.same hc hs hw with hsecond | hsecond
      · exact .inl (hfirst.either hsecond)
      · exact .inr (hlost hsecond (hq c s hs.ordered))
    · exact .inr (hlost hfirst (hp c s hs.ordered))

/-- A choice in which the second reading may record errors. -/
theorem follows_either {r : Reading} {q q' : Parser α} (h : Agrees H (n + 1) (n + 1) I p p' O)
    (h' : Follows H (n + 1) I q q' O) (hp : Quiet p) :
    Follows H (n + 1) I (either r p q) (either r p' q') O where
  onward := h.onward.either r h'.onward
  takes hn := absurd hn (Nat.succ_ne_zero n)
  run c c' hc w₀ w s s' hs hw := by
    rcases h.same hc hs hw with hfirst | hfirst
    · rcases h'.same hc hs hw with hsecond | ⟨hstrict, hspoilt⟩
      · exact .inl (hfirst.either hsecond)
      · rw [either_eq, either_eq]
        generalize p c s = a, p' c' s' = a' at hfirst ⊢
        cases hfirst with
        | ok hx ht hO => exact .inl (.ok hx ht hO)
        | error he ht hv =>
          refine .inr ⟨hstrict, ?_⟩
          generalize q c s = b at hspoilt ⊢
          rcases b with ⟨e' | y, t'⟩
          · dsimp only
            split
            · exact .inl ⟨_, rfl⟩
            · exact .inl ⟨_, rfl⟩
          · exact hspoilt
    · have herrors : s.errors ≠ #[] := hp c s hs.ordered ▸ hfirst.errors
      obtain ⟨ts, es, ht⟩ := h.onward.either r h'.onward c s
      exact .inr ⟨hfirst.1, .inr (.inl (ht.errors_ne herrors))⟩

/-! ### Recovery -/

theorem map_token_move (w : List Lexeme) : (H.move w).map Lexeme.token = w.map Lexeme.token := by
  rw [Passage.move, respan_list, List.map_map]
  rfl

theorem getLast?_move (w : List Lexeme) : (H.move w).getLast? = w.getLast?.map H.move :=
  List.getLast?_map

theorem boundary_eq_zero {t : Token} {ts : List Token} (h : boundary 0 (t :: ts) = 0) :
    t = .symbol .rightBrace := by
  unfold boundary at h
  split at h
  · exact absurd h (Nat.succ_ne_zero _)
  · exact absurd h (Nat.succ_ne_zero _)
  · exact absurd h (Nat.succ_ne_zero _)
  · exact absurd h (Nat.succ_ne_zero _)
  · exact absurd h (Nat.succ_ne_zero _)
  · rfl
  · exact absurd h Nat.one_ne_zero
  · exact absurd h (Nat.succ_ne_zero _)

/-- Both readings go on behind the same tokens. -/
theorem at_drop (hs : H.At w₀ w s s') {k : Nat} (hk : k ≤ w.length) :
    H.At w₀ (w.drop k)
      { s with previous := (s.rest.take k).getLast?.or s.previous, rest := s.rest.drop k }
      { s' with previous := (s'.rest.take k).getLast?.or s'.previous, rest := s'.rest.drop k } := by
  have hk' : k ≤ (H.move w).length := by rwa [length_respan]
  have htake : (H.move w).take k = H.move (w.take k) := List.map_take.symm
  have hdrop : (H.move w).drop k = H.move (w.drop k) := List.map_drop.symm
  have htook : s.Took (s.rest.take k) []
      { s with previous := (s.rest.take k).getLast?.or s.previous, rest := s.rest.drop k } :=
    ⟨(List.take_append_drop k s.rest).symm, rfl, (List.append_nil _).symm⟩
  have hordered := hs.ordered.of_took htook
  refine ⟨(List.drop_suffix k w).trans hs.suffix, ?_, ?_, fun hne => ?_, hs.errors, hordered⟩
  · change s.rest.drop k = _
    rw [hs.rest₁, List.drop_append_of_le_length hk]
  · change s'.rest.drop k = _
    rw [hs.rest₂, List.drop_append_of_le_length hk', hdrop]
  · rw [hs.rest₁, hs.rest₂, List.take_append_of_le_length hk, List.take_append_of_le_length hk',
      htake, getLast?_move]
    rcases hlast : (w.take k).getLast? with _ | t
    · have hnil : w.take k = [] := List.getLast?_eq_none_iff.1 hlast
      have hw : w.drop k = w := by
        conv_rhs => rw [← List.take_append_drop k w, hnil, List.nil_append]
      exact hs.previous (hw ▸ hne)
    · exact ⟨t, rfl, rfl⟩

/-- Both readings skip the same tokens. -/
theorem at_synchronize [H.Braced] (hstrict : H.strict) (hs : H.At w₀ w s s') (hw : H.inside n w) :
    ∃ v, H.At w₀ v s.synchronize s'.synchronize ∧ v <:+ w ∧ H.landing n v
      ∧ (v = w → ∀ t ∈ w.head?, t.token = .symbol .rightBrace) := by
  obtain ⟨k, hk, h₁, h₂, hlanding⟩ := Passage.Braced.skipped hstrict hw
  have htokens : s'.rest.map Lexeme.token = (w ++ H.next₂).map Lexeme.token := by
    rw [hs.rest₂, List.map_append, List.map_append, map_token_move]
  refine ⟨w.drop k, ?_, List.drop_suffix k w, hlanding, fun hv t ht => ?_⟩
  · have hdrop := at_drop hs hk
    simp only [State.synchronize, skipToBoundary_eq, htokens, h₂]
    rw [← h₁, ← hs.rest₁] at hdrop ⊢
    exact hdrop
  · obtain ⟨u, rfl⟩ := List.head?_eq_some_iff.1 ht
    have hzero : k = 0 := by
      have hlength := congrArg List.length hv
      rw [List.length_drop] at hlength
      omega
    rw [hzero] at h₁
    exact boundary_eq_zero h₁

theorem progressed_iff (hs : H.At w₀ w s s') {t t' : State} (ht : H.At w v t t') :
    s.progressed t = true ↔ v ≠ w := by
  have hlength : v.length < w.length ↔ v ≠ w :=
    ⟨fun hlt hv => (hv ▸ hlt).false, length_lt_of_suffix ht.suffix⟩
  simpa [State.progressed, hs.rest₁, ht.rest₁] using hlength

theorem atBoundary_eq (hs : H.At w₀ w s s') (hne : w ≠ w₀) : s'.atBoundary = s.atBoundary := by
  obtain ⟨t, ht, ht'⟩ := hs.previous hne
  rw [State.atBoundary, State.atBoundary, ht, ht']
  rfl

theorem atLineEnd_eq (hs : H.At w₀ w s s') (hw : H.inside n w) (hne : w ≠ w₀) :
    s'.atLineEnd = s.atLineEnd := by
  obtain ⟨t, ht, ht'⟩ := hs.previous hne
  have hrest := hs.rest₁
  have hrest' := hs.rest₂
  rcases w with _ | ⟨u, w⟩
  · obtain ⟨h₁, h₂⟩ := H.ends_of_inside hw
    rw [h₁] at hrest
    rw [h₂] at hrest'
    rw [State.atLineEnd, State.atLineEnd, ht, ht', hrest, hrest']
    rfl
  · rw [State.atLineEnd, State.atLineEnd, ht, ht', hrest, hrest']
    simp only [Passage.move, Placed.respan, List.map_cons, List.cons_append, Motion.stop_span,
      Motion.start_span, H.motion.line_lt]

/-- After an error in a part that began before `w`, both readings go on behind the same tokens. -/
theorem at_resume [H.Braced] (hstrict : H.strict) {t t' : State} (hs : H.At w₀ w s s')
    (ht : H.At w v t t') (hv : H.inside n v) (hne : w ≠ [])
    (hbrace : 0 < n → w.head?.map Lexeme.token ≠ some (.symbol .rightBrace)) (fault : SyntaxFault) :
    ∃ u, H.At w u (s.resume fault t) (s'.resume fault t') ∧ H.landing n u ∧ u ≠ w := by
  unfold State.resume
  have hprogressed {u : List Lexeme} {a a' : State} (ha : H.At w u a a') (hu : u ≠ w) :
      s.progressed a = true ∧ s'.progressed a' = true := by
    have h := (progressed_iff hs ha).2 hu
    exact ⟨h, (progressed_eq hs ha).trans h⟩
  by_cases hvw : v = w
  · subst hvw
    have hfalse : s.progressed t = false := by
      rw [← Bool.not_eq_true]
      exact fun h => (progressed_iff hs ht).1 h rfl
    have hfalse' : s'.progressed t' = false := (progressed_eq hs ht).trans hfalse
    simp only [hfalse, hfalse', Bool.false_and, Bool.false_eq_true, if_false]
    obtain ⟨u, hu, hsuffix, hlanding, hzero⟩ := at_synchronize hstrict ht hv
    by_cases huw : u = v
    · subst huw
      obtain ⟨l, u, rfl⟩ := List.exists_cons_of_ne_nil hne
      have hl := hzero rfl l rfl
      have hn : n = 0 := by
        by_contra hpos
        exact hbrace (Nat.pos_of_ne_zero hpos) (by simp [hl])
      subst hn
      have hstay : s.progressed t.synchronize = false := by
        rw [← Bool.not_eq_true]
        exact fun h => (progressed_iff hs hu).1 h rfl
      have hstay' : s'.progressed t'.synchronize = false := (progressed_eq hs hu).trans hstay
      simp only [hstay, hstay', Bool.false_eq_true, if_false]
      exact ⟨u, At.advance hu, H.leave_cons hv (.inl hstrict), ne_of_cons_suffix (List.suffix_refl _)⟩
    · obtain ⟨h, h'⟩ := hprogressed hu huw
      simp only [h, h', if_true]
      exact ⟨u, hu, hlanding, huw⟩
  · obtain ⟨h, h'⟩ := hprogressed ht hvw
    simp only [h, h', Bool.true_and, atBoundary_eq ht hvw, atLineEnd_eq ht hv hvw]
    split
    · exact ⟨v, ht, Passage.landing_of_inside hstrict hv, hvw⟩
    · obtain ⟨u, hu, hsuffix, hlanding, -⟩ := at_synchronize hstrict ht hv
      have huw := ne_of_suffix ht.suffix hsuffix hvw
      obtain ⟨hu₁, hu₂⟩ := hprogressed hu huw
      simp only [hu₁, hu₂, if_true]
      exact ⟨u, hu, hlanding, huw⟩

/-- Where a part may begin: before a token that does not end what stands around. -/
def opens (H : Passage) (n : Nat) : Stage := fun _ w =>
  H.inside n w ∧ w ≠ [] ∧ (0 < n → w.head?.map Lexeme.token ≠ some (.symbol .rightBrace))

instance : Within H n (opens H n) := ⟨And.left⟩

omit [Placed β] in
theorem recover_bind (before : State) (e : SyntaxError) (f : ErrorMark → Parser β) (c : Context)
    (s : State) : (recover before e >>= f) c s = ((spanFrom (before.nextSpan c.stop) >>= fun span =>
      record e >>= fun _ => pure (e.mark span)) >>= f) c (before.resume e.fault s) := rfl

omit [Placed α] in
/-- An error from which reading recovers is recorded. -/
theorem recovering_errors_ne {mark : ErrorMark → α} {e : SyntaxError} (h : (p c s).1 = .error e) :
    (recovering mark p c s).2.errors ≠ #[] := by
  rw [recovering, state_bind, attempt_bind, h]
  exact Array.push_ne_empty

omit [Placed α] in
theorem recovering_ok {mark : ErrorMark → α} {x : α} (h : (p c s).1 = .ok x) :
    recovering mark p c s = p c s := by
  rw [recovering, state_bind, attempt_bind, h]
  exact Prod.ext h.symm rfl

/-- A part is read in both readings or marked in both. -/
theorem same_recovering [H.Braced] {mark : ErrorMark → α}
    (h : Follows H n (H.before n) p p' fun _ => H.behind n)
    (hmark : ∀ m, mark (H.move m) = H.move (mark m)) (hc : H.Knows n c c') (hs : H.At w₀ w s s')
    (hw : opens H n w₀ w) :
    Same H n w₀ (fun _ => H.behind n) (recovering mark p c s) (recovering mark p' c' s')
      ∨ ¬H.strict ∧ ((recovering mark p c s).2.errors ≠ #[]
        ∨ n = 0 ∧ (recovering mark p c s).2.rest.length < H.next₁.length) := by
  obtain ⟨hw, hne, hbrace⟩ := hw
  rcases h.same hc hs.restart hw with hpart | ⟨hstrict, hspoilt⟩
  · rcases hr : p c s with ⟨r, t⟩
    rcases hr' : p' c' s' with ⟨r', t'⟩
    rw [hr, hr'] at hpart
    cases hpart with
    | @ok _ _ _ _ v hx ht hO =>
      rw [recovering_ok (congrArg Prod.fst hr), recovering_ok (congrArg Prod.fst hr'), hr, hr']
      exact .inl (.ok hx (ht.around hs.suffix hO.2)
        ⟨hO.1, ne_of_suffix_of_ne hs.suffix ht.suffix hO.2⟩)
    | @error e e' _ _ v he ht hv =>
      by_cases hstrict : H.strict
      · subst he
        obtain ⟨u, hu, hlanding, huw⟩ :=
          at_resume hstrict hs ht (hv.inside hstrict) hne hbrace e.fault
        have hmarked : Agrees H n n (H.behind n)
            ((spanFrom (s.nextSpan c.stop) >>= fun span => record e >>= fun _ =>
              pure (e.mark span)) >>= fun m => pure (mark m))
            ((spanFrom (H.motion.span (s.nextSpan c.stop)) >>= fun span =>
              record (H.move e) >>= fun _ => pure ((H.move e).mark span))
              >>= fun m => pure (mark m)) fun _ => H.behind n := by
          refine Agrees.bind (M := fun _ => H.behind n) ?_ fun m => agrees_value (hmark m)
          exact agrees_spanFrom fun span => (agrees_record rfl).bind fun _ => agrees_value rfl
        rw [recovering, recovering, state_bind, state_bind, attempt_bind, attempt_bind, hr, hr']
        dsimp only
        rw [recover_bind, recover_bind, nextSpan_eq hc hs hw]
        refine (hmarked.same hc (hu.around hs.suffix huw)
          ⟨hlanding, ne_of_suffix_of_ne hs.suffix hu.suffix huw⟩).resolve_right ?_ |> .inl
        exact fun hlost => hlost.1 hstrict
      · exact .inr ⟨hstrict, .inl (recovering_errors_ne (congrArg Prod.fst hr))⟩
  · refine .inr ⟨hstrict, ?_⟩
    rcases hr : p c s with ⟨e | x, t⟩
    · exact .inl (recovering_errors_ne (congrArg Prod.fst hr))
    · rw [recovering_ok (congrArg Prod.fst hr)]
      exact hspoilt.resolve_left (by simp [hr])

theorem agrees_recovering [H.Braced] {mark : ErrorMark → α}
    (h : Follows H (n + 1) (H.before (n + 1)) p p' fun _ => H.behind (n + 1))
    (hmark : ∀ m, mark (H.move m) = H.move (mark m)) :
    Agrees H (n + 1) (n + 1) (opens H (n + 1)) (recovering mark p) (recovering mark p')
      fun _ => H.behind (n + 1) where
  onward := onward_recovering mark h.onward
  run _ _ hc _ _ _ _ hs hw :=
    (same_recovering h hmark hc hs hw).imp_right fun ⟨hstrict, hlost⟩ =>
      ⟨hstrict, hlost.imp_right fun ⟨hn, _⟩ => absurd hn (Nat.succ_ne_zero n)⟩

/-! ### Bodies -/

theorem agrees_partsOver
    (h : Agrees H (n + 1) (n + 1) (opens H (n + 1)) p p' fun _ => H.behind (n + 1)) :
    ∀ clock clock', Agrees H (n + 1) (n + 1) (clocked H (H.amid (n + 1)) clock clock')
      (partsOver p clock) (partsOver p' clock') fun _ => H.amid (n + 1)
  | [], clock' => by
    refine ⟨onward_pure [], fun c c' _ w₀ w s s' hs hw => ?_⟩
    rw [(hw.2.nil_iff hw.1.1).1 rfl]
    exact .inl (.ok rfl hs hw.1)
  | t :: clock, [] => by
    refine ⟨onward_partsOver h.onward _, fun _ _ _ _ _ _ _ _ hw => ?_⟩
    exact absurd ((hw.2.nil_iff hw.1.1).2 rfl) (by simp)
  | t :: clock, t' :: clock' => by
    refine agrees_atEnd (agrees_pure rfl fun _ _ hw => hw.1.1) ?_
    refine agrees_nextIs (agrees_pure rfl fun _ _ hw => hw.1.1.1) ?_
    refine h.stepFrom (fun w₀ w hw => ?_) fun x => ?_
    · exact ⟨⟨hw.1.1.1.1, hw.1.2, fun _ => hw.2⟩, ⟨hw.1.1.1.1, hw.1.2, fun _ => hw.2⟩⟩
    · refine Agrees.bind (M := fun _ => H.amid (n + 1)) ?_ fun xs => agrees_value rfl
      refine (agrees_partsOver h clock clock').weaken fun w₀ v ⟨w, hw, _, hO, hv, hsuffix⟩ => ?_
      exact ⟨hO, hw.1.1.2.tail hsuffix hv.2⟩

/-- The mark of a missing brace closes what it stands in, or else an error was met. -/
theorem agrees_missingBrace {make make' : ErrorMark → β}
    (hmake : ∀ m, make' (H.move m) = H.move (make m)) :
    Agrees H (k + 1) n (H.amid (n + 1)) (missingBrace >>= fun m => pure (make m))
      (missingBrace >>= fun m => pure (make' m)) fun _ => H.behind n := by
  have hagrees {O : β → Stage} (hO : ∀ x w₀ w, H.amid (n + 1) w₀ w → O x w₀ w) :
      Agrees H (k + 1) n (H.amid (n + 1)) (missingBrace >>= fun m => pure (make m))
        (missingBrace >>= fun m => pure (make' m)) O :=
    Agrees.bind (M := fun _ => H.amid (n + 1)) (agrees_previousSpan fun _ =>
      (agrees_record rfl).bind fun _ => agrees_value rfl) fun m => agrees_pure (hmake m) (hO _)
  by_cases hstrict : H.strict
  · exact hagrees fun _ _ _ hw => ⟨Passage.landing_of_inside hstrict (H.lower hstrict hw.1), hw.2⟩
  · refine ⟨(hagrees fun _ _ _ => id : Agrees H (k + 1) n _ _ _ fun _ => H.amid (n + 1)).onward, ?_⟩
    exact fun c c' _ w₀ w s s' _ _ => .inr ⟨hstrict, .inl Array.push_ne_empty⟩

/-- The parts of a body behind its opening brace. -/
theorem agrees_body [H.Braced] {mark : ErrorMark → α}
    (h : Follows H (n + 1) (H.before (n + 1)) p p' fun _ => H.behind (n + 1))
    (hmark : ∀ m, mark (H.move m) = H.move (mark m)) :
    Agrees H (n + 1) n (H.amid (n + 1)) (body mark p) (body mark p') fun _ => H.behind n := by
  have hpart := agrees_recovering h hmark
  have hparts : Agrees H (n + 1) n (H.amid (n + 1))
      (state >>= fun s => partsOver (recovering mark p) s.rest)
      (state >>= fun s => partsOver (recovering mark p') s.rest) fun _ => H.amid (n + 1) := by
    refine ⟨fun c s => onward_partsOver hpart.onward s.rest c s, ?_⟩
    intro c c' hc w₀ w s s' hs hw
    exact ((agrees_partsOver hpart _ _).lower (Nat.le_succ n)).same hc hs ⟨hw, clocks_rest hs⟩
  refine hparts.bind fun parts => agrees_atEnd ?_ ?_
  · refine (agrees_missingBrace fun m => ?_).weaken fun _ _ => And.left
    rw [hmark]
    exact (respan_append parts [mark m]).symm
  · refine Agrees.weaken (I := H.amid (n + 1)) ?_ fun _ _ => And.left
    exact agrees_lastBrace.bind fun _ => agrees_value rfl

end Parser

end SolidityFrontend
