import SolidityFrontend.Proofs.Accepting
import SolidityFrontend.Proofs.Onward
import SolidityFrontend.Proofs.Passages

/-!
# Two readings that agree

`Agrees H k n I p p' O` says that where two readings of a passage stand before the same tokens, at a
stage of `I`, the parser `p` of the first one and the parser `p'` of the second one give the same
answer, moved like the text, and stop before the same tokens at a stage of `O`; where they fail, at
least `n` braces are open. Or else the first reading is lost, where `k` braces are open. Its rules
follow the steps of a parser.
-/

namespace SolidityFrontend

namespace Parser

variable {α β : Type} [Placed α] [Placed β] {H : Passage} {k k' n m m' : Nat}
  {w₀ w v : List Lexeme} {I I' : Stage} {c c' : Context} {s s' : State} {p p' : Parser α}
  {f f' : α → Parser β} {O O' M : α → Stage} {N : β → Stage}

omit [Placed α] in
/-- Who is lost stays lost. -/
theorem Onward.lost (h : Onward p) (hs : H.Lost k s) : H.Lost k (p c s).2 := by
  obtain ⟨ts, es, ht⟩ := h c s
  exact ⟨hs.1, hs.2.imp ht.errors_ne fun ⟨hk, hle⟩ => ⟨hk, ht.length_le.trans hle⟩⟩

/-- The answers of two readings of a part that began before `w₀`. -/
inductive Same (H : Passage) (n : Nat) (w₀ : List Lexeme) (O : α → Stage) :
    Except SyntaxError α × State → Except SyntaxError α × State → Prop
  | ok {x x' : α} {s s' : State} {w : List Lexeme} (hx : x' = H.move x) (hs : H.At w₀ w s s')
      (hO : O x w₀ w) : Same H n w₀ O (.ok x, s) (.ok x', s')
  | error {e e' : SyntaxError} {s s' : State} {w : List Lexeme} (he : e' = H.move e)
      (hs : H.At w₀ w s s') (hw : H.deep n w) : Same H n w₀ O (.error e, s) (.error e', s')

/-- Two readings of a passage go the same way, unless the first one is lost. -/
structure Agrees (H : Passage) (k n : Nat) (I : Stage) (p p' : Parser α) (O : α → Stage) :
    Prop where
  onward : Onward p
  run : ∀ c c', H.Knows k c c' → ∀ w₀ w s s', H.At w₀ w s s' → I w₀ w →
    Same H n w₀ O (p c s) (p' c' s') ∨ H.Lost k (p c s).2

theorem Agrees.same (h : Agrees H k n I p p' O) (hc : H.Knows k c c') (hs : H.At w₀ w s s')
    (hw : I w₀ w) : Same H n w₀ O (p c s) (p' c' s') ∨ H.Lost k (p c s).2 :=
  h.run c c' hc w₀ w s s' hs hw

/-- The parser takes the same tokens in both readings, and at least one. -/
abbrev Agreed (H : Passage) (n : Nat) (p : Parser α) : Prop :=
  Agrees H n n (H.before n) p p fun _ => H.amid n

/-- Stages at which a number of braces is open. -/
class Within (H : Passage) (n : outParam Nat) (I : Stage) : Prop where
  inside : ∀ {w₀ w}, I w₀ w → H.inside n w

/-- Stages at which a token has been taken. -/
class Behind (I : Stage) : Prop where
  ne : ∀ {w₀ w}, I w₀ w → w ≠ w₀

/-- Before a token that was seen. -/
def seeing (I : Stage) (t : Option Token) : Stage := fun w₀ w =>
  I w₀ w ∧ w.head?.map Lexeme.token = t

/-- Before a token that is not this one. -/
def lacking (I : Stage) (t : Token) : Stage := fun w₀ w =>
  I w₀ w ∧ w.head?.map Lexeme.token ≠ some t

/-- Before at least one token. -/
def going (I : Stage) : Stage := fun w₀ w => I w₀ w ∧ w ≠ []

/-- Behind a part that began at a stage, from which it leads to another. -/
def past (I M : Stage) : Stage := fun w₀ v => ∃ w, I w₀ w ∧ w <:+ w₀ ∧ M w₀ v ∧ M w v ∧ v <:+ w

instance : Within H n (H.before n) := ⟨id⟩

instance : Within H n (H.amid n) := ⟨And.left⟩

instance : Behind (H.amid n) := ⟨And.right⟩

instance : Behind (H.behind n) := ⟨And.right⟩

instance [Within H n I] {t : Option Token} : Within H n (seeing I t) :=
  ⟨fun h => Within.inside h.1⟩

instance [Behind I] {t : Option Token} : Behind (seeing I t) := ⟨fun h => Behind.ne h.1⟩

instance [Within H n I] {t : Token} : Within H n (lacking I t) := ⟨fun h => Within.inside h.1⟩

instance [Behind I] {t : Token} : Behind (lacking I t) := ⟨fun h => Behind.ne h.1⟩

instance [Within H n I] : Within H n (going I) := ⟨fun h => Within.inside h.1⟩

instance [Within H n I] [Within H n I'] {b : Bool} : Within H n (if b then I else I') where
  inside := by
    cases b with
    | true => exact fun h => Within.inside (I := I) h
    | false => exact fun h => Within.inside (I := I') h

instance [Behind I] [Behind I'] {b : Bool} : Behind (if b then I else I') where
  ne := by
    cases b with
    | true => exact fun h => Behind.ne (I := I) h
    | false => exact fun h => Behind.ne (I := I') h

instance [Within H n I] : Within H n (past I' I) := ⟨fun ⟨_, _, _, h, _⟩ => Within.inside h⟩

theorem Same.mono {r r' : Except SyntaxError α × State} (h : Same H n w₀ O r r')
    (hO : ∀ x w, O x w₀ w → O' x w₀ w) : Same H n w₀ O' r r' := by
  cases h with
  | ok hx hs hO' => exact .ok hx hs (hO _ _ hO')
  | error he hs hw => exact .error he hs hw

theorem Same.lower {r r' : Except SyntaxError α × State} (h : Same H m w₀ O r r') (hnm : n ≤ m) :
    Same H n w₀ O r r' := by
  cases h with
  | ok hx hs hO => exact .ok hx hs hO
  | error he hs hw => exact .error he hs (hw.le hnm)

theorem Agrees.mono (h : Agrees H k n I p p' O) (hI : ∀ w₀ w, I' w₀ w → I w₀ w)
    (hO : ∀ x w₀ w, O x w₀ w → O' x w₀ w) : Agrees H k n I' p p' O' where
  onward := h.onward
  run _ _ hc _ _ _ _ hs hw :=
    (h.same hc hs (hI _ _ hw)).imp_left fun hsame => hsame.mono fun x w => hO x _ w

theorem Agrees.weaken (h : Agrees H k n I p p' O) (hI : ∀ w₀ w, I' w₀ w → I w₀ w) :
    Agrees H k n I' p p' O := h.mono hI fun _ _ _ => id

theorem Agrees.lower (h : Agrees H k m I p p' O) (hnm : n ≤ m) : Agrees H k n I p p' O where
  onward := h.onward
  run _ _ hc _ _ _ _ hs hw := (h.same hc hs hw).imp_left fun hsame => hsame.lower hnm

/-- More readings are lost where fewer braces are open. -/
theorem Agrees.loosen (h : Agrees H k n I p p' O) (hk : k' ≤ k) : Agrees H k' n I p p' O where
  onward := h.onward
  run _ _ hc _ _ _ _ hs hw := (h.same (hc.raise hk) hs hw).imp_right fun hlost => hlost.lower hk

/-- A part that begins where a token has been taken already. -/
theorem Agrees.of_before [Within H m I] (h : Agrees H k n (H.before m) p p' O) :
    Agrees H k n I p p' O := h.weaken fun _ _ => Within.inside

/-- What the readings of a part tell of the part alone, and of the one around it. -/
theorem Agrees.restart (h : Agrees H k n I p p' O) (hc : H.Knows k c c') (hs : H.At w₀ w s s')
    (hw : I w₀ w) (hw' : I w w) :
    Same H n w₀ (fun x _ v => O x w₀ v ∧ O x w v ∧ v <:+ w) (p c s) (p' c' s')
      ∨ H.Lost k (p c s).2 := by
  rcases h.same hc hs hw with houter | hlost
  · rcases h.same hc hs.restart hw' with hinner | hlost
    · refine .inl ?_
      generalize p c s = a, p' c' s' = a' at houter hinner ⊢
      cases houter with
      | ok hx ht hO =>
        cases hinner with
        | ok hx' ht' hO' =>
          obtain rfl := ht.unique ht'
          exact .ok hx ht ⟨hO, hO', ht'.suffix⟩
      | error he ht hv => exact .error he ht hv
    · exact .inr hlost
  · exact .inr hlost

/-- What leaves a passage where it was inside leaves it behind the first token if one was taken
before. -/
theorem Agrees.amid (h : Agrees H k n (H.before m) p p' O)
    (hO : ∀ x w₀ w, O x w₀ w → H.inside m' w) :
    Agrees H k n (H.amid m) p p' fun _ => H.amid m' where
  onward := h.onward
  run c c' hc w₀ w s s' hs hw := by
    refine (h.restart hc hs hw.1 hw.1).imp_left fun hsame => hsame.mono fun x v hv => ?_
    exact ⟨hO x _ v hv.1, ne_of_suffix hs.suffix hv.2.2 hw.2⟩

/-! ### Steps -/

theorem agrees_pure {x x' : α} (hx : x' = H.move x) (h : ∀ w₀ w, I w₀ w → O x w₀ w) :
    Agrees H k n I (pure x) (pure x') O where
  onward := onward_pure x
  run _ _ _ _ _ _ _ hs hw := .inl (.ok hx hs (h _ _ hw))

/-- A value in place. -/
theorem agrees_value {x x' : α} (hx : x' = H.move x) :
    Agrees H k n I (pure x) (pure x') fun _ => I := agrees_pure hx fun _ _ => id

theorem Same.bind (h : Same H n w₀ M (p c s) (p' c' s'))
    (hf : ∀ {x v t t'}, H.At w₀ v t t' → M x w₀ v →
      Same H n w₀ N (f x c t) (f' (H.move x) c' t') ∨ H.Lost k (f x c t).2) :
    Same H n w₀ N ((p >>= f) c s) ((p' >>= f') c' s') ∨ H.Lost k ((p >>= f) c s).2 := by
  rcases hr : p c s with ⟨r, t⟩
  rcases hr' : p' c' s' with ⟨r', t'⟩
  rw [hr, hr'] at h
  cases h with
  | ok hx ht hM =>
    subst hx
    rw [bind_ok hr, bind_ok hr']
    exact hf ht hM
  | error he ht hv =>
    rw [bind_error hr, bind_error hr']
    exact .inl (.error he ht hv)

omit [Placed α] [Placed β] in
theorem lost_bind (h : H.Lost k (p c s).2) (hf : ∀ x, Onward (f x)) :
    H.Lost k ((p >>= f) c s).2 := by
  rcases hr : p c s with ⟨e | x, t⟩
  · rw [hr] at h
    rwa [bind_error hr]
  · rw [hr] at h
    rw [bind_ok hr]
    exact (hf x).lost h

theorem Agrees.bind (h : Agrees H k n I p p' M)
    (hf : ∀ x, Agrees H k n (M x) (f x) (f' (H.move x)) N) :
    Agrees H k n I (p >>= f) (p' >>= f') N where
  onward := h.onward.bind fun x => (hf x).onward
  run _ _ hc _ _ _ _ hs hw := by
    rcases h.same hc hs hw with hsame | hlost
    · exact hsame.bind fun ht hM => (hf _).same hc ht hM
    · exact .inr (lost_bind hlost fun x => (hf x).onward)

/-- A part at the beginning or behind other tokens, and the steps behind it. -/
theorem Agrees.then [Within H m I] (h : Agrees H k n (H.before m) p p' M)
    (hf : ∀ x, Agrees H k n (M x) (f x) (f' (H.move x)) N) :
    Agrees H k n I (p >>= f) (p' >>= f') N := h.of_before.bind hf

/-- A part, and the steps behind it, which know where it began. -/
theorem Agrees.stepFrom (h : Agrees H k n I' p p' M) (hI : ∀ w₀ w, I w₀ w → I' w₀ w ∧ I' w w)
    (hf : ∀ x, Agrees H k n (past I (M x)) (f x) (f' (H.move x)) N) :
    Agrees H k n I (p >>= f) (p' >>= f') N where
  onward := h.onward.bind fun x => (hf x).onward
  run c c' hc w₀ w s s' hs hw := by
    rcases h.restart hc hs (hI w₀ w hw).1 (hI w₀ w hw).2 with hsame | hlost
    · exact hsame.bind fun ht hM => (hf _).same hc ht ⟨w, hw, hs.suffix, hM⟩
    · exact .inr (lost_bind hlost fun x => (hf x).onward)

/-- A part that may begin anywhere, and the steps behind it, which know where it began. -/
theorem Agrees.step [Within H m I] (h : Agrees H k n (H.before m) p p' M)
    (hf : ∀ x, Agrees H k n (past I (M x)) (f x) (f' (H.move x)) N) :
    Agrees H k n I (p >>= f) (p' >>= f') N :=
  h.stepFrom (fun _ _ hw => ⟨Within.inside hw, Within.inside hw⟩) hf

theorem Agrees.map {g g' : α → β} (h : Agrees H k n I p p' O)
    (hg : ∀ x, g' (H.move x) = H.move (g x)) (hO : ∀ x w₀ w, O x w₀ w → N (g x) w₀ w) :
    Agrees H k n I (g <$> p) (g' <$> p') N :=
  h.bind fun x => agrees_pure (hg x) fun w₀ w => hO x w₀ w

theorem Agrees.structLiterals {allowed : Bool} (hk : k = 0 → allowed = true)
    (h : Agrees H k n I p p' O) :
    Agrees H k n I (structLiterals allowed p) (structLiterals allowed p') O where
  onward _ s := h.onward _ s
  run c c' hc w₀ w s s' hs hw := by
    have hc' : H.Knows k { c with structLiterals := allowed }
        { c' with structLiterals := allowed } := ⟨rfl, hk, hc.stop, hc.slice⟩
    exact h.same hc' hs hw

theorem agrees_ite {b : Prop} [Decidable b] {q q' : Parser α} (h : b → Agrees H k n I p p' O)
    (h' : ¬b → Agrees H k n I q q' O) :
    Agrees H k n I (if b then p else q) (if b then p' else q') O := by
  split
  · exact h ‹_›
  · exact h' ‹_›

/-- What a stage tells of a value that was read is known behind it. -/
theorem agrees_of_stage {b : Prop} (honward : Onward p) (h : b → Agrees H k n I p p' O) :
    Agrees H k n (fun w₀ w => I w₀ w ∧ b) p p' O where
  onward := honward
  run _ _ hc _ _ _ _ hs hw := (h hw.2).same hc hs hw.1

theorem agrees_fail [Within H m I] {e e' : SyntaxError} (hnm : n ≤ m) (he : e' = H.move e) :
    Agrees H k n I (fail (α := α) e) (fail e') O where
  onward := onward_fail e
  run _ _ _ _ _ _ _ hs hw := .inl (.error he hs ⟨m, hnm, Within.inside hw⟩)

/-! ### Looking ahead -/

/-- Behind looks at two states of which the readings tell the same. -/
theorem Looks.agrees {γ : Type} [Placed γ] {q q' : Parser γ} {l l' : γ → Parser β}
    {g g' : Context → State → γ} (h : Looks q g) (h' : Looks q' g')
    (hg : ∀ {c c' w₀ w s s'}, H.Knows k c c' → H.At w₀ w s s' → I w₀ w →
      g' c' s' = H.move (g c s))
    (hk : ∀ x, Agrees H k n I (l x) (l' (H.move x)) N) :
    Agrees H k n I (q >>= l) (q' >>= l') N where
  onward := h.onward.bind fun x => (hk x).onward
  run c c' hc w₀ w s s' hs hw := by
    rw [bind_ok (h c s), bind_ok (h' c' s'), hg hc hs hw]
    exact (hk _).same hc hs hw

theorem nextSpan_eq (hc : H.Knows k c c') (hs : H.At w₀ w s s') (hw : H.inside n w) :
    s'.nextSpan c'.stop = H.motion.span (s.nextSpan c.stop) := by
  obtain ⟨h, h'⟩ := hs.head hw
  rcases w with _ | ⟨t, w⟩
  · simp [State.nextSpan, h, h', hc.stop hw]
  · rw [State.nextSpan, State.nextSpan, h, h']
    rfl

theorem agrees_here [Within H m I] {l l' : Span → Parser β}
    (hk : ∀ span, Agrees H k n I (l span) (l' (H.motion.span span)) N) :
    Agrees H k n I (here >>= l) (here >>= l') N :=
  looks_here.agrees looks_here (fun hc hs hw => nextSpan_eq hc hs (Within.inside hw)) hk

theorem previousSpan_eq (hs : H.At w₀ w s s') (hne : w ≠ w₀) :
    s'.previousSpan = H.motion.span s.previousSpan := by
  obtain ⟨t, ht, ht'⟩ := hs.previous hne
  rw [State.previousSpan, State.previousSpan, ht, ht']
  rfl

theorem agrees_previousSpan [Behind I] {l l' : Span → Parser β}
    (hk : ∀ span, Agrees H k n I (l span) (l' (H.motion.span span)) N) :
    Agrees H k n I (previousSpan >>= l) (previousSpan >>= l') N :=
  looks_previousSpan.agrees looks_previousSpan
    (fun _ hs hw => previousSpan_eq hs (Behind.ne hw)) hk

/-- From a span to the token read last, once there is one. -/
theorem agrees_spanFrom [Behind I] {start : Span} {l l' : Span → Parser β}
    (hk : ∀ span, Agrees H k n I (l span) (l' (H.motion.span span)) N) :
    Agrees H k n I (spanFrom start >>= l) (spanFrom (H.motion.span start) >>= l') N := by
  refine (looks_spanFrom start).agrees (looks_spanFrom _) (fun _ hs hw => ?_) hk
  rw [previousSpan_eq hs (Behind.ne hw)]
  simp only [Motion.stop_span, Motion.start_span, H.motion.offset_lt]
  split
  · rfl
  · rfl

/-- Behind a look at the tokens that are left, which shows the same in both readings. -/
theorem Peeks.agrees {γ : Type} {q : Parser γ} {l l' : γ → Parser β} {g : List Lexeme → γ}
    (h : Peeks q g)
    (hg : ∀ {w₀ w}, I w₀ w → g (H.move w ++ H.next₂) = g (w ++ H.next₁))
    (hk : ∀ x, Agrees H k n (fun w₀ w => I w₀ w ∧ g (w ++ H.next₁) = x) (l x) (l' x) N) :
    Agrees H k n I (q >>= l) (q >>= l') N where
  onward := h.looks.onward.bind fun x => (hk x).onward
  run c c' hc w₀ w s s' hs hw := by
    rw [bind_ok (h c s), bind_ok (h c' s'), hs.rest₁, hs.rest₂, hg hw]
    exact (hk _).same hc hs ⟨hw, rfl⟩

omit [Placed α] [Placed β] in
/-- Both readings see the same next token. -/
theorem next_eq [Within H m I] (hw : I w₀ w) :
    (H.move w ++ H.next₂)[0]?.map Lexeme.token = (w ++ H.next₁)[0]?.map Lexeme.token := by
  rcases w with _ | ⟨t, w⟩
  · obtain ⟨h₁, h₂⟩ := H.ends_of_inside (Within.inside hw)
    simp [h₁, h₂]
  · rfl

omit [Placed α] [Placed β] in
theorem seeing_of_next [Within H m I] {x : Option Token}
    (hw : I w₀ w ∧ (w ++ H.next₁)[0]?.map Lexeme.token = x) : seeing I x w₀ w := by
  refine ⟨hw.1, ?_⟩
  rw [← hw.2]
  rcases w with _ | ⟨t, w⟩
  · obtain ⟨h₁, -⟩ := H.ends_of_inside (Within.inside hw.1)
    simp [h₁]
  · rfl

/-- Behind a look at the next token. -/
theorem agrees_next [Within H m I] {l l' : Option Token → Parser β}
    (hk : ∀ x, Agrees H k n (seeing I x) (l x) (l' x) N) :
    Agrees H k n I (next? >>= l) (next? >>= l') N :=
  peeks_next.agrees (fun hw => next_eq hw) fun x => (hk x).weaken fun _ _ hw => seeing_of_next hw

omit [Placed α] [Placed β] in
/-- Both readings see the same token behind the next one. -/
theorem peek_one_eq [Within H m I] {t : Token} (ht : H.Leads t m m') (hw : seeing I (some t) w₀ w) :
    (H.move w ++ H.next₂)[1]?.map Lexeme.token = (w ++ H.next₁)[1]?.map Lexeme.token := by
  obtain ⟨hI, hw⟩ := hw
  rcases w with _ | ⟨l, _ | ⟨l', w⟩⟩
  · simp at hw
  · obtain ⟨h₁, h₂⟩ := H.ends_of_inside (ht (by simpa using hw) (Within.inside hI))
    simp [h₁, h₂]
  · rfl

/-- Behind a look at the token after the next one, which was seen. -/
theorem agrees_peek_one [Within H m I] {t : Token} (ht : H.Leads t m m')
    {l l' : Option Token → Parser β}
    (hk : ∀ x, Agrees H k n (seeing I (some t)) (l x) (l' x) N) :
    Agrees H k n (seeing I (some t)) (peek? 1 >>= l) (peek? 1 >>= l') N :=
  (peeks_peek 1).agrees (fun hw => peek_one_eq ht hw) fun x => (hk x).weaken fun _ _ => And.left

theorem agrees_nextIs [Within H m I] {t : Token} {l l' : Bool → Parser β}
    (htrue : Agrees H k n (seeing I (some t)) (l true) (l' true) N)
    (hfalse : Agrees H k n (lacking I t) (l false) (l' false) N) :
    Agrees H k n I (nextIs t >>= l) (nextIs t >>= l') N := by
  have hnext : ∀ x, Agrees H k n (seeing I x) ((pure (x == some t) : Parser Bool) >>= l)
      ((pure (x == some t) : Parser Bool) >>= l') N := by
    intro x
    by_cases hx : x = some t
    · subst hx
      rw [beq_self_eq_true]
      exact htrue
    · have hne : (x == some t) = false := by simpa using hx
      rw [hne]
      exact hfalse.weaken fun _ _ hw => ⟨hw.1, fun h => hx (hw.2.symm.trans h)⟩
  exact agrees_next hnext

/-- A choice by the next token. -/
theorem agrees_if_nextIs [Within H m I] {t : Token} {q q' : Parser α}
    (htrue : Agrees H k n (seeing I (some t)) p p' O) (hfalse : Agrees H k n I q q' O) :
    Agrees H k n I (nextIs t >>= fun b => if b = true then p else q)
      (nextIs t >>= fun b => if b = true then p' else q') O :=
  agrees_nextIs htrue (hfalse.weaken fun _ _ => And.left)

/-- A choice by the next token, and the steps behind it. -/
theorem agrees_if_nextIs_bind [Within H m I] {t : Token} {q q' : Parser α}
    (htrue : Agrees H k n (seeing I (some t)) p p' M) (hfalse : Agrees H k n I q q' M)
    (hf : ∀ x, Agrees H k n (M x) (f x) (f' (H.move x)) N) :
    Agrees H k n I (nextIs t >>= fun b => if b = true then p >>= f else q >>= f)
      (nextIs t >>= fun b => if b = true then p' >>= f' else q' >>= f') N :=
  agrees_if_nextIs (htrue.bind hf) (hfalse.bind hf)

theorem agrees_nextWord [Within H m I] {l l' : Option String → Parser β}
    (hsome : ∀ name, Agrees H k n (seeing I (some (.identifier name))) (l (some name))
      (l' (some name)) N)
    (hnone : Agrees H k n I (l none) (l' none) N) :
    Agrees H k n I (nextWord? >>= l) (nextWord? >>= l') N := by
  have hnext : ∀ x : Option Token, Agrees H k n (seeing I x)
      ((pure (x.bind Token.identifier?) : Parser (Option String)) >>= l)
      ((pure (x.bind Token.identifier?) : Parser (Option String)) >>= l') N := by
    intro x
    have hother : Agrees H k n (seeing I x) (l none) (l' none) N := hnone.weaken fun _ _ hw => hw.1
    rcases x with _ | t
    · exact hother
    · cases t with
      | identifier name => exact hsome name
      | _ => exact hother
  exact agrees_next hnext

theorem agrees_atEnd [Within H m I] {l l' : Bool → Parser β}
    (htrue : Agrees H k n (fun w₀ w => I w₀ w ∧ w = []) (l true) (l' true) N)
    (hfalse : Agrees H k n (going I) (l false) (l' false) N) :
    Agrees H k n I (atEnd >>= l) (atEnd >>= l') N where
  onward := peeks_atEnd.looks.onward.bind fun
    | true => htrue.onward
    | false => hfalse.onward
  run c c' hc w₀ w s s' hs hw := by
    obtain ⟨h, h'⟩ := hs.nil_iff (Within.inside hw)
    rw [bind_ok (peeks_atEnd c s), bind_ok (peeks_atEnd c' s')]
    by_cases hnil : w = []
    · rw [List.isEmpty_iff.2 (h.1 hnil), List.isEmpty_iff.2 (h'.1 hnil)]
      exact htrue.same hc hs ⟨hw, hnil⟩
    · rw [List.isEmpty_eq_false_iff.2 (mt h.2 hnil), List.isEmpty_eq_false_iff.2 (mt h'.2 hnil)]
      exact hfalse.same hc hs ⟨hw, hnil⟩

/-! ### Failing -/

theorem agrees_unexpected [Within H m I] (hnm : n ≤ m) (e : Expected) :
    Agrees H k n I (unexpected (α := α) e) (unexpected e) O := by
  refine agrees_here fun span => agrees_next fun x => ?_
  cases x with
  | none => exact agrees_fail hnm rfl
  | some t => exact agrees_fail hnm rfl

theorem agrees_violation [Within H m I] (hnm : n ≤ m) (e : Violation) (span : Span) :
    Agrees H k n I (violation (α := α) e span) (violation e (H.motion.span span)) O :=
  agrees_fail hnm rfl

/-! ### Taking tokens -/

theorem At.advance {t : Lexeme} (hs : H.At w₀ (t :: w) s s') :
    H.At w₀ w s.advance s'.advance := by
  have hrest : s.rest = t :: (w ++ H.next₁) := hs.rest₁
  have hrest' : s'.rest = H.move t :: (H.move w ++ H.next₂) := hs.rest₂
  have hsuffix : w <:+ t :: w := List.suffix_cons t w
  have hordered := hs.ordered.of_took (.advance hrest)
  rw [State.advance, hrest] at hordered ⊢
  rw [State.advance, hrest']
  exact ⟨hsuffix.trans hs.suffix, rfl, rfl, fun _ => ⟨t, rfl, rfl⟩, hs.errors, hordered⟩

theorem ne_of_cons_suffix {t : Lexeme} (h : t :: w <:+ w₀) : w ≠ w₀ := by
  rintro rfl
  have hle := h.length_le
  rw [List.length_cons] at hle
  omega

/-- A token that was seen is taken, and leads where it leads. -/
theorem agrees_advance_of {t : Token} {O : Stage}
    (hO : ∀ {w₀ l w}, l.token = t → I w₀ (l :: w) → w ≠ w₀ → O w₀ w) :
    Agrees H k n (seeing I (some t)) advance advance fun _ => O where
  onward := onward_advance
  run c c' hc w₀ w s s' hs hw := by
    obtain ⟨hI, hw⟩ := hw
    rcases w with _ | ⟨l, w⟩
    · simp at hw
    · exact .inl (.ok rfl (At.advance hs)
        (hO (by simpa using hw) hI (ne_of_cons_suffix hs.suffix)))

theorem agrees_advance [Within H m I] {t : Token} (ht : H.Leads t m m') :
    Agrees H k n (seeing I (some t)) advance advance fun _ => H.amid m' :=
  agrees_advance_of fun hl hI hne => ⟨ht hl (Within.inside hI), hne⟩

/-- A token that may be there is taken in both readings or in none. -/
theorem agrees_accept_of [Within H m I] {t : Token} {O : Stage}
    (h : Agrees H k n (seeing I (some t)) advance advance fun _ => O) :
    Agrees H k n I (accept t) (accept t) fun b => if b then O else I := by
  refine agrees_nextIs ?_ (agrees_pure rfl fun _ _ => And.left)
  exact h.bind fun _ => agrees_pure rfl fun _ _ => id

theorem agrees_accept [Within H m I] {t : Token} (ht : H.Leads t m m') :
    Agrees H k n I (accept t) (accept t) fun b => if b then H.amid m' else I :=
  agrees_accept_of (agrees_advance ht)

/-- A choice by a token that may be there. -/
theorem agrees_if_accept [Within H m I] {t : Token} (ht : H.Leads t m m') {q q' : Parser α}
    (htrue : Agrees H k n (H.amid m') p p' O) (hfalse : Agrees H k n I q q' O) :
    Agrees H k n I (accept t >>= fun b => if b = true then p else q)
      (accept t >>= fun b => if b = true then p' else q') O := by
  refine (agrees_accept ht).bind fun b => ?_
  cases b with
  | true => exact htrue
  | false => exact hfalse

/-- A choice by a token that may be there, and the steps behind it. -/
theorem agrees_if_accept_bind [Within H m I] {t : Token} (ht : H.Leads t m m') {q q' : Parser α}
    (htrue : Agrees H k n (H.amid m') p p' M) (hfalse : Agrees H k n I q q' M)
    (hf : ∀ x, Agrees H k n (M x) (f x) (f' (H.move x)) N) :
    Agrees H k n I (accept t >>= fun b => if b = true then p >>= f else q >>= f)
      (accept t >>= fun b => if b = true then p' >>= f' else q' >>= f') N :=
  agrees_if_accept ht (htrue.bind hf) (hfalse.bind hf)

theorem agrees_take [Within H n I] {t : Token} (ht : H.Leads t n m') (e : Expected) :
    Agrees H k n I (take t e) (take t e) fun _ => H.amid m' := by
  refine agrees_here fun span => agrees_if_accept ht (agrees_pure rfl fun _ _ => id) ?_
  exact agrees_unexpected le_rfl e

theorem agrees_keyword [Within H n I] (word : Keyword) :
    Agrees H k n I (keyword word) (keyword word) fun _ => H.amid n :=
  agrees_take (Passage.leads_inner rfl) _

theorem agrees_word [Within H n I] (w : String) :
    Agrees H k n I (word w) (word w) fun _ => H.amid n :=
  agrees_take (Passage.leads_inner rfl) _

/-- A symbol that opens or separates. -/
theorem agrees_symbol [Within H n I] {t : Symbol} (hclosing : isClosing t = false)
    (ht : H.Leads (.symbol t) n m') :
    Agrees H k n I (symbol t) (symbol t) fun _ => H.amid m' := by
  refine agrees_here fun span => agrees_if_accept ht (agrees_pure rfl fun _ _ => id) ?_
  rw [hclosing]
  exact agrees_unexpected le_rfl _

/-- A symbol behind other tokens. -/
theorem agrees_closing_of [Within H m I] [Behind I] (hnm : n ≤ m) {t : Symbol} {O : Stage}
    (h : Agrees H k n (seeing I (some (.symbol t))) advance advance fun _ => O) :
    Agrees H k n I (symbol t) (symbol t) fun _ => O := by
  refine agrees_here fun span => (agrees_accept_of h).bind fun b => ?_
  cases b with
  | true => exact agrees_pure rfl fun _ _ => id
  | false =>
    change Agrees H k n I (if isClosing t = true then _ else _) (if isClosing t = true then _ else _) _
    refine agrees_ite (fun _ => ?_) fun _ => agrees_unexpected hnm _
    exact agrees_previousSpan fun span => agrees_fail hnm rfl

theorem agrees_closing [Within H n I] [Behind I] {t : Symbol} (ht : H.Leads (.symbol t) n m') :
    Agrees H k n I (symbol t) (symbol t) fun _ => H.amid m' :=
  agrees_closing_of le_rfl (agrees_advance ht)

section

variable [H.Braced]

/-- A brace that closes what stands in an item. -/
theorem agrees_advance_rightBrace [Within H (n + 1) I] :
    Agrees H n n (seeing I (some (.symbol .rightBrace))) advance advance fun _ => H.amid n where
  onward := onward_advance
  run c c' hc w₀ w s s' hs hw := by
    obtain ⟨hI, hw⟩ := hw
    rcases w with _ | ⟨l, w⟩
    · simp at hw
    have hl : l.token = .symbol .rightBrace := by simpa using hw
    have hin : H.inside (n + 1) (l :: w) := Within.inside hI
    rcases (Passage.Braced.closed hin hl).2 with hw' | ⟨hstrict, rfl, rfl⟩
    · exact .inl (.ok rfl (At.advance hs) ⟨hw', ne_of_cons_suffix hs.suffix⟩)
    · refine .inr ⟨hstrict, .inr ⟨rfl, ?_⟩⟩
      change s.advance.rest.length ≤ _
      rw [(At.advance hs).rest₁]
      exact le_rfl

theorem agrees_rightBrace [Within H (n + 1) I] [Behind I] :
    Agrees H n n I (symbol .rightBrace) (symbol .rightBrace) fun _ => H.amid n :=
  agrees_closing_of (Nat.le_succ n) agrees_advance_rightBrace

/-- A brace that closes an item. -/
theorem agrees_lastBrace [Within H (n + 1) I] [Behind I] :
    Agrees H k n I (symbol .rightBrace) (symbol .rightBrace) fun _ => H.behind n :=
  agrees_closing_of (Nat.le_succ n) <| agrees_advance_of fun hl hI hne =>
    ⟨Passage.landing_of_rightBrace hl (Within.inside hI), hne⟩

/-- A semicolon that ends an item. -/
theorem agrees_lastSemicolon [Within H n I] [Behind I] :
    Agrees H k n I (symbol .semicolon) (symbol .semicolon) fun _ => H.behind n :=
  agrees_closing_of le_rfl <| agrees_advance_of fun hl hI hne =>
    ⟨Passage.landing_of_semicolon hl (Within.inside hI), hne⟩

end

theorem agrees_identifier [Within H n I] :
    Agrees H k n I identifier identifier fun _ => H.amid n := by
  refine agrees_here fun span => agrees_nextWord (fun name => ?_) (agrees_unexpected le_rfl _)
  refine (agrees_advance (Passage.leads_inner rfl)).bind fun _ => ?_
  exact agrees_pure rfl fun _ _ => id

theorem agrees_identifier? [Within H n I] :
    Agrees H k n I identifier? identifier? fun o => if o.isSome then H.amid n else I := by
  refine agrees_nextWord (fun name => ?_) (agrees_pure rfl fun _ _ => id)
  exact agrees_identifier.bind fun i => agrees_pure rfl fun _ _ => id

theorem agrees_stringText [Within H n I] :
    Agrees H k n I stringText stringText fun _ => H.amid n := by
  refine agrees_here fun span => agrees_next fun x => ?_
  split
  · refine (agrees_advance (Passage.leads_inner rfl)).bind fun _ => ?_
    exact agrees_pure rfl fun _ _ => id
  · exact agrees_unexpected le_rfl _

theorem agrees_record {e e' : SyntaxError} (he : e' = H.move e) :
    Agrees H k n I (record e) (record e') fun _ => I where
  onward := onward_record e
  run c c' _ w₀ w s s' hs hw := by
    refine .inl (.ok rfl ⟨hs.suffix, hs.rest₁, hs.rest₂, hs.previous, ?_, hs.ordered⟩ hw)
    simp [hs.errors, he, respan_list]

end Parser

end SolidityFrontend
