import SolidityFrontend.Proofs.Echoing

/-!
# Repetition and recovery in an echo

The second reading goes through the same rounds of a loop as the first. Its bound is another one, but
leaves room for the tokens of the passage, and at the end of the passage it stops where the first
reading does (`Rounds`). A part from which the first reading had to recover has no echo, since an
error is recorded for it.
-/

namespace SolidityFrontend

namespace Parser

variable {α β : Type} [Placed α] [Placed β] {H : Setting} {j k m : Nat} {c c' : Context}
  {s s' t : State} {w : List Lexeme} {p p' : Parser α} {f f' : α → Parser β}
  {P : Proviso α} {Q : Proviso β} {S : Proviso (Option α)} {I : List Lexeme → Prop}
  {R : Context → State → Prop}

/-! ### Rounds of a loop -/

/-- What is asked of the context alone. -/
abbrev givenContext {α : Type} (R : Context → Prop) : Proviso α := fun _ c _ => R c

/-- What is asked only where a loop ends. -/
abbrev atLast (R : Context → State → Prop) : Proviso (Option α) := fun o c t => o = none → R c t

/-- A parser that is repeated as long as it has a value, each of which takes a token. -/
structure Rounds (H : Setting) (S : Proviso (Option α)) (k : Nat)
    (more more' : Parser (Option α)) : Prop where
  echoes : Echoes H S anywhere k k more more'
  strides : ∀ c s x t, more c s = (.ok (some x), t) → t.rest.length < s.rest.length
  halts : k = 0 → ∀ c c' s s', H.At [] s s' →
    (s.rest = [] ∨ ∃ t, more c s = (.ok none, t) ∧ s.rest.length ≤ t.rest.length) →
    more' c' s' = (.ok none, s')

/-- Rounds that begin with tokens of one kind. -/
theorem rounds_next {T : Option Token → Prop} {l l' : Option Token → Parser (Option α)}
    (h : ∀ o, T o → Echoes H S (facing anywhere o) (k + 1) k (l o) (l' o))
    (hl : ∀ o, ¬T o → l o = pure none ∧ l' o = pure none) (hnone : ¬T none)
    (hbars : k = 0 → T H.head₂ → T H.head₁) : Rounds H S k (next? >>= l) (next? >>= l') where
  echoes := echoes_next_or h hl (echoes_pure rfl) hbars
  strides c s x t hx := by
    rw [next_bind] at hx
    by_cases ho : T s.tokens.head?
    · have hle := (h _ ho).steps c s _ t (facing_head trivial) hx
      omega
    · rw [(hl _ ho).1] at hx
      exact absurd (pure_eq_ok hx).1 (by simp)
  halts hk₀ c c' s s' hs hend := by
    have hstop : ¬T H.head₂ := by
      intro ho
      have ho₁ := hs.head_nil₁ ▸ hbars hk₀ ho
      rcases hend with hnil | ⟨t, ht, hle⟩
      · rw [State.tokens, hnil] at ho₁
        exact hnone ho₁
      · rw [next_bind] at ht
        have hlt := (h _ ho₁).steps c s _ t (facing_head trivial) ht
        omega
    rw [next_bind, hs.head_nil₂, (hl _ hstop).2]
    rfl

theorem Rounds.here {l l' : Span → Parser (Option α)} (h : ∀ a a', Rounds H S k (l a) (l' a')) :
    Rounds H S k (Parser.here >>= l) (Parser.here >>= l') where
  echoes := echoes_here fun a a' => (h a a').echoes
  strides c s x t hx := by
    rw [bind_ok (looks_here c s)] at hx
    exact (h _ .origin).strides c s x t hx
  halts hk₀ c c' s s' hs hend := by
    rw [bind_ok (looks_here c s)] at hend
    rw [bind_ok (looks_here c' s')]
    exact (h _ _).halts hk₀ c c' s s' hs hend

/-- Rounds that begin with one token. -/
theorem rounds_if_nextIs {a : Token} {more more' : Parser (Option α)}
    (h : Echoes H S (facing anywhere (some a)) (k + 1) k more more') (hbars : H.Bars k a) :
    Rounds H S k (nextIs a >>= fun b => if b = true then more else pure none)
      (nextIs a >>= fun b => if b = true then more' else pure none) := by
  rw [nextIs_bind, nextIs_bind]
  refine rounds_next (fun o (ho : o = some a) => ?_) (fun o ho => ?_) (by simp) hbars
  · rw [if_pos (beq_iff_eq.2 ho), if_pos (beq_iff_eq.2 ho), ho]
    exact h
  · rw [if_neg (mt beq_iff_eq.1 ho), if_neg (mt beq_iff_eq.1 ho)]
    exact ⟨rfl, rfl⟩

theorem rounds_if_accept {a : Token} {more more' : Parser (Option α)}
    (h : Echoes H S anywhere k k more more') (hbars : H.Bars k a) :
    Rounds H S k (accept a >>= fun b => if b = true then more else pure none)
      (accept a >>= fun b => if b = true then more' else pure none) := by
  rw [accept_bind, accept_bind]
  exact rounds_if_nextIs (echoes_advance_seen.bind fun _ _ _ => h) hbars

omit [Placed α] in
theorem Onward.kept (h : Onward p) (hk : H.Kept k (p c s).2) : H.Kept k s :=
  ⟨(h.errors_size_le c s).trans hk.1, hk.2.trans (h.length_le c s)⟩

/-- What a round tells: either there is one more value, and fewer tokens are left in both texts, or
the second reading stops too. -/
theorem Rounds.run {more more' : Parser (Option α)} (h : Rounds H S k more more')
    (hc : Setting.Knows k c c') (hs : H.At w s s') {o : Option α} (ho : more c s = (.ok o, t))
    (hk : H.Kept k t) (hS : S o c t) :
    (∃ x x' t' v, o = some x ∧ more' c' s' = (.ok (some x'), t') ∧ Alike x x' ∧ H.At v t t'
        ∧ t.rest.length < s.rest.length ∧ t'.rest.length < s'.rest.length)
      ∨ (∃ t' v, o = none ∧ more' c' s' = (.ok none, t') ∧ H.At v t t'
        ∧ (s'.rest = [] → t' = s')) := by
  obtain ⟨o', t', v, ho', halike, ht⟩ := h.echoes.run hc hs trivial ho hk hS
  rcases o with _ | x
  · obtain rfl : o' = none := Option.map_eq_none_iff.1 halike
    refine .inr ⟨t', v, rfl, ho', ht, fun hnil => ?_⟩
    have hlength := hs.length₂
    have hlength₁ := hs.length₁
    rw [hnil, List.length_nil] at hlength
    obtain rfl : w = [] := List.eq_nil_of_length_eq_zero (by omega)
    have hle := hk.2
    have hle' := h.echoes.onward.length_le c s
    rw [ho] at hle'
    rw [List.length_nil] at hlength₁
    dsimp only at hle'
    have hhalts := h.halts (by omega) c c' s s' hs (.inr ⟨t, ho, by omega⟩)
    rw [ho'] at hhalts
    exact (Prod.mk.inj hhalts).2
  · obtain ⟨x', rfl, hx'⟩ := Option.map_eq_some_iff.1 halike
    have hlt := h.strides c s x t ho
    have hlength := hs.length₂
    have hlength₁ := hs.length₁
    have hlength' := ht.length₂
    have hlength₁' := ht.length₁
    exact .inl ⟨x, x', t', v, rfl, ho', hx', ht, hlt, by omega⟩

/-- Where the bound of the first reading has run out, the second one stops. -/
theorem Rounds.stops {more more' : Parser (Option α)} (h : Rounds H S k more more')
    (hs : H.At w s s') (hnil : s.rest = []) (hk : H.Kept k s) :
    ∀ c', more' c' s' = (.ok none, s') := by
  intro c'
  have hlength := hs.length₁
  have hle := hk.2
  rw [hnil, List.length_nil] at hlength hle
  obtain rfl : w = [] := List.eq_nil_of_length_eq_zero (by omega)
  exact h.halts (by omega) c' c' s s' hs (.inl hnil)

/-- What is asked of the rounds of a loop follows from what is asked of its end: of a round that is
not the last one, only as long as it might be, or if it does not depend on the place. -/
structure Suffices (R : Context → State → Prop) (S : Proviso (Option α))
    (more : α → Parser (Option α)) : Prop where
  last : ∀ c t, R c t → S none c t
  amid : ∀ x c t, (∃ u, R c u) → (more x c t = (.ok none, t) → R c t) → S (some x) c t

omit [Placed α] in
theorem suffices_atLast {more : α → Parser (Option α)} : Suffices R (atLast R) more :=
  ⟨fun _ _ hR _ => hR, fun _ _ _ _ _ h => absurd h (by simp)⟩

omit [Placed α] in
theorem suffices_givenContext {R : Context → Prop} {more : α → Parser (Option α)} :
    Suffices (fun c _ => R c) (givenContext R) more :=
  ⟨fun _ _ => id, fun _ _ _ ⟨_, hR⟩ _ => hR⟩

omit [Placed α] in
theorem manyOver_of_idle {more : Parser (Option α)} (h : more c s = (.ok none, s)) :
    ∀ clock, manyOver more clock c s = (.ok [], s)
  | [] => rfl
  | _ :: _ => by
    rw [manyOver, bind_ok h]
    rfl

omit [Placed α] in
theorem iterateOver_of_idle {step : α → Parser (Option α)} {x : α}
    (h : step x c s = (.ok none, s)) : ∀ clock, iterateOver step clock x c s = (.ok x, s)
  | [] => rfl
  | _ :: _ => by
    rw [iterateOver, bind_ok h]
    rfl

theorem Rounds.run_manyOver {more more' : Parser (Option α)} (h : Rounds H S k more more')
    (hS : Suffices R S fun _ => more) (hc : Setting.Knows k c c') (clock clock' : List Lexeme)
    (hs : H.At w s s') (hclock : s.rest.length ≤ clock.length)
    (hclock' : s'.rest.length ≤ clock'.length) {xs : List α}
    (hxs : manyOver more clock c s = (.ok xs, t)) (hk : H.Kept k t) (hR : R c t) :
    ∃ xs' t' v, manyOver more' clock' c' s' = (.ok xs', t') ∧ Alike xs xs' ∧ H.At v t t' := by
  induction clock generalizing clock' w s s' xs with
  | nil =>
    have hnil : s.rest = [] := List.eq_nil_of_length_eq_zero (by simpa using hclock)
    obtain ⟨rfl, rfl⟩ := pure_eq_ok hxs
    exact ⟨[], s', w, manyOver_of_idle (h.stops hs hnil hk c') clock', rfl, hs⟩
  | cons l clock ih =>
    rw [manyOver] at hxs
    obtain ⟨o, u, hmore, hxs'⟩ := bind_eq_ok hxs
    cases o with
    | none =>
      obtain ⟨rfl, rfl⟩ := pure_eq_ok hxs'
      obtain ⟨x, x', u', v, ho, -⟩ | ⟨u', v, -, hu', hu, hnil⟩ :=
        h.run hc hs hmore hk (hS.last _ _ hR)
      · simp at ho
      · refine ⟨[], u', v, ?_, rfl, hu⟩
        cases clock' with
        | nil =>
          rw [hnil (List.eq_nil_of_length_eq_zero (by simpa using hclock'))]
          rfl
        | cons l clock' =>
          rw [manyOver, bind_ok hu']
          rfl
    | some x =>
      obtain ⟨ys, t₁, hrest, hys⟩ := bind_eq_ok hxs'
      obtain ⟨rfl, rfl⟩ := pure_eq_ok hys
      have hku : H.Kept k u :=
        (onward_manyOver h.echoes.onward clock).kept (by rw [hrest]; exact hk)
      have hSu : S (some x) c u := hS.amid x c u ⟨_, hR⟩ fun hidle => by
        rw [manyOver_of_idle hidle] at hrest
        exact (Prod.mk.inj hrest).2 ▸ hR
      obtain ⟨y, x', u', v, hy, hu', hx', hu, hlt, hlt'⟩ | ⟨_, _, ho, -⟩ :=
        h.run hc hs hmore hku hSu
      · obtain rfl := Option.some.inj hy
        rw [List.length_cons] at hclock
        rcases clock' with _ | ⟨l', clock'⟩
        · rw [List.length_nil] at hclock'
          omega
        · rw [List.length_cons] at hclock'
          obtain ⟨ys', t', v', hys', halike, ht⟩ :=
            ih clock' hu (by omega) (by omega) hrest
          refine ⟨x' :: ys', t', v', ?_, congrArg₂ List.cons hx' halike, ht⟩
          rw [manyOver, bind_ok hu']
          simp only [bind_ok hys']
          rfl
      · simp at ho

theorem Rounds.run_iterateOver {step step' : α → Parser (Option α)}
    (h : ∀ x x', Alike x x' → Rounds H S k (step x) (step' x')) (hS : Suffices R S step)
    (hc : Setting.Knows k c c') (clock clock' : List Lexeme) (hs : H.At w s s')
    (hclock : s.rest.length ≤ clock.length) (hclock' : s'.rest.length ≤ clock'.length)
    {x x' y : α} (hx : Alike x x') (hy : iterateOver step clock x c s = (.ok y, t))
    (hk : H.Kept k t) (hR : R c t) :
    ∃ y' t' v, iterateOver step' clock' x' c' s' = (.ok y', t') ∧ Alike y y' ∧ H.At v t t' := by
  induction clock generalizing clock' w s s' x x' with
  | nil =>
    have hnil : s.rest = [] := List.eq_nil_of_length_eq_zero (by simpa using hclock)
    obtain ⟨rfl, rfl⟩ := pure_eq_ok hy
    exact ⟨x', s', w, iterateOver_of_idle ((h y x' hx).stops hs hnil hk c') clock', hx, hs⟩
  | cons l clock ih =>
    rw [iterateOver] at hy
    obtain ⟨o, u, hstep, hy₁⟩ := bind_eq_ok hy
    cases o with
    | none =>
      obtain ⟨rfl, rfl⟩ := pure_eq_ok hy₁
      obtain ⟨z, z', u', v, ho, -⟩ | ⟨u', v, -, hu', hu, hnil⟩ :=
        (h y x' hx).run hc hs hstep hk (hS.last _ _ hR)
      · simp at ho
      · refine ⟨x', u', v, ?_, hx, hu⟩
        cases clock' with
        | nil =>
          rw [hnil (List.eq_nil_of_length_eq_zero (by simpa using hclock'))]
          rfl
        | cons l clock' =>
          rw [iterateOver, bind_ok hu']
          rfl
    | some z =>
      have hrest : iterateOver step clock z c u = (.ok y, t) := hy₁
      have hku : H.Kept k u :=
        (onward_iterateOver (fun x => (h x x rfl).echoes.onward) clock z).kept
          (by rw [hrest]; exact hk)
      have hSu : S (some z) c u := hS.amid z c u ⟨_, hR⟩ fun hidle => by
        rw [iterateOver_of_idle hidle] at hrest
        exact (Prod.mk.inj hrest).2 ▸ hR
      obtain ⟨_, z', u', v, hz, hu', hz', hu, hlt, hlt'⟩ | ⟨_, _, ho, -⟩ :=
        (h x x' hx).run hc hs hstep hku hSu
      · obtain rfl := Option.some.inj hz
        rw [List.length_cons] at hclock
        rcases clock' with _ | ⟨l', clock'⟩
        · rw [List.length_nil] at hclock'
          omega
        · rw [List.length_cons] at hclock'
          obtain ⟨y', t', v', hy', halike, ht⟩ := ih clock' hu (by omega) (by omega) hz' hrest
          refine ⟨y', t', v', ?_, halike, ht⟩
          rw [iterateOver, bind_ok hu']
          exact hy'
      · simp at ho

/-- Values as long as there are any. -/
theorem Rounds.many {more more' : Parser (Option α)} (h : Rounds H (atLast R) k more more') :
    Echoes H (fun _ => R) I k k (many more) (many more') where
  onward := onward_many h.echoes.onward
  steps c s xs t _ hxs := by
    have hle := (onward_many h.echoes.onward).length_le c s
    rw [hxs] at hle
    exact Nat.add_le_add_right hle k
  run hc _ _ _ hs _ _ _ hxs hk hR :=
    h.run_manyOver suffices_atLast hc _ _ hs le_rfl le_rfl hxs hk hR

/-- Values as long as there are any, with something asked of the context. -/
theorem Rounds.many_given {R : Context → Prop} {more more' : Parser (Option α)}
    (h : Rounds H (givenContext R) k more more') :
    Echoes H (givenContext R) I k k (Parser.many more) (Parser.many more') where
  onward := onward_many h.echoes.onward
  steps c s xs t _ hxs := by
    have hle := (onward_many h.echoes.onward).length_le c s
    rw [hxs] at hle
    exact Nat.add_le_add_right hle k
  run hc _ _ _ hs _ _ _ hxs hk hR :=
    h.run_manyOver suffices_givenContext hc _ _ hs le_rfl le_rfl hxs hk hR

/-- Values of which the first is known to be there. -/
theorem Rounds.many_cons {more more' : Parser (Option α)} (h : Rounds H (atLast R) k more more')
    (hI : ∀ c s, I s.rest → s.rest ≠ [] ∧ ∃ x t, more c s = (.ok (some x), t)) :
    Echoes H (fun _ => R) I (k + 1) k (Parser.many more) (Parser.many more') where
  onward := onward_many h.echoes.onward
  steps c s xs t hs hxs := by
    obtain ⟨hne, x, u, hx⟩ := hI c s hs
    obtain ⟨l, clock, hrest⟩ := List.exists_cons_of_ne_nil hne
    have hlt := h.strides c s x u hx
    have hle := (onward_manyOver h.echoes.onward clock).length_le c u
    rw [Parser.many, state_bind, hrest, manyOver, bind_ok hx] at hxs
    obtain ⟨ys, t₁, hys, hpure⟩ := bind_eq_ok hxs
    obtain ⟨-, rfl⟩ := pure_eq_ok hpure
    rw [hys] at hle
    dsimp only at hle
    omega
  run hc _ _ _ hs _ _ _ hxs hk hR :=
    h.run_manyOver suffices_atLast hc _ _ hs le_rfl le_rfl hxs hk hR

/-- A value that changes as long as there is a step. -/
theorem echoes_iterate {step step' : α → Parser (Option α)} {x x' : α}
    (h : ∀ x x', Alike x x' → Rounds H S k (step x) (step' x')) (hS : Suffices R S step)
    (hx : Alike x x') :
    Echoes H (fun _ => R) I k k (iterate step x) (iterate step' x') where
  onward := onward_iterate (fun x => (h x x rfl).echoes.onward) x
  steps c s y t _ hy := by
    have hle := (onward_iterate (fun x => (h x x rfl).echoes.onward) x).length_le c s
    rw [hy] at hle
    exact Nat.add_le_add_right hle k
  run hc _ _ _ hs _ _ _ hy hk hR :=
    Rounds.run_iterateOver h hS hc _ _ hs le_rfl le_rfl hx hy hk hR

/-! ### Items -/

/-- Items with commas between them. -/
theorem echoes_separated {item item' : Parser α} (h : Echoes H always anywhere j k item item')
    (hbars : H.Bars k (.symbol .comma)) [hkj : Later k j] :
    Echoes H always I j k (separated item) (separated item') := by
  have hmore : Rounds H (atLast fun _ _ => True) k
      (accept (.symbol .comma) >>= fun b => if b = true then
        item >>= fun x => pure (some x) else pure none)
      (accept (.symbol .comma) >>= fun b => if b = true then
        item' >>= fun x => pure (some x) else pure none) :=
    rounds_if_accept ((h.lower hkj.le).bind fun x x' hx => echoes_pure (congrArg some hx)) hbars
  refine h.at.bind fun x x' hx => hmore.many.bind fun xs xs' hxs => echoes_pure ?_
  exact congrArg₂ List.cons hx hxs

/-- What is left of a text leaves room in the bounds of a loop in both readings. -/
def roomy (H : Setting) (clock clock' : List Lexeme) : List Lexeme → Prop := fun rest =>
  rest.length ≤ clock.length
    ∧ rest.length + H.next₂.length ≤ clock'.length + H.next₁.length

theorem roomy.tail {l l' : Lexeme} {clock clock' rest rest' : List Lexeme}
    (h : roomy H (l :: clock) (l' :: clock') rest) (hlt : rest'.length < rest.length) :
    roomy H clock clock' rest' := by
  simp only [roomy, List.length_cons] at h ⊢
  omega

/-- The bounds of a loop before a token of the passage do not run out. -/
theorem echoes_of_no_room {clock clock' : List Lexeme} (h : clock = [] ∨ clock' = [])
    (ho : Onward p) (hk : 0 < k) : Echoes H P (roomy H clock clock') k k p p' where
  onward := ho
  steps c s x t _ hx := by
    have hle := ho.length_le c s
    rw [hx] at hle
    exact Nat.add_le_add_right hle k
  run {c c'} _ w s s' hs hroom x t hx hkept _ := by
    have hs₀ : H.Kept k s := ho.kept (by rw [hx]; exact hkept)
    have hle := hs₀.2
    simp only [roomy] at hroom
    rcases h with rfl | rfl
    all_goals
      rw [List.length_nil] at hroom
      omega

theorem echoes_atEnd {l l' : Bool → Parser β} (ho : Onward (l true))
    (hfalse : Echoes H Q (fun rest => I rest ∧ rest ≠ []) j k (l false) (l' false))
    (hj : j ≤ k) (hk : 0 < k) : Echoes H Q I j k (atEnd >>= l) (atEnd >>= l') where
  onward := peeks_atEnd.looks.onward.bind fun
    | true => ho
    | false => hfalse.onward
  steps c s x t hs hx := by
    rw [bind_ok (peeks_atEnd c s)] at hx
    rcases hnil : s.rest.isEmpty with _ | _
    · rw [hnil] at hx
      exact hfalse.steps c s x t ⟨hs, List.isEmpty_eq_false_iff.1 hnil⟩ hx
    · have hle := ho.length_le c s
      rw [hnil] at hx
      rw [hx] at hle
      dsimp only at hle
      omega
  run {c c'} hc w s s' hs hI x t hx hkept hQ := by
    rw [bind_ok (peeks_atEnd c s)] at hx
    rcases hnil : s.rest.isEmpty with _ | _
    · rw [hnil] at hx
      have hw : w ≠ [] := by
        rintro rfl
        have hle := hfalse.onward.length_le c s
        have hlength := hs.length₁
        have hroom := hkept.2
        rw [hx] at hle
        rw [List.length_nil] at hlength
        dsimp only at hle
        omega
      have hnil' : s'.rest.isEmpty = false := by
        have hpos := List.length_pos_of_ne_nil hw
        have hlength := hs.length₂
        exact List.isEmpty_eq_false_iff.2 (List.ne_nil_of_length_pos (by omega))
      rw [bind_ok (peeks_atEnd c' s'), hnil']
      exact hfalse.run hc hs ⟨hI, List.isEmpty_eq_false_iff.1 hnil⟩ hx hkept hQ
    · have hle := ho.length_le c s
      have hroom := hkept.2
      rw [hnil] at hx
      rw [hx, List.isEmpty_iff.1 hnil] at hle
      simp only [List.length_nil] at hle
      omega

/-- Rounds up to the end of two texts of which the passage is all that is left. -/
theorem rounds_atEnd {more more' : Parser (Option α)}
    (h : Echoes H S (fun rest => rest ≠ []) (k + 1) k more more') (hnext₁ : H.next₁ = [])
    (hnext₂ : H.next₂ = []) :
    Rounds H S k (atEnd >>= fun b => if b = true then pure none else more)
      (atEnd >>= fun b => if b = true then pure none else more') := by
  have hrun (p : Parser (Option α)) (c : Context) (s : State) :
      (atEnd >>= fun b => if b = true then pure none else p) c s
        = if s.rest = [] then (.ok none, s) else p c s := by
    rw [bind_ok (peeks_atEnd c s), run_ite]
    simp only [List.isEmpty_iff]
    rfl
  have hends {w : List Lexeme} {s s' : State} (hs : H.At w s s') : s'.rest = [] ↔ s.rest = [] := by
    rw [← List.length_eq_zero_iff, ← List.length_eq_zero_iff, hs.length₁, hs.length₂, hnext₁, hnext₂]
  refine ⟨⟨?_, fun c s o t _ ho => ?_, ?_⟩, fun c s x t hx => ?_, fun _ c c' s s' hs _ => ?_⟩
  · exact peeks_atEnd.looks.onward.bind fun b => .ite (fun _ => onward_pure _) fun _ => h.onward
  · rw [hrun] at ho
    split at ho
    · rw [← (Prod.mk.inj ho).2]
    · have hle := h.steps c s o t ‹_› ho
      omega
  · intro c c' hc w s s' hs _ o t ho hk hS
    rw [hrun] at ho
    simp only [hrun, hends hs]
    split at ho
    · obtain ⟨hnone, rfl⟩ := Prod.mk.inj ho
      obtain rfl := Except.ok.inj hnone
      rw [if_pos ‹_›]
      exact ⟨none, s', w, rfl, rfl, hs⟩
    · rw [if_neg ‹_›]
      exact h.run hc hs ‹_› ho hk hS
  · rw [hrun] at hx
    split at hx
    · simp at hx
    · have hle := h.steps c s _ t ‹_› hx
      omega
  · rw [hrun, if_pos ((hends hs).2 (by rw [hs.rest₁, hnext₁]; rfl))]

/-- Items before a closing symbol that stands in the passage. -/
theorem echoes_itemsOver {close : Symbol} {continues continues' : Parser Bool}
    {item item' : Parser α} {R : Context → Prop}
    (h : Echoes H (givenContext R) anywhere (k + 1) k item item')
    (hcontinues : Echoes H always anywhere k k continues continues') (hk : 0 < k) :
    ∀ clock clock', Echoes H (givenContext R) (roomy H clock clock') k k
      (itemsOver close continues item clock) (itemsOver close continues' item' clock')
  | [], _ => echoes_of_no_room (.inl rfl) (onward_pure []) hk
  | _ :: _, [] =>
    echoes_of_no_room (.inr rfl) (onward_itemsOver h.onward hcontinues.onward _) hk
  | l :: clock, l' :: clock' => by
    have hlater : Later 1 k := ⟨hk⟩
    refine echoes_atEnd (onward_pure []) ?_ le_rfl hk
    refine echoes_if_nextIs_inside (echoes_pure rfl) ?_
    refine (h.at.bind_leaving (fun x x' hx => ?_)
      (fun _ _ _ _ _ _ _ hR => hR)).perhaps
    refine hcontinues.at.bind_leaving (fun b b' hb => ?_)
      (fun _ _ _ _ _ _ _ _ => trivial)
    obtain rfl : b' = b := hb
    cases b' with
    | false => exact echoes_pure (congrArg (· :: []) hx)
    | true =>
      let nonempty (rest : List Lexeme) : Prop := roomy H (l :: clock) (l' :: clock') rest ∧ rest ≠ []
      have hrest : Echoes H (givenContext R) (leaving (leaving nonempty (k + 1) k) k k) k k
          (itemsOver close continues item clock) (itemsOver close continues' item' clock') := by
        refine (echoes_itemsOver h hcontinues hk clock clock').weaken ?_
        rintro rest ⟨rest', ⟨rest'', ⟨hroom, -⟩, hle⟩, hle'⟩
        exact hroom.tail (by omega)
      exact hrest.bind_if (fun xs xs' hxs => echoes_pure (congrArg₂ List.cons hx hxs))
        (fun _ _ _ _ _ _ hR => hR)

theorem echoes_itemsUntil {close : Symbol} {continues continues' : Parser Bool}
    {item item' : Parser α} {R : Context → Prop}
    (h : Echoes H (givenContext R) anywhere (k + 1) k item item')
    (hcontinues : Echoes H always anywhere k k continues continues') [hk : Later 1 k] :
    Echoes H (givenContext R) I k k (itemsUntil close continues item)
      (itemsUntil close continues' item') where
  onward := onward_itemsUntil h.onward hcontinues.onward
  steps c s x t _ hx := by
    have honward : Onward (itemsUntil close continues item) :=
      onward_itemsUntil h.onward hcontinues.onward
    have hle := honward.length_le c s
    rw [hx] at hle
    exact Nat.add_le_add_right hle k
  run hc w s s' hs _ _ _ hx hkept hP := by
    have hlength := hs.length₁
    have hlength' := hs.length₂
    exact (echoes_itemsOver h hcontinues hk.le s.rest s'.rest).run hc hs ⟨le_rfl, by omega⟩ hx hkept hP

theorem echoes_commaItems {close : Symbol} {item item' : Parser α} {R : Context → Prop}
    (h : Echoes H (givenContext R) anywhere (k + 1) k item item') [Later 1 k] :
    Echoes H (givenContext R) I k k (commaItems close item) (commaItems close item') := by
  refine echoes_itemsUntil h ?_
  refine echoes_if_nextIs_inside ?_ (echoes_pure rfl)
  exact (echoes_advance_seen.bind fun _ _ _ => echoes_pure rfl).perhaps

/-! ### Parts -/

omit [Placed α] in
theorem errors_resume (before now : State) (fault : SyntaxFault) :
    (before.resume fault now).errors = now.errors := by
  have hadvance (s : State) : s.advance.errors = s.errors := by
    rw [State.advance]
    cases s.rest <;> rfl
  unfold State.resume
  extract_lets progressed keep next
  have hnext : next.errors = now.errors := by
    change (if keep then now else now.synchronize).errors = _
    cases keep <;> rfl
  split
  · exact hnext
  · rw [hadvance, hnext]

omit [Placed α] in
/-- A part from which reading recovered has left an error. -/
theorem size_lt_recovering (mark : ErrorMark → α) {e : SyntaxError} (ho : Onward p)
    (h : p c s = (.error e, t)) : s.errors.size < (recovering mark p c s).2.errors.size := by
  have hle := ho.errors_size_le c s
  rw [h] at hle
  rw [recovering, state_bind, attempt_bind, h]
  change _ < ((s.resume e.fault t).errors.push e).size
  rw [Array.size_push, errors_resume]
  exact Nat.lt_succ_of_le hle

/-- A part that was read without an error. -/
theorem Echoes.recovering {mark mark' : ErrorMark → α} (h : Echoes H P I (k + 1) k p p')
    (hI : ∀ rest, I rest → rest ≠ []) :
    Echoes H P I (k + 1) k (Parser.recovering mark p) (Parser.recovering mark' p') where
  onward := onward_recovering mark h.onward
  steps c s x t hs hx := by
    rcases hp : p c s with ⟨e | y, u⟩
    · obtain ⟨ts, es, htook⟩ := h.onward.took hp
      obtain ⟨us, hne, hresume⟩ := took_resume htook (hI _ hs) e.fault
      rw [Parser.recovering, state_bind, attempt_bind, hp] at hx
      have hrest : t.rest = (s.resume e.fault u).rest := by
        obtain ⟨-, rfl⟩ := Prod.mk.inj hx
        rfl
      have hpos := List.length_pos_of_ne_nil hne
      rw [hrest, hresume.1, List.length_append]
      omega
    · rw [recovering_ok (by rw [hp]), hp] at hx
      exact h.steps c s x t hs (hp.trans hx)
  run {c c'} hc w s s' hs hI' x t hx hk hP := by
    rcases hp : p c s with ⟨e | y, u⟩
    · have hlt := size_lt_recovering mark h.onward hp
      have hle := hk.1
      rw [hx, hs.errors₁] at hlt
      dsimp only at hlt
      omega
    · rw [recovering_ok (by rw [hp])] at hx
      obtain ⟨x', t', v, hx', halike, ht⟩ := h.run hc hs hI' hx hk hP
      exact ⟨x', t', v, by rw [recovering_ok (by rw [hx']), hx'], halike, ht⟩

theorem echoes_partsOver {part part' : Parser α} {mark mark' : ErrorMark → α} {R : Context → Prop}
    (h : Echoes H (givenContext R) anywhere (k + 1) k part part') (hk : 0 < k) :
    ∀ clock clock', Echoes H (givenContext R) (roomy H clock clock') k k
      (partsOver (recovering mark part) clock) (partsOver (recovering mark' part') clock')
  | [], _ => echoes_of_no_room (.inl rfl) (onward_pure []) hk
  | _ :: _, [] =>
    echoes_of_no_room (.inr rfl) (onward_partsOver (onward_recovering mark h.onward) _) hk
  | l :: clock, l' :: clock' => by
    have hlater : Later 1 k := ⟨hk⟩
    refine echoes_atEnd (onward_pure []) ?_ le_rfl hk
    refine echoes_if_nextIs_inside (echoes_pure rfl) ?_
    let nonempty (rest : List Lexeme) : Prop := roomy H (l :: clock) (l' :: clock') rest ∧ rest ≠ []
    have hpart : Echoes H (givenContext R) nonempty (k + 1) k (recovering mark part)
        (recovering mark' part') := h.at.recovering fun _ => And.right
    refine (hpart.bind_leaving (fun x x' hx => ?_) (fun _ _ _ _ _ _ _ hR => hR)).perhaps
    have hrest : Echoes H (givenContext R) (leaving nonempty (k + 1) k) k k
        (partsOver (recovering mark part) clock) (partsOver (recovering mark' part') clock') := by
      refine (echoes_partsOver h hk clock clock').weaken ?_
      rintro rest ⟨rest', ⟨hroom, -⟩, hle⟩
      exact hroom.tail (by omega)
    exact hrest.bind_if (fun xs xs' hxs => echoes_pure (congrArg₂ List.cons hx hxs))
      (fun _ _ _ _ _ _ hR => hR)

omit [Placed α] in
theorem onward_body {part : Parser α} (mark : ErrorMark → α) (h : Onward part) :
    Onward (body mark part) := by
  refine fun c s => ?_
  rw [body, state_bind]
  refine ((onward_partsOver (onward_recovering mark h) s.rest).bind fun parts => ?_) c s
  refine peeks_atEnd.looks.onward.bind fun b => .ite (fun _ => ?_) fun _ => ?_
  · refine Onward.bind ?_ fun m => onward_pure _
    exact looks_previousSpan.onward.bind fun _ => (onward_record _).bind fun _ => onward_pure _
  · exact (onward_symbol _).bind fun _ => onward_pure _

omit [Placed α] in
theorem body_eq (mark : ErrorMark → α) (part : Parser α) (c : Context) (s : State) :
    body mark part c s = (partsOver (recovering mark part) s.rest >>= fun parts => atEnd >>= fun b =>
      if b = true then missingBrace >>= fun m => pure (parts ++ [mark m])
      else symbol .rightBrace >>= fun _ => pure parts) c s := rfl

omit [Placed α] in
/-- A body that was read without an error ends with its brace. -/
theorem body_ok {mark : ErrorMark → α} {part : Parser α} {parts : List α} (ho : Onward part)
    (h : body mark part c s = (.ok parts, t)) (hle : t.errors.size ≤ s.errors.size) :
    ∃ u span, partsOver (recovering mark part) s.rest c s = (.ok parts, u) ∧ u.rest ≠ []
      ∧ symbol .rightBrace c u = (.ok span, t) := by
  have hsize := (onward_partsOver (onward_recovering mark ho) s.rest).errors_size_le c s
  rw [body_eq] at h
  obtain ⟨ps, u, hparts, hend⟩ := bind_eq_ok h
  rw [hparts] at hsize
  rw [bind_ok (peeks_atEnd c u), run_ite] at hend
  dsimp only at hsize
  split at hend
  · have hpush : t.errors.size = u.errors.size + 1 := by
      obtain ⟨-, rfl⟩ := Prod.mk.inj hend
      exact Array.size_push _
    omega
  · rename_i hrest
    obtain ⟨span, v, hbrace, hps⟩ := bind_eq_ok hend
    obtain ⟨rfl, rfl⟩ := pure_eq_ok hps
    exact ⟨u, span, hparts, by simpa using hrest, hbrace⟩

/-- The parts of a body and its closing brace. -/
theorem echoes_body {part part' : Parser α} {mark mark' : ErrorMark → α} {R : Context → Prop}
    (h : Echoes H (givenContext R) anywhere (k + 2) (k + 1) part part') :
    Echoes H (givenContext R) I k k (body mark part) (body mark' part') where
  onward := onward_body mark h.onward
  steps c s x t _ hx := by
    have hle := (onward_body mark h.onward).length_le c s
    rw [hx] at hle
    exact Nat.add_le_add_right hle k
  run {c c'} hc w s s' hs _ parts t hx hk hR := by
    obtain ⟨u, span, hparts, -, hbrace⟩ := body_ok h.onward hx (by rw [hs.errors₁]; exact hk.1)
    have hsymbol : Echoes H always anywhere (k + 1) k (symbol .rightBrace) (symbol .rightBrace) :=
      echoes_symbol _
    have hlt := hsymbol.steps c u span t trivial hbrace
    have hsize := hsymbol.onward.errors_size_le c u
    rw [hbrace] at hsize
    have hku : H.Kept (k + 1) u := ⟨hsize.trans hk.1, by have := hk.2; omega⟩
    have hc' : Setting.Knows (k + 1) c c' := ⟨hc.structLiterals, fun h => absurd h (by simp)⟩
    have hlength := hs.length₁
    have hlength' := hs.length₂
    have hover : Echoes H (givenContext R) (roomy H s.rest s'.rest) (k + 1) (k + 1)
        (partsOver (recovering mark part) s.rest) (partsOver (recovering mark' part') s'.rest) :=
      echoes_partsOver h (Nat.succ_pos k) s.rest s'.rest
    obtain ⟨parts', u', v, hparts', halike, hu⟩ := hover.run hc' hs ⟨le_rfl, by omega⟩ hparts hku hR
    obtain ⟨span', t', v', hbrace', -, ht⟩ := hsymbol.run hc hu trivial hbrace hk trivial
    have hend : ¬u'.rest.isEmpty = true := by
      rw [Bool.not_eq_true, List.isEmpty_eq_false_iff]
      have hpos := List.length_pos_of_ne_nil (hu.ne_nil hku)
      exact List.ne_nil_of_length_pos (by have := hu.length₂; omega)
    refine ⟨parts', t', v', ?_, halike, ht⟩
    rw [body_eq, bind_ok hparts', bind_ok (peeks_atEnd c' u'), run_ite, if_neg hend,
      bind_ok hbrace']
    rfl

end Parser

end SolidityFrontend
