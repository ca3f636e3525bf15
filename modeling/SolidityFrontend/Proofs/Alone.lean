import SolidityFrontend.Proofs.EchoingStmt

/-!
# What is read alone

Tokens that give a value in the middle of a text give it, up to its spans, where the text breaks off
behind them (`Echoes.run_ofPrefix`); so it is read from these tokens alone (`Alone`). What a parser takes
with nothing behind it is also taken by the parsers that only go on behind it (`Completes`). A chain of
steps may be left after each of them, and what it has come to is read alone too (`alone_of_steps`).
-/

namespace SolidityFrontend

open SolidityFrontend.Parser

/-! ### Texts that break off -/

/-- What is seen ahead is seen where the text goes on. -/
theorem fieldsAhead_of_append {as bs : List Token} (h : fieldsAhead as) :
    fieldsAhead (as ++ bs) := by
  match as, h with
  | [], h => simp [fieldsAhead] at h
  | [_], h => simp [fieldsAhead] at h
  | [_, _], h => simp [fieldsAhead] at h
  | _ :: _ :: _ :: _, h => exact h

theorem pathAhead_of_append {as bs : List Token} (h : pathAhead as) : pathAhead (as ++ bs) := by
  match as, h with
  | [], h => simp [pathAhead] at h
  | [_], h => simp [pathAhead] at h
  | _ :: _ :: _, h => exact h

/-- Tokens with others behind them in the first text than in the second one, which breaks off. -/
def Setting.ofPrefix (ts : List Token) (us vs : List Lexeme) : Setting where
  tokens := ts
  next₁ := us ++ vs
  next₂ := us
  errors₁ := #[]
  errors₂ := #[]
  fields as _ _ h := by
    rw [List.map_append, ← List.append_assoc]
    exact fieldsAhead_of_append h
  path as _ _ h := by
    rw [List.map_append, ← List.append_assoc]
    exact pathAhead_of_append h

namespace Setting

variable {as : List Token} {ts ts' us vs w : List Lexeme} {s s' t t' : State} {k : Nat}

theorem calm_ofPrefix : (ofPrefix as [] vs).Calm k := fun _ _ h => by simp [head₂, ofPrefix] at h

theorem closed_ofPrefix : (ofPrefix as [] vs).Closed k :=
  ⟨fun _ h => by simp [head₂, ofPrefix] at h, fun _ h => by simp [head₂, ofPrefix] at h⟩

theorem at_ofPrefix (hs : s.rest = ts ++ (us ++ vs)) (hs₀ : s.errors = #[])
    (hts : ts'.map Lexeme.token = ts.map Lexeme.token) (hs' : s'.rest = ts' ++ us)
    (hs₀' : s'.errors = #[]) : (ofPrefix (ts.map Lexeme.token) us vs).At ts s s' :=
  ⟨List.suffix_refl _, hs, ⟨ts', hts, hs'⟩, hs₀, hs₀'⟩

/-- Where all tokens before the break are read in the first text, they are in the second. -/
theorem At.rest_ofPrefix (h : (ofPrefix as us vs).At w t t') (ht : t.rest = us ++ vs) :
    t'.rest = us := by
  have hw : w = [] := by
    have hlength := h.length₁
    rw [ht] at hlength
    exact List.eq_nil_of_length_eq_zero (by simpa [ofPrefix] using hlength)
  subst hw
  obtain ⟨left, hleft, hrest⟩ := h.rest₂
  obtain rfl := List.map_eq_nil_iff.1 hleft
  exact hrest

end Setting

namespace Parser

variable {α : Type} [Placed α] {p p' : Parser α} {P : Proviso α} {I : List Lexeme → Prop} {j : Nat}
  {c c' : Context} {s s' t u : State} {x y : α} {ts ts' us vs : List Lexeme}

/-- What ends before the text breaks off is read again. -/
theorem Echoes.run_ofPrefix
    (h : Echoes (.ofPrefix (ts.map Lexeme.token) us vs) P I j 0 p p') (hx : p c s = (.ok x, t))
    (hP : P x c t) (hI : I s.rest) (hs : s.rest = ts ++ (us ++ vs)) (ht : t.rest = us ++ vs)
    (hs₀ : s.errors = #[]) (ht₀ : t.errors = #[]) (hc' : c'.structLiterals = true)
    (hts : ts'.map Lexeme.token = ts.map Lexeme.token) (hs' : s'.rest = ts' ++ us)
    (hs₀' : s'.errors = #[]) :
    ∃ x' t', p' c' s' = (.ok x', t') ∧ Alike x x' ∧ t'.rest = us ∧ t'.errors = #[] := by
  have hkept : (Setting.ofPrefix (ts.map Lexeme.token) us vs).Kept 0 t :=
    ⟨by rw [ht₀]; exact le_rfl, by rw [ht]; exact le_rfl⟩
  obtain ⟨x', t', v, hx', halike, hend⟩ := h.run ⟨fun _ => hc', fun _ => hc'⟩
    (Setting.at_ofPrefix hs hs₀ hts hs' hs₀') hI hx hkept hP
  exact ⟨x', t', hx', halike, hend.rest_ofPrefix ht, hend.errors₂⟩

/-! ### Readings with nothing behind them -/

/-- From these tokens, with nothing behind them, the parser gives the value up to its spans. -/
def Alone (p : Parser α) (x : α) (ts : List Token) : Prop :=
  ∀ c s, c.structLiterals = true → s.errors = #[] → s.tokens = ts →
    ∃ x' t, p c s = (.ok x', t) ∧ Alike x x' ∧ t.rest = [] ∧ t.errors = #[]

theorem Echoes.alone (h : Echoes (.ofPrefix (ts.map Lexeme.token) [] t.rest) P I j 0 p p')
    (hx : p c s = (.ok x, t)) (hP : P x c t) (hI : I s.rest) (hs : s.rest = ts ++ t.rest)
    (hs₀ : s.errors = #[]) (ht₀ : t.errors = #[]) : Alone p' x (ts.map Lexeme.token) :=
  fun _ s' hc' hs₀' hs' => h.run_ofPrefix hx hP hI hs rfl hs₀ ht₀ hc' hs'
    (List.append_nil s'.rest).symm hs₀'

/-- What the first parser takes with nothing behind it, the second one takes too. -/
def Completes (p p' : Parser α) : Prop :=
  ∀ {c s x t}, p c s = (.ok x, t) → t.rest = [] → p' c s = (.ok x, t)

theorem ended_of_nil (h : t.rest = []) : Ended t.tokens := fun b hb => by simp [State.tokens, h] at hb

omit [Placed α] in
theorem Completes.trans {p'' : Parser α} (h : Completes p p') (h' : Completes p' p'') :
    Completes p p'' := fun hx ht => h' (h hx ht) ht

omit [Placed α] in
theorem completes_bind {f : α → Parser α}
    (h : ∀ {c x t}, Ended t.tokens → f x c t = (.ok x, t)) : Completes p (p >>= f) :=
  fun hx ht => by rw [bind_ok hx, h (ended_of_nil ht)]

theorem Completes.alone {ts : List Token} (h : Completes p p') (hx : Alone p x ts) :
    Alone p' x ts := by
  intro c s hc hs₀ hs
  obtain ⟨x', t, hp, halike, ht, ht₀⟩ := hx c s hc hs₀ hs
  exact ⟨x', t, h hp ht, halike, ht, ht₀⟩

/-! ### Steps of a chain -/

variable {step step' : α → Parser (Option α)} {R : Context → State → Prop} {S : Proviso (Option α)}
  {H : Setting} {k : Nat} {w : List Lexeme}

omit [Placed α] in
/-- What is known of the last state if the chain ends there is known of the first one. -/
theorem Steps.of_last (h : Steps step c x s y t) (hR : step y c t = (.ok none, t) → R c t) :
    step x c s = (.ok none, s) → R c s := by
  induction h with
  | refl => exact hR
  | tail _ hstep _ ih => exact ih fun hidle => absurd (hidle.symm.trans hstep) (by simp)

omit [Placed α] in
theorem Steps.kept (h : Steps step c x s y t) (ho : ∀ x, Onward (step x)) (hk : H.Kept k t) :
    H.Kept k s := by
  induction h with
  | refl => exact hk
  | tail _ hstep _ ih => exact ih ((ho _).kept (by rw [hstep]; exact hk))

/-- The steps of a first reading are made in the second one too. -/
theorem Rounds.run_steps (h : ∀ x x', Alike x x' → Rounds H S k (step x) (step' x'))
    (hS : Suffices R S step) (hc : Setting.Knows k c c') (hsteps : Steps step c x s y t)
    {x' : α} (hs : H.At w s s') (hx : Alike x x') (hk : H.Kept k t) (hR : ∃ u, R c u)
    (hlast : step y c t = (.ok none, t) → R c t) :
    ∃ y' t' v, Steps step' c' x' s' y' t' ∧ Alike y y' ∧ H.At v t t' := by
  induction hsteps with
  | refl => exact ⟨x', s', w, .refl, hx, hs⟩
  | @tail y z t u _ hz _ ih =>
    have hkt : H.Kept k t := (h y y rfl).echoes.onward.kept (by rw [hz]; exact hk)
    obtain ⟨y', t', v, hsteps', hy, ht⟩ :=
      ih hkt fun hidle => absurd (hidle.symm.trans hz) (by simp)
    obtain ⟨_, z', u', v', hsome, hz', halike, hu, -, hlt⟩ | ⟨_, _, hnone, -⟩ :=
      (h y y' hy).run hc ht hz hk (hS.amid z c u hR hlast)
    · obtain rfl := Option.some.inj hsome
      exact ⟨z', u', v', hsteps'.tail hz' hlt, halike, hu⟩
    · simp at hnone

/-- What a chain of steps has come to is read alone by the whole chain. -/
theorem alone_of_steps (hp : Echoes (.ofPrefix (ts.map Lexeme.token) [] t.rest) P I j 0 p p')
    (h : ∀ x x', Alike x x' →
      Rounds (.ofPrefix (ts.map Lexeme.token) [] t.rest) S 0 (step x) (step' x'))
    (hS : Suffices R S step) (hPS : ∀ x c t, S (some x) c t → P x c t)
    (hidle : ∀ {c x t}, Ended t.tokens → step' x c t = (.ok none, t))
    (hx : p c s = (.ok x, u)) (hsteps : Steps step c x u y t) (hI : I s.rest)
    (hs : s.rest = ts ++ t.rest) (hs₀ : s.errors = #[]) (ht₀ : t.errors = #[]) (hR : R c t) :
    Alone (p' >>= iterate step') y (ts.map Lexeme.token) := by
  intro c' s' hc' hs₀' hs'
  have hknows : Setting.Knows 0 c c' := ⟨fun _ => hc', fun _ => hc'⟩
  have hkept : (Setting.ofPrefix (ts.map Lexeme.token) [] t.rest).Kept 0 t :=
    ⟨by rw [ht₀]; exact le_rfl, le_rfl⟩
  have hfirst : P x c u :=
    hPS x c u (hS.amid x c u ⟨t, hR⟩ (hsteps.of_last fun _ => hR))
  obtain ⟨x', u', v, hx', halike, hu⟩ :=
    hp.run hknows (Setting.at_ofPrefix hs hs₀ hs' (List.append_nil s'.rest).symm hs₀') hI hx
      (hsteps.kept (fun x => (h x x rfl).echoes.onward) hkept) hfirst
  obtain ⟨y', t', v', hsteps', halike', ht⟩ :=
    Rounds.run_steps h hS hknows hsteps hu halike hkept ⟨t, hR⟩ fun _ => hR
  have hend : t'.rest = [] := ht.rest_ofPrefix rfl
  refine ⟨y', t', ?_, halike', hend, ht.errors₂⟩
  rw [bind_ok hx', iterate_of_steps hsteps' (hidle (ended_of_nil hend))]

end Parser

namespace Grammar

variable {d : Nested}

/-! ### Parsers that go on behind others -/

theorem completes_suffixedExpr : Completes (primaryExpr d) (suffixedExpr d) :=
  completes_bind fun {_ _ t} ht => iterateOver_of_idle (suffix?_of_ended ht) t.rest

/-- No primary expression begins with an operator. -/
theorem ofToken?_of_primaryExpr {c : Context} {s t : State} {e : Expr} {a : Token}
    (h : primaryExpr d c s = (.ok e, t)) (ha : s.tokens.head? = some a) :
    UnaryOp.ofToken? a = none ∧ UpdateOp.ofToken? a = none := by
  rw [primaryExpr, next_bind, ha] at h
  have hunexpected : unexpected .expression c s ≠ (.ok e, t) := unexpected_ne_ok _ c s e t
  cases a with
  | keyword k => cases k <;> first | exact ⟨rfl, rfl⟩ | exact absurd h hunexpected
  | symbol b => cases b <;> first | exact ⟨rfl, rfl⟩ | exact absurd h hunexpected
  | _ => exact ⟨rfl, rfl⟩

theorem completes_unaryExpr : Completes (suffixedExpr d) (unaryExpr d) := by
  intro c s e t h _
  obtain ⟨e₀, u, hprimary, -⟩ := bind_eq_ok h
  rw [unaryExpr, bind_ok (looks_here c s), next_bind]
  rcases ha : s.tokens.head? with _ | a
  · exact h
  obtain ⟨hunary, hupdate⟩ := ofToken?_of_primaryExpr hprimary ha
  simp only [hunary, hupdate]
  exact h

theorem completes_powerExpr : Completes (unaryExpr d) (powerExpr d) := by
  refine completes_bind fun ht => ?_
  rw [bind_ok (accept_of_ended ht (by decide))]
  rfl

theorem completes_leftAssociative {ops : List BinaryOp} {operand : Parser Expr} :
    Completes operand (leftAssociative ops operand) :=
  completes_bind fun {_ _ t} ht => iterateOver_of_idle (operatorStep_of_ended ht) t.rest

theorem completes_binaryExpr {tiers tighter : List (List BinaryOp)} (h : tighter <:+ tiers) :
    Completes (binaryExpr d tighter) (binaryExpr d tiers) := by
  obtain ⟨looser, rfl⟩ := h
  induction looser with
  | nil => exact fun h _ => h
  | cons ops looser ih => exact ih.trans completes_leftAssociative

theorem completes_conditionalExpr : Completes (binaryExpr d BinaryOp.tiers) (conditionalExpr d) := by
  rw [conditionalExpr]
  refine completes_bind fun ht => ?_
  rw [bind_ok (accept_of_ended ht (by decide))]
  rfl

theorem completes_expression : Completes (conditionalExpr d) (expression d) := by
  rw [expression]
  refine completes_bind fun {c e t} ht => ?_
  have hnone : t.tokens.head?.bind AssignOp.ofToken? = none := by
    refine Option.eq_none_iff_forall_not_mem.2 fun op hop => ?_
    obtain ⟨a, ha, hop⟩ := Option.bind_eq_some_iff.1 hop
    obtain rfl := AssignOp.ofToken?_eq_some hop
    exact ht.head_ne (by rw [op.binding_symbol]; decide) ha
  rw [next_bind, hnone]
  rfl

theorem completes_typeName : Completes (baseType d) (typeName d) :=
  completes_bind fun {_ _ t} ht =>
    iterateOver_of_idle (arraySuffix?_of_ne (ht.head_ne (by decide))) t.rest

theorem completes_elementaryTypeName :
    Completes (elementaryTypeName false) (elementaryTypeName true) := by
  intro c s T t h ht
  rw [elementaryTypeName, bind_ok (looks_here c s), next_bind] at h ⊢
  generalize s.tokens.head? = next at h ⊢
  rcases next with _ | a
  · exact h
  cases a with
  | elementaryType word =>
    dsimp only at h ⊢
    cases hkind : ElementaryType.ofWord? word with
    | none =>
      rw [hkind] at h
      exact h
    | some kind =>
      rw [hkind] at h
      obtain ⟨_, u, hadvance, hspan⟩ := bind_eq_ok h
      rw [run_ite, if_neg (by simp), bind_ok (looks_spanFrom _ c u)] at hspan
      obtain ⟨rfl, rfl⟩ := pure_eq_ok hspan
      dsimp only
      rw [bind_ok hadvance, run_ite]
      split
      · rw [acceptWord, bind_ok (accept_eq_false (by simp [State.tokens, ht]))]
        rfl
      · rfl
  | _ => exact h

/-- The key of a mapping is a type name. -/
theorem completes_baseType : Completes mappingKey (baseType d) := by
  intro c s T t h ht
  rw [mappingKey, next_bind] at h
  rw [baseType, next_bind]
  rcases hhead : s.tokens.head? with _ | a
  · rw [hhead] at h
    exact absurd h (by simp [violation, fail, bind_ok (looks_here c s)])
  rw [hhead] at h
  cases a with
  | elementaryType word =>
    obtain ⟨type, u, htype, hpure⟩ := bind_eq_ok h
    obtain ⟨rfl, rfl⟩ := pure_eq_ok (c := c) hpure
    exact bind_ok (completes_elementaryTypeName htype ht)
  | identifier name => exact h
  | _ => exact absurd h (by simp [violation, fail, bind_ok (looks_here c s)])

theorem completes_statement {n : Nat} :
    Completes (simpleStatement (.ofDepth n)) (statement (.ofDepth n)) := by
  intro c s x t h _
  rcases ha : s.tokens.head? with _ | a
  · rw [statement, next_bind, ha]
    exact h
  · refine (statement_eq_simpleStatement ha ?_).trans h
    by_contra hnot
    obtain ⟨hopens, hdeclares⟩ := not_or.1 hnot
    exact simpleStatement_of_unopened ha (by simpa using hopens) (by simpa using hdeclares) h

end Grammar

end SolidityFrontend
