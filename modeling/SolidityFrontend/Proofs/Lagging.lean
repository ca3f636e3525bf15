import SolidityFrontend.Proofs.Silent

/-!
# Type names lag behind expressions

A type name is read by the steps by which an expression is: names with points between them, and
brackets. Where the tokens give a type name with a name behind it, the expression ends before that
name; where they give any other expression (`Settled`), the type name comes no farther and ends
before something else than a name (`Lags`).
-/

namespace SolidityFrontend

open SolidityFrontend.Parser

/-! ### Two readings of the same tokens -/

/-- All tokens that are left, as a passage with nothing behind it. -/
def Setting.alone (s : State) : Setting :=
  ⟨s.tokens, [], [], s.errors, s.errors, fun _ _ _ => id, fun _ _ _ => id⟩

namespace Setting

variable {s : State} {k : Nat}

theorem calm_alone : (alone s).Calm k := fun _ _ h => by simp [head₂, alone] at h

theorem lacks_alone {a : Token} : (alone s).Lacks k a := fun _ h => by simp [head₂, alone] at h

theorem at_alone : (alone s).At s.rest s s :=
  ⟨List.suffix_rfl, (List.append_nil _).symm, ⟨s.rest, rfl, (List.append_nil _).symm⟩, rfl, rfl⟩

end Setting

namespace Parser

variable {α β : Type} {p p' : Parser α} {f : α → Parser β} {c : Context} {s t u : State}

/-- A second reading of the same tokens takes the same of them. -/
theorem Echoes.run_alone [Placed α] {P : Proviso α} {j : Nat}
    (h : Echoes (Setting.alone s) P anywhere j 0 p p') (hp : Silent p)
    (hc : c.structLiterals = true) {x : α} (hx : p c s = (.ok x, t)) (hP : P x c t) :
    ∃ x' t', p' c s = (.ok x', t') ∧ Alike x x' ∧ t'.tokens = t.tokens := by
  obtain ⟨x', t', v, hx', halike, hv⟩ := h.run ⟨id, fun _ => hc⟩ Setting.at_alone trivial hx
    ⟨(congrArg Array.size (hp.eq hx)).le, Nat.zero_le _⟩ hP
  exact ⟨x', t', hx', halike, by rw [hv.tokens₁, hv.tokens₂]; rfl⟩

theorem tokens_advance (s : State) : s.advance.tokens = s.tokens.tail := by
  rw [State.advance, State.tokens, State.tokens]
  cases hrest : s.rest with
  | nil => simp [hrest]
  | cons l rest => rfl

theorem errors_advance (s : State) : s.advance.errors = s.errors := by
  rw [State.advance]
  cases s.rest <;> rfl

theorem length_tokens (s : State) : s.tokens.length = s.rest.length := List.length_map _

theorem length_advance (s : State) : s.advance.rest.length = s.rest.length - 1 := by
  rw [← length_tokens, ← length_tokens, tokens_advance, List.length_tail]

theorem length_advance_le (s : State) : s.advance.rest.length ≤ s.rest.length := by
  rw [← length_tokens, ← length_tokens, tokens_advance, List.length_tail]
  omega

theorem length_eq_of_tokens (h : t.tokens = s.tokens) : t.rest.length = s.rest.length := by
  rw [← length_tokens, ← length_tokens, h]

theorem symbol_of_head {b : Symbol} (h : s.tokens.head? = some (.symbol b)) :
    ∃ span, symbol b c s = (.ok span, s.advance) := by
  refine ⟨s.nextSpan c.stop, ?_⟩
  rw [symbol, bind_ok (looks_here c s), bind_ok (accept_eq_true h)]
  rfl

theorem unexpected_eq_error (e : Expected) (c : Context) (s : State) :
    ∃ error, (unexpected e : Parser α) c s = (.error error, s) := by
  rw [unexpected, bind_ok (looks_here c s), next_bind]
  cases s.tokens.head? with
  | none => exact ⟨_, rfl⟩
  | some t => exact ⟨_, rfl⟩

theorem symbol_of_head_ne {b : Symbol} (h : s.tokens.head? ≠ some (.symbol b)) :
    ∃ error, symbol b c s = (.error error, s) := by
  rw [symbol, bind_ok (looks_here c s), bind_ok (accept_eq_false h), run_ite,
    if_neg Bool.false_ne_true, run_ite]
  split
  · exact ⟨_, rfl⟩
  · exact unexpected_eq_error _ c s

theorem nextWord_eq (c : Context) (s : State) :
    nextWord? c s = (.ok (s.tokens.head?.bind Token.identifier?), s) := sees_nextWord c s

theorem identifier_of_head {name : String}
    (h : s.tokens.head?.bind Token.identifier? = some name) :
    ∃ span, identifier c s = (.ok ⟨name, span⟩, s.advance) := by
  refine ⟨s.nextSpan c.stop, ?_⟩
  rw [identifier, bind_ok (looks_here c s), bind_ok (nextWord_eq c s), h]
  rfl

/-- A token is taken only where it is next. -/
theorem take_eq_ok {a : Token} {e : Expected} {span : Span} (h : take a e c s = (.ok span, t)) :
    s.tokens.head? = some a ∧ t = s.advance := by
  rw [take, bind_ok (looks_here c s)] at h
  by_cases hhead : s.tokens.head? = some a
  · rw [bind_ok (accept_eq_true hhead), run_ite, if_pos rfl] at h
    exact ⟨hhead, (pure_eq_ok h).2⟩
  · rw [bind_ok (accept_eq_false hhead), run_ite, if_neg Bool.false_ne_true] at h
    exact absurd h (unexpected_ne_ok _ c s span t)

theorem identifier_eq_ok {i : Identifier} (h : identifier c s = (.ok i, t)) :
    s.tokens.head?.bind Token.identifier? = some i.name ∧ t = s.advance := by
  rcases hname : s.tokens.head?.bind Token.identifier? with _ | name
  · rw [identifier, bind_ok (looks_here c s), bind_ok (nextWord_eq c s), hname] at h
    exact absurd h (unexpected_ne_ok _ c s i t)
  · obtain ⟨span, hidentifier⟩ := identifier_of_head (c := c) hname
    obtain ⟨hi, rfl⟩ := Prod.mk.inj (h.symm.trans hidentifier)
    obtain rfl := Except.ok.inj hi
    exact ⟨rfl, rfl⟩

theorem identifier_of_nameless (h : s.tokens.head?.bind Token.identifier? = none) :
    ∃ error, identifier c s = (.error error, s) := by
  rw [identifier, bind_ok (looks_here c s), bind_ok (nextWord_eq c s), h]
  exact unexpected_eq_error _ c s

theorem onward_accept (t : Token) : Onward (accept t) := by
  refine (show Onward (nextIs t) from onward_of_state_eq fun c s => by rw [sees_nextIs t c s]).bind
    fun b => ?_
  cases b with
  | true => exact onward_advance.bind fun _ => onward_pure true
  | false => exact onward_pure false

end Parser

/-! ### Readings that go on behind an expression -/

/-- No symbol is next that binds what stands in front of it, so no expression goes on. -/
def Ended (ts : List Token) : Prop := ∀ b, ts.head? = some (.symbol b) → b.binding = 0

theorem Ended.head_ne {ts : List Token} {b : Symbol} (h : Ended ts) (hb : b.binding ≠ 0) :
    ts.head? ≠ some (.symbol b) := fun hhead => hb (h b hhead)

/-- A reading that goes on behind the one of `base`, unless the next token ends it. -/
def Beyond (base : Parser Expr) (c : Context) (s : State) (e : Expr) (t : State) : Prop :=
  ∃ e₁ u, base c s = (.ok e₁, u) ∧ t.rest.length ≤ u.rest.length
    ∧ (Ended u.tokens → e = e₁ ∧ t = u)

section

variable {base p : Parser Expr} {f : Expr → Parser Expr} {c : Context} {s t : State} {e : Expr}

theorem Beyond.refl (h : base c s = (.ok e, t)) : Beyond base c s e t :=
  ⟨e, t, h, le_rfl, fun _ => ⟨rfl, rfl⟩⟩

theorem Beyond.bind (h : (p >>= f) c s = (.ok e, t))
    (hp : ∀ x u, p c s = (.ok x, u) → Beyond base c s x u) (ho : ∀ x, Onward (f x))
    (hidle : ∀ x u, Ended u.tokens → f x c u = (.ok x, u)) : Beyond base c s e t := by
  obtain ⟨x, u, hx, hf⟩ := bind_eq_ok h
  obtain ⟨e₁, u₁, hbase, hlength, hsame⟩ := hp x u hx
  have hlength' := (ho x).length_le c u
  rw [hf] at hlength'
  refine ⟨e₁, u₁, hbase, hlength'.trans hlength, fun hfree => ?_⟩
  obtain ⟨rfl, rfl⟩ := hsame hfree
  rw [hidle x u hfree] at hf
  obtain ⟨hx', rfl⟩ := Prod.mk.inj hf
  exact ⟨(Except.ok.inj hx').symm, rfl⟩

end

/-- Whether an expression may be a type name: a path or an elementary type, perhaps with brackets. -/
def Expr.isTypeLike : Expr → Bool
  | .identifier _ | .elementary _ => true
  | .member base _ _ | .index base _ _ => base.isTypeLike
  | _ => false

/-- Whether no name is next. -/
def nameless (ts : List Token) : Prop := ts.head?.bind Token.identifier? = none

/-- An expression that is not a type name with a name behind it. -/
def Settled (e : Expr) (t : State) : Prop := nameless t.tokens ∨ e.isTypeLike = false

/-- An answer that came no farther than `t`, and not to a name if it is a value. -/
def Lags {α : Type} (t : State) (r : Except SyntaxError α × State) : Prop :=
  t.rest.length ≤ r.2.rest.length ∧ ∀ x, r.1 = .ok x → nameless r.2.tokens

theorem lags_of_error {α : Type} {t : State} {r : Except SyntaxError α × State} {s : State}
    (h : ∃ error, r = (.error error, s)) (hle : t.rest.length ≤ s.rest.length) : Lags t r := by
  obtain ⟨error, rfl⟩ := h
  exact ⟨hle, fun _ hx => by simp at hx⟩

theorem nameless_of_symbol {ts : List Token} {b : Symbol} (h : ts.head? = some (.symbol b)) :
    nameless ts := by
  rw [nameless, h]
  rfl

theorem ended_of_not_nameless {ts : List Token} (h : ¬nameless ts) : Ended ts :=
  fun _ hb => absurd (nameless_of_symbol hb) h

theorem Lags.mono {α : Type} {t u : State} {r : Except SyntaxError α × State} (h : Lags u r)
    (hle : t.rest.length ≤ u.rest.length) : Lags t r := ⟨hle.trans h.1, h.2⟩

theorem Settled.of_beyond {e e₁ : Expr} {t u : State} (h : Settled e t)
    (hsame : Ended u.tokens → e = e₁ ∧ t = u) : Settled e₁ u := by
  by_cases hname : nameless u.tokens
  · exact .inl hname
  · obtain ⟨rfl, rfl⟩ := hsame (ended_of_not_nameless hname)
    exact h

namespace Grammar

variable {H : Setting} {c : Context} {s t u : State} {d d' : Nested} {e e₁ e₂ : Expr}

theorem accept_of_ended {b : Symbol} (h : Ended u.tokens) (hb : b.binding ≠ 0) :
    accept (.symbol b) c u = (.ok false, u) := accept_eq_false (h.head_ne hb)

theorem operatorStep_of_ended {ops : List BinaryOp} {operand : Parser Expr} {left : Expr}
    (h : Ended u.tokens) : operatorStep ops operand left c u = (.ok none, u) := by
  have hnone : u.tokens.head?.bind (BinaryOp.ofToken? ops) = none := by
    refine Option.eq_none_iff_forall_not_mem.2 fun op hop => ?_
    obtain ⟨t, ht, hop⟩ := Option.bind_eq_some_iff.1 hop
    obtain ⟨rfl, -⟩ := BinaryOp.ofToken?_eq_some hop
    exact h.head_ne (by rw [op.binding_symbol]; exact Nat.succ_ne_zero _) ht
  rw [operatorStep, bind_ok (sees_next c u), hnone]
  rfl

theorem suffix?_of_ended (h : Ended u.tokens) : suffix? d e c u = (.ok none, u) := by
  rw [suffix?_eq, if_neg, next_bind, plainSuffix?_of_not]
  · rfl
  · intro hstarts
    rcases hhead : u.tokens.head? with _ | t
    · simp [hhead, startsSuffix] at hstarts
    · cases t with
      | symbol b =>
        have hbinding := h b hhead
        rw [hhead] at hstarts
        cases b <;> first | exact absurd hstarts (by decide) | exact absurd hbinding (by decide)
      | _ => simp [hhead, startsSuffix] at hstarts
  · rw [fieldsAhead_eq_false (h.head_ne (by decide))]
    exact Bool.false_ne_true

section

variable (hd : d.Echoed H d')
include hd

theorem beyond_powerExpr (h : powerExpr d c s = (.ok e, t)) : Beyond (unaryExpr d) c s e t := by
  refine Beyond.bind h (fun _ _ => Beyond.refl) (fun base => ?_) fun x u hu => ?_
  · refine (onward_accept _).bind fun b => .ite (fun _ => ?_) fun _ => onward_pure base
    exact (hd.exponent 1 Setting.calm_succ).onward.bind fun _ => onward_pure _
  · rw [bind_ok (accept_of_ended hu (by decide))]
    rfl

theorem onward_binaryExpr (tiers : List (List BinaryOp)) : Onward (binaryExpr d tiers) :=
  (echoes_binaryExpr (k := 1) hd Setting.calm_succ tiers).onward

omit hd in
theorem onward_operatorStep {ops : List BinaryOp} {operand : Parser Expr} (h : Onward operand)
    (left : Expr) : Onward (operatorStep ops operand left) := by
  refine onward_next fun o => ?_
  cases o.bind (BinaryOp.ofToken? ops) with
  | none => exact onward_pure none
  | some op => exact onward_advance.bind fun _ => h.bind fun _ => onward_pure _

theorem beyond_binaryExpr : ∀ {tiers : List (List BinaryOp)} {e : Expr} {t : State},
    binaryExpr d tiers c s = (.ok e, t) → Beyond (unaryExpr d) c s e t
  | [], _, _, h => beyond_powerExpr hd h
  | ops :: tighter, _, _, h => by
    rw [binaryExpr, leftAssociative_eq] at h
    refine Beyond.bind h (fun _ _ => beyond_binaryExpr) (fun x => ?_) fun x u hu => ?_
    · exact onward_iterate (onward_operatorStep (onward_binaryExpr hd tighter)) x
    · exact iterateOver_of_idle (operatorStep_of_ended hu) u.rest

theorem onward_inside : Onward (inside d) :=
  (echoes_inside (I := anywhere) (k := 1) hd Setting.calm_succ).onward

theorem beyond_conditionalExpr (h : conditionalExpr d c s = (.ok e, t)) :
    Beyond (unaryExpr d) c s e t := by
  have hexpression : Onward d.expression := (hd.expression 1 Setting.calm_succ).onward
  rw [conditionalExpr] at h
  refine Beyond.bind h (fun _ _ => beyond_binaryExpr hd) (fun condition => ?_) fun x u hu => ?_
  · refine (onward_accept _).bind fun b => .ite (fun _ => ?_) fun _ => onward_pure condition
    refine (onward_inside hd).bind fun _ => (onward_symbol _).bind fun _ => ?_
    exact hexpression.bind fun _ => onward_pure _
  · rw [bind_ok (accept_of_ended hu (by decide))]
    rfl

theorem beyond_expression (h : expression d c s = (.ok e, t)) : Beyond (unaryExpr d) c s e t := by
  have hexpression : Onward d.expression := (hd.expression 1 Setting.calm_succ).onward
  rw [expression] at h
  refine Beyond.bind h (fun _ _ => beyond_conditionalExpr hd) (fun left => onward_next fun o => ?_)
    fun x u hu => ?_
  · cases o.bind AssignOp.ofToken? with
    | none => exact onward_pure left
    | some op =>
      refine onward_advance.bind fun _ => .ite (fun _ => ?_) fun _ => onward_fail _
      exact hexpression.bind fun _ => onward_pure _
  · have hnone : u.tokens.head?.bind AssignOp.ofToken? = none := by
      refine Option.eq_none_iff_forall_not_mem.2 fun op hop => ?_
      obtain ⟨t, ht, hop⟩ := Option.bind_eq_some_iff.1 hop
      obtain rfl := AssignOp.ofToken?_eq_some hop
      exact hu.head_ne (by rw [op.binding_symbol]; decide) ht
    rw [next_bind, hnone]
    rfl

end

/-! ### Brackets -/

theorem bind_fails {α β : Type} {p : Parser α} {f : α → Parser β}
    (h : ∃ error, p c s = (.error error, s)) : ∃ error, (p >>= f) c s = (.error error, s) := by
  obtain ⟨error, h⟩ := h
  exact ⟨error, bind_error h⟩

theorem arraySuffix?_of_bracket {T : TypeName} (h : s.tokens.head? = some (.symbol .leftBracket)) :
    arraySuffix? d T c s = ((if s.advance.tokens.head? = some (.symbol .rightBracket) then pure none
      else some <$> d.expression) >>= fun size => symbol .rightBracket >>= fun _ =>
        spanFrom T.span >>= fun span => pure (some (TypeName.array T size span))) c s.advance := by
  rw [arraySuffix?, bind_ok (accept_eq_true h), run_ite, if_pos rfl,
    bind_ok (sees_nextIs _ c s.advance)]
  by_cases hright : s.advance.tokens.head? = some (.symbol .rightBracket)
  · simp [hright]
  · simp [hright]

theorem arraySuffix?_of_ne {T : TypeName} (h : s.tokens.head? ≠ some (.symbol .leftBracket)) :
    arraySuffix? d T c s = (.ok none, s) := by
  rw [arraySuffix?, bind_ok (accept_eq_false h)]
  rfl

theorem closeArray {T : TypeName} (size : Option Expr)
    (h : s.tokens.head? = some (.symbol .rightBracket)) :
    ∃ T', (symbol .rightBracket >>= fun _ => spanFrom T.span >>= fun span =>
      pure (some (TypeName.array T size span))) c s = (.ok (some T'), s.advance) := by
  obtain ⟨_, h⟩ := symbol_of_head (c := c) h
  exact ⟨_, (bind_ok h).trans rfl⟩

theorem closeIndex {size : Option Expr}
    (h : (spanFrom e.span >>= fun span => pure (Expr.index e size span)) c s = (.ok e₂, t)) :
    t = s ∧ e₂.isTypeLike = e.isTypeLike := by
  rw [bind_ok (looks_spanFrom e.span c s)] at h
  obtain ⟨rfl, rfl⟩ := pure_eq_ok h
  exact ⟨rfl, rfl⟩

/-- What stands behind the lower bound of an index or a slice. -/
def indexEnd (d : Nested) (base : Expr) (lower : Option Expr) : Parser Expr := do
  if ← accept (.symbol .colon) then
    let upper ← bound? d .rightBracket
    let _ ← symbol .rightBracket
    return .slice base lower upper (← spanFrom base.span)
  let _ ← symbol .rightBracket
  return .index base lower (← spanFrom base.span)

theorem onward_indexEnd (hd : d.Echoed H d') (base : Expr) (lower : Option Expr) :
    Onward (indexEnd d base lower) := by
  refine (onward_accept _).bind fun b => .ite (fun _ => ?_) fun _ => ?_
  · refine (echoes_bound? (I := anywhere) (k := 1) hd _).onward.bind fun upper => ?_
    exact (onward_symbol _).bind fun _ => (onward_spanFrom _).bind fun _ => onward_pure _
  · exact (onward_symbol _).bind fun _ => (onward_spanFrom _).bind fun _ => onward_pure _

theorem suffix?_of_bracket (h : s.tokens.head? = some (.symbol .leftBracket)) :
    suffix? d e c s = (indexOrSlice d e >>= fun e => pure (some e)) c s := by
  rw [suffix?_eq, fieldsAhead_eq_false (by simp [h]), if_neg Bool.false_ne_true, next_bind, h]
  rfl

/-- Where named fields are allowed anyway, an expression inside of brackets is read as any other. -/
theorem inside_eq (hc : c.structLiterals = true) : inside d c s = d.expression c s := by
  cases c
  subst hc
  rfl

section

variable (hd : d.Echoed H d') (hcolon : ∀ c s, s.tokens.head? = some (.symbol .colon) →
  ∃ error, d.expression c s = (.error error, s))
include hd hcolon

/-- Brackets behind an expression make an array type of a type, or that fails inside of them. -/
theorem run_arraySuffix? (hc : c.structLiterals = true)
    (hbracket : s.tokens.head? = some (.symbol .leftBracket))
    (h : indexOrSlice d e c s = (.ok e₂, t)) (T : TypeName) :
    (∃ T', arraySuffix? d T c s = (.ok (some T'), t) ∧ e₂.isTypeLike = e.isTypeLike)
      ∨ ∃ error v, arraySuffix? d T c s = (.error error, v) ∧ t.rest.length ≤ v.rest.length := by
  rw [arraySuffix?_of_bracket hbracket]
  obtain ⟨_, hopen⟩ := symbol_of_head (c := c) hbracket
  rw [indexOrSlice, bind_ok hopen] at h
  by_cases hright : s.advance.tokens.head? = some (.symbol .rightBracket)
  · rw [bind_ok (accept_eq_true hright), run_ite, if_pos rfl] at h
    obtain ⟨rfl, hlike⟩ := closeIndex h
    obtain ⟨T', hclose⟩ := closeArray (c := c) (T := T) none hright
    refine .inl ⟨T', ?_, hlike⟩
    rw [if_pos hright]
    exact hclose
  rw [bind_ok (accept_eq_false hright), run_ite, if_neg Bool.false_ne_true] at h
  rw [if_neg hright]
  obtain ⟨lower, w, hlower, hend⟩ := bind_eq_ok h
  change indexEnd d e lower c w = _ at hend
  have hlength := (onward_indexEnd hd e lower).length_le c w
  rw [hend] at hlength
  dsimp only at hlength
  rw [bound?, bind_ok (sees_nextIs _ c s.advance), run_ite] at hlower
  by_cases hcolon' : s.advance.tokens.head? = some (.symbol .colon)
  · -- A slice without a lower bound is no array type.
    rw [if_pos (by simpa using hcolon')] at hlower
    obtain ⟨rfl, rfl⟩ := pure_eq_ok hlower
    obtain ⟨error, hfails⟩ := hcolon c s.advance hcolon'
    exact .inr ⟨error, s.advance, bind_error (bind_error hfails), hlength⟩
  rw [if_neg (by simpa using hcolon')] at hlower
  obtain ⟨x, w₁, hx, hpure⟩ := bind_eq_ok hlower
  obtain ⟨rfl, rfl⟩ := pure_eq_ok hpure
  rw [inside_eq hc] at hx
  have hsize : (some <$> d.expression) c s.advance = (.ok (some x), w) := bind_ok hx
  rw [bind_ok hsize]
  by_cases hclose : w.tokens.head? = some (.symbol .rightBracket)
  · obtain ⟨_, hclosed⟩ := symbol_of_head (c := c) hclose
    obtain ⟨T', hclosed'⟩ := closeArray (c := c) (T := T) (some x) hclose
    have hend' : (spanFrom e.span >>= fun span => pure (Expr.index e (some x) span)) c w.advance
        = (.ok e₂, t) := by
      rw [indexEnd, bind_ok (accept_eq_false (by simp [hclose])), run_ite,
        if_neg Bool.false_ne_true, bind_ok hclosed] at hend
      exact hend
    obtain ⟨rfl, hlike⟩ := closeIndex hend'
    exact .inl ⟨T', hclosed', hlike⟩
  · obtain ⟨error, hfails⟩ := symbol_of_head_ne (c := c) hclose
    exact .inr ⟨error, w, bind_error hfails, hlength⟩

/-- The brackets of an array type come no farther than an expression that is settled. -/
theorem lags_brackets (hc : c.structLiterals = true) (clock clock' : List Lexeme)
    (hclock : s.rest.length ≤ clock.length) (hclock' : s.rest.length ≤ clock'.length)
    (he : e.isTypeLike = true) (h : iterateOver (suffix? d) clock e c s = (.ok e₂, t))
    (hsettled : Settled e₂ t) (T : TypeName) :
    Lags t (iterateOver (arraySuffix? d) clock' T c s) := by
  have honward (clock : List Lexeme) (e : Expr) : Onward (iterateOver (suffix? d) clock e) :=
    onward_iterateOver (onward_suffix? hd) clock e
  induction clock' generalizing clock e T s with
  | nil =>
    have hnil : s.rest = [] := List.eq_nil_of_length_eq_zero (by simpa using hclock')
    have hle := (honward clock e).length_le c s
    rw [h] at hle
    refine ⟨hle, fun _ _ => ?_⟩
    change nameless s.tokens
    rw [State.tokens, hnil]
    rfl
  | cons l' clock' ih =>
    by_cases hbracket : s.tokens.head? = some (.symbol .leftBracket)
    · obtain ⟨l, clock, rfl⟩ : ∃ l clock', clock = l :: clock' := by
        rcases clock with _ | ⟨l, clock⟩
        · rw [State.tokens, List.eq_nil_of_length_eq_zero (Nat.le_zero.1 hclock)] at hbracket
          simp at hbracket
        · exact ⟨l, clock, rfl⟩
      rw [iterateOver] at h
      obtain ⟨o, u, hsuffix, hrest⟩ := bind_eq_ok h
      rw [suffix?_of_bracket hbracket] at hsuffix
      obtain ⟨e₁, u₁, hindex, hpure⟩ := bind_eq_ok hsuffix
      obtain ⟨rfl, rfl⟩ := pure_eq_ok hpure
      have hrest' : iterateOver (suffix? d) clock e₁ c u = (.ok e₂, t) := hrest
      have hlength := (honward clock e₁).length_le c u
      have hlt := (echoes_indexOrSlice (k := 0) (I := anywhere) hd
        (rfl : Alike e e)).steps c s e₁ u trivial hindex
      rw [hrest'] at hlength
      dsimp only at hlength
      rw [iterateOver]
      rcases run_arraySuffix? hd hcolon hc hbracket hindex T with
        ⟨T', hrun, hlike⟩ | ⟨error, v, hrun, hle⟩
      · rw [bind_ok hrun]
        rw [List.length_cons] at hclock hclock'
        exact ih clock (by omega) (by omega) (hlike.trans he) hrest' T'
      · rw [bind_error hrun]
        exact lags_of_error ⟨error, rfl⟩ (hlength.trans hle)
    · have hle := (honward clock e).length_le c s
      rw [h] at hle
      rw [iterateOver, bind_ok (arraySuffix?_of_ne hbracket)]
      refine ⟨hle, fun _ _ => ?_⟩
      change nameless s.tokens
      by_contra hname
      rw [iterateOver_of_idle (suffix?_of_ended (ended_of_not_nameless hname))] at h
      obtain ⟨hx, rfl⟩ := Prod.mk.inj h
      obtain rfl := Except.ok.inj hx
      rcases hsettled with hnameless | hlike
      · exact hname hnameless
      · rw [he] at hlike
        simp at hlike

end

/-! ### Names -/

theorem length_advance_lt {a : Token} (h : s.tokens.head? = some a) :
    s.advance.rest.length < s.rest.length := by
  rw [← length_tokens, ← length_tokens, tokens_advance, List.length_tail]
  have hpos : 0 < s.tokens.length := by
    rcases hnil : s.tokens with _ | ⟨t, ts⟩
    · simp [hnil] at h
    · simp
  omega

/-- A point and a name, which go on with a path as with an expression. -/
theorem run_pathSegment? (e : Expr) (h : pathAhead s.tokens) : ∃ name e',
    pathSegment? c s = (.ok (some name), s.advance.advance)
      ∧ suffix? d e c s = (.ok (some e'), s.advance.advance)
      ∧ e'.isTypeLike = e.isTypeLike ∧ s.advance.advance.rest.length < s.rest.length := by
  have hahead := h
  rw [pathAhead, Bool.and_eq_true, ← List.head?_eq_getElem?] at h
  have hdot := beq_iff_eq.1 h.1
  obtain ⟨name, hname⟩ := Option.isSome_iff_exists.1 h.2
  have hone : s.tokens[1]? = s.advance.tokens.head? := by
    rw [tokens_advance, ← List.drop_one, List.head?_drop]
  rw [hone] at hname
  obtain ⟨span, hidentifier⟩ := identifier_of_head (c := c) hname
  have hsuffix : ∃ span', suffix? d e c s
      = (.ok (some (.member e ⟨name, span⟩ span')), s.advance.advance) := by
    rw [suffix?_eq, fieldsAhead_eq_false (by simp [hdot]), if_neg Bool.false_ne_true, next_bind,
      hdot]
    exact ⟨_, bind_ok hidentifier⟩
  obtain ⟨span', hsuffix⟩ := hsuffix
  refine ⟨⟨name, span⟩, _, ?_, hsuffix, rfl, ?_⟩
  · rw [pathSegment?_eq, if_pos hahead]
    exact bind_ok hidentifier
  · exact (length_advance_le _).trans_lt (length_advance_lt hdot)

/-- What follows an expression goes on behind a path. -/
theorem iterateOver_behind_path (clock clock' : List Lexeme) (hclock : s.rest.length ≤ clock.length)
    (hclock' : s.rest.length ≤ clock'.length) (he : e.isTypeLike = true) :
    ∃ names v e' clock'', manyOver pathSegment? clock' c s = (.ok names, v)
      ∧ e'.isTypeLike = true ∧ v.rest.length ≤ clock''.length
      ∧ iterateOver (suffix? d) clock e c s = iterateOver (suffix? d) clock'' e' c v := by
  induction clock' generalizing clock e s with
  | nil => exact ⟨[], s, e, clock, rfl, he, hclock, rfl⟩
  | cons l' clock' ih =>
    by_cases hahead : pathAhead s.tokens
    · obtain ⟨name, e', hsegment, hsuffix, hlike, hlt⟩ := run_pathSegment? (c := c) (d := d) e hahead
      obtain ⟨l, clock, rfl⟩ : ∃ l clock', clock = l :: clock' :=
        List.exists_cons_of_length_pos (by omega)
      rw [List.length_cons] at hclock hclock'
      obtain ⟨names, v, e'', clock'', hnames, hlike', hclock'', hrest⟩ :=
        ih clock (s := s.advance.advance) (by omega) (by omega) (hlike.trans he)
      refine ⟨name :: names, v, e'', clock'', ?_, hlike', hclock'', ?_⟩
      · rw [manyOver, bind_ok hsegment]
        exact bind_ok hnames
      · rw [iterateOver, bind_ok hsuffix]
        exact hrest
    · refine ⟨[], s, e, clock, ?_, he, hclock, rfl⟩
      exact manyOver_of_idle (by rw [pathSegment?_eq, if_neg hahead]) _

/-! ### Type names -/

/-- What begins a type name that may begin an expression. -/
theorem typeName_of_nameless_head (h : s.tokens.head?.bind Token.identifier? = none)
    (helementary : ∀ w, s.tokens.head? ≠ some (.elementaryType w))
    (hmapping : s.tokens.head? ≠ some (.keyword .mapping))
    (hfunction : s.tokens.head? ≠ some (.keyword .function)) :
    ∃ error, typeName d c s = (.error error, s) := by
  refine bind_fails ?_
  rw [baseType, next_bind]
  generalize s.tokens.head? = o at *
  rcases o with _ | t
  · exact unexpected_eq_error _ c s
  · cases t with
    | identifier name => simp [Token.identifier?] at h
    | elementaryType w => exact absurd rfl (helementary w)
    | keyword w =>
      cases w <;> first | exact absurd rfl hmapping | exact absurd rfl hfunction | exact unexpected_eq_error _ c s
    | _ => exact unexpected_eq_error _ c s

/-- Behind a name and those with points before them the brackets of an array type are read. -/
theorem typeName_of_path {name : String} {names : List Identifier} {v : State}
    (hname : s.tokens.head? = some (.identifier name))
    (h : manyOver pathSegment? s.advance.rest c s.advance = (.ok names, v)) :
    ∃ T, typeName d c s = iterateOver (arraySuffix? d) v.rest T c v := by
  have hword : s.tokens.head?.bind Token.identifier? = some name := by rw [hname]; rfl
  obtain ⟨span, hfirst⟩ := identifier_of_head (c := c) hword
  have hmany : many pathSegment? c s.advance = (.ok names, v) := h
  obtain ⟨T, hT⟩ : ∃ T, baseType d c s = (.ok T, v) := by
    rw [baseType, next_bind, hname]
    dsimp only
    rw [path]
    exact ⟨_, (bind_ok ((bind_ok hfirst).trans ((bind_ok hmany).trans
      (bind_ok (looks_spanFrom span c v))))).trans rfl⟩
  exact ⟨T, bind_ok hT⟩

/-- Before something else than a name the brackets of an array type follow an elementary type. -/
theorem typeName_of_elementary {w : String} {kind : ElementaryType}
    (hhead : s.tokens.head? = some (.elementaryType w)) (hkind : ElementaryType.ofWord? w = some kind)
    (hnameless : nameless s.advance.tokens) :
    ∃ T, typeName d c s = iterateOver (arraySuffix? d) s.advance.rest T c s.advance := by
  have hword : acceptWord "payable" c s.advance = (.ok false, s.advance) :=
    accept_eq_false fun h => by simp [nameless, h, Token.identifier?] at hnameless
  have hpayable : ∃ type, elementaryTypeName true c s = (.ok type, s.advance) := by
    rw [elementaryTypeName, bind_ok (looks_here c s), next_bind, hhead]
    dsimp only
    rw [hkind]
    dsimp only
    have hadvance : advance c s = (.ok (), s.advance) := rfl
    rw [bind_ok hadvance, run_ite]
    split
    · rw [bind_ok hword]
      exact ⟨_, bind_ok (looks_spanFrom _ c s.advance)⟩
    · exact ⟨_, bind_ok (looks_spanFrom _ c s.advance)⟩
  obtain ⟨type, htype⟩ := hpayable
  obtain ⟨T, hT⟩ : ∃ T, baseType d c s = (.ok T, s.advance) := by
    rw [baseType, next_bind, hhead]
    exact ⟨_, bind_ok htype⟩
  exact ⟨T, bind_ok hT⟩

/-- Before something else than a bracket and a name a type name ends. -/
theorem lags_of_no_bracket {b : Symbol} {T : TypeName} {clock : List Lexeme}
    (hb : s.tokens.head? = some (.symbol b)) (hbracket : b ≠ .leftBracket)
    (hle : t.rest.length ≤ s.rest.length) :
    Lags t (iterateOver (arraySuffix? d) clock T c s) := by
  rw [iterateOver_of_idle (arraySuffix?_of_ne (by simpa [hb] using hbracket))]
  exact ⟨hle, fun _ _ => nameless_of_symbol hb⟩

section

variable (hd : d.Echoed H d') (hcolon : ∀ c s, s.tokens.head? = some (.symbol .colon) →
  ∃ error, d.expression c s = (.error error, s))
include hd hcolon

/-- The reading of a type name lags behind that of an expression that begins with a name. -/
theorem lags_typeName_of_name {name : String} (hc : c.structLiterals = true)
    (hhead : s.tokens.head? = some (.identifier name))
    (h : suffixedExpr d c s = (.ok e, t)) (hsettled : Settled e t) : Lags t (typeName d c s) := by
  obtain ⟨e₀, v₀, hprimary, hsuffixes⟩ := bind_eq_ok h
  have hle : t.rest.length ≤ v₀.rest.length := by
    have hlength := (onward_iterate (onward_suffix? hd) e₀).length_le c v₀
    rwa [hsuffixes] at hlength
  rw [primaryExpr, next_bind, hhead] at hprimary
  change identifierExpr d name c s = _ at hprimary
  have hname : ∀ {e₀ : Expr} {v₀ : State},
      (identifier >>= fun i => pure (Expr.identifier i)) c s = (.ok e₀, v₀) →
        e₀.isTypeLike = true ∧ v₀ = s.advance := by
    intro e₀ v₀ hrun
    have hword : s.tokens.head?.bind Token.identifier? = some name := by rw [hhead]; rfl
    obtain ⟨span, hidentifier⟩ := identifier_of_head (c := c) hword
    rw [bind_ok hidentifier] at hrun
    obtain ⟨rfl, rfl⟩ := pure_eq_ok hrun
    exact ⟨rfl, rfl⟩
  by_cases hparen : s.tokens[1]? = some (Token.symbol .leftParen)
  · have hparen' : s.advance.tokens.head? = some (.symbol .leftParen) := by
      rw [tokens_advance, ← List.drop_one, List.head?_drop, hparen]
    have hv₀ : v₀.rest.length ≤ s.advance.rest.length := by
      have hstep := (echoes_identifierExpr (I := anywhere) (k := 1) hd Setting.calm_succ name).steps c s e₀
        v₀ trivial hprimary
      rw [length_advance]
      omega
    obtain ⟨T, hT⟩ := typeName_of_path (d := d) (c := c) hhead
      (manyOver_of_idle (by rw [pathSegment?_eq, pathAhead_eq_false (by simp [hparen'])]; rfl) _)
    rw [hT]
    exact lags_of_no_bracket hparen' (by decide) (hle.trans hv₀)
  · rw [identifierExpr, bind_ok (sees_peek 1 c s), run_ite, if_neg hparen] at hprimary
    obtain ⟨hlike, rfl⟩ := hname hprimary
    obtain ⟨names, v, e', clock, hnames, hlike', hclock, hrest⟩ := iterateOver_behind_path (c := c)
      (d := d) s.advance.rest s.advance.rest le_rfl le_rfl hlike
    obtain ⟨T, hT⟩ := typeName_of_path (d := d) hhead hnames
    rw [hT]
    exact lags_brackets hd hcolon hc clock v.rest hclock le_rfl hlike' (hrest.symm.trans hsuffixes)
      hsettled T

/-- The reading of a type name lags behind that of an expression that begins with an elementary type.
-/
theorem lags_typeName_of_elementary {w : String} (hc : c.structLiterals = true)
    (hhead : s.tokens.head? = some (.elementaryType w))
    (h : suffixedExpr d c s = (.ok e, t)) (hsettled : Settled e t) : Lags t (typeName d c s) := by
  obtain ⟨e₀, v₀, hprimary, hsuffixes⟩ := bind_eq_ok h
  have hle : t.rest.length ≤ v₀.rest.length := by
    have hlength := (onward_iterate (onward_suffix? hd) e₀).length_le c v₀
    rwa [hsuffixes] at hlength
  rw [primaryExpr, next_bind, hhead] at hprimary
  change elementaryExpr d c s = _ at hprimary
  obtain ⟨type, v, htype, hend⟩ := bind_eq_ok hprimary
  rw [elementaryTypeName, bind_ok (looks_here c s), next_bind, hhead] at htype
  dsimp only at htype
  rcases hkind : ElementaryType.ofWord? w with _ | kind
  · rw [hkind] at htype
    simp [violation, fail] at htype
  rw [hkind] at htype
  have hv : v = s.advance := by
    obtain ⟨_, v', hadvance, hspan⟩ := bind_eq_ok htype
    obtain ⟨-, rfl⟩ := Prod.mk.inj hadvance
    simp only [Bool.false_eq_true, and_false, if_false] at hspan
    rw [bind_ok (looks_spanFrom _ c _)] at hspan
    exact (pure_eq_ok hspan).2
  subst hv
  by_cases hparen : s.advance.tokens.head? = some (.symbol .leftParen)
  · obtain ⟨T, hT⟩ := typeName_of_elementary (d := d) (c := c) hhead hkind
      (nameless_of_symbol hparen)
    have hv₀ : v₀.rest.length ≤ s.advance.rest.length := by
      have hstep := (echoes_elementaryExpr (I := anywhere) (k := 1) hd Setting.calm_succ).steps c s e₀ v₀
        trivial hprimary
      rw [length_advance]
      omega
    rw [hT]
    exact lags_of_no_bracket hparen (by decide) (hle.trans hv₀)
  · rw [bind_ok (accept_eq_false hparen), run_ite, if_neg Bool.false_ne_true] at hend
    obtain ⟨rfl, rfl⟩ := pure_eq_ok hend
    have hnameless : nameless s.advance.tokens := by
      by_contra hname
      have hidle := iterateOver_of_idle (x := Expr.elementary type) (suffix?_of_ended (d := d)
        (c := c) (ended_of_not_nameless hname)) s.advance.rest
      obtain ⟨hx, rfl⟩ := Prod.mk.inj (hsuffixes.symm.trans hidle)
      obtain rfl := Except.ok.inj hx
      rcases hsettled with hnameless | hlike
      · exact hname hnameless
      · simp [Expr.isTypeLike] at hlike
    obtain ⟨T, hT⟩ := typeName_of_elementary (d := d) (c := c) hhead hkind hnameless
    rw [hT]
    exact lags_brackets hd hcolon hc s.advance.rest s.advance.rest le_rfl le_rfl rfl hsuffixes
      hsettled T

omit hd hcolon in
/-- No expression begins like a mapping or a function type. -/
theorem unaryExpr_of_keyword {w : Keyword} (hw : w = .mapping ∨ w = .function)
    (hhead : s.tokens.head? = some (.keyword w)) : unaryExpr d c s ≠ (.ok e, t) := by
  intro h
  rw [unaryExpr, bind_ok (looks_here c s), next_bind, hhead] at h
  have hplain : suffixedExpr d c s = (.ok e, t) := by rcases hw with rfl | rfl <;> exact h
  obtain ⟨e₀, v₀, hprimary, -⟩ := bind_eq_ok hplain
  rw [primaryExpr, next_bind, hhead] at hprimary
  refine absurd hprimary ?_
  rcases hw with rfl | rfl <;> exact unexpected_ne_ok _ c s e₀ v₀

/-- The reading of a type name lags behind that of an expression. -/
theorem lags_typeName (hc : c.structLiterals = true) (h : expression d c s = (.ok e, t))
    (hsettled : Settled e t) : Lags t (typeName d c s) := by
  obtain ⟨e₁, u, hunary, hle, hsame⟩ := beyond_expression hd h
  have hsettled₁ := hsettled.of_beyond hsame
  refine Lags.mono ?_ hle
  by_cases hname : ∃ name, s.tokens.head? = some (.identifier name)
  · obtain ⟨name, hname⟩ := hname
    refine lags_typeName_of_name hd hcolon hc hname ?_ hsettled₁
    rw [unaryExpr, bind_ok (looks_here c s), next_bind, hname] at hunary
    simpa [UnaryOp.ofToken?, UnaryOp.all, UnaryOp.token, UpdateOp.ofToken?] using hunary
  by_cases helementary : ∃ w, s.tokens.head? = some (.elementaryType w)
  · obtain ⟨w, hw⟩ := helementary
    refine lags_typeName_of_elementary hd hcolon hc hw ?_ hsettled₁
    rw [unaryExpr, bind_ok (looks_here c s), next_bind, hw] at hunary
    simpa [UnaryOp.ofToken?, UnaryOp.all, UnaryOp.token, UpdateOp.ofToken?] using hunary
  have hle' := (echoes_unaryExpr (I := anywhere) (k := 1) hd Setting.calm_succ).onward.length_le c s
  rw [hunary] at hle'
  refine lags_of_error (typeName_of_nameless_head ?_ ?_ ?_ ?_) hle'
  · rcases hhead : s.tokens.head? with _ | a
    · rfl
    · cases a with
      | identifier name => exact absurd ⟨name, hhead⟩ hname
      | _ => rfl
  · exact fun w hw => helementary ⟨w, hw⟩
  · exact fun hw => unaryExpr_of_keyword (.inl rfl) hw hunary
  · exact fun hw => unaryExpr_of_keyword (.inr rfl) hw hunary

end

end Grammar

end SolidityFrontend
