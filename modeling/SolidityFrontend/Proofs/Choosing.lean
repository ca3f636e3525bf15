import SolidityFrontend.Proofs.Lagging

/-!
# Declarations and expressions exclude each other

A declaration begins with a type name and a name. Where an expression stands that is no type name with
a name behind it, the type name lags behind and no name follows it. So no tokens are both a
declaration and an expression with a semicolon behind it, and the reading of a declaration comes no
farther than that of the expression.
-/

namespace SolidityFrontend

open SolidityFrontend.Parser

/-- A reading that fails and comes no farther than `t`. -/
def Halts {α : Type} (t : State) (r : Except SyntaxError α × State) : Prop :=
  ∃ error v, r = (.error error, v) ∧ t.rest.length ≤ v.rest.length

theorem Halts.bind {α β : Type} {c : Context} {s t : State} {p : Parser α} {f : α → Parser β}
    (h : Halts t (p c s)) : Halts t ((p >>= f) c s) := by
  obtain ⟨error, v, hp, hle⟩ := h
  exact ⟨error, v, bind_error hp, hle⟩

theorem Halts.mono {α : Type} {t u : State} {r : Except SyntaxError α × State} (h : Halts u r)
    (hle : t.rest.length ≤ u.rest.length) : Halts t r := by
  obtain ⟨error, v, hr, hle'⟩ := h
  exact ⟨error, v, hr, hle.trans hle'⟩

namespace Grammar

variable {H : Setting} {c : Context} {s t u : State} {d d' : Nested} {e : Expr}

/-! ### Declarations -/

/-- Where the reading of a type name lags behind, that of a declaration stops. -/
theorem halts_variableDeclaration (h : Lags t (d.typeName c s)) :
    Halts t (variableDeclaration d c s) := by
  rw [variableDeclaration, bind_ok (looks_here c s)]
  obtain ⟨hle, hnameless⟩ := h
  rcases htype : d.typeName c s with ⟨error | T, u⟩ <;> rw [htype] at hle hnameless
  · exact ⟨error, u, bind_error htype, hle⟩
  have hname : u.tokens.head?.bind Token.identifier? = none := hnameless T rfl
  have hlocation : storageLocation? c u = (.ok none, u) := by
    rw [storageLocation?, bind_ok (nextWord_eq c u), hname]
    rfl
  obtain ⟨error, hidentifier⟩ := identifier_of_nameless (c := c) hname
  refine ⟨error, u, ?_, hle⟩
  rw [bind_ok htype, bind_ok hlocation]
  exact bind_error hidentifier

/-- A further place of a tuple behind a comma. -/
def morePlaces {α : Type} (place : Parser α) : Parser (Option α) := do
  if ← accept (.symbol .comma) then return some (← place) else return none

theorem onward_morePlaces {α : Type} {place : Parser α} (h : Onward place) :
    Onward (morePlaces place) :=
  (onward_accept _).bind fun _ => .ite (fun _ => h.bind fun _ => onward_pure _)
    fun _ => onward_pure _

theorem morePlaces_of_comma {α : Type} {place : Parser α}
    (h : s.tokens.head? = some (.symbol .comma)) :
    morePlaces place c s = (place >>= fun x => pure (some x)) c s.advance := by
  rw [morePlaces, bind_ok (accept_eq_true h)]
  rfl

theorem morePlaces_of_ne {α : Type} {place : Parser α}
    (h : s.tokens.head? ≠ some (.symbol .comma)) : morePlaces place c s = (.ok none, s) := by
  rw [morePlaces, bind_ok (accept_eq_false h)]
  rfl

/-- Behind a place of a tuple stands no name, if none stands behind the last one. -/
theorem nameless_of_manyOver {α : Type} {place : Parser α} {clock : List Lexeme} {xs : List α}
    (h : manyOver (morePlaces place) clock c s = (.ok xs, t)) (ht : nameless t.tokens) :
    nameless s.tokens := by
  by_cases hcomma : s.tokens.head? = some (.symbol .comma)
  · exact nameless_of_symbol hcomma
  · obtain rfl := (Prod.mk.inj ((manyOver_of_idle (morePlaces_of_ne hcomma) clock).symm.trans h)).2
    exact ht

section

variable {α β : Type} {p : Parser (Option α)} {q : Parser (Option β)} (hp : Onward p)
  (hpq : ∀ {s o t}, p c s = (.ok o, t) → nameless t.tokens →
    (o = none ∧ q c s = (.ok none, t)) ∨ Halts t (q c s))
include hp hpq

/-- Of the places of a tuple the second parser reads those that are vacant. -/
theorem halts_manyOver (clock : List Lexeme) {xs : List (Option α)}
    (h : manyOver (morePlaces p) clock c s = (.ok xs, t)) (hnameless : nameless t.tokens) :
    (∃ ys, manyOver (morePlaces q) clock c s = (.ok ys, t) ∧ ys.all Option.isNone)
      ∨ Halts t (manyOver (morePlaces q) clock c s) := by
  have honward (clock : List Lexeme) : Onward (manyOver (morePlaces p) clock) :=
    onward_manyOver (onward_morePlaces hp) clock
  induction clock generalizing s xs with
  | nil =>
    obtain ⟨rfl, rfl⟩ := pure_eq_ok h
    exact .inl ⟨[], rfl, rfl⟩
  | cons l clock ih =>
    by_cases hcomma : s.tokens.head? = some (.symbol .comma)
    · rw [manyOver] at h ⊢
      obtain ⟨x, u, hmore, hrest⟩ := bind_eq_ok h
      rw [morePlaces_of_comma hcomma] at hmore
      obtain ⟨o, v, ho, hpure⟩ := bind_eq_ok hmore
      obtain ⟨rfl, rfl⟩ := pure_eq_ok hpure
      obtain ⟨os, w, hos, hpure'⟩ := bind_eq_ok hrest
      obtain ⟨rfl, rfl⟩ := pure_eq_ok hpure'
      have hlength := (honward clock).length_le c u
      rw [hos] at hlength
      rcases hpq ho (nameless_of_manyOver hos hnameless) with ⟨rfl, hq⟩ | hhalts
      · have hmore' : morePlaces q c s = (.ok (some none), u) := by
          rw [morePlaces_of_comma hcomma]
          exact bind_ok hq
        rcases ih hos with ⟨ys, hys, hnone⟩ | hhalts
        · refine .inl ⟨none :: ys, ?_, hnone⟩
          rw [bind_ok hmore']
          exact bind_ok hys
        · refine .inr ?_
          rw [bind_ok hmore']
          exact hhalts.bind
      · refine .inr (Halts.bind ?_)
        rw [morePlaces_of_comma hcomma]
        exact hhalts.bind.mono hlength
    · obtain ⟨-, rfl⟩ := Prod.mk.inj ((manyOver_of_idle (morePlaces_of_ne hcomma) _).symm.trans h)
      exact .inl ⟨[], manyOver_of_idle (morePlaces_of_ne hcomma) _, rfl⟩

theorem halts_separated {xs : List (Option α)} (h : separated p c s = (.ok xs, t))
    (hnameless : nameless t.tokens) :
    (∃ ys, separated q c s = (.ok ys, t) ∧ ys.all Option.isNone) ∨ Halts t (separated q c s) := by
  obtain ⟨o, u, ho, hrest⟩ := bind_eq_ok h
  obtain ⟨os, w, hos, hpure⟩ := bind_eq_ok hrest
  obtain ⟨rfl, rfl⟩ := pure_eq_ok hpure
  have hos' : manyOver (morePlaces p) u.rest c u = (.ok os, t) := hos
  have honward := onward_manyOver (onward_morePlaces hp) u.rest
  have hlength := honward.length_le c u
  rw [hos'] at hlength
  rcases hpq ho (nameless_of_manyOver hos' hnameless) with ⟨rfl, hq⟩ | hhalts
  · rcases halts_manyOver hp hpq u.rest hos' hnameless with ⟨ys, hys, hnone⟩ | hhalts
    · refine .inl ⟨none :: ys, ?_, hnone⟩
      have hmany : many (morePlaces q) c u = (.ok ys, t) := hys
      exact (bind_ok hq).trans (bind_ok hmany)
    · refine .inr ?_
      have hmany : Halts t (many (morePlaces q) c u) := hhalts
      have hrun : separated q c s = (many (morePlaces q) >>= fun more => pure (none :: more)) c u :=
        bind_ok hq
      rw [hrun]
      exact hmany.bind
  · exact .inr (hhalts.mono hlength).bind

end

theorem onward_tuplePlace {α : Type} {item : Parser α} (h : Onward item) :
    Onward (tuplePlace item) := by
  refine (peeks_nextIs _).looks.onward.bind fun _ => .ite (fun _ => onward_pure _) fun _ => ?_
  refine (peeks_nextIs _).looks.onward.bind fun _ => .ite (fun _ => onward_pure _) fun _ => ?_
  exact h.bind fun _ => onward_pure _

/-- A place of a tuple is vacant for every parser of what may stand there, or for none. -/
theorem tuplePlace_eq {α : Type} (item : Parser α) (c : Context) (s : State) :
    tuplePlace item c s = if s.tokens.head? = some (.symbol .comma)
      ∨ s.tokens.head? = some (.symbol .rightParen) then (.ok none, s)
      else (item >>= fun x => pure (some x)) c s := by
  rw [tuplePlace, bind_ok (sees_nextIs _ c s), run_ite]
  by_cases hcomma : s.tokens.head? = some (.symbol .comma)
  · simp [hcomma]
    rfl
  · rw [if_neg (by simpa using hcomma), bind_ok (sees_nextIs _ c s), run_ite]
    by_cases hright : s.tokens.head? = some (.symbol .rightParen)
    · simp [hright]
      rfl
    · simp [hcomma, hright]

theorem all_isNone_of_vacant {α : Type} {item : Parser α}
    (h : s.tokens.head? = some (.symbol .rightParen)) :
    separated (tuplePlace item) c s = (.ok [none], s) := by
  have hplace : tuplePlace item c s = (.ok none, s) := by rw [tuplePlace_eq, if_pos (.inr h)]
  have hmany : many (morePlaces (tuplePlace item)) c s = (.ok [], s) :=
    manyOver_of_idle (morePlaces_of_ne (by simp [h])) _
  exact (bind_ok hplace).trans (bind_ok hmany)

/-- A tuple without variables is no declaration. -/
theorem tupleDeclarator_of_vacant {elements : List (Option VariableDeclaration)}
    (hopen : s.tokens.head? = some (.symbol .leftParen))
    (h : separated (tuplePlace (variableDeclaration d)) c s.advance = (.ok elements, u))
    (hvacant : elements.all Option.isNone) (hclose : u.tokens.head? = some (.symbol .rightParen)) :
    Halts u.advance (tupleDeclarator d c s) := by
  obtain ⟨_, hopened⟩ := symbol_of_head (c := c) hopen
  obtain ⟨_, hclosed⟩ := symbol_of_head (c := c) hclose
  rw [tupleDeclarator, bind_ok hopened, bind_ok h, bind_ok hclosed,
    bind_ok (looks_spanFrom _ c _), run_ite, if_pos hvacant]
  exact ⟨_, u.advance, rfl, le_rfl⟩

/-- A tuple of expressions declares no variables. -/
theorem halts_tupleDeclarator {D : Nested} (hD : D.Echoed H d')
    (hplace : ∀ {s x t}, inside D c s = (.ok x, t) → nameless t.tokens →
      Halts t (variableDeclaration d c s))
    (h : parenthesizedOrTuple D c s = (.ok e, t)) : Halts t (tupleDeclarator d c s) := by
  obtain ⟨_, v, hopened, hrest⟩ := bind_eq_ok h
  obtain ⟨hopen, rfl⟩ := symbol_eq_ok hopened
  by_cases hright : s.advance.tokens.head? = some (.symbol .rightParen)
  · rw [bind_ok (accept_eq_true hright), run_ite, if_pos rfl] at hrest
    rw [bind_ok (looks_spanFrom _ c _)] at hrest
    obtain ⟨-, rfl⟩ := pure_eq_ok hrest
    exact tupleDeclarator_of_vacant hopen (all_isNone_of_vacant hright) rfl hright
  rw [bind_ok (accept_eq_false hright), run_ite, if_neg Bool.false_ne_true] at hrest
  obtain ⟨elements, u, helements, hend⟩ := bind_eq_ok hrest
  obtain ⟨_, v, hclosed, hend'⟩ := bind_eq_ok hend
  obtain ⟨hclose, rfl⟩ := symbol_eq_ok hclosed
  rw [bind_ok (looks_spanFrom _ c _)] at hend'
  have ht : t = u.advance := by
    split at hend' <;> exact (pure_eq_ok hend').2
  subst ht
  have hinside : Onward (inside D) := onward_inside hD
  have hpq {s : State} {o : Option Expr} {t : State}
      (ho : tuplePlace (inside D) c s = (.ok o, t)) (hnameless : nameless t.tokens) :
      (o = none ∧ tuplePlace (variableDeclaration d) c s = (.ok none, t))
        ∨ Halts t (tuplePlace (variableDeclaration d) c s) := by
    rw [tuplePlace_eq] at ho ⊢
    split at ho
    · rename_i hvacant
      obtain ⟨rfl, rfl⟩ := pure_eq_ok (c := c) ho
      exact .inl ⟨rfl, if_pos hvacant⟩
    · rename_i hvacant
      obtain ⟨x, w, hx, hpure⟩ := bind_eq_ok ho
      obtain ⟨rfl, rfl⟩ := pure_eq_ok hpure
      rw [if_neg hvacant]
      exact .inr (hplace hx hnameless).bind
  rcases halts_separated (onward_tuplePlace hinside) hpq helements
    (nameless_of_symbol hclose) with ⟨ys, hys, hvacant⟩ | hhalts
  · exact tupleDeclarator_of_vacant hopen hys hvacant hclose
  · rw [tupleDeclarator, bind_ok hopened]
    exact (hhalts.mono (length_advance_le u)).bind

end Grammar

/-- Whether an expression may begin with a token. -/
def Token.opensExpression (t : Token) : Bool :=
  (UnaryOp.ofToken? t).isSome || (UpdateOp.ofToken? t).isSome || (Grammar.literal? t).isSome ||
    match t with
    | .identifier _ | .elementaryType _ | .keyword .new | .symbol .leftParen
    | .symbol .leftBracket => true
    | _ => false

namespace Nested

open Grammar

variable {c : Context} {s t : State} {e : Expr}

/-- An expression begins only with a token that opens one. -/
theorem expression_of_unopened {a : Token} (ha : a.opensExpression = false) :
    ∀ (n : Nat) (c : Context) (s : State), s.tokens.head? = some a →
      ∃ error, (ofDepth n).expression c s = (.error error, s)
  | 0, c, s, _ => ⟨_, rfl⟩
  | n + 1, c, s, h => by
    simp only [Token.opensExpression, Bool.or_eq_false_iff, Option.isSome_eq_false_iff,
      Option.isNone_iff_eq_none] at ha
    obtain ⟨⟨⟨hunaryOp, hupdate⟩, hliteral⟩, hopens⟩ := ha
    have hprimary : ∃ error, primaryExpr (ofDepth n) c s = (.error error, s) := by
      rw [primaryExpr, next_bind, h]
      dsimp only
      rw [hliteral]
      dsimp only
      split
      all_goals first
        | exact unexpected_eq_error _ c s
        | simp at hopens
    have hunary : ∃ error, unaryExpr (ofDepth n) c s = (.error error, s) := by
      obtain ⟨error, hprimary⟩ := hprimary
      rw [unaryExpr, bind_ok (looks_here c s), next_bind, h]
      dsimp only
      rw [hunaryOp, hupdate]
      exact ⟨error, bind_error hprimary⟩
    have hbinary (tiers : List (List BinaryOp)) :
        ∃ error, binaryExpr (ofDepth n) tiers c s = (.error error, s) := by
      induction tiers with
      | nil => exact bind_fails hunary
      | cons ops tiers ih => exact bind_fails ih
    have hconditional : ∃ error, conditionalExpr (ofDepth n) c s = (.error error, s) := by
      rw [conditionalExpr]
      exact bind_fails (hbinary _)
    rw [expression_ofDepth, Grammar.expression]
    exact bind_fails hconditional

/-- No expression begins with a colon. -/
theorem expression_of_colon (n : Nat) (c : Context) (s : State)
    (h : s.tokens.head? = some (.symbol .colon)) :
    ∃ error, (ofDepth n).expression c s = (.error error, s) :=
  expression_of_unopened (by rfl) n c s h

/-- A place of a tuple of expressions is no variable: the type name that is read there, which may
nest one level deeper, lags behind. -/
theorem halts_place (n : Nat) (hc : c.structLiterals = true)
    (h : inside (ofDepth n) c s = (.ok e, t)) (hnameless : nameless t.tokens) :
    Halts t (variableDeclaration (ofDepth (n + 1)) c s) := by
  rw [inside_eq hc] at h
  obtain ⟨e', t', h', -, htokens⟩ := ((echoed_ofDepth (H := .alone s) (Nat.le_succ n)).expression 0
    Setting.calm_alone).run_alone (silent_ofDepth n).expression hc h (.inl hc)
  rw [expression_ofDepth] at h'
  refine halts_variableDeclaration (d := ofDepth (n + 1)) ?_
  refine Lags.mono (u := t') ?_ (length_eq_of_tokens htokens).ge
  rw [typeName_ofDepth]
  rw [← htokens] at hnameless
  exact lags_typeName (echoed_ofDepth (H := .alone s) le_rfl) (expression_of_colon n) hc h'
    (.inl hnameless)

theorem tooDeep_ne_ok {α : Type} {x : α} : tooDeep c s ≠ (.ok x, t) := by
  intro h
  rw [tooDeep, bind_ok (looks_here c s)] at h
  simp [violation, fail] at h

/-- Where an expression stands that is no type name with a name behind it, nothing is declared. -/
theorem halts_declarator (n : Nat) (hc : c.structLiterals = true)
    (h : (ofDepth n).expression c s = (.ok e, t)) (hsettled : Settled e t) :
    Halts t (declarator (ofDepth n) c s) := by
  cases n with
  | zero => exact absurd h tooDeep_ne_ok
  | succ n =>
    have hd : (ofDepth n).Echoed (.alone s) (ofDepth n) := echoed_ofDepth le_rfl
    rw [expression_ofDepth] at h
    rw [declarator, bind_ok (sees_nextIs _ c s), run_ite]
    by_cases hparen : s.tokens.head? = some (.symbol .leftParen)
    · rw [if_pos (by simpa using hparen)]
      obtain ⟨e₁, u, hunary, hle, -⟩ := beyond_expression hd h
      have hsuffixed : suffixedExpr (ofDepth n) c s = (.ok e₁, u) := by
        rw [unaryExpr, bind_ok (looks_here c s), next_bind, hparen] at hunary
        exact hunary
      obtain ⟨e₀, v₀, hprimary, hsuffixes⟩ := bind_eq_ok hsuffixed
      rw [primaryExpr, next_bind, hparen] at hprimary
      change parenthesizedOrTuple (ofDepth n) c s = _ at hprimary
      have hlength := (onward_iterate (onward_suffix? hd) e₀).length_le c v₀
      rw [hsuffixes] at hlength
      exact (halts_tupleDeclarator hd (halts_place n hc) hprimary).mono (hle.trans hlength)
    · rw [if_neg (by simpa using hparen)]
      have hlags := lags_typeName hd (expression_of_colon n) hc h hsettled
      have hhalts : Halts t (variableDeclaration (ofDepth (n + 1)) c s) :=
        halts_variableDeclaration (d := ofDepth (n + 1)) hlags
      exact hhalts.bind

end Nested

end SolidityFrontend
