import Mathlib.Order.MinMax
import SolidityFrontend.Proofs.ReadingBack

/-!
# What is nested too deep is refused

Where a tree nests deeper than there are levels left, reading it fails for that reason and no other,
whatever stands behind the tree: what comes before the part that is too deep is read back, and then the
next part fails, or a part of it. A parser that begins with one that refuses some tokens refuses them
too, so a tree that is refused in its own tier is refused in every looser one.
-/

namespace SolidityFrontend

open SolidityFrontend.Parser SolidityFrontend.Grammar

namespace Parser

variable {α β : Type} {c : Context} {p : Parser α} {f : α → Parser β} {ts us k : List Token}
  {P : α → Prop} {Q : β → Prop}

/-- The parser fails because the tokens are nested too deep, and records no error. -/
def Refuses (c : Context) (p : Parser α) (ts : List Token) : Prop :=
  ∀ s : State, s.tokens = ts →
    ∃ span t, p c s = (.error ⟨.violation .nestingTooDeep, span⟩, t) ∧ t.errors = s.errors

theorem refuses_tooDeep : Refuses c (Nested.tooDeep : Parser α) ts := fun s _ => ⟨_, s, rfl, rfl⟩

/-- The first step fails. -/
theorem Refuses.bind (h : Refuses c p ts) : Refuses c (p >>= f) ts := by
  intro s hs
  obtain ⟨span, t, hrun, herrors⟩ := h s hs
  exact ⟨span, t, bind_error hrun, herrors⟩

/-- What is behind the first step fails. -/
theorem Accepts.refuses (h : Accepts c p ts k P) (hf : ∀ x, P x → Refuses c (f x) k) :
    Refuses c (p >>= f) (ts ++ k) := by
  intro s hs
  obtain ⟨x, s₁, hrun, hx, hs₁, herrors⟩ := h s hs
  obtain ⟨span, t, hrun', herrors'⟩ := hf x hx s₁ hs₁
  exact ⟨span, t, by rw [bind_ok hrun, hrun'], herrors'.trans herrors⟩

theorem Refuses.structLiterals {allowed : Bool}
    (h : Refuses { c with structLiterals := allowed } p ts) :
    Refuses c (structLiterals allowed p) ts := h

theorem Sees.refuses {g : List Token → α} (h : Sees p g) (hf : Refuses c (f (g ts)) ts) :
    Refuses c (p >>= f) ts := by
  intro s hs
  rw [bind_ok (h c s), hs]
  exact hf s hs

theorem Looks.refuses {g : Context → State → α} (h : Looks p g) (hf : ∀ x, Refuses c (f x) ts) :
    Refuses c (p >>= f) ts := by
  intro s hs
  rw [bind_ok (h c s)]
  exact hf _ s hs

/-! ### Taking tokens -/

theorem accepts_of_bind_pure (h : Accepts c (p >>= pure) ts k P) : Accepts c p ts k P := by
  intro s hs
  have hrun : (p >>= pure) c s = p c s := by
    rcases hp : p c s with ⟨_ | x, t⟩
    · exact bind_error hp
    · exact bind_ok hp
  rw [← hrun]
  exact h s hs

theorem refuses_advance {t : Token} {f : Unit → Parser β} (h : Refuses c (f ()) ts) :
    Refuses c (advance >>= f) (t :: ts) :=
  (accepts_of_bind_pure (accepts_advance (accepts_pure trivial) :
    Accepts c (advance >>= pure) [t] ts fun _ => True)).refuses fun _ _ => h

theorem refuses_symbol {b : Symbol} {f : Span → Parser β} (h : ∀ span, Refuses c (f span) ts) :
    Refuses c (symbol b >>= f) (.symbol b :: ts) :=
  (accepts_of_bind_pure (accepts_symbol fun _ => accepts_pure trivial :
    Accepts c (symbol b >>= pure) [.symbol b] ts fun _ => True)).refuses fun span _ => h span

/-- The next token is the one that is due. -/
theorem refuses_accept {t : Token} {p p' : Parser β} (h : Refuses c p ts) :
    Refuses c (accept t >>= fun b => if b = true then p else p') (t :: ts) := by
  intro s hs
  obtain ⟨span, u, hrun, herrors⟩ := refuses_advance (t := t) (f := fun _ => p) h s hs
  refine ⟨span, u, ?_, herrors⟩
  rw [bind_ok (accept_eq_true (by rw [hs, List.head?_cons]))]
  exact hrun

/-- The next token is not the one that may stand here. -/
theorem refuses_without {t : Token} {p p' : Parser β} (ht : ts.head? ≠ some t)
    (h : Refuses c p' ts) : Refuses c (accept t >>= fun b => if b = true then p else p') ts := by
  intro s hs
  rw [bind_ok (accept_eq_false (by rwa [hs]))]
  exact h s hs

/-- A choice by the next token, which is another one. -/
theorem refuses_nextIs_ne {t : Token} {p p' : Parser β} (ht : ts.head? ≠ some t)
    (h : Refuses c p' ts) : Refuses c (nextIs t >>= fun b => if b = true then p else p') ts := by
  refine (sees_nextIs t).refuses ?_
  rwa [if_neg (by simpa using ht)]

/-- Some steps are taken, and the next one fails. -/
theorem Grows.refuses {base : Parser α} {step : α → Parser (Option α)} (h : Grows c base step ts k P)
    (hk : k ≠ []) (hstep : ∀ x, P x → Refuses c (step x) k) :
    Refuses c (base >>= iterate step) (ts ++ k) := by
  intro s hs
  obtain ⟨x₀, s₀, x, s', hbase, hsteps, hx, hs', herrors⟩ := h s hs
  obtain ⟨clock, hle, hrun⟩ := hsteps.exists_iterateOver
  obtain ⟨span, t, hfails, herrors'⟩ := hstep x hx s' hs'
  refine ⟨span, t, ?_, herrors'.trans herrors⟩
  rw [bind_ok hbase, iterate, state_bind, hrun]
  cases clock with
  | nil =>
    have hnil : s'.rest = [] := List.eq_nil_of_length_eq_zero (Nat.le_zero.1 hle)
    rw [State.tokens, hnil] at hs'
    exact absurd hs'.symm hk
  | cons l clock =>
    rw [iterateOver]
    exact bind_error hfails

end Parser

/-! ### From one tier to the next -/

theorem refuses_conditionalExpr {d : Nested} {c : Context} {ts : List Token}
    (h : Refuses c (binaryExpr d BinaryOp.tiers) ts) : Refuses c (conditionalExpr d) ts := h.bind

theorem refuses_expression {d : Nested} {c : Context} {ts : List Token}
    (h : Refuses c (conditionalExpr d) ts) : Refuses c (Grammar.expression d) ts := h.bind

/-- The parsers of all tiers up to that of an expression refuse it. -/
structure Refused (d : Nested) (c : Context) (e : Expr) : Prop where
  suffixed : e.tier = 13 → ∀ k, Refuses c (suffixedExpr d) (e.tokens ++ k)
  unary : 12 ≤ e.tier → ∀ k, Refuses c (unaryExpr d) (e.tokens ++ k)
  binary : ∀ n tighter, BinaryOp.Ladder n tighter → n ≤ e.tier → ∀ k,
    Refuses c (binaryExpr d tighter) (e.tokens ++ k)
  expression : ∀ k, Refuses c (expression d) (e.tokens ++ k)

namespace Refused

variable {d : Nested} {c : Context} {e : Expr}

/-- It is enough that the parser of the expression's own tier refuses it. -/
theorem of_own_tier
    (hsuffixed : e.tier = 13 → ∀ k, Refuses c (suffixedExpr d) (e.tokens ++ k))
    (hunary : 12 ≤ e.tier → ∀ k, Refuses c (unaryExpr d) (e.tokens ++ k))
    (hpower : e.tier = 11 → ∀ k, Refuses c (powerExpr d) (e.tokens ++ k))
    (hoperator : ∀ ops tighter, BinaryOp.Ladder e.tier (ops :: tighter) → ∀ k,
      Refuses c (binaryExpr d (ops :: tighter)) (e.tokens ++ k))
    (hexpression : e.tier = 0 → ∀ k, Refuses c (Grammar.expression d) (e.tokens ++ k)) :
    Refused d c e := by
  have hbinary : ∀ tighter n, BinaryOp.Ladder n tighter → n ≤ e.tier → ∀ k,
      Refuses c (binaryExpr d tighter) (e.tokens ++ k) := by
    intro tighter
    induction tighter with
    | nil =>
      rintro n rfl htier k
      by_cases heq : e.tier = 11
      · exact hpower heq k
      · exact (hunary (by omega) k).bind
    | cons ops tighter ih =>
      intro n hn htier k
      by_cases heq : e.tier = n
      · subst heq
        exact hoperator ops tighter hn k
      · exact (ih (n + 1) hn.2 (by omega) k).bind
  refine ⟨hsuffixed, hunary, fun n tighter => hbinary tighter n, fun k => ?_⟩
  by_cases heq : e.tier = 0
  · exact hexpression heq k
  · exact refuses_expression <| refuses_conditionalExpr <|
      hbinary _ 1 BinaryOp.ladder_tiers (by omega) k

theorem of_suffixed {t : Token} {ts : List Token} (htier : e.tier = 13) (htokens : e.tokens = t :: ts)
    (hop : UnaryOp.ofToken? t = none ∧ UpdateOp.ofToken? t = none)
    (h : ∀ k, Refuses c (suffixedExpr d) (e.tokens ++ k)) : Refused d c e := by
  refine of_own_tier (fun _ => h) (fun _ k => ?_) (by omega) (fun ops tighter hn => ?_) (by omega)
  · refine looks_here.refuses fun start => sees_next.refuses ?_
    have hsuffixed := h k
    rw [htokens] at hsuffixed ⊢
    simpa only [List.cons_append, List.head?_cons, hop] using hsuffixed
  · have hrange := hn.mem_range
    omega

theorem of_unary (htier : e.tier = 12) (h : ∀ k, Refuses c (unaryExpr d) (e.tokens ++ k)) :
    Refused d c e := by
  refine of_own_tier (by omega) (fun _ => h) (by omega) (fun ops tighter hn => ?_) (by omega)
  have hrange := hn.mem_range
  omega

theorem of_power (htier : e.tier = 11) (h : ∀ k, Refuses c (powerExpr d) (e.tokens ++ k)) :
    Refused d c e := by
  refine of_own_tier (by omega) (by omega) (fun _ => h) (fun ops tighter hn => ?_) (by omega)
  have hrange := hn.mem_range
  omega

theorem of_operator (htier : e.tier ≤ 10) (hpos : 0 < e.tier)
    (h : ∀ ops tighter, BinaryOp.Ladder e.tier (ops :: tighter) → ∀ k,
      Refuses c (binaryExpr d (ops :: tighter)) (e.tokens ++ k)) : Refused d c e :=
  of_own_tier (by omega) (by omega) (by omega) h (by omega)

theorem of_expression (htier : e.tier = 0)
    (h : ∀ k, Refuses c (Grammar.expression d) (e.tokens ++ k)) : Refused d c e := by
  refine of_own_tier (by omega) (by omega) (by omega) (fun ops tighter hn => ?_) (fun _ => h)
  have hrange := hn.mem_range
  omega

end Refused

/-! ### One level deeper -/

/-- Wherever there are not enough levels left for an expression, it is refused. -/
def Expr.Limited (e : Expr) : Prop := ∀ n c, n < e.nesting → Refused (.ofDepth n) c e

namespace Expr.Limited

variable {n : Nat} {c : Context} {e : Expr} (h : e.Limited)
include h

theorem nested (k : List Token) :
    ∀ {n}, n < e.nesting + 1 → Refuses c (Nested.ofDepth n).expression (e.tokens ++ k)
  | 0, _ => refuses_tooDeep
  | n + 1, hn => (h n c (Nat.lt_of_succ_lt_succ hn)).expression k

theorem inside (hn : n < e.nesting + 1) (k : List Token) :
    Refuses c (Grammar.inside (.ofDepth n)) (e.tokens ++ k) := (h.nested k hn).structLiterals

theorem operand (htier : 12 ≤ e.tier) (k : List Token) :
    ∀ {n}, n < e.nesting + 1 → Refuses c (Nested.ofDepth n).operand (e.tokens ++ k)
  | 0, _ => refuses_tooDeep
  | n + 1, hn => (h n c (Nat.lt_of_succ_lt_succ hn)).unary htier k

theorem exponent (htier : 11 ≤ e.tier) (k : List Token) :
    ∀ {n}, n < e.nesting + 1 → Refuses c (Nested.ofDepth n).exponent (e.tokens ++ k)
  | 0, _ => refuses_tooDeep
  | n + 1, hn => (h n c (Nat.lt_of_succ_lt_succ hn)).binary 11 [] rfl htier k

end Expr.Limited

/-! ### Trees -/

section

variable {n : Nat} {c : Context} {e : Expr} {span : Span} {k : List Token}

theorem refused_parenthesized (h : e.Limited) (he : BeginsTree e.tokens) (hn : n < e.nesting + 1) :
    Refused (.ofDepth n) c (.parenthesized e span) := by
  refine .of_suffixed rfl rfl (Token.not_isPrefix_of_isOperand rfl) fun k => Refuses.bind ?_
  refine sees_next.refuses ?_
  have htokens : (Expr.parenthesized e span).tokens ++ k
      = .symbol .leftParen :: (e.tokens ++ .symbol .rightParen :: k) := by
    simp [Expr.tokens, inParens, commas]
  rw [htokens]
  refine refuses_symbol fun start => refuses_without (he.head_ne (by decide)) (Refuses.bind ?_)
  exact (refuses_nextIs_ne (he.head_ne (by decide)) <|
    refuses_nextIs_ne (he.head_ne (by decide)) (h.inside hn _).bind).bind

/-- The operand of an operator in front is refused. -/
theorem refuses_unaryExpr {t : Token} (h : e.Limited) (htier : 12 ≤ e.tier) (hn : n < e.nesting + 1)
    (ht : t.isPrefix) : Refuses c (unaryExpr (.ofDepth n)) (t :: (e.tokens ++ k)) := by
  refine looks_here.refuses fun start => sees_next.refuses ?_
  rw [List.head?_cons]
  dsimp only
  split
  · exact refuses_advance (h.operand htier k hn).bind
  · exact refuses_advance (h.operand htier k hn).bind
  · rename_i hunary hupdate
    rw [Token.isPrefix, hunary, hupdate] at ht
    exact absurd ht (by decide)

/-- An expression with a suffix behind a smaller one. -/
theorem Refused.of_suffix {d : Nested} {base : Expr} {us : List Token} (hbase : OperatorTree base)
    (htier : base.tier = 13) (htier' : e.tier = 13) (htokens : e.tokens = base.tokens ++ us)
    (h : ∀ k, Refuses c (suffixedExpr d) (base.tokens ++ (us ++ k))) : Refused d c e := by
  obtain ⟨t, ts, hts, ht⟩ := hbase.head
  have ht : t.isOperand := ht.resolve_right fun hle => by omega
  refine .of_suffixed htier' (by rw [htokens, hts]; rfl) (Token.not_isPrefix_of_isOperand ht) ?_
  intro k
  rw [htokens, List.append_assoc]
  exact h k

/-- A suffix is refused, unless what stands in front of it is. -/
theorem refused_suffix {base : Expr} {us : List Token} (h : base.Limited) (hbase : OperatorTree base)
    (htier : base.tier = 13) (htier' : e.tier = 13) (htokens : e.tokens = base.tokens ++ us)
    (hus : ∀ k, Loose 14 (us ++ k)) (hne : us ≠ [])
    (hsuffix : base.nesting ≤ n → ∀ k x, base.Same x → Refuses c (suffix? (.ofDepth n) x) (us ++ k)) :
    Refused (.ofDepth n) c e := by
  refine .of_suffix hbase htier htier' htokens fun k => ?_
  by_cases hdeep : n < base.nesting
  · exact (h n c hdeep).suffixed htier _
  · have hle := Nat.le_of_not_lt hdeep
    exact ((hbase.readBack n c hle).suffixed htier _ (hus k)).refuses (by simp [hne]) (hsuffix hle k)

theorem refuses_index {i x : Expr} (h : i.Limited) (hi : BeginsTree i.tokens)
    (hn : n < i.nesting + 1) :
    Refuses c (suffix? (.ofDepth n) x)
      (.symbol .leftBracket :: (i.tokens ++ [Token.symbol .rightBracket] ++ k)) := by
  refine sees_next.refuses (Refuses.bind ?_)
  rw [List.append_assoc]
  refine refuses_symbol fun _ => refuses_without (hi.head_ne (by decide)) (Refuses.bind ?_)
  exact refuses_nextIs_ne (hi.head_ne (by decide)) (h.inside hn _).bind

theorem exists_commas_exprTokens (e : Expr) (args : List Expr) :
    ∃ us, commas (exprTokens (e :: args)) = e.tokens ++ us := by
  rcases args with _ | ⟨e', args⟩
  · exact ⟨[], by simp [commas, exprTokens, List.intercalate]⟩
  · exact ⟨_, commas_cons_cons _ _ _⟩

/-- Where a list nests as deep as the deepest of its members, one of them is as deep as the list. -/
theorem exists_of_lt_deepest {α : Type} {deep : α → Nat} {deepest : List α → Nat}
    (hnil : deepest [] = 0) (hcons : ∀ x xs, deepest (x :: xs) = max (deep x) (deepest xs))
    {xs : List α} (h : n < deepest xs) : ∃ x ∈ xs, n < deep x := by
  induction xs with
  | nil => exact absurd (hnil ▸ h) (Nat.not_lt_zero n)
  | cons x xs ih =>
    rw [hcons, lt_max_iff] at h
    rcases h with h | h
    · exact ⟨x, List.mem_cons_self, h⟩
    · obtain ⟨y, hy, hn⟩ := ih h
      exact ⟨y, List.mem_cons_of_mem _ hy, hn⟩

/-- One of the arguments of a call is refused, and those in front of it are read. -/
theorem refuses_arguments {d : Nested} : ∀ (args : List Expr) (clock : List Lexeme),
    args.length ≤ clock.length →
    (∀ e ∈ args, BeginsTree e.tokens ∧ ((∀ k, Refuses c (inside d) (e.tokens ++ k))
      ∨ ∀ k, Loose 0 k → Accepts c (inside d) e.tokens k e.Same)) →
    (∃ e ∈ args, ∀ k, Refuses c (inside d) (e.tokens ++ k)) →
    Refuses c (itemsOver .rightParen argumentsContinue (inside d) clock)
      (commas (exprTokens args) ++ k)
  | [], _, _, _, hdeep => by simp at hdeep
  | e :: args, [], hle, _, _ => by simp at hle
  | e :: args, next :: rest, hle, h, hdeep => by
      obtain ⟨hbegins, he⟩ := h e List.mem_cons_self
      obtain ⟨us, hus⟩ := exists_commas_exprTokens e args
      rw [hus, List.append_assoc]
      refine sees_atEnd.refuses ?_
      have hne : (e.tokens ++ (us ++ k)).isEmpty = false := by
        obtain ⟨t, ts, hts, -⟩ := hbegins
        rw [hts]
        rfl
      rw [hne, if_neg (by decide)]
      refine refuses_nextIs_ne (hbegins.head_ne (by decide)) ?_
      rcases he with he | he
      · exact (he _).bind
      obtain ⟨e', he', hdeep⟩ := hdeep
      rcases List.mem_cons.1 he' with rfl | he'
      · exact (hdeep _).bind
      rcases args with _ | ⟨a, args⟩
      · simp at he'
      rw [exprTokens, exprTokens, commas_cons_cons] at hus
      obtain rfl := List.append_cancel_left hus
      refine (he _ (.cons (by decide))).refuses fun x _ => ?_
      refine (accepts_argumentsContinue_comma : Accepts c argumentsContinue [_] _ _).refuses
        fun b hb => ?_
      rw [hb, if_pos rfl]
      exact (refuses_arguments (a :: args) rest (Nat.le_of_succ_le_succ hle)
        (fun e he => h e (List.mem_cons_of_mem _ he)) ⟨e', he', hdeep⟩).bind

/-- The operands of an operator, one of which is refused. -/

theorem refuses_call {args : List Expr} {x : Expr} (h : ∀ e ∈ args, OperatorTree e ∧ e.Limited)
    (hn : n < exprNesting args) :
    Refuses c (suffix? (.ofDepth n) x) (inParens (exprTokens args) ++ k) := by
  have hargs : ∀ e ∈ args, BeginsTree e.tokens ∧ ((∀ k, Refuses c (inside (.ofDepth n)) (e.tokens ++ k))
      ∨ ∀ k, Loose 0 k → Accepts c (inside (.ofDepth n)) e.tokens k e.Same) := by
    refine fun e he => ⟨(h e he).1.begins, ?_⟩
    by_cases hdeep : n < e.nesting + 1
    · exact .inl ((h e he).2.inside hdeep)
    · obtain ⟨m, rfl, hm⟩ := exists_level (Nat.le_of_not_lt hdeep)
      exact .inr fun k => ((h e he).1.readBack m _ hm).inside
  have hdeep : ∃ e ∈ args, ∀ k, Refuses c (inside (.ofDepth n)) (e.tokens ++ k) := by
    obtain ⟨e, he, hn⟩ := exists_of_lt_deepest exprNesting.eq_1 exprNesting.eq_2 hn
    exact ⟨e, he, (h e he).2.inside hn⟩
  refine sees_next.refuses (Refuses.bind ?_)
  rw [inParens, List.append_assoc, List.cons_append]
  refine refuses_symbol fun start => refuses_nextIs_ne ?_ (Refuses.bind fun s hs => ?_)
  · obtain ⟨e, args, rfl⟩ := List.exists_cons_of_ne_nil (List.ne_nil_of_mem hdeep.choose_spec.1)
    obtain ⟨us, hus⟩ := exists_commas_exprTokens e args
    rw [hus, List.append_assoc]
    exact (hargs e List.mem_cons_self).1.head_ne (by decide)
  · have hlength : args.length ≤ s.rest.length := by
      have hle := length_le_commas args fun e he => (hargs e he).1
      have htokens := congrArg List.length hs
      rw [State.tokens, List.length_map, List.length_append] at htokens
      omega
    exact refuses_arguments args s.rest hlength hargs hdeep s hs

/-! ### Operators -/

theorem refused_power {left right : Expr} (hleft : OperatorTree left) (h : left.Limited)
    (h' : right.Limited) (htier : 12 ≤ left.tier ∧ 11 ≤ right.tier)
    (hn : n < max left.nesting (right.nesting + 1)) :
    Refused (.ofDepth n) c (.binary left .pow right span) := by
  refine .of_power rfl fun k => ?_
  rw [Expr.tokens, List.append_assoc]
  by_cases hdeep : n < left.nesting
  · exact ((h n c hdeep).unary htier.1 _).bind
  · refine ((hleft.readBack n c (Nat.le_of_not_lt hdeep)).unary htier.1 _ (.cons (by decide))).refuses
      fun x _ => refuses_accept (h'.exponent htier.2 k (by omega)).bind

theorem refused_operator {left right : Expr} {op : BinaryOp} (hleft : OperatorTree left)
    (h : left.Limited) (h' : right.Limited) (hop : op.tier ≤ 10)
    (htier : op.tier ≤ left.tier ∧ op.tier + 1 ≤ right.tier)
    (hn : n < max left.nesting right.nesting) :
    Refused (.ofDepth n) c (.binary left op right span) := by
  have hpos : 0 < op.tier := by cases op <;> decide
  refine .of_operator hop hpos fun ops tighter hladder k => ?_
  rw [Expr.tokens, List.append_assoc]
  by_cases hdeep : n < left.nesting
  · exact (h n c hdeep).binary op.tier _ hladder htier.1 _
  · have hbinding : (Token.symbol op.symbol).binding ≤ op.tier + 1 := op.binding_symbol.le
    have hread := hleft.readBack n c (Nat.le_of_not_lt hdeep)
    refine (hread.chain op.tier ops tighter hladder htier.1 _ (.cons hbinding)).refuses (by simp) ?_
    intro x _
    have hofToken : BinaryOp.ofToken? ops (.symbol op.symbol) = some op :=
      BinaryOp.ofToken?_symbol ((hladder.1.2 op).2 rfl)
    refine sees_next.refuses ?_
    simp only [List.head?_cons, Option.bind_some, hofToken]
    exact refuses_advance ((h' n c (by omega)).binary (op.tier + 1) tighter hladder.2 htier.2 k).bind

theorem refused_ternary {condition ifTrue ifFalse : Expr} (hcondition : OperatorTree condition)
    (htrue : OperatorTree ifTrue) (h : condition.Limited) (h' : ifTrue.Limited) (h'' : ifFalse.Limited)
    (htier : 1 ≤ condition.tier)
    (hn : n < max condition.nesting (max ifTrue.nesting ifFalse.nesting + 1)) :
    Refused (.ofDepth n) c (.ternary condition ifTrue ifFalse span) := by
  refine .of_expression rfl fun k => refuses_expression ?_
  simp only [Expr.tokens, List.append_assoc, List.cons_append]
  by_cases hdeep : n < condition.nesting
  · exact refuses_conditionalExpr ((h n c hdeep).binary 1 _ BinaryOp.ladder_tiers htier _)
  have hread := hcondition.readBack n c (Nat.le_of_not_lt hdeep)
  refine (hread.binary 1 _ BinaryOp.ladder_tiers htier _ (.cons (by decide))).refuses fun x _ => ?_
  refine refuses_accept ?_
  by_cases hdeep' : n < ifTrue.nesting + 1
  · exact (h'.inside hdeep' _).bind
  obtain ⟨m, rfl, hm⟩ := exists_level (Nat.le_of_not_lt hdeep')
  refine ((htrue.readBack m _ hm).inside (.cons (by decide))).refuses fun y _ => ?_
  exact refuses_symbol fun _ => (h''.nested k (by omega)).bind

theorem refused_assignment {left right : Expr} {op : AssignOp} (hleft : OperatorTree left)
    (h : left.Limited) (h' : right.Limited) (hassignable : left.isAssignable) (htier : 1 ≤ left.tier)
    (hn : n < max left.nesting (right.nesting + 1)) :
    Refused (.ofDepth n) c (.assignment left op right span) := by
  refine .of_expression rfl fun k => ?_
  rw [Expr.tokens, List.append_assoc]
  by_cases hdeep : n < left.nesting
  · exact refuses_expression <| refuses_conditionalExpr <|
      (h n c hdeep).binary 1 _ BinaryOp.ladder_tiers htier _
  have hread := hleft.readBack n c (Nat.le_of_not_lt hdeep)
  have hbinding : (Token.symbol op.symbol).binding ≤ 1 := op.binding_symbol.le
  have hquestion : ∀ us : List Token, (.symbol op.symbol :: us).head?
      ≠ some (Token.symbol .question) := by
    intro us
    cases op <;> simp [AssignOp.symbol]
  refine (accepts_conditionalExpr (hquestion _)
    (hread.binary 1 _ BinaryOp.ladder_tiers htier _ (.cons hbinding))).refuses fun x hx => ?_
  refine sees_next.refuses ?_
  simp only [List.head?_cons, Option.bind_some, op.ofToken?_symbol]
  refine refuses_advance ?_
  rw [if_pos (hx.isAssignable_eq.trans hassignable)]
  exact (h'.nested k (by omega)).bind

end

/-- Where an operator tree nests deeper than there are levels left, the parsers of its tiers refuse it. -/
theorem OperatorTree.limited {e : Expr} (h : OperatorTree e) : e.Limited := by
  induction h with
  | identifier | number => exact fun n c hn => absurd hn (Nat.not_lt_zero n)
  | parenthesized h ih => exact fun n c hn => refused_parenthesized ih h.begins hn
  | @unary op _ _ _ htier ih =>
    exact fun n c hn => .of_unary rfl fun k =>
      refuses_unaryExpr ih htier hn (by simp [Token.isPrefix, UnaryOp.ofToken?_token])
  | @update op fixity operand span h htier ih =>
    intro n c hn
    cases fixity with
    | before =>
      exact .of_unary rfl fun k =>
        refuses_unaryExpr ih htier hn (by simp [Token.isPrefix, UpdateOp.ofToken?_symbol])
    | after => exact .of_suffix h htier rfl rfl fun k => (ih n c hn).suffixed htier _
  | @binary left right op span hleft hright htier ih ih' =>
    intro n c hn
    by_cases hop : op = .pow
    · subst hop
      exact refused_power hleft ih ih' htier hn
    · have htier' : op.tier ≤ left.tier ∧ op.tier + 1 ≤ right.tier := by
        cases op <;> first | exact htier | exact absurd rfl hop
      have hop' : op.tier ≤ 10 := by
        cases op <;> first | decide | exact absurd rfl hop
      have hn : n < max left.nesting right.nesting := by
        cases op <;> first | exact hn | exact absurd rfl hop
      exact refused_operator hleft ih ih' hop' htier' hn
  | ternary hcondition htrue _ htier ih ih' ih'' =>
    exact fun n c hn => refused_ternary hcondition htrue ih ih' ih'' htier hn
  | assignment hleft _ hassignable htier ih ih' =>
    exact fun n c hn => refused_assignment hleft ih ih' hassignable htier hn
  | member h _ htier ih =>
    exact fun n c hn => .of_suffix h htier rfl rfl fun k => (ih n c hn).suffixed htier _
  | @index base index span h hindex htier ih ih' =>
    intro n c hn
    rw [Expr.nesting, lt_max_iff] at hn
    refine refused_suffix ih h htier rfl rfl (fun k => .cons (by decide)) (by simp) ?_
    intro hle k x _
    have hn := hn.resolve_left (Nat.not_lt.2 hle)
    cases index with
    | none => exact absurd hn (Nat.not_lt_zero n)
    | some i => exact refuses_index (ih' i rfl) (hindex i rfl).begins hn
  | @call callee arguments inner span h harguments htier ih ih' =>
    intro n c hn
    rw [Expr.nesting, lt_max_iff] at hn
    refine refused_suffix ih h htier rfl rfl (fun k => .cons (by decide))
      (by simp [Arguments.tokens, inParens]) ?_
    intro hle k x _
    exact refuses_call (fun e he => ⟨harguments e he, ih' e he⟩) (hn.resolve_left (Nat.not_lt.2 hle))

end SolidityFrontend
