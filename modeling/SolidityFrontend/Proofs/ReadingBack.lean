import SolidityFrontend.Proofs.Accepting
import SolidityFrontend.Proofs.Printing
import SolidityFrontend.Proofs.ReadingFile
import SolidityFrontend.Proofs.Respanning

/-!
# Operator trees are read back

The parser of each tier takes the tokens of every operator tree of that tier or a tighter one, before
tokens that bind no more tightly than the tier. On the left of a chain of operators or suffixes a
tree is read by the steps of the chain, so there tokens of the same tier may follow too. The claim
for one tier follows from that for the next one, down from the tier at the root of the tree.
-/

namespace SolidityFrontend

open SolidityFrontend.Parser SolidityFrontend.Grammar

/-! ### How tightly tokens bind -/

/-- How tightly a symbol binds an expression in front of it; zero if it only ends one. -/
def Symbol.binding : Symbol → Nat
  | .question | .assign | .plusAssign | .minusAssign | .starAssign | .slashAssign
  | .percentAssign | .barAssign | .ampersandAssign | .caretAssign | .shiftLeftAssign
  | .shiftRightAssign | .shiftRightSignedAssign => 1
  | .barBar => 2
  | .ampersandAmpersand => 3
  | .eqEq | .bangEq => 4
  | .less | .greater | .lessEq | .greaterEq => 5
  | .bar => 6
  | .caret => 7
  | .ampersand => 8
  | .shiftLeft | .shiftRight | .shiftRightSigned => 9
  | .plus | .minus => 10
  | .star | .slash | .percent => 11
  | .starStar => 12
  | .leftBracket | .dot | .leftParen | .leftBrace | .plusPlus | .minusMinus => 14
  | _ => 0

/-- How tightly a token binds an expression in front of it. A word may be the unit of a number. -/
def Token.binding : Token → Nat
  | .symbol s => s.binding
  | .identifier _ => 15
  | _ => 0

/-- Tokens that bind what stands in front of them no more tightly than this. -/
def Loose (n : Nat) (k : List Token) : Prop := ∀ t ∈ k.head?, t.binding ≤ n

namespace Loose

variable {m n : Nat} {k : List Token}

theorem nil : Loose n [] := by simp [Loose]

theorem cons {t : Token} (h : t.binding ≤ n) : Loose n (t :: k) := by simpa [Loose] using h

theorem mono (h : Loose m k) (hmn : m ≤ n) : Loose n k := fun t ht => (h t ht).trans hmn

theorem head_ne {t : Token} (h : Loose n k) (ht : n < t.binding) : k.head? ≠ some t := by
  intro hk
  have hle := h t hk
  omega

end Loose

theorem BinaryOp.binding_symbol (op : BinaryOp) : op.symbol.binding = op.tier + 1 := by
  cases op <;> rfl

theorem AssignOp.binding_symbol (op : AssignOp) : op.symbol.binding = 1 := by
  cases op <;> rfl

/-! ### Steps of the grammar -/

namespace Grammar

/-- The step of a tier: an operator and its right operand. -/
def operatorStep (ops : List BinaryOp) (operand : Parser Expr) (left : Expr) :
    Parser (Option Expr) := do
  match (← next?).bind (BinaryOp.ofToken? ops) with
  | some op =>
    advance
    return some (binary left op (← operand))
  | none => return none

theorem leftAssociative_eq (ops : List BinaryOp) (operand : Parser Expr) :
    leftAssociative ops operand = operand >>= iterate (operatorStep ops operand) := rfl

theorem suffixedExpr_eq (d : Nested) :
    suffixedExpr d = primaryExpr d >>= iterate (suffix? d) := rfl

variable {c : Context} {s : State} {d : Nested}

theorem operatorStep_stop {n : Nat} {ops : List BinaryOp} {operand : Parser Expr} {left : Expr}
    (hops : ∀ op ∈ ops, op.tier = n) (h : Loose n s.tokens) :
    operatorStep ops operand left c s = (.ok none, s) := by
  have hnone : s.tokens.head?.bind (BinaryOp.ofToken? ops) = none := by
    refine Option.eq_none_iff_forall_not_mem.2 fun op hop => ?_
    obtain ⟨t, ht, hop⟩ := Option.bind_eq_some_iff.1 hop
    obtain ⟨rfl, hmem⟩ := BinaryOp.ofToken?_eq_some hop
    have hle := h _ ht
    rw [Token.binding, op.binding_symbol, hops op hmem] at hle
    omega
  rw [operatorStep, bind_ok (sees_next c s), hnone]
  rfl

theorem suffix?_stop {e : Expr} (h : Loose 13 s.tokens) : suffix? d e c s = (.ok none, s) := by
  rw [suffix?, bind_ok (sees_next c s)]
  unfold Loose at h
  generalize s.tokens.head? = next at h ⊢
  split
  case h_5 t _ _ _ _ =>
    have hupdate : UpdateOp.ofToken? t = none := by
      refine Option.eq_none_iff_forall_not_mem.2 fun op hop => ?_
      obtain rfl := UpdateOp.ofToken?_eq_some hop
      have hbinding : op.symbol.binding ≤ 13 := h _ rfl
      cases op <;> exact absurd hbinding (by decide)
    rw [hupdate]
    rfl
  case h_6 => rfl
  all_goals exact absurd (h _ rfl) (by decide)

end Grammar

/-! ### From one tier to the next -/

/-- Lists of all operators of one tier each, from the tier `n` to the last one before the power. -/
def BinaryOp.Ladder : Nat → List (List BinaryOp) → Prop
  | n, [] => n = 11
  | n, ops :: tighter => (0 < n ∧ ∀ op : BinaryOp, op ∈ ops ↔ op.tier = n) ∧ Ladder (n + 1) tighter

theorem BinaryOp.ladder_tiers : Ladder 1 tiers := by
  refine ⟨?_, ?_, ?_, ?_, ?_, ?_, ?_, ?_, ?_, ?_, rfl⟩ <;>
    exact ⟨by decide, fun op => by cases op <;> decide⟩

theorem BinaryOp.Ladder.mem_range {n : Nat} {ops : List BinaryOp} {tighter : List (List BinaryOp)}
    (h : Ladder n (ops :: tighter)) : 0 < n ∧ n ≤ 10 := by
  refine ⟨h.1.1, ?_⟩
  induction tighter generalizing n ops with
  | nil => exact Nat.le_of_succ_le_succ (Nat.le_of_eq h.2)
  | cons ops' tighter ih =>
    have hle := ih h.2
    omega

/-- The expression is the same up to spans. -/
def Expr.Same (e x : Expr) : Prop := erase x = erase e

section

variable {c : Context} {d : Nested} {ts k : List Token} {P : Expr → Prop}

theorem accepts_unaryExpr {t : Token} {us : List Token} (hunary : UnaryOp.ofToken? t = none)
    (hupdate : UpdateOp.ofToken? t = none) (h : Accepts c (suffixedExpr d) (t :: us) k P) :
    Accepts c (unaryExpr d) (t :: us) k P := by
  refine looks_here.accepts fun start => sees_next.accepts ?_
  simpa only [List.cons_append, List.head?_cons, hunary, hupdate] using h

theorem accepts_powerExpr (hk : Loose 11 k) (h : Accepts c (unaryExpr d) ts k P) :
    Accepts c (powerExpr d) ts k P :=
  h.bind_last fun _ hx => accepts_without (hk.head_ne (by decide)) (accepts_pure hx)

theorem accepts_binaryExpr {n : Nat} {ops : List BinaryOp} {tighter : List (List BinaryOp)}
    (hops : ∀ op ∈ ops, op.tier = n) (hk : Loose n k)
    (h : Grows c (binaryExpr d tighter) (operatorStep ops (binaryExpr d tighter)) ts k P) :
    Accepts c (binaryExpr d (ops :: tighter)) ts k P := by
  rw [binaryExpr, leftAssociative_eq]
  exact h.accepts fun x s hs => operatorStep_stop hops (hs ▸ hk)

theorem accepts_conditionalExpr (hk : k.head? ≠ some (.symbol .question))
    (h : Accepts c (binaryExpr d BinaryOp.tiers) ts k P) : Accepts c (conditionalExpr d) ts k P :=
  h.bind_last fun _ hx => accepts_without hk (accepts_pure hx)

theorem accepts_expression (hk : Loose 0 k) (h : Accepts c (conditionalExpr d) ts k P) :
    Accepts c (expression d) ts k P := by
  have hnone : k.head?.bind AssignOp.ofToken? = none := by
    refine Option.eq_none_iff_forall_not_mem.2 fun op hop => ?_
    obtain ⟨t, ht, hop⟩ := Option.bind_eq_some_iff.1 hop
    obtain rfl := AssignOp.ofToken?_eq_some hop
    have hle := hk _ ht
    rw [Token.binding, op.binding_symbol] at hle
    omega
  refine h.bind_last fun x hx => sees_next.accepts ?_
  rw [List.nil_append, hnone]
  exact accepts_pure hx

end

/-- The parsers of all tiers up to that of an expression read it back: in full before tokens that end
it there, and as the start of a chain before a further operator or suffix of its tier. -/
structure ReadBack (d : Nested) (c : Context) (e : Expr) : Prop where
  suffixed : e.tier = 13 → ∀ k, Loose 14 k →
    Grows c (primaryExpr d) (suffix? d) e.tokens k e.Same
  unary : 12 ≤ e.tier → ∀ k, Loose 12 k → Accepts c (unaryExpr d) e.tokens k e.Same
  chain : ∀ n ops tighter, BinaryOp.Ladder n (ops :: tighter) → n ≤ e.tier → ∀ k, Loose (n + 1) k →
    Grows c (binaryExpr d tighter) (operatorStep ops (binaryExpr d tighter)) e.tokens k e.Same
  binary : ∀ n tighter, BinaryOp.Ladder n tighter → n ≤ e.tier → ∀ k, Loose n k →
    Accepts c (binaryExpr d tighter) e.tokens k e.Same
  expression : ∀ k, Loose 0 k → Accepts c (expression d) e.tokens k e.Same

namespace ReadBack

variable {d : Nested} {c : Context} {e : Expr}

/-- It is enough that the parser of the expression's own tier reads it back. -/
theorem of_own_tier
    (hsuffixed : e.tier = 13 → ∀ k, Loose 14 k →
      Grows c (primaryExpr d) (suffix? d) e.tokens k e.Same)
    (hunary : 12 ≤ e.tier → ∀ k, Loose 12 k → Accepts c (unaryExpr d) e.tokens k e.Same)
    (hpower : e.tier = 11 → ∀ k, Loose 11 k → Accepts c (powerExpr d) e.tokens k e.Same)
    (hchain : ∀ ops tighter, BinaryOp.Ladder e.tier (ops :: tighter) → ∀ k, Loose (e.tier + 1) k →
      Grows c (binaryExpr d tighter) (operatorStep ops (binaryExpr d tighter)) e.tokens k e.Same)
    (hexpression : e.tier = 0 → ∀ k, Loose 0 k → Accepts c (Grammar.expression d) e.tokens k e.Same) :
    ReadBack d c e := by
  have hpower' : 11 ≤ e.tier → ∀ k, Loose 11 k → Accepts c (powerExpr d) e.tokens k e.Same := by
    intro htier k hk
    by_cases heq : e.tier = 11
    · exact hpower heq k hk
    · exact accepts_powerExpr hk (hunary (by omega) k (hk.mono (by omega)))
  have hbinary : ∀ tighter n, BinaryOp.Ladder n tighter → n ≤ e.tier → ∀ k, Loose n k →
      Accepts c (binaryExpr d tighter) e.tokens k e.Same := by
    intro tighter
    induction tighter with
    | nil =>
      rintro n rfl htier k hk
      exact hpower' htier k hk
    | cons ops tighter ih =>
      intro n hn htier k hk
      refine accepts_binaryExpr (fun op => (hn.1.2 op).1) hk ?_
      by_cases heq : e.tier = n
      · subst heq
        exact hchain ops tighter hn k (hk.mono (by omega))
      · exact (ih (n + 1) hn.2 (by omega) k (hk.mono (by omega))).grows
  refine ⟨hsuffixed, hunary, fun n ops tighter hn htier k hk => ?_,
    fun n tighter => hbinary tighter n, fun k hk => ?_⟩
  · by_cases heq : e.tier = n
    · subst heq
      exact hchain ops tighter hn k hk
    · exact (hbinary tighter (n + 1) hn.2 (by omega) k hk).grows
  · by_cases heq : e.tier = 0
    · exact hexpression heq k hk
    · refine accepts_expression hk (accepts_conditionalExpr (hk.head_ne (by decide)) ?_)
      exact hbinary _ 1 BinaryOp.ladder_tiers (by omega) k (hk.mono (by omega))

theorem of_suffixed {t : Token} {ts : List Token} (htier : e.tier = 13) (htokens : e.tokens = t :: ts)
    (hop : UnaryOp.ofToken? t = none ∧ UpdateOp.ofToken? t = none)
    (h : ∀ k, Loose 14 k → Grows c (primaryExpr d) (suffix? d) e.tokens k e.Same) :
    ReadBack d c e := by
  refine of_own_tier (fun _ => h) (fun _ k hk => ?_) (by omega) (fun ops tighter hn => ?_) (by omega)
  · have hsuffixed : Accepts c (suffixedExpr d) e.tokens k e.Same := by
      rw [suffixedExpr_eq]
      exact (h k (hk.mono (by omega))).accepts fun x s hs =>
        suffix?_stop (hs ▸ hk.mono (by omega))
    rw [htokens] at hsuffixed ⊢
    exact accepts_unaryExpr hop.1 hop.2 hsuffixed
  · have hrange := hn.mem_range
    omega

theorem of_unary (htier : e.tier = 12)
    (h : ∀ k, Loose 12 k → Accepts c (unaryExpr d) e.tokens k e.Same) : ReadBack d c e := by
  refine of_own_tier (by omega) (fun _ => h) (by omega) (fun ops tighter hn => ?_) (by omega)
  have hrange := hn.mem_range
  omega

theorem of_power (htier : e.tier = 11)
    (h : ∀ k, Loose 11 k → Accepts c (powerExpr d) e.tokens k e.Same) : ReadBack d c e := by
  refine of_own_tier (by omega) (by omega) (fun _ => h) (fun ops tighter hn => ?_) (by omega)
  have hrange := hn.mem_range
  omega

theorem of_operator (htier : e.tier ≤ 10) (hpos : 0 < e.tier)
    (h : ∀ ops tighter, BinaryOp.Ladder e.tier (ops :: tighter) → ∀ k, Loose (e.tier + 1) k →
      Grows c (binaryExpr d tighter) (operatorStep ops (binaryExpr d tighter)) e.tokens k e.Same) :
    ReadBack d c e :=
  of_own_tier (by omega) (by omega) (by omega) h (by omega)

theorem of_expression (htier : e.tier = 0)
    (h : ∀ k, Loose 0 k → Accepts c (Grammar.expression d) e.tokens k e.Same) :
    ReadBack d c e := by
  refine of_own_tier (by omega) (by omega) (by omega) (fun ops tighter hn => ?_) (fun _ => h)
  have hrange := hn.mem_range
  omega

end ReadBack

/-! ### The first token of a tree -/

/-- Whether a token begins an operand that has no operator in front. -/
def Token.isOperand : Token → Bool
  | .identifier _ | .decimalNumber _ | .hexNumber _ | .symbol .leftParen => true
  | _ => false

/-- Whether a token is an operator that may stand in front. -/
def Token.isPrefix (t : Token) : Bool :=
  (UnaryOp.ofToken? t).isSome || (UpdateOp.ofToken? t).isSome

theorem Token.not_isPrefix_of_isOperand {t : Token} (h : t.isOperand) :
    UnaryOp.ofToken? t = none ∧ UpdateOp.ofToken? t = none := by
  unfold isOperand at h
  split at h
  · simp [UnaryOp.ofToken?, UnaryOp.all, UnaryOp.token, UpdateOp.ofToken?]
  · simp [UnaryOp.ofToken?, UnaryOp.all, UnaryOp.token, UpdateOp.ofToken?]
  · simp [UnaryOp.ofToken?, UnaryOp.all, UnaryOp.token, UpdateOp.ofToken?]
  · decide
  · exact absurd h (by decide)

theorem UnaryOp.ofToken?_token (op : UnaryOp) : UnaryOp.ofToken? op.token = some op := by
  cases op <;> decide

theorem UpdateOp.ofToken?_symbol (op : UpdateOp) :
    UpdateOp.ofToken? (.symbol op.symbol) = some op := by
  cases op <;> rfl

theorem BinaryOp.find?_symbol (op : BinaryOp) :
    (tiers.flatten ++ [pow]).find? (fun o => o.symbol == op.symbol) = some op := by
  cases op <;> decide

theorem BinaryOp.symbol_injective {a b : BinaryOp} (h : a.symbol = b.symbol) : a = b := by
  have ha := find?_symbol a
  rw [h, find?_symbol b] at ha
  exact (Option.some.inj ha).symm

theorem BinaryOp.ofToken?_symbol {ops : List BinaryOp} {op : BinaryOp} (h : op ∈ ops) :
    BinaryOp.ofToken? ops (.symbol op.symbol) = some op := by
  rcases hfind : BinaryOp.ofToken? ops (.symbol op.symbol) with _ | o
  · exact absurd (List.find?_eq_none.1 hfind op h) (by simp)
  · have hsymbol := (BinaryOp.ofToken?_eq_some hfind).1
    rw [BinaryOp.symbol_injective (Token.symbol.inj hsymbol)]

theorem AssignOp.ofToken?_symbol (op : AssignOp) :
    AssignOp.ofToken? (.symbol op.symbol) = some op := by
  cases op <;> decide

theorem BinaryOp.tier_le (op : BinaryOp) : op.tier ≤ 11 := by
  cases op <;> decide

/-- A tree begins with an operand, or with an operator in front if its tier allows one. -/
theorem OperatorTree.head {e : Expr} (h : OperatorTree e) :
    ∃ t ts, e.tokens = t :: ts ∧ (t.isOperand ∨ e.tier ≤ 12 ∧ t.isPrefix) := by
  -- What stands on the left of a node begins it.
  have hleft {left e : Expr} (us : List Token) (he : e.tokens = left.tokens ++ us)
      (hle : left.tier ≤ 12 → e.tier ≤ 12)
      (ih : ∃ t ts, left.tokens = t :: ts ∧ (t.isOperand ∨ left.tier ≤ 12 ∧ t.isPrefix)) :
      ∃ t ts, e.tokens = t :: ts ∧ (t.isOperand ∨ e.tier ≤ 12 ∧ t.isPrefix) := by
    obtain ⟨t, ts, hts, ht⟩ := ih
    exact ⟨t, ts ++ us, by rw [he, hts, List.cons_append], ht.imp_right (.imp_left hle)⟩
  induction h with
  | identifier => exact ⟨_, [], rfl, .inl rfl⟩
  | @number l _ =>
    refine ⟨l.token, _, rfl, .inl ?_⟩
    unfold NumberLiteral.token
    split <;> rfl
  | parenthesized => exact ⟨.symbol .leftParen, _, rfl, .inl rfl⟩
  | @unary op _ _ _ _ =>
    refine ⟨op.token, _, rfl, .inr ⟨le_rfl, ?_⟩⟩
    simp [Token.isPrefix, UnaryOp.ofToken?_token]
  | @update op fixity operand span h htier ih =>
    cases fixity with
    | before =>
      refine ⟨.symbol op.symbol, _, rfl, .inr ⟨le_rfl, ?_⟩⟩
      simp [Token.isPrefix, UpdateOp.ofToken?_symbol]
    | after =>
      refine hleft _ rfl (fun hle => ?_) ih
      rw [Expr.Tiered] at htier
      omega
  | @binary _ _ op _ _ _ _ ih _ =>
    exact hleft _ rfl (fun _ => op.tier_le.trans (by decide)) ih
  | ternary _ _ _ _ ih => exact hleft _ rfl (fun _ => Nat.zero_le _) ih
  | assignment _ _ _ _ ih => exact hleft _ rfl (fun _ => Nat.zero_le _) ih
  | member _ _ htier ih | index _ _ htier ih | call _ _ htier ih =>
    refine hleft _ rfl (fun hle => ?_) ih
    rw [Expr.Tiered] at htier
    omega

/-! ### Operands -/

section

variable {c : Context} {d : Nested} {ts us k : List Token} {e : Expr}

theorem accepts_identifierExpr {i : Identifier} (hpayable : i.name ≠ "payable")
    (htype : i.name ≠ "type") :
    Accepts c (primaryExpr d) [.identifier i.name] k (Expr.identifier i).Same := by
  have hidentifier : Accepts c (identifier >>= fun j => pure (Expr.identifier j))
      [.identifier i.name] k (Expr.identifier i).Same := by
    obtain ⟨name, span⟩ := i
    refine accepts_identifier fun ⟨name', span'⟩ hname => accepts_pure ?_
    obtain rfl : name' = name := hname
    simp [Expr.Same, erase]
  refine sees_next.accepts ((sees_peek 1).accepts ?_)
  rw [if_neg hpayable, if_neg htype]
  split
  · exact hidentifier
  · exact hidentifier

theorem NumberUnit.ofWord?_text (unit : NumberUnit) : NumberUnit.ofWord? unit.text = some unit := by
  cases unit <;> decide

theorem accepts_numberLiteral {value : String} {kind : NumberKind} {unit : Option NumberUnit}
    {t : Token} (hk : ∀ name, k.head? ≠ some (.identifier name)) :
    Accepts c (numberLiteral value kind) (t :: (unit.map fun u => .identifier u.text).toList) k
      fun l => ∃ span, l = .number ⟨value, kind, unit, span⟩ := by
  refine looks_here.accepts fun start => accepts_advance (Sees.accepts sees_nextWord ?_)
  cases unit with
  | none =>
    have hword : k.head?.bind Token.identifier? = none := by
      refine Option.eq_none_iff_forall_not_mem.2 fun name hname => ?_
      obtain ⟨t, ht, hname⟩ := Option.bind_eq_some_iff.1 hname
      unfold Token.identifier? at hname
      split at hname
      · exact hk _ ht
      · simp at hname
    simp only [Option.map_none, Option.toList_none, List.nil_append, hword]
    exact accepts_spanFrom fun span => accepts_pure ⟨span, rfl⟩
  | some unit =>
    simp only [Option.map_some, Option.toList_some, List.cons_append, List.head?_cons,
      Option.bind_some, Token.identifier?, NumberUnit.ofWord?_text]
    exact accepts_advance (accepts_spanFrom fun span => accepts_pure ⟨span, rfl⟩)

theorem accepts_number {l : NumberLiteral} (hk : Loose 14 k) :
    Accepts c (primaryExpr d) (Literal.number l).tokens k (Expr.literal (.number l)).Same := by
  obtain ⟨value, kind, unit, span⟩ := l
  have hk : ∀ name, k.head? ≠ some (.identifier name) := fun name => hk.head_ne (by simp [Token.binding])
  cases kind <;>
    exact sees_next.accepts ((accepts_numberLiteral hk).bind_last fun l ⟨span, hl⟩ =>
      accepts_pure (by simp [hl, Expr.Same, erase]))

/-- Tokens that begin like a tree. -/
def BeginsTree (ts : List Token) : Prop := ∃ t us, ts = t :: us ∧ (t.isOperand ∨ t.isPrefix)

theorem OperatorTree.begins (h : OperatorTree e) : BeginsTree e.tokens := by
  obtain ⟨t, us, hts, ht⟩ := h.head
  exact ⟨t, us, hts, ht.imp_right And.right⟩

/-- Tokens that begin neither with a comma, a colon or a closing bracket nor with a brace, as no
expression does. -/
def BeginsExpr (ts : List Token) : Prop :=
  ts ≠ [] ∧ ∀ s ∈ [Symbol.comma, .colon, .rightParen, .rightBracket, .leftBrace],
    ts.head? ≠ some (.symbol s)

theorem BeginsExpr.head_ne (h : BeginsExpr ts) {s : Symbol}
    (hs : s ∈ [Symbol.comma, .colon, .rightParen, .rightBracket, .leftBrace]) :
    (ts ++ k).head? ≠ some (.symbol s) := by
  rw [List.head?_append_of_ne_nil _ h.1]
  exact h.2 s hs

theorem BeginsTree.beginsExpr (h : BeginsTree ts) : BeginsExpr ts := by
  obtain ⟨t, us, rfl, ht⟩ := h
  refine ⟨by simp, fun s hs heq => ?_⟩
  obtain rfl := Option.some.inj heq
  simp only [List.mem_cons, List.not_mem_nil, or_false] at hs
  rcases hs with rfl | rfl | rfl | rfl | rfl <;> revert ht <;> decide

/-- No tree begins with a comma, a colon, a closing bracket or a brace. -/
theorem BeginsTree.head_ne (h : BeginsTree ts) {s : Symbol}
    (hs : s ∈ [Symbol.comma, .colon, .rightParen, .rightBracket, .leftBrace]) :
    (ts ++ k).head? ≠ some (.symbol s) := h.beginsExpr.head_ne hs

theorem accepts_parenthesized (hts : BeginsExpr ts)
    (h : Accepts c (inside d) ts (.symbol .rightParen :: k) e.Same) (span : Span) :
    Accepts c (primaryExpr d) (inParens [ts]) k (Expr.parenthesized e span).Same := by
  have hplace : Accepts c (tuplePlace (inside d)) ts (.symbol .rightParen :: k)
      fun place => ∃ x, place = some x ∧ e.Same x :=
    accepts_nextIs_ne (hts.head_ne (by decide)) <| accepts_nextIs_ne (hts.head_ne (by decide)) <|
      h.bind_last fun x hx => accepts_pure ⟨x, rfl, hx⟩
  have hplaces : Accepts c (separated (tuplePlace (inside d))) ts (.symbol .rightParen :: k)
      fun places => ∃ x, places = [some x] ∧ e.Same x := by
    refine hplace.bind_last fun _ ⟨x, hplace, hx⟩ => ?_
    refine (accepts_many_nil fun s hs => ?_).bind_last fun places hplaces =>
      accepts_pure ⟨x, by rw [hplace, hplaces], hx⟩
    rw [bind_ok (accept_eq_false (by simp [hs]))]
    rfl
  have hparens : Accepts c (parenthesizedOrTuple d)
      (.symbol .leftParen :: (ts ++ [Token.symbol .rightParen])) k
      (Expr.parenthesized e span).Same := by
    refine accepts_symbol fun start => accepts_without ?_ ?_
    · rw [List.append_assoc]
      exact hts.head_ne (by decide)
    · refine Accepts.bind hplaces fun places ⟨x, hplaces, hx⟩ => ?_
      refine accepts_symbol fun _ => accepts_spanFrom fun span' => ?_
      rw [hplaces]
      refine accepts_pure ?_
      simpa [Expr.Same, erase] using hx
  have hprimary : Accepts c (primaryExpr d)
      (.symbol .leftParen :: (ts ++ [Token.symbol .rightParen])) k
      (Expr.parenthesized e span).Same := sees_next.accepts hparens
  simpa [inParens, commas] using hprimary

/-! ### Suffixes -/

theorem accepts_member {name : Identifier} {span : Span} {x : Expr} (hx : e.Same x) :
    Accepts c (suffix? d x) [.symbol .dot, .identifier name.name] k
      fun o => ∃ y, o = some y ∧ (Expr.member e name span).Same y := by
  refine sees_next.accepts (accepts_advance (accepts_identifier fun name' hname => ?_))
  refine accepts_spanFrom fun span' => accepts_pure ⟨_, rfl, ?_⟩
  obtain ⟨_, _⟩ := name
  obtain ⟨_, _⟩ := name'
  obtain rfl := hname
  simpa [Expr.Same, erase] using hx

theorem accepts_update {op : UpdateOp} {span : Span} {x : Expr} (hx : e.Same x) :
    Accepts c (suffix? d x) [.symbol op.symbol] k
      fun o => ∃ y, o = some y ∧ (Expr.update op .after e span).Same y := by
  cases op <;>
    exact sees_next.accepts <| accepts_advance <| accepts_spanFrom fun span' =>
      accepts_pure ⟨_, rfl, by simpa [Expr.Same, erase] using hx⟩

theorem accepts_indexOrSlice {index : Option Expr} {span : Span} {x : Expr} (hx : e.Same x)
    (h : index = none ∧ ts = [] ∨ ∃ i, index = some i ∧ BeginsExpr ts
      ∧ Accepts c (inside d) ts (.symbol .rightBracket :: k) i.Same) :
    Accepts c (suffix? d x) (.symbol .leftBracket :: (ts ++ [Token.symbol .rightBracket])) k
      fun o => ∃ y, o = some y ∧ (Expr.index e index span).Same y := by
  have hbase {us : List Token} (hindex : Accepts c (indexOrSlice d x) us k
      (Expr.index e index span).Same) : Accepts c (indexOrSlice d x >>= fun y => pure (some y)) us k
      fun o => ∃ y, o = some y ∧ (Expr.index e index span).Same y :=
    hindex.bind_last fun y hy => accepts_pure ⟨y, rfl, hy⟩
  refine sees_next.accepts (hbase (accepts_symbol fun _ => ?_))
  rcases h with ⟨rfl, rfl⟩ | ⟨i, rfl, hbegins, hi⟩
  · refine accepts_accept (accepts_spanFrom fun span' => accepts_pure ?_)
    simpa [Expr.Same, erase] using hx
  · refine accepts_without ?_ (Accepts.bind (P := fun lower => ∃ y, lower = some y ∧ i.Same y) ?_ ?_)
    · rw [List.append_assoc]
      exact hbegins.head_ne (by decide)
    · exact accepts_nextIs_ne (hbegins.head_ne (by decide)) <|
        hi.bind_last fun y hy => accepts_pure ⟨y, rfl, hy⟩
    · rintro _ ⟨y, rfl, hy⟩
      refine accepts_without (by simp) (accepts_symbol fun _ => accepts_spanFrom fun span' => ?_)
      refine accepts_pure ?_
      simp only [Expr.Same, erase] at hx hy
      simp [Expr.Same, erase, hx, hy]

theorem accepts_index {index : Option Expr} {span : Span} {x : Expr} (hx : e.Same x)
    (h : ∀ i ∈ index, BeginsTree i.tokens
      ∧ Accepts c (inside d) i.tokens (.symbol .rightBracket :: k) i.Same) :
    Accepts c (suffix? d x)
      (.symbol .leftBracket :: (optionTokens index ++ [Token.symbol .rightBracket])) k
      fun o => ∃ y, o = some y ∧ (Expr.index e index span).Same y := by
  refine accepts_indexOrSlice hx ?_
  cases index with
  | none => exact .inl ⟨rfl, rfl⟩
  | some i =>
    obtain ⟨hbegins, hi⟩ := h i rfl
    exact .inr ⟨i, rfl, hbegins.beginsExpr, hi⟩

/-! ### Calls -/

theorem commas_cons_cons (ts us : List Token) (tss : List (List Token)) :
    commas (ts :: us :: tss) = ts ++ .symbol .comma :: commas (us :: tss) := by
  simp [commas, List.intercalate]

/-- Behind an argument stands a comma or the end of the list. -/
theorem accepts_argumentsContinue_end :
    Accepts c argumentsContinue [] (.symbol .rightParen :: k) (· = true) :=
  accepts_nextIs (by simp) (accepts_pure rfl)

theorem accepts_argumentsContinue_comma :
    Accepts c argumentsContinue [.symbol .comma] k (· = true) :=
  accepts_nextIs_ne (by simp) (accepts_symbol fun _ => accepts_pure rfl)

/-- One round of the loop over arguments. -/
theorem accepts_itemsOver_cons (vs : List Token) (next : Lexeme) {rest : List Lexeme}
    {args : List Expr} (hbegins : BeginsExpr ts)
    (h : Accepts c (inside d) ts (us ++ (vs ++ k)) e.Same)
    (hcontinue : Accepts c argumentsContinue us (vs ++ k) (· = true))
    (hrest : Accepts c (itemsOver .rightParen argumentsContinue (inside d) rest) vs k
      (erase · = erase args)) :
    Accepts c (itemsOver .rightParen argumentsContinue (inside d) (next :: rest)) (ts ++ (us ++ vs))
      k (erase · = erase (e :: args)) := by
  refine sees_atEnd.accepts ?_
  have hne : (ts ++ (us ++ vs) ++ k).isEmpty = false := by
    obtain ⟨t, ts, rfl⟩ := List.exists_cons_of_ne_nil hbegins.1
    rfl
  rw [hne, if_neg (by decide)]
  refine accepts_nextIs_ne (by rw [List.append_assoc]; exact hbegins.head_ne (by decide)) ?_
  refine Accepts.bind (by rwa [List.append_assoc]) fun x hx => ?_
  refine Accepts.bind hcontinue fun b hb => ?_
  rw [hb, if_pos rfl]
  refine hrest.bind_last fun xs hxs => accepts_pure ?_
  simp only [Expr.Same, erase] at hx hxs
  simp [erase, hx, hxs]

theorem accepts_arguments : ∀ (args : List Expr) (clock : List Lexeme),
    args.length ≤ clock.length →
    (∀ e ∈ args, BeginsTree e.tokens ∧ ∀ k, Loose 0 k → Accepts c (inside d) e.tokens k e.Same) →
    Accepts c (itemsOver .rightParen argumentsContinue (inside d) clock) (commas (exprTokens args))
      (.symbol .rightParen :: k) (erase · = erase args)
  | [], [], _, _ => accepts_pure rfl
  | [], _ :: _, _, _ => by
      refine sees_atEnd.accepts ?_
      exact accepts_nextIs (by simp [commas, exprTokens]) (accepts_pure rfl)
  | [e], next :: rest, _, h => by
      obtain ⟨hbegins, he⟩ := h e List.mem_cons_self
      have hround := accepts_itemsOver_cons [] next hbegins.beginsExpr
        (he (.symbol .rightParen :: k) (.cons (by decide))) accepts_argumentsContinue_end
        (accepts_arguments [] rest (Nat.zero_le _) (by simp))
      simpa [commas, exprTokens, List.intercalate] using hround
  | e :: e' :: args, next :: rest, hle, h => by
      obtain ⟨hbegins, he⟩ := h e List.mem_cons_self
      have hround := accepts_itemsOver_cons _ next hbegins.beginsExpr (he _ (.cons (by decide)))
        accepts_argumentsContinue_comma (accepts_arguments (e' :: args) rest
          (Nat.le_of_succ_le_succ hle) fun e he => h e (List.mem_cons_of_mem _ he))
      simpa [exprTokens, commas_cons_cons] using hround

theorem length_le_commas : ∀ args : List Expr, (∀ e ∈ args, BeginsTree e.tokens) →
    args.length ≤ (commas (exprTokens args)).length
  | [], _ => Nat.zero_le _
  | [e], h => by
      obtain ⟨t, us, hts, -⟩ := h e List.mem_cons_self
      simp [commas, exprTokens, List.intercalate, hts]
  | e :: e' :: args, h => by
      have hle := length_le_commas (e' :: args) fun e he => h e (List.mem_cons_of_mem _ he)
      rw [exprTokens, exprTokens, commas_cons_cons]
      rw [exprTokens] at hle
      simp only [List.length_cons, List.length_append] at hle ⊢
      omega

theorem accepts_call {args : List Expr} {inner span : Span} {x : Expr} (hx : e.Same x)
    (h : ∀ e ∈ args, BeginsTree e.tokens
      ∧ ∀ k, Loose 0 k → Accepts c (inside d) e.tokens k e.Same) :
    Accepts c (suffix? d x) (inParens (exprTokens args)) k
      fun o => ∃ y, o = some y ∧ (Expr.call e (.positional args inner) span).Same y := by
  have hbrace : (commas (exprTokens args) ++ [Token.symbol .rightParen] ++ k).head?
      ≠ some (.symbol .leftBrace) := by
    rcases args with _ | ⟨e, _ | ⟨e', args⟩⟩
    · simp [commas, exprTokens]
    · have hne := (h e List.mem_cons_self).1.head_ne (s := .leftBrace) (k := .symbol .rightParen :: k)
        (by decide)
      simpa [commas, exprTokens, List.intercalate] using hne
    · rw [exprTokens, exprTokens, commas_cons_cons, List.append_assoc, List.append_assoc]
      exact (h e List.mem_cons_self).1.head_ne (by decide)
  have hitems : Accepts c (itemsUntil .rightParen argumentsContinue (inside d))
      (commas (exprTokens args)) (.symbol .rightParen :: k) (erase · = erase args) := by
    intro s hs
    have hlength : args.length ≤ s.rest.length := by
      have hle := length_le_commas args fun e he => (h e he).1
      have htokens := congrArg List.length hs
      rw [State.tokens, List.length_map, List.length_append] at htokens
      omega
    exact accepts_arguments args s.rest hlength h s hs
  have harguments : Accepts c (callArguments d) (inParens (exprTokens args)) k
      fun as => erase as = erase (Arguments.positional args inner) := by
    refine accepts_symbol fun start => accepts_nextIs_ne hbrace (Accepts.bind hitems fun xs hxs => ?_)
    refine accepts_symbol fun _ => accepts_spanFrom fun span' => accepts_pure ?_
    simp only [erase] at hxs
    simp [erase, hxs]
  refine sees_next.accepts (harguments.bind_last fun as has => ?_)
  refine accepts_spanFrom fun span' => accepts_pure ⟨_, rfl, ?_⟩
  simp only [Expr.Same, erase] at hx has
  simp [Expr.Same, erase, hx, has]

end

/-! ### Trees -/

theorem Expr.Same.binary {left right x y : Expr} {op : BinaryOp} {span span' : Span}
    (hx : left.Same x) (hy : right.Same y) :
    (Expr.binary left op right span).Same (.binary x op y span') := by
  simp only [Expr.Same, erase] at hx hy
  simp [Expr.Same, erase, hx, hy]

theorem Expr.Same.isAssignable_eq {e x : Expr} (h : e.Same x) : x.isAssignable = e.isAssignable := by
  have herase := congrArg Expr.isAssignable h
  simpa [erase] using herase

theorem NumberLiteral.isOperand_token (l : NumberLiteral) : l.token.isOperand := by
  unfold NumberLiteral.token
  split <;> rfl

/-- Nothing nests deeper than the levels that are left. -/
theorem exists_level {m n : Nat} (h : m + 1 ≤ n) : ∃ n', n = n' + 1 ∧ m ≤ n' :=
  ⟨n - 1, by omega, by omega⟩

namespace ReadBack

variable {c : Context} {n : Nat} {k : List Token} {e : Expr} {span : Span}

theorem inside (h : ReadBack (.ofDepth n) { c with structLiterals := true } e) (hk : Loose 0 k) :
    Accepts c (Grammar.inside (.ofDepth (n + 1))) e.tokens k e.Same :=
  Accepts.structLiterals (h.expression k hk)

theorem nested (h : ReadBack (.ofDepth n) c e) (hk : Loose 0 k) :
    Accepts c (Nested.ofDepth (n + 1)).expression e.tokens k e.Same := h.expression k hk

theorem parenthesized (h : ReadBack (.ofDepth n) { c with structLiterals := true } e)
    (he : BeginsTree e.tokens) : ReadBack (.ofDepth (n + 1)) c (.parenthesized e span) := by
  refine .of_suffixed rfl rfl (Token.not_isPrefix_of_isOperand rfl) fun k _ => ?_
  exact (accepts_parenthesized he.beginsExpr (h.inside (.cons (by decide))) span).grows

theorem prefixed {op : UnaryOp} (h : ReadBack (.ofDepth n) c e) (htier : 12 ≤ e.tier) :
    ReadBack (.ofDepth (n + 1)) c (.unary op e span) := by
  refine .of_unary rfl fun k hk => looks_here.accepts fun start => sees_next.accepts ?_
  have hop : UnaryOp.ofToken? op.token = some op := op.ofToken?_token
  simp only [Expr.tokens, List.cons_append, List.head?_cons, hop]
  refine accepts_advance ((h.unary htier k hk).bind_last fun x hx => ?_)
  refine accepts_spanFrom fun span' => accepts_pure ?_
  simpa [Expr.Same, erase] using hx

theorem update_before {op : UpdateOp} (h : ReadBack (.ofDepth n) c e) (htier : 12 ≤ e.tier) :
    ReadBack (.ofDepth (n + 1)) c (.update op .before e span) := by
  refine .of_unary rfl fun k hk => looks_here.accepts fun start => sees_next.accepts ?_
  have hunary : UnaryOp.ofToken? (.symbol op.symbol) = none := by cases op <;> decide
  have hop : UpdateOp.ofToken? (.symbol op.symbol) = some op := op.ofToken?_symbol
  simp only [Expr.tokens, List.cons_append, List.head?_cons, hunary, hop]
  refine accepts_advance ((h.unary htier k hk).bind_last fun x hx => ?_)
  refine accepts_spanFrom fun span' => accepts_pure ?_
  simpa [Expr.Same, erase] using hx

/-- An expression with a suffix behind it. -/
theorem suffix {base : Expr} {d : Nested} {us : List Token} (h : ReadBack d c base)
    (hbase : OperatorTree base) (htier : base.tier = 13) (htier' : e.tier = 13)
    (htokens : e.tokens = base.tokens ++ us) (hne : us ≠ []) (hus : ∀ k, Loose 14 (us ++ k))
    (hsuffix : ∀ k, Loose 14 k → ∀ x, base.Same x →
      Accepts c (suffix? d x) us k fun o => ∃ y, o = some y ∧ e.Same y) : ReadBack d c e := by
  obtain ⟨t, ts, hts, ht⟩ := hbase.head
  have ht : t.isOperand := ht.resolve_right fun hle => by omega
  refine .of_suffixed htier' (by rw [htokens, hts]; rfl) (Token.not_isPrefix_of_isOperand ht) ?_
  intro k hk
  rw [htokens]
  exact (h.suffixed htier _ (hus k)).step hne (hsuffix k hk)

theorem power {left right : Expr} (hleft : ReadBack (.ofDepth (n + 1)) c left)
    (hright : ReadBack (.ofDepth n) c right) (htier : 12 ≤ left.tier ∧ 11 ≤ right.tier) :
    ReadBack (.ofDepth (n + 1)) c (.binary left .pow right span) := by
  refine .of_power rfl fun k hk => ?_
  refine Accepts.bind (hleft.unary htier.1 _ (.cons (by decide))) fun x hx => ?_
  refine accepts_accept ((hright.binary 11 [] rfl htier.2 k hk).bind_last fun y hy => ?_)
  exact accepts_pure (hx.binary hy)

theorem operator {left right : Expr} {op : BinaryOp} {d : Nested} (hleft : ReadBack d c left)
    (hright : ReadBack d c right) (hop : op.tier ≤ 10)
    (htier : op.tier ≤ left.tier ∧ op.tier + 1 ≤ right.tier) :
    ReadBack d c (.binary left op right span) := by
  have hpos : 0 < op.tier := by cases op <;> decide
  refine .of_operator hop hpos fun ops tighter hladder k hk => ?_
  have hbinding : (Token.symbol op.symbol).binding ≤ op.tier + 1 := op.binding_symbol.le
  refine (hleft.chain op.tier ops tighter hladder htier.1 _ (.cons hbinding)).step (by simp) ?_
  intro x hx
  have hofToken : BinaryOp.ofToken? ops (.symbol op.symbol) = some op :=
    BinaryOp.ofToken?_symbol ((hladder.1.2 op).2 rfl)
  refine sees_next.accepts ?_
  simp only [List.cons_append, List.head?_cons, Option.bind_some, hofToken]
  refine accepts_advance ?_
  refine (hright.binary (op.tier + 1) tighter hladder.2 htier.2 k hk).bind_last fun y hy => ?_
  exact accepts_pure ⟨_, rfl, hx.binary hy⟩

theorem ternary {condition ifTrue ifFalse : Expr}
    (hcondition : ReadBack (.ofDepth (n + 1)) c condition)
    (htrue : ReadBack (.ofDepth n) { c with structLiterals := true } ifTrue)
    (hfalse : ReadBack (.ofDepth n) c ifFalse) (htier : 1 ≤ condition.tier) :
    ReadBack (.ofDepth (n + 1)) c (.ternary condition ifTrue ifFalse span) := by
  refine .of_expression rfl fun k hk => accepts_expression hk ?_
  refine Accepts.bind (hcondition.binary 1 _ BinaryOp.ladder_tiers htier _ (.cons (by decide))) ?_
  intro x hx
  refine accepts_accept (Accepts.bind (htrue.inside (.cons (by decide))) fun y hy => ?_)
  refine accepts_symbol fun _ => (hfalse.nested hk).bind_last fun z hz => accepts_pure ?_
  simp only [Expr.Same, erase] at hx hy hz
  simp [Expr.Same, erase, hx, hy, hz]

theorem assignment {left right : Expr} {op : AssignOp}
    (hleft : ReadBack (.ofDepth (n + 1)) c left) (hright : ReadBack (.ofDepth n) c right)
    (hassignable : left.isAssignable) (htier : 1 ≤ left.tier) :
    ReadBack (.ofDepth (n + 1)) c (.assignment left op right span) := by
  refine .of_expression rfl fun k hk => ?_
  have hbinding : (Token.symbol op.symbol).binding ≤ 1 := op.binding_symbol.le
  have hquestion : ∀ us : List Token, (.symbol op.symbol :: us).head?
      ≠ some (Token.symbol .question) := by
    intro us
    cases op <;> simp [AssignOp.symbol]
  refine Accepts.bind (accepts_conditionalExpr (hquestion _)
    (hleft.binary 1 _ BinaryOp.ladder_tiers htier _ (.cons hbinding))) fun x hx => ?_
  refine sees_next.accepts ?_
  simp only [List.cons_append, List.head?_cons, Option.bind_some, op.ofToken?_symbol]
  refine accepts_advance ?_
  rw [if_pos (hx.isAssignable_eq.trans hassignable)]
  refine (hright.nested hk).bind_last fun y hy => accepts_pure ?_
  simp only [Expr.Same, erase] at hx hy
  simp [Expr.Same, erase, hx, hy]

end ReadBack

theorem nesting_lt_exprNesting {args : List Expr} {e : Expr} (h : e ∈ args) :
    e.nesting + 1 ≤ exprNesting args := by
  induction args with
  | nil => simp at h
  | cons e' args ih =>
    rw [exprNesting]
    rcases List.mem_cons.1 h with rfl | h
    · exact Nat.le_max_left _ _
    · exact (ih h).trans (Nat.le_max_right _ _)

/-- The parsers of the levels that are left read an operator tree back. -/
theorem OperatorTree.readBack {e : Expr} (h : OperatorTree e) : ∀ (n : Nat) (c : Context),
    e.nesting ≤ n → ReadBack (.ofDepth n) c e := by
  induction h with
  | identifier hlexes hpayable htype =>
    intro n c _
    refine .of_suffixed rfl rfl (Token.not_isPrefix_of_isOperand rfl) fun k _ => ?_
    exact (accepts_identifierExpr hpayable htype).grows
  | @number l hlexes =>
    intro n c _
    exact .of_suffixed rfl rfl (Token.not_isPrefix_of_isOperand l.isOperand_token)
      fun k hk => (accepts_number hk).grows
  | parenthesized h ih =>
    intro n c hn
    rw [Expr.nesting] at hn
    obtain ⟨n, rfl, hn'⟩ := exists_level hn
    exact (ih n _ hn').parenthesized h.begins
  | unary h htier ih =>
    intro n c hn
    rw [Expr.nesting] at hn
    obtain ⟨n, rfl, hn'⟩ := exists_level hn
    exact (ih n c hn').prefixed htier
  | @update op fixity operand span h htier ih =>
    intro n c hn
    cases fixity with
    | before =>
      rw [Expr.nesting] at hn
      obtain ⟨n, rfl, hn'⟩ := exists_level hn
      exact (ih n c hn').update_before htier
    | after =>
      refine (ih n c hn).suffix h htier rfl rfl (by simp) (fun k => .cons ?_) fun k _ x hx =>
        accepts_update hx
      cases op <;> decide
  | @binary left right op span hleft hright htier ihleft ihright =>
    intro n c hn
    by_cases hop : op = .pow
    · subst hop
      rw [Expr.nesting, Nat.max_le] at hn
      obtain ⟨n, rfl, hn'⟩ := exists_level hn.2
      exact (ihleft _ c hn.1).power (ihright n c hn') htier
    · have htier' : op.tier ≤ left.tier ∧ op.tier + 1 ≤ right.tier := by
        cases op <;> first | exact htier | exact absurd rfl hop
      have hop' : op.tier ≤ 10 := by
        cases op <;> first | decide | exact absurd rfl hop
      have hn : left.nesting ≤ n ∧ right.nesting ≤ n := by
        cases op <;> first | exact Nat.max_le.1 hn | exact absurd rfl hop
      exact (ihleft n c hn.1).operator (ihright n c hn.2) hop' htier'
  | ternary _ _ _ htier ihcondition ihtrue ihfalse =>
    intro n c hn
    rw [Expr.nesting, Nat.max_le] at hn
    obtain ⟨n, rfl, hn'⟩ := exists_level hn.2
    have hn' := Nat.max_le.1 hn'
    exact (ihcondition _ c hn.1).ternary (ihtrue n _ hn'.1) (ihfalse n c hn'.2) htier
  | assignment _ _ hassignable htier ihleft ihright =>
    intro n c hn
    rw [Expr.nesting, Nat.max_le] at hn
    obtain ⟨n, rfl, hn'⟩ := exists_level hn.2
    exact (ihleft _ c hn.1).assignment (ihright n c hn') hassignable htier
  | member h _ htier ih =>
    intro n c hn
    exact (ih n c hn).suffix h htier rfl rfl (by simp) (fun k => .cons (by decide))
      fun k _ x hx => accepts_member hx
  | @index base index span h hindex htier ih ihindex =>
    intro n c hn
    rw [Expr.nesting, Nat.max_le] at hn
    refine (ih n c hn.1).suffix h htier rfl rfl (by simp) (fun k => .cons (by decide)) ?_
    refine fun k _ x hx => accepts_index hx fun i hi => ⟨(hindex i hi).begins, ?_⟩
    obtain rfl : index = some i := hi
    obtain ⟨n, rfl, hn'⟩ := exists_level hn.2
    exact (ihindex i rfl n _ hn').inside (.cons (by decide))
  | @call callee arguments inner span h harguments htier ih iharguments =>
    intro n c hn
    rw [Expr.nesting, Nat.max_le] at hn
    refine (ih n c hn.1).suffix h htier rfl rfl (by simp [Arguments.tokens, inParens])
      (fun k => .cons (by decide)) ?_
    refine fun k _ x hx => accepts_call hx fun e he => ⟨(harguments e he).begins, fun k hk => ?_⟩
    obtain ⟨n, rfl, hn'⟩ := exists_level ((nesting_lt_exprNesting he).trans hn.2)
    exact (iharguments e he n _ hn').inside hk

/-! ### Text -/

/-- The symbols and words that operators and units are written with. -/
def Token.fixed : List Token :=
  Token.keyword .delete :: Symbol.all.map .symbol
    ++ NumberUnit.all.map fun unit => .identifier unit.text

theorem Token.lexes_of_mem_fixed : ∀ t ∈ Token.fixed, t.Lexes := by
  simp only [lexes_iff]
  -- One evaluation for all of them, since they are measured by the same rules.
  decide +kernel

/-- A token that stands for itself between blanks. -/
def Token.Written (t : Token) : Prop := t.isPlain ∧ t.Lexes

theorem Token.written_symbol (s : Symbol) : (Token.symbol s).Written :=
  ⟨rfl, lexes_of_mem_fixed _ (by simp [fixed, s.mem_all])⟩

theorem UnaryOp.written_token (op : UnaryOp) : op.token.Written := by
  cases op with
  | delete => exact ⟨rfl, Token.lexes_of_mem_fixed _ List.mem_cons_self⟩
  | _ => exact Token.written_symbol _

theorem NumberLiteral.written_token {l : NumberLiteral} (h : l.token.Lexes) : l.token.Written := by
  refine ⟨?_, h⟩
  unfold NumberLiteral.token
  split <;> rfl

theorem NumberUnit.written_text (unit : NumberUnit) : (Token.identifier unit.text).Written := by
  refine ⟨rfl, Token.lexes_of_mem_fixed _ (List.mem_append_right _ (List.mem_map_of_mem ?_))⟩
  cases unit <;> decide

theorem mem_commas {tss : List (List Token)} {t : Token} (h : t ∈ commas tss) :
    t = .symbol .comma ∨ ∃ ts ∈ tss, t ∈ ts := by
  induction tss with
  | nil => simp [commas] at h
  | cons ts tss ih =>
    rcases tss with _ | ⟨us, tss⟩
    · exact .inr ⟨ts, List.mem_cons_self, by simpa [commas] using h⟩
    · rw [commas_cons_cons, List.mem_append, List.mem_cons] at h
      rcases h with h | h | h
      · exact .inr ⟨ts, List.mem_cons_self, h⟩
      · exact .inl h
      · refine (ih h).imp_right ?_
        rintro ⟨ts', hts', ht⟩
        exact ⟨ts', List.mem_cons_of_mem _ hts', ht⟩

theorem mem_exprTokens {es : List Expr} {ts : List Token} (h : ts ∈ exprTokens es) :
    ∃ e ∈ es, ts = e.tokens := by
  induction es with
  | nil => simp [exprTokens] at h
  | cons e es ih =>
    rw [exprTokens, List.mem_cons] at h
    rcases h with rfl | h
    · exact ⟨e, List.mem_cons_self, rfl⟩
    · obtain ⟨e', he', rfl⟩ := ih h
      exact ⟨e', List.mem_cons_of_mem _ he', rfl⟩

theorem OperatorTree.written {e : Expr} (h : OperatorTree e) : ∀ t ∈ e.tokens, t.Written := by
  have hsymbol := Token.written_symbol
  induction h with
  | @identifier i hlexes _ _ =>
    have hwritten : (Token.identifier i.name).Written := ⟨rfl, hlexes⟩
    simpa [Expr.tokens] using hwritten
  | @number l hlexes =>
    have hunit := NumberUnit.written_text
    simp only [Expr.tokens, Literal.tokens, List.forall_mem_cons]
    refine ⟨NumberLiteral.written_token hlexes, ?_⟩
    cases l.unit <;> simp [hunit]
  | parenthesized _ ih =>
    simpa [Expr.tokens, inParens, commas, or_imp, forall_and, hsymbol] using ih
  | @unary op _ _ _ _ ih =>
    simpa [Expr.tokens, or_imp, forall_and, op.written_token] using ih
  | @update op fixity _ _ _ _ ih =>
    cases fixity <;> simpa [Expr.tokens, or_imp, forall_and, hsymbol] using ih
  | binary _ _ _ ihleft ihright | assignment _ _ _ _ ihleft ihright =>
    simp only [Expr.tokens, List.mem_append, List.mem_cons]
    rintro t (ht | rfl | ht)
    exacts [ihleft t ht, hsymbol _, ihright t ht]
  | ternary _ _ _ _ ihcondition ihtrue ihfalse =>
    simp only [Expr.tokens, List.mem_append, List.mem_cons]
    rintro t (ht | rfl | ht | rfl | ht)
    exacts [ihcondition t ht, hsymbol _, ihtrue t ht, hsymbol _, ihfalse t ht]
  | member _ hlexes _ ih =>
    simp only [Expr.tokens, List.mem_append, List.mem_cons, List.not_mem_nil, or_false]
    rintro t (ht | rfl | rfl)
    exacts [ih t ht, hsymbol _, ⟨rfl, hlexes⟩]
  | @index _ index _ _ _ _ ih ihindex =>
    simp only [Expr.tokens, List.mem_append, List.mem_cons, List.not_mem_nil, or_false]
    rintro t (ht | rfl | ht | rfl)
    · exact ih t ht
    · exact hsymbol _
    · rcases index with _ | i
      · simp [optionTokens] at ht
      · exact ihindex i rfl t ht
    · exact hsymbol _
  | call _ _ _ ih iharguments =>
    simp only [Expr.tokens, Arguments.tokens, inParens, List.mem_append, List.mem_cons,
      List.not_mem_nil, or_false]
    rintro t (ht | (rfl | ht) | rfl)
    · exact ih t ht
    · exact hsymbol _
    · rcases mem_commas ht with rfl | ⟨ts, hts, ht⟩
      · exact hsymbol _
      · obtain ⟨e, he, rfl⟩ := mem_exprTokens hts
        exact iharguments e he t ht
    · exact hsymbol _

/-! ### Sessions -/

namespace Session

/-- A parser that takes all tokens reads the whole text. -/
theorem run_whole_of_ended {α : Type} {p : Parser α} {x : α} {t : State} {source : String}
    (hlexes : (tokenize source).errors = [])
    (hx : p (ofSource source).context (ofSource source).state = (.ok x, t)) (hend : t.rest = [])
    (herrors : t.errors = #[]) :
    ∃ next, (ofSource source).run (whole p) = (.ok x, next) ∧ next.errors = [] := by
  have hended : Parser.endOfInput (ofSource source).context t = (.ok (), t) := by
    rw [Parser.endOfInput, bind_ok (peeks_atEnd _ t), hend]
    rfl
  have hwhole : whole p (ofSource source).context (ofSource source).state = (.ok x, t) := by
    rw [whole, bind_ok hx, bind_ok hended]
    rfl
  refine ⟨{ ofSource source with state := t }, ?_, ?_⟩
  · rw [run]
    exact congrArg (fun r : Except SyntaxError α × State =>
      (r.1, { ofSource source with state := r.2 })) hwhole
  · rw [errors, herrors]
    simp [ofSource, hlexes, SourceError.sorted]

theorem run_whole {α : Type} {p : Parser α} {P : α → Prop} {source : String}
    (hlexes : (tokenize source).errors = [])
    (h : Accepts (ofSource source).context p ((tokenize source).tokens.map Lexeme.token) [] P) :
    ∃ x next, (ofSource source).run (whole p) = (.ok x, next) ∧ P x ∧ next.errors = [] := by
  obtain ⟨x, t, hrun, hx, ht, herrors⟩ := h (ofSource source).state (List.append_nil _).symm
  obtain ⟨next, hnext, hclean⟩ := run_whole_of_ended hlexes hrun (List.map_eq_nil_iff.1 ht) herrors
  exact ⟨x, next, hnext, hx, hclean⟩

/-- The tokens of an operator tree, written with single blanks, are read back as the tree. -/
theorem expression_spaced {e : Expr} (h : OperatorTree e) (hn : e.nesting ≤ 127) :
    ∃ x next, (ofSource (spaced e.tokens)).expression = (.ok x, next) ∧ erase x = erase e
      ∧ next.errors = [] := by
  obtain ⟨htokens, hlexes⟩ := tokenize_spaced h.written
  refine run_whole hlexes ?_
  rw [htokens]
  exact (h.readBack 127 _ hn).nested .nil

theorem expression_spaced_sum :
    let a : Identifier := ⟨"a", .origin⟩
    let two : NumberLiteral := ⟨"2", .decimal, some .wei, .origin⟩
    let sum : Expr := .binary (.identifier a) .add (.literal (.number two)) .origin
    let e : Expr := .assignment (.identifier a) .assign sum .origin
    OperatorTree e ∧ e.nesting ≤ 127 ∧ spaced e.tokens = "a = a + 2 wei"
      ∧ ∃ x next, (ofSource (spaced e.tokens)).expression = (.ok x, next) ∧ erase x = erase e
        ∧ next.errors = [] := by
  intro a two sum e
  have hname : OperatorTree (.identifier a) := by
    refine .identifier ?_ (by decide) (by decide)
    rw [Token.lexes_iff]
    decide
  have htwo : OperatorTree (.literal (.number two)) := by
    refine .number ?_
    rw [Token.lexes_iff]
    decide
  have htree : OperatorTree e := by
    refine .assignment hname (.binary hname htwo ?_) rfl ?_
    · unfold Expr.Tiered
      decide
    · unfold Expr.Tiered
      decide
  exact ⟨htree, by decide, by decide, expression_spaced htree (by decide)⟩

end Session

end SolidityFrontend
