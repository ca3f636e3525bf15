import SolidityFrontend.Proofs.ReadingExpr

/-!
# The phrases of operators

The parser of each tier gives expressions of that tier or a tighter one. The loop over a tier keeps
this up: its left operand has just been read in the tier, its right operand in the next one.
-/

namespace SolidityFrontend

open Phrase SolidityFrontend.Parser

theorem BinaryOp.ofToken?_eq_some {ops : List BinaryOp} {t : Token} {op : BinaryOp}
    (h : ofToken? ops t = some op) : t = .symbol op.symbol ∧ op ∈ ops := by
  unfold ofToken? at h
  split at h
  · rename_i k
    have hsymbol : op.symbol = k := by simpa using List.find?_some h
    exact ⟨congrArg Token.symbol hsymbol.symm, List.mem_of_find?_eq_some h⟩
  · exact absurd h (by simp)

theorem AssignOp.ofToken?_eq_some {t : Token} {op : AssignOp} (h : ofToken? t = some op) :
    t = .symbol op.symbol := by
  unfold ofToken? at h
  split at h
  · rename_i k
    have hsymbol : op.symbol = k := by simpa using List.find?_some h
    exact congrArg Token.symbol hsymbol.symm
  · exact absurd h (by simp)

theorem UnaryOp.ofToken?_eq_some {t : Token} {op : UnaryOp} (h : ofToken? t = some op) :
    op.token = t := by
  simpa [ofToken?] using List.find?_some h

/-- Lists of operators whose tiers count up from `n` to the last one before the power. -/
def BinaryOp.Climbs : Nat → List (List BinaryOp) → Prop
  | n, [] => n = 11
  | n, ops :: tighter => (∀ op ∈ ops, op.tier = n) ∧ Climbs (n + 1) tighter

theorem BinaryOp.climbs_tiers : Climbs 1 tiers := by
  simp [Climbs, tiers, tier]

theorem Expr.tiered_binary {left right : Expr} {op : BinaryOp} {span : Span} (hop : op.tier ≤ 10)
    (hleft : op.tier ≤ left.tier) (hright : op.tier + 1 ≤ right.tier) :
    (Expr.binary left op right span).Tiered := by
  cases op
  case pow => exact absurd hop (by decide)
  all_goals exact ⟨hleft, hright⟩

theorem Expr.tier_of_isAssignable {e : Expr} (h : e.isAssignable) : e.tier = 13 := by
  unfold isAssignable at h
  split at h
  all_goals first | rfl | exact absurd h (by simp)

namespace Grammar

variable {q : Prop}

section

variable {deeper : Nested} (hd : deeper.Sound)
include hd

omit hd in
theorem such_tier_mono {m n : Nat} (h : n ≤ m) (e : Expr) :
    such (m ≤ e.tier) e.phrase ≤ such (n ≤ e.tier) e.phrase :=
  fun _ _ _ he => ⟨h.trans he.1, he.2⟩

theorem reads_unaryExpr : Reads q (unaryExpr deeper) fun e => such (12 ≤ e.tier) e.phrase := by
  refine reads_here.first fun c s start => peeks_next.bind fun next => ?_
  have hsuffixed : ReadsAfter q c s (opening start * before fun rest =>
      rest[0]?.map Lexeme.token = next) (suffixedExpr deeper)
      fun e => such (12 ≤ e.tier) e.phrase := by
    refine ((reads_suffixedExpr hd).after c s _).mono le_rfl fun e => ?_
    refine (mul_mono (mul_before_le.trans before_le_one) le_rfl).trans ?_
    rw [one_mul]
    exact fun ts es rest h => ⟨by have := h.1; omega, h.2⟩
  split
  · exact hsuffixed
  · split
    · rename_i op _ hop
      obtain rfl := UnaryOp.ofToken?_eq_some hop
      refine (after_advance_token _).bind fun _ => (hd.operand q).bind_such fun operand ho => ?_
      refine (after_spanFrom (by simp [mul_assoc])).bind fun span => after_pure (le_such le_rfl ?_)
      rw [Expr.phrase]
      exact le_such ho (covered_mono (mul_mono opening_mul_le le_rfl))
    · rename_i op _ hop
      obtain rfl := UpdateOp.ofToken?_eq_some hop
      refine (after_advance_token _).bind fun _ => (hd.operand q).bind_such fun operand ho => ?_
      refine (after_spanFrom (by simp [mul_assoc])).bind fun span => after_pure (le_such le_rfl ?_)
      rw [Expr.phrase]
      exact le_such ho (covered_mono (mul_mono opening_mul_le le_rfl))
    · exact hsuffixed

omit hd in
/-- Two operands and an operator of their tier between them. -/
theorem binary_phrase_le {left right : Expr} {op : BinaryOp}
    (h : (binary left op right).Tiered) :
    left.phrase * Phrase.symbol op.symbol * right.phrase ≤ (binary left op right).phrase := by
  rw [binary, Expr.phrase]
  exact le_such h (mul_mul_le_covered left.phrase_le right.phrase_le)

theorem reads_powerExpr : Reads q (powerExpr deeper) fun e => such (11 ≤ e.tier) e.phrase := by
  refine (reads_unaryExpr hd).first_such fun c s base hbase => if_accept ?_ ?_
  · refine (hd.exponent q).bind_such fun exponent hexponent => after_pure (le_such le_rfl ?_)
    have htiered : (binary base .pow exponent).Tiered := ⟨hbase, hexponent⟩
    exact binary_phrase_le htiered
  · exact after_pure (le_such (by omega) mul_before_le)

omit hd in
/-- An operator and its right operand behind a left one. -/
theorem after_operator {s₀ : State} {n : Nat} {ops : List BinaryOp} {operand : Parser Expr}
    (hops : ∀ op ∈ ops, op.tier = n) (hn : n ≤ 10)
    (h : Reads q operand fun e => such (n + 1 ≤ e.tier) e.phrase) {c : Context} (left : Expr) :
    ReadsAfter q c s₀ (such (n ≤ left.tier) left.phrase)
      (do
        match (← next?).bind (BinaryOp.ofToken? ops) with
        | some op =>
          advance
          return some (binary left op (← operand))
        | none => return none)
      fun o => such (n ≤ (o.getD left).tier) (o.getD left).phrase := by
  refine after_such fun hleft => peeks_next.bind fun next => ?_
  split
  · rename_i op hop
    obtain ⟨t, rfl, hop⟩ := Option.bind_eq_some_iff.1 hop
    obtain ⟨rfl, hmem⟩ := BinaryOp.ofToken?_eq_some hop
    have htier := hops op hmem
    refine (after_advance_token _).bind fun _ => h.bind_such fun right hright => after_pure ?_
    refine le_such (by simp [binary, Expr.tier, htier]) (binary_phrase_le ?_)
    exact Expr.tiered_binary (by omega) (by omega) (by omega)
  · exact after_pure (le_such hleft mul_before_le)

omit hd in
/-- Operands that bind more tightly than the operators between them. -/
theorem reads_leftAssociative {n : Nat} {ops : List BinaryOp} {operand : Parser Expr}
    (hops : ∀ op ∈ ops, op.tier = n) (hn : n ≤ 10)
    (h : Reads q operand fun e => such (n + 1 ≤ e.tier) e.phrase) :
    Reads q (leftAssociative ops operand) fun e => such (n ≤ e.tier) e.phrase :=
  (h.mono fun e => such_tier_mono n.le_succ e).first fun _ _ e =>
    after_iterate (L := fun e : Expr => such (n ≤ e.tier) e.phrase) (after_operator hops hn h) e

theorem reads_binaryExpr : ∀ (n : Nat) (tiers : List (List BinaryOp)), BinaryOp.Climbs n tiers →
    n ≤ 11 ∧ Reads q (binaryExpr deeper tiers) fun e => such (n ≤ e.tier) e.phrase
  | n, [], h => ⟨h.le, h ▸ reads_powerExpr hd⟩
  | n, ops :: tighter, ⟨hops, h⟩ => by
    obtain ⟨hn, hreads⟩ := reads_binaryExpr (n + 1) tighter h
    exact ⟨by omega, reads_leftAssociative hops (by omega) hreads⟩

theorem reads_conditionalExpr : Reads q (conditionalExpr deeper) Expr.phrase := by
  have hbinary : Reads q (binaryExpr deeper BinaryOp.tiers)
      fun e => such (1 ≤ e.tier) e.phrase :=
    (reads_binaryExpr hd 1 BinaryOp.tiers BinaryOp.climbs_tiers).2
  refine hbinary.first_such fun c s condition hc => ?_
  refine if_accept ?_ (after_pure mul_before_le)
  refine (reads_inside hd).bind fun ifTrue => (reads_symbol _).bind fun _ => ?_
  refine (hd.expression q).bind fun ifFalse => after_pure ?_
  rw [Expr.phrase]
  refine le_such hc ?_
  have hspan := mul_mul_le_covered (M := Phrase.symbol .question * ifTrue.phrase
    * Phrase.symbol .colon) condition.phrase_le ifFalse.phrase_le
  simp only [mul_assoc] at hspan ⊢
  exact hspan

theorem reads_expression : Reads q (expression deeper) Expr.phrase := by
  refine (reads_conditionalExpr hd).first fun c s left => peeks_next.bind fun next => ?_
  split
  · exact after_pure mul_before_le
  · rename_i op hop
    obtain ⟨t, rfl, hop⟩ := Option.bind_eq_some_iff.1 hop
    obtain rfl := AssignOp.ofToken?_eq_some hop
    refine (after_advance_token _).bind fun _ => after_ite (fun hleft => ?_) fun _ => ?_
    · refine (hd.expression q).bind fun right => after_pure ?_
      rw [Expr.phrase]
      refine le_such ⟨?_, hleft⟩ (mul_mul_le_covered left.phrase_le right.phrase_le)
      simp [Expr.Tiered, Expr.tier_of_isAssignable hleft]
    · exact after_violation _ _

end

end Grammar

end SolidityFrontend
