import SolidityFrontend.Proofs.Accepting
import SolidityFrontend.Proofs.Brackets

/-!
# Balanced brackets

Tokens are balanced in some brackets if these close as often as they open, and in front of every
place at most as often. Skipping to a boundary counts the brackets of all kinds in one number that is
kept from falling below zero. Among balanced tokens it never would, so skipping goes no farther than a
closing brace behind them. Where only parentheses and square brackets stand before a semicolon,
skipping may also begin among them: every end of balanced tokens closes at least as many brackets as
it opens, so the number has come down to zero at the semicolon (`State.synchronize_balanced`).
-/

namespace SolidityFrontend

/-- The symbols that open brackets, and those that close them. -/
structure Bracketing where
  openers : List Symbol
  closers : List Symbol

namespace Bracketing

/-- The brackets of all kinds. -/
def all : Bracketing :=
  ⟨[.leftParen, .leftBracket, .leftBrace], [.rightParen, .rightBracket, .rightBrace]⟩

/-- The brackets that may stand in an expression. -/
def inner : Bracketing := ⟨[.leftParen, .leftBracket], [.rightParen, .rightBracket]⟩

def braces : Bracketing := ⟨[.leftBrace], [.rightBrace]⟩

variable (b : Bracketing)

/-- How many brackets some tokens open. -/
def opened (ts : List Token) : Nat := ts.countP (· ∈ b.openers.map .symbol)

/-- How many brackets some tokens close. -/
def closed (ts : List Token) : Nat := ts.countP (· ∈ b.closers.map .symbol)

theorem opened_append (ts us : List Token) : b.opened (ts ++ us) = b.opened ts + b.opened us :=
  List.countP_append

theorem closed_append (ts us : List Token) : b.closed (ts ++ us) = b.closed ts + b.closed us :=
  List.countP_append

theorem opened_cons (t : Token) (ts : List Token) : b.opened (t :: ts) = b.opened [t] + b.opened ts :=
  b.opened_append [t] ts

theorem closed_cons (t : Token) (ts : List Token) : b.closed (t :: ts) = b.closed [t] + b.closed ts :=
  b.closed_append [t] ts

end Bracketing

/-- As many brackets are closed as opened, and in front of every place at most as many. -/
structure Balanced (b : Bracketing) (ts : List Token) : Prop where
  before : ∀ k, b.closed (ts.take k) ≤ b.opened (ts.take k)
  whole : b.closed ts = b.opened ts

/-- Where some brackets are open already, none is closed that is not open. -/
def Bracketing.Allows (b : Bracketing) (depth : Nat) (ts : List Token) : Prop :=
  ∀ k, b.closed (ts.take k) ≤ depth + b.opened (ts.take k)

section

variable {b : Bracketing} {depth depth' : Nat} {t : Token} {ts us : List Token}

theorem Balanced.allows (h : Balanced b ts) : b.Allows 0 ts := fun k => by
  rw [Nat.zero_add]
  exact h.before k

theorem Bracketing.Allows.head (h : b.Allows depth (t :: ts)) : b.closed [t] ≤ depth + b.opened [t] := by
  simpa using h 1

/-- It is enough to look at the places in front of a token. -/
theorem balanced_iff : Balanced b ts ↔ (∀ k < ts.length, b.closed (ts.take k) ≤ b.opened (ts.take k))
    ∧ b.closed ts = b.opened ts := by
  refine ⟨fun h => ⟨fun k _ => h.before k, h.whole⟩, fun ⟨hbefore, hwhole⟩ => ⟨fun k => ?_, hwhole⟩⟩
  by_cases hk : k < ts.length
  · exact hbefore k hk
  · rw [List.take_of_length_le (Nat.le_of_not_lt hk), hwhole]

instance : Decidable (Balanced b ts) := decidable_of_iff' _ balanced_iff

theorem Bracketing.allows_nil : b.Allows depth [] := fun k => by
  rw [List.take_nil]
  exact Nat.zero_le _

theorem Bracketing.Allows.cons (h : b.Allows depth' ts)
    (hdepth : depth + b.opened [t] = depth' + b.closed [t]) : b.Allows depth (t :: ts)
  | 0 => Nat.zero_le _
  | k + 1 => by
    have hk := h k
    rw [List.take_succ_cons, b.opened_cons, b.closed_cons]
    omega

theorem Bracketing.Allows.tail (h : b.Allows depth (t :: ts))
    (hdepth : depth + b.opened [t] = depth' + b.closed [t]) : b.Allows depth' ts := by
  intro k
  have hk := h (k + 1)
  rw [List.take_succ_cons, b.opened_cons, b.closed_cons] at hk
  omega

/-- At the end of balanced tokens, as many brackets are closed as opened or more. -/
theorem Balanced.opened_drop_le (h : Balanced b (us ++ ts)) (k : Nat) :
    b.opened (ts.drop k) ≤ b.closed (ts.drop k) := by
  have hwhole := h.whole
  have hbefore := h.before (us.length + k)
  rw [List.take_length_add_append] at hbefore
  rw [← List.take_append_drop k ts] at hwhole
  simp only [Bracketing.opened_append, Bracketing.closed_append] at hbefore hwhole
  omega

end

/-! ### Skipping to a boundary -/

/-- Where no bracket is closed that is not open, and all of them are, skipping stops before a brace. -/
theorem boundary_le_of_allows {depth : Nat} {ts : List Token} (next : List Token)
    (h : Bracketing.all.Allows depth ts)
    (hwhole : Bracketing.all.closed ts = depth + Bracketing.all.opened ts) :
    boundary depth (ts ++ .symbol .rightBrace :: next) ≤ ts.length := by
  induction ts generalizing depth with
  | nil =>
    obtain rfl : 0 = depth := hwhole
    exact le_rfl
  | cons t ts ih =>
    have hhead := h.head
    rw [Bracketing.opened_cons, Bracketing.closed_cons] at hwhole
    have hstep (depth' : Nat)
        (hdepth : depth + Bracketing.all.opened [t] = depth' + Bracketing.all.closed [t]) :
        boundary depth' (ts ++ .symbol .rightBrace :: next) + 1 ≤ (t :: ts).length :=
      Nat.succ_le_succ (ih (h.tail hdepth) (by omega))
    rw [List.cons_append]
    unfold boundary
    split
    · exact hstep (depth + 1) rfl
    · exact hstep (depth + 1) rfl
    · exact hstep (depth + 1) rfl
    · exact hstep (depth - 1) (Nat.sub_add_cancel hhead).symm
    · exact hstep (depth - 1) (Nat.sub_add_cancel hhead).symm
    · split
      · exact Nat.zero_le _
      · exact Nat.succ_le_succ (Nat.zero_le _)
      · exact hstep _ rfl
    · split
      · exact Nat.succ_le_succ (Nat.zero_le _)
      · exact hstep _ rfl
    · have hopened : Bracketing.all.opened [t] = 0 := by simp_all [Bracketing.opened, Bracketing.all]
      have hclosed : Bracketing.all.closed [t] = 0 := by simp_all [Bracketing.closed, Bracketing.all]
      exact hstep depth (by rw [hopened, hclosed])

/-- Where only brackets of an expression stand before a semicolon, and every end of them closes as many
as it opens, skipping stops behind it. -/
theorem boundary_of_closed {depth : Nat} {ts : List Token} (next : List Token)
    (hplain : ∀ s ∈ [Symbol.leftBrace, .rightBrace, .semicolon], .symbol s ∉ ts)
    (h : ∀ k, Bracketing.inner.opened (ts.drop k) ≤ Bracketing.inner.closed (ts.drop k))
    (hdepth : depth + Bracketing.inner.opened ts ≤ Bracketing.inner.closed ts) :
    boundary depth (ts ++ .symbol .semicolon :: next) = ts.length + 1 := by
  induction ts generalizing depth with
  | nil =>
    obtain rfl : depth = 0 := Nat.le_zero.1 hdepth
    rfl
  | cons t ts ih =>
    rw [Bracketing.opened_cons, Bracketing.closed_cons] at hdepth
    have hrest : Bracketing.inner.opened ts ≤ Bracketing.inner.closed ts := h 1
    have hstep (depth' : Nat)
        (hdepth' : depth' + Bracketing.inner.opened ts ≤ Bracketing.inner.closed ts) :
        boundary depth' (ts ++ .symbol .semicolon :: next) + 1 = (t :: ts).length + 1 := by
      rw [ih (fun s hs hmem => hplain s hs (List.mem_cons_of_mem _ hmem)) (fun k => h (k + 1)) hdepth']
      rfl
    -- The number may not fall below zero, so it may be too high, but not at the end of what is left.
    have hclosed (hopened : Bracketing.inner.opened [t] = 0) (hclosed : Bracketing.inner.closed [t] = 1) :
        boundary (depth - 1) (ts ++ .symbol .semicolon :: next) + 1 = (t :: ts).length + 1 :=
      hstep _ (by omega)
    rw [List.cons_append]
    unfold boundary
    split
    · exact hstep (depth + 1) (by rw [Nat.add_assoc]; exact hdepth.trans_eq (Nat.zero_add _))
    · exact hstep (depth + 1) (by rw [Nat.add_assoc]; exact hdepth.trans_eq (Nat.zero_add _))
    · exact absurd List.mem_cons_self (hplain .leftBrace (by simp))
    · exact hclosed rfl rfl
    · exact hclosed rfl rfl
    · exact absurd List.mem_cons_self (hplain .rightBrace (by simp))
    · exact absurd List.mem_cons_self (hplain .semicolon (by simp))
    · have hopened : Bracketing.inner.opened [t] = 0 := by simp_all [Bracketing.opened, Bracketing.inner]
      have hclosed : Bracketing.inner.closed [t] = 0 := by simp_all [Bracketing.closed, Bracketing.inner]
      rw [hopened, hclosed, Nat.zero_add, Nat.zero_add] at hdepth
      exact hstep depth hdepth

/-! ### The brace that closes a block -/

section

variable {depth k : Nat} {ts inner behind : List Token}

/-- What the step of the count does, by the token. -/
theorem closingBrace_step (depth : Nat) (t : Token) :
    t = .symbol .rightBrace ∧ depth = 0
      ∨ ∃ depth', depth + Bracketing.braces.opened [t] = depth' + Bracketing.braces.closed [t]
        ∧ ∀ ts, closingBrace (depth + 1) (t :: ts) = (closingBrace (depth' + 1) ts).map (· + 1) := by
  by_cases hopen : t = .symbol .leftBrace
  · subst hopen
    exact .inr ⟨depth + 1, rfl, fun ts => by rw [closingBrace]⟩
  by_cases hclose : t = .symbol .rightBrace
  · subst hclose
    cases depth with
    | zero => exact .inl ⟨rfl, rfl⟩
    | succ depth => exact .inr ⟨depth, rfl, fun ts => by rw [closingBrace]⟩
  · refine .inr ⟨depth, ?_, fun ts => ?_⟩
    · simp [Bracketing.opened, Bracketing.closed, Bracketing.braces, hopen, hclose]
    · rw [closingBrace]
      · exact hopen
      · exact hclose

/-- Where the count ends, it ends with a brace behind tokens that close what was open but one. -/
theorem exists_of_closingBrace (h : closingBrace (depth + 1) ts = some k) :
    ∃ inner behind, ts = inner ++ Token.symbol .rightBrace :: behind ∧ k = inner.length + 1
      ∧ Bracketing.braces.Allows depth inner
      ∧ Bracketing.braces.closed inner = depth + Bracketing.braces.opened inner := by
  induction ts generalizing depth k with
  | nil => simp [closingBrace] at h
  | cons t ts ih =>
    rcases closingBrace_step depth t with ⟨rfl, rfl⟩ | ⟨depth', hdepth, hstep⟩
    · rw [closingBrace, closingBrace] at h
      obtain rfl := Option.some.inj h
      exact ⟨[], ts, rfl, rfl, Bracketing.allows_nil, rfl⟩
    · rw [hstep] at h
      obtain ⟨k, hk, rfl⟩ := Option.map_eq_some_iff.1 h
      obtain ⟨inner, behind, rfl, rfl, hallows, hwhole⟩ := ih hk
      refine ⟨t :: inner, behind, rfl, rfl, hallows.cons hdepth, ?_⟩
      rw [Bracketing.opened_cons, Bracketing.closed_cons]
      omega

/-- Where it does not, no brace is closed that is not open. -/
theorem allows_of_no_closingBrace (h : closingBrace (depth + 1) ts = none) :
    Bracketing.braces.Allows depth ts := by
  induction ts generalizing depth with
  | nil => exact Bracketing.allows_nil
  | cons t ts ih =>
    rcases closingBrace_step depth t with ⟨rfl, rfl⟩ | ⟨depth', hdepth, hstep⟩
    · rw [closingBrace, closingBrace] at h
      simp at h
    · rw [hstep, Option.map_eq_none_iff] at h
      exact (ih h).cons hdepth

/-- There, fewer are closed than opened before any brace. -/
theorem Bracketing.Allows.closed_lt (h : braces.Allows 0 (inner ++ .symbol .rightBrace :: behind)) :
    braces.closed inner < braces.opened inner := by
  have hbrace := h (inner.length + 1)
  rw [List.take_length_add_append, List.take_succ_cons, List.take_zero, opened_append, closed_append,
    Nat.zero_add] at hbrace
  exact hbrace

end

/-! ### After an error -/

namespace State

variable {s : State} {ts behind : List Lexeme} {stop : Lexeme}

/-- Where skipping stops is a number of tokens. -/
theorem synchronize_eq (s : State) : s.synchronize =
    { s with
      previous := (s.rest.take (boundary 0 s.tokens)).getLast?.or s.previous
      rest := s.rest.drop (boundary 0 s.tokens) } := by
  rw [synchronize, skipToBoundary_eq]
  rfl

/-- Reading goes on no farther than before a brace behind tokens that are balanced, and right behind a
semicolon at the end of tokens that are balanced, have no other semicolon and no braces, wherever among
them skipping begins. -/
theorem synchronize_balanced (hs : s.rest = ts ++ stop :: behind) :
    (stop.token = .symbol .rightBrace → Balanced .all (ts.map Lexeme.token) →
        ∃ us vs, ts = us ++ vs ∧ s.synchronize
          = { s with previous := us.getLast?.or s.previous, rest := vs ++ stop :: behind })
      ∧ ∀ us, stop.token = .symbol .semicolon → Balanced .inner ((us ++ ts).map Lexeme.token) →
        (∀ k ∈ [Symbol.leftBrace, .rightBrace, .semicolon],
          .symbol k ∉ (us ++ ts).map Lexeme.token) →
        s.synchronize = { s with previous := some stop, rest := behind } := by
  have htokens : s.tokens = ts.map Lexeme.token ++ stop.token :: behind.map Lexeme.token := by
    rw [tokens, hs, List.map_append, List.map_cons]
  rw [synchronize_eq]
  refine ⟨fun hstop hbalanced => ?_, fun us hstop hbalanced hplain => ?_⟩
  · have hle : boundary 0 s.tokens ≤ ts.length := by
      rw [htokens, hstop, ← List.length_map Lexeme.token]
      exact boundary_le_of_allows _ hbalanced.allows (by rw [hbalanced.whole, Nat.zero_add])
    refine ⟨_, _, (List.take_append_drop (boundary 0 s.tokens) ts).symm, ?_⟩
    rw [hs, List.take_append_of_le_length hle, List.drop_append_of_le_length hle]
  · rw [List.map_append] at hbalanced hplain
    have heq : boundary 0 s.tokens = ts.length + 1 := by
      rw [htokens, hstop, boundary_of_closed _ (fun k hk hmem => hplain k hk
        (List.mem_append_right _ hmem)) hbalanced.opened_drop_le, List.length_map]
      rw [Nat.zero_add]
      exact hbalanced.opened_drop_le 0
    rw [heq, hs, List.take_length_add_append, List.drop_length_add_append, List.take_succ_cons,
      List.take_zero, List.getLast?_concat]
    rfl

/-- Skipping ends at the brace behind `()`, and from the inside of `(a)` behind the semicolon. -/
theorem synchronize_balanced_parentheses :
    let lexeme (k : Symbol) : Lexeme := ⟨.symbol k, .origin⟩
    let start (rest : List Lexeme) : State := ⟨none, rest, #[]⟩
    let pair := [lexeme .leftParen, lexeme .rightParen]
    Balanced .all (pair.map Lexeme.token)
      ∧ (∃ us vs, pair = us ++ vs ∧ (start (pair ++ lexeme .rightBrace :: [])).synchronize
        = ⟨us.getLast?.or none, vs ++ lexeme .rightBrace :: [], #[]⟩)
      ∧ Balanced .inner (pair.map Lexeme.token)
      ∧ (start ([lexeme .rightParen] ++ lexeme .semicolon :: [lexeme .dot])).synchronize
        = ⟨some (lexeme .semicolon), [lexeme .dot], #[]⟩ := by
  intro lexeme start pair
  have hall : Balanced .all (pair.map Lexeme.token) := by decide
  have hinner : Balanced .inner (pair.map Lexeme.token) := by decide
  exact ⟨hall, (synchronize_balanced (s := start _) rfl).1 rfl hall, hinner,
    (synchronize_balanced (s := start _) rfl).2 [lexeme .leftParen] rfl hinner (by decide)⟩

end State

end SolidityFrontend
