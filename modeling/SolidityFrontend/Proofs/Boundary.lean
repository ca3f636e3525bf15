import SolidityFrontend.Proofs.ReadingStmt

/-!
# How far skipping goes

Where reading goes on after an error, and where an assembly block ends, depends on the tokens that
are left and not on their places: `boundary` and `closingBrace` count the tokens that are skipped.
-/

namespace SolidityFrontend

/-- The number of tokens before the next place where reading can go on; `depth` brackets are open. -/
def boundary : Nat → List Token → Nat
  | _, [] => 0
  | depth, t :: rest =>
    match t with
    | .symbol .leftParen | .symbol .leftBracket | .symbol .leftBrace =>
      boundary (depth + 1) rest + 1
    | .symbol .rightParen | .symbol .rightBracket => boundary (depth - 1) rest + 1
    | .symbol .rightBrace =>
      match depth with
      | 0 => 0
      | 1 => 1
      | depth + 1 => boundary depth rest + 1
    | .symbol .semicolon =>
      match depth with
      | 0 => 1
      | depth + 1 => boundary (depth + 1) rest + 1
    | _ => boundary depth rest + 1

/-- The number of tokens up to the brace that closes the outermost of `depth` open ones. -/
def closingBrace : Nat → List Token → Option Nat
  | 0, _ => some 0
  | _ + 1, [] => none
  | depth + 1, t :: rest =>
    (match t with
    | .symbol .leftBrace => closingBrace (depth + 2) rest
    | .symbol .rightBrace => closingBrace depth rest
    | _ => closingBrace (depth + 1) rest).map (· + 1)

theorem getLast?_take_succ_or (t : Lexeme) (ts : List Lexeme) (k : Nat) (previous : Option Lexeme) :
    ((t :: ts).take (k + 1)).getLast?.or previous = (ts.take k).getLast?.or (some t) := by
  rw [List.take_succ_cons, List.getLast?_cons]
  cases (ts.take k).getLast? <;> rfl

theorem skipToBoundary_eq (depth : Nat) (previous : Option Lexeme) (ts : List Lexeme) :
    skipToBoundary depth previous ts
      = ((ts.take (boundary depth (ts.map Lexeme.token))).getLast?.or previous,
          ts.drop (boundary depth (ts.map Lexeme.token))) := by
  fun_induction skipToBoundary depth previous ts
  case case1 => rfl
  all_goals simp only [List.map_cons, *, boundary]
  all_goals first
    | rfl
    | rw [getLast?_take_succ_or, List.drop_succ_cons]

theorem boundary_le (depth : Nat) (ts : List Token) : boundary depth ts ≤ ts.length := by
  fun_induction boundary depth ts
  all_goals simp only [List.length_cons, List.length_nil]
  all_goals omega

/-- What is left behind a number of tokens that may not be there, with the token before it. -/
def skipTo (previous : Option Lexeme) (ts : List Lexeme) (count : Option Nat) :
    Bool × Option Lexeme × List Lexeme :=
  count.elim (false, ts.getLast?.or previous, []) fun k =>
    (true, (ts.take k).getLast?.or previous, ts.drop k)

theorem skipTo_cons (t : Lexeme) (ts : List Lexeme) (previous : Option Lexeme)
    (count : Option Nat) :
    skipTo previous (t :: ts) (count.map (· + 1)) = skipTo (some t) ts count := by
  cases count with
  | none =>
    simp only [skipTo, Option.map_none, Option.elim_none, List.getLast?_cons]
    cases ts.getLast? <;> rfl
  | some k =>
    simp only [skipTo, Option.map_some, Option.elim_some, getLast?_take_succ_or,
      List.drop_succ_cons]

theorem skipBraces_eq (depth : Nat) (previous : Option Lexeme) (ts : List Lexeme) :
    Grammar.skipBraces depth previous ts
      = skipTo previous ts (closingBrace depth (ts.map Lexeme.token)) := by
  fun_induction Grammar.skipBraces depth previous ts
  case case1 => rw [closingBrace]; rfl
  case case2 => rfl
  all_goals
    simp only [List.map_cons, *, closingBrace]
    exact (skipTo_cons _ _ _ _).symm

theorem closingBrace_le {depth k : Nat} {ts : List Token} (h : closingBrace depth ts = some k) :
    k ≤ ts.length := by
  fun_induction closingBrace depth ts generalizing k with
  | case1 => exact (Option.some.inj h) ▸ Nat.zero_le _
  | case2 => simp at h
  | case3 depth t rest ih ih' ih'' =>
    obtain ⟨k, hk, rfl⟩ := Option.map_eq_some_iff.1 h
    refine Nat.succ_le_succ ?_
    split at hk
    · exact ih hk
    · exact ih' hk
    · exact ih'' hk

end SolidityFrontend
