import SolidityFrontend.Proofs.AgreeingStmt
import SolidityFrontend.Proofs.Balanced

/-!
# Assembly blocks

Of the tokens in an assembly block only the braces matter. The block ends at the first brace behind
which as many are closed as opened, and the statement with it. Where there is none, all tokens are
taken and the brace is missing at the end of the input (`Nested.statement_of_assembly`).
-/

namespace SolidityFrontend

open SolidityFrontend.Parser SolidityFrontend.Grammar

/-- No token ends before the start of one in front of it. -/
theorem InOrder.not_stop_lt_start {ts us : List Lexeme} {t u : Lexeme} (h : InOrder (ts ++ u :: us))
    (ht : t ∈ ts) : ¬u.span.stop.offset < t.span.start.offset := by
  have ht' := h.left.1 t ht
  have hu := h.right.1 u List.mem_cons_self
  have hle := h.stop_le_start ht (List.mem_cons_self : u ∈ u :: us)
  omega

namespace Grammar

variable {c : Context} {rest : List Lexeme} {previous : Option Lexeme} {errors : Array SyntaxError}

/-- The tokens before the first brace that closes a block, and that brace. -/
theorem closeBrace_cases (c : Context) (opening : Option Lexeme) (rest : List Lexeme)
    (errors : Array SyntaxError) :
    (∃ (inner : List Lexeme) (stop : Span) (behind : List Lexeme),
        rest = inner ++ ⟨.symbol .rightBrace, stop⟩ :: behind
        ∧ Balanced .braces (inner.map Lexeme.token)
        ∧ closeBrace c ⟨opening, rest, errors⟩
          = (.ok (), ⟨some ⟨.symbol .rightBrace, stop⟩, behind, errors⟩))
      ∨ Bracketing.braces.Allows 0 (rest.map Lexeme.token)
        ∧ closeBrace c ⟨opening, rest, errors⟩
          = (.error ⟨.missing .rightBrace, c.stop⟩, ⟨rest.getLast?.or opening, [], errors⟩) := by
  rcases hcount : closingBrace 1 (rest.map Lexeme.token) with _ | k
  · refine .inr ⟨allows_of_no_closingBrace hcount, ?_⟩
    rw [closeBrace_of_none hcount, List.take_length, List.drop_length]
  · obtain ⟨inner, behind, htokens, rfl, hallows, hwhole⟩ := exists_of_closingBrace hcount
    obtain ⟨us, vs, rfl, rfl, hvs⟩ := List.map_eq_append_iff.1 htokens
    obtain ⟨⟨_, stop⟩, behind, rfl, rfl, rfl⟩ := List.map_eq_cons_iff.1 hvs
    refine .inl ⟨us, stop, behind, rfl, ⟨fun k => ?_, ?_⟩, ?_⟩
    · have hk := hallows k
      rwa [Nat.zero_add] at hk
    · rwa [Nat.zero_add] at hwhole
    · rw [closeBrace_of_some hcount, List.length_map]
      dsimp only
      rw [List.take_length_add_append, List.drop_length_add_append, List.take_succ_cons,
        List.take_zero, List.getLast?_concat]
      rfl

theorem keyword_cons (k : Keyword) (start : Span) :
    keyword k c ⟨previous, ⟨.keyword k, start⟩ :: rest, errors⟩
      = (.ok start, ⟨some ⟨.keyword k, start⟩, rest, errors⟩) := by
  rw [keyword, take, bind_ok (looks_here c _), bind_ok (accept_eq_true rfl)]
  rfl

theorem symbol_cons (k : Symbol) (start : Span) :
    symbol k c ⟨previous, ⟨.symbol k, start⟩ :: rest, errors⟩
      = (.ok start, ⟨some ⟨.symbol k, start⟩, rest, errors⟩) := by
  rw [symbol, bind_ok (looks_here c _), bind_ok (accept_eq_true rfl)]
  rfl

/-- The tokens of the dialect of an assembly block. -/
def dialectTokens (dialect : Option (List UInt8 × Span)) : List Lexeme :=
  (dialect.map fun (bytes, span) => ⟨.string bytes, span⟩).toList

/-- The name of the dialect. -/
def dialectName (dialect : Option (List UInt8 × Span)) : Option String :=
  dialect.map fun (bytes, _) => String.ofList (Text.Utf8.decodeLossy bytes)

/-- The head of an assembly block is read before any block. -/
theorem assemblyStatement_head (start opening : Span) (dialect : Option (List UInt8 × Span)) :
    assemblyStatement c ⟨previous, ⟨.keyword .assembly, start⟩
        :: (dialectTokens dialect ++ ⟨.symbol .leftBrace, opening⟩ :: rest), errors⟩
      = (closeBrace >>= fun _ => spanFrom opening >>= fun body => spanFrom start >>= fun span =>
          pure (Stmt.assembly (dialectName dialect) body span)) c
        ⟨some ⟨.symbol .leftBrace, opening⟩, rest, errors⟩ := by
  have hblock (dialect : Option String) (previous : Option Lexeme) :
      (symbol .leftBrace >>= fun opening => closeBrace >>= fun _ => spanFrom opening >>= fun body =>
        spanFrom start >>= fun span => pure (Stmt.assembly dialect body span)) c
          ⟨previous, ⟨.symbol .leftBrace, opening⟩ :: rest, errors⟩
        = (closeBrace >>= fun _ => spanFrom opening >>= fun body => spanFrom start >>= fun span =>
          pure (Stmt.assembly dialect body span)) c
            ⟨some ⟨.symbol .leftBrace, opening⟩, rest, errors⟩ := bind_ok (symbol_cons _ _)
  rw [assemblyStatement, bind_ok (keyword_cons _ _), bind_ok (sees_next c _)]
  rcases dialect with _ | ⟨bytes, span⟩
  · exact hblock none _
  · exact hblock (dialectName (some (bytes, span))) (some ⟨.string bytes, span⟩)

end Grammar

/-- An assembly statement ends with the first brace that closes its block, whatever stands in the block,
and without such a brace it takes all tokens and fails at the end of the input. -/
theorem Nested.statement_of_assembly (n : Nat) (c : Context) (previous : Option Lexeme)
    (errors : Array SyntaxError) (start opening : Span) (dialect : Option (List UInt8 × Span))
    (rest : List Lexeme) :
    let s : State := ⟨previous, ⟨.keyword .assembly, start⟩
      :: (dialectTokens dialect ++ ⟨.symbol .leftBrace, opening⟩ :: rest), errors⟩
    let closes (inner behind : List Lexeme) (stop : Span) : Prop :=
      rest = inner ++ ⟨.symbol .rightBrace, stop⟩ :: behind
        ∧ Bracketing.braces.closed (inner.map Lexeme.token)
          = Bracketing.braces.opened (inner.map Lexeme.token)
    ((∃ x t, (Nested.ofDepth (n + 1)).statement c s = (.ok x, t))
        ↔ ∃ inner behind stop, closes inner behind stop)
      ∧ (∀ x t, (Nested.ofDepth (n + 1)).statement c s = (.ok x, t) →
        ∃ inner behind stop body span, closes inner behind stop
          ∧ Balanced .braces (inner.map Lexeme.token)
          ∧ x = .assembly (dialectName dialect) body span
          ∧ t = ⟨some ⟨.symbol .rightBrace, stop⟩, behind, errors⟩
          ∧ (s.Ordered → body = opening.through stop ∧ span = start.through stop))
      ∧ ((¬∃ inner behind stop, closes inner behind stop) →
        (Nested.ofDepth (n + 1)).statement c s = (.error ⟨.missing .rightBrace, c.stop⟩,
          ⟨rest.getLast?.or (some ⟨.symbol .leftBrace, opening⟩), [], errors⟩)) := by
  intro s closes
  have hhead : (Nested.ofDepth (n + 1)).statement c s
      = (closeBrace >>= fun _ => spanFrom opening >>= fun body => spanFrom start >>= fun span =>
          pure (Stmt.assembly (dialectName dialect) body span)) c
        ⟨some ⟨.symbol .leftBrace, opening⟩, rest, errors⟩ :=
    assemblyStatement_head start opening dialect
  rw [hhead]
  rcases closeBrace_cases c (some ⟨.symbol .leftBrace, opening⟩) rest errors with
    ⟨inner, stop, behind, hrest, hbalanced, hrun⟩ | ⟨hallows, hrun⟩
  · have hcloses : ∃ inner behind stop, closes inner behind stop :=
      ⟨inner, behind, stop, hrest, hbalanced.whole⟩
    rw [bind_ok hrun, bind_ok (looks_spanFrom opening c _), bind_ok (looks_spanFrom start c _)]
    refine ⟨⟨fun _ => hcloses, fun _ => ⟨_, _, rfl⟩⟩, fun x t h => ?_, fun hnone => absurd hcloses hnone⟩
    obtain ⟨hx, rfl⟩ := Prod.mk.inj h
    obtain rfl := Except.ok.inj hx
    refine ⟨inner, behind, stop, _, _, ⟨hrest, hbalanced.whole⟩, hbalanced, rfl, rfl, fun hordered => ?_⟩
    have hrest' : s.rest = (⟨.keyword .assembly, start⟩ :: (dialectTokens dialect
        ++ ⟨.symbol .leftBrace, opening⟩ :: inner)) ++ ⟨.symbol .rightBrace, stop⟩ :: behind := by
      simp [s, hrest]
    have hinOrder := hrest' ▸ hordered.right
    exact ⟨if_neg (hinOrder.not_stop_lt_start (t := ⟨.symbol .leftBrace, opening⟩) (by simp)),
      if_neg (hinOrder.not_stop_lt_start (t := ⟨.keyword .assembly, start⟩) (by simp))⟩
  · have hnone : ¬∃ inner behind stop, closes inner behind stop := by
      rintro ⟨inner, behind, stop, rfl, hclosed⟩
      rw [List.map_append] at hallows
      exact absurd hclosed hallows.closed_lt.ne
    rw [bind_error hrun]
    refine ⟨⟨?_, fun h => absurd h hnone⟩, ?_, fun _ => rfl⟩
    · rintro ⟨x, t, h⟩
      simp at h
    · intro x t h
      simp at h

/-- Parentheses, keywords and what is no token may stand in a block, and braces that are closed. -/
theorem Nested.statement_of_assembly_nested :
    let lexeme (t : Token) : Lexeme := ⟨t, .origin⟩
    let inner := [lexeme (.symbol .rightParen), lexeme (.symbol .leftBrace), lexeme (.keyword .contract),
      lexeme .error, lexeme (.symbol .rightBrace)]
    let start (rest : List Lexeme) : State := ⟨.none, lexeme (.keyword .assembly)
      :: (dialectTokens (some ([], .origin)) ++ lexeme (.symbol .leftBrace) :: rest), #[]⟩
    (∃ x t, (Nested.ofDepth 1).statement ⟨[], .origin, true⟩
        (start (inner ++ lexeme (.symbol .rightBrace) :: [lexeme (.symbol .semicolon)])) = (.ok x, t))
      ∧ (Nested.ofDepth 1).statement ⟨[], .origin, true⟩ (start [])
        = (.error ⟨.missing .rightBrace, .origin⟩, ⟨some (lexeme (.symbol .leftBrace)), [], #[]⟩) := by
  intro lexeme inner start
  have hassembly := Nested.statement_of_assembly 0 ⟨[], .origin, true⟩ .none #[] .origin .origin
    (some ([], .origin))
  exact ⟨(hassembly _).1.2 ⟨inner, _, .origin, rfl, by decide⟩, (hassembly []).2.2 (by simp)⟩

end SolidityFrontend
