import SolidityFrontend.Proofs.Coverage

/-!
# Reading goes on to the end

A part that is read or recovered from takes at least one token, wherever it begins. So the loops over
the items of a file, the members of a contract and the statements of a block stop where they should,
with no more parts than tokens: the first at the end of the input, the others there or at a closing
brace.
-/

namespace SolidityFrontend

open Phrase SolidityFrontend.Parser

/-! ### Parts that take tokens -/

/-- Phrases that each take a token are no more than their tokens. -/
theorem Phrase.length_le_of_prod {α : Type} {L : α → Phrase} (hL : ∀ x, (L x).Takes) :
    ∀ {xs : List α} {ts rest : List Lexeme} {es : List SyntaxError},
      (xs.map L).prod ts es rest → xs.length ≤ ts.length
  | [], _, _, _, _ => Nat.zero_le _
  | x :: xs, _, _, _, h => by
      rw [List.map_cons, List.prod_cons] at h
      obtain ⟨ts, us, _, _, rfl, rfl, hx, hxs⟩ := h
      have hpos := List.length_pos_of_ne_nil (hL x _ _ _ hx)
      have hle := length_le_of_prod hL hxs
      simp only [List.length_cons, List.length_append]
      omega

theorem Stmt.takes_phrase (s : Stmt) : s.phrase.Takes := (takes_covered _ _).mono s.phrase_le

theorem Member.takes_phrase (m : Member) : m.phrase.Takes := (takes_covered _ _).mono m.phrase_le

namespace Parser

variable {α : Type} {c : Context} {s : State} {L : α → Phrase} {part : Parser α}
  {mark : ErrorMark → α}

/-- The parser gives a value and takes at least one token. -/
def Advances (p : Parser α) (c : Context) (s : State) : Prop :=
  ∃ x s' ts es, p c s = (.ok x, s') ∧ s.Took ts es s' ∧ ts ≠ []

/-- The parser of parts gives no more of them than the tokens it takes, and stops before tokens with
a property. -/
def Finishes (p : Parser (List α)) (stops : List Lexeme → Prop) (c : Context) (s : State) : Prop :=
  ∃ xs s' ts es, p c s = (.ok xs, s') ∧ s.Took ts es s' ∧ xs.length ≤ ts.length ∧ stops s'.rest

/-- Where a body ends. -/
def endsBody (rest : List Lexeme) : Prop := rest = [] ∨ isNext (.symbol .rightBrace) rest

theorem advances_recovering (h : Reads False part L) (hL : ∀ x, (L x).Takes)
    (hmark : ∀ m : ErrorMark, m.phrase ≤ L (mark m)) (hs : s.Ordered) (hne : s.rest ≠ []) :
    Advances (recovering mark part) c s := by
  have hafter : ReadsAfter False c s (1 * before (· ≠ [])) (recovering mark part) fun x => 1 * L x :=
    after_recovering not_false h hmark
  have heffect := hafter hs s (reached_mul_before.2 ⟨.refl False s, hne⟩)
  obtain ⟨x, s', hr⟩ := neverFails_recovering mark part c s
  rw [hr] at heffect
  obtain ⟨ts, es, ht, hread, -⟩ := heffect.reached
  rw [one_mul] at hread
  exact ⟨x, s', ts, es, hr, ht, hL x _ _ _ hread⟩

/-- The loop over the parts of a body is never cut short by its bound. -/
theorem finishes_partsOver (h : ∀ s, s.Ordered → s.rest ≠ [] → Advances part c s)
    (clock : List Lexeme) (hs : s.Ordered) (hclock : s.rest.length ≤ clock.length) :
    Finishes (partsOver part clock) endsBody c s := by
  induction clock generalizing s with
  | nil =>
    have hrest : s.rest = [] := List.eq_nil_of_length_eq_zero (Nat.le_zero.1 hclock)
    exact ⟨[], s, [], [], rfl, .refl s, le_rfl, .inl hrest⟩
  | cons t clock ih =>
    unfold Finishes partsOver
    rw [bind_ok (peeks_atEnd c s), run_ite]
    split
    · rename_i hended
      exact ⟨[], s, [], [], rfl, .refl s, le_rfl, .inl (by simpa using hended)⟩
    rename_i hended
    rw [bind_ok (peeks_nextIs _ c s), run_ite]
    split
    · rename_i hbrace
      exact ⟨[], s, [], [], rfl, .refl s, le_rfl, .inr (by simpa [isNext, List.head?_eq_getElem?] using hbrace)⟩
    obtain ⟨x, s₁, ts, es, hr, ht, hne⟩ := h s hs (by simpa using hended)
    have hpos := List.length_pos_of_ne_nil hne
    have hlength := congrArg List.length ht.1
    rw [List.length_append] at hlength
    rw [List.length_cons] at hclock
    obtain ⟨xs, s₂, us, ds, hr', hu, hle, hstops⟩ := ih (hs.of_took ht) (by omega)
    refine ⟨x :: xs, s₂, ts ++ us, es ++ ds, ?_, ht.trans hu, ?_, hstops⟩
    · rw [bind_ok hr, bind_ok hr']
      rfl
    · rw [List.length_cons, List.length_append]
      omega

end Parser

/-! ### The loops of the grammar -/

namespace Grammar

variable {deeper : Nested} {c : Context} {s : State}

theorem finishes_sourceUnits (hd : deeper.Sound) (hs : s.Ordered) :
    Finishes (sourceUnits deeper) (· = []) c s := by
  have heffect := reads_sourceUnits hd c s hs
  obtain ⟨items, s', hr⟩ := neverFails_sourceUnits deeper c s
  rw [hr] at heffect
  obtain ⟨hitems, hend⟩ := reached_mul_before.1 heffect.reached
  obtain ⟨ts, es, ht, hread, -⟩ := hitems
  exact ⟨items, s', ts, es, hr, ht, length_le_of_prod SourceUnit.takes_phrase hread, hend⟩

theorem advances_sourceUnit (hd : deeper.Sound) (hs : s.Ordered) (hne : s.rest ≠ []) :
    Advances (recovering SourceUnit.error (sourceUnit deeper)) c s :=
  advances_recovering (reads_sourceUnit hd) SourceUnit.takes_phrase (fun _ => le_rfl) hs hne

theorem advances_member (hd : deeper.Sound) (hs : s.Ordered) (hne : s.rest ≠ []) :
    Advances (recovering Member.error (member deeper)) c s :=
  advances_recovering (reads_member hd) Member.takes_phrase (fun _ => le_rfl) hs hne

theorem advances_statement (hd : deeper.Sound) (hs : s.Ordered) (hne : s.rest ≠ []) :
    Advances (recovering Stmt.error deeper.statement) c s := by
  refine advances_recovering hd.statement Stmt.takes_phrase (fun m => ?_) hs hne
  rw [Stmt.phrase]

end Grammar

/-! ### Sessions -/

namespace Session

/-- A session of a source behind its first `n` tokens, with the errors recorded so far. -/
def behind (source : String) (n : Nat) (errors : Array SyntaxError) : Session :=
  let tokenized := tokenize source
  ⟨source, tokenized, (tokenized.tokens.take n).getLast?, tokenized.tokens.drop n, errors⟩

theorem ordered_behind (source : String) (n : Nat) (errors : Array SyntaxError) :
    (behind source n errors).state.Ordered := by
  have hin := tokenize_inOrder source
  rw [← List.take_append_drop n (tokenize source).tokens] at hin
  have htook : (State.start (tokenize source).tokens).Took ((tokenize source).tokens.take n)
      errors.toList (behind source n errors).state := by
    refine ⟨(List.take_append_drop n _).symm, ?_, ?_⟩
    · simp [behind, State.start]
    · simp [behind, State.start]
  exact (ordered_start source).of_took htook

/-- From every place in a source a file is read to the end, with no more items than tokens left.
Each round of the loops over items, members and statements takes a token from every place where one
is left, and the two loops over bodies stop at the end of the input or at a closing brace. -/
theorem file_finishes (source : String) (n : Nat) (errors : Array SyntaxError) :
    (behind source n errors).file.2.state.rest = []
      ∧ (behind source n errors).file.1.items.length ≤ (behind source n errors).state.rest.length
      ∧ ∀ c depth,
        ((behind source n errors).state.rest ≠ [] →
          Advances (recovering .error (Grammar.sourceUnit .full)) c (behind source n errors).state
          ∧ Advances (recovering .error (Grammar.member .full)) c (behind source n errors).state
          ∧ Advances (recovering .error (Nested.ofDepth depth).statement) c
            (behind source n errors).state)
        ∧ Finishes (partsOver (recovering .error (Grammar.member .full))
          (behind source n errors).state.rest) endsBody c (behind source n errors).state
        ∧ Finishes (partsOver (recovering .error (Nested.ofDepth depth).statement)
          (behind source n errors).state.rest) endsBody c (behind source n errors).state := by
  have hs := ordered_behind source n errors
  have hfull := Nested.sound_full
  generalize behind source n errors = session at hs ⊢
  have hfile : session.file.2.state.rest = []
      ∧ session.file.1.items.length ≤ session.state.rest.length := by
    obtain ⟨items, s', ts, es, hr, ht, hle, hend⟩ :=
      Grammar.finishes_sourceUnits (c := session.context) hfull hs
    have hrun : Grammar.sourceFile .full session.context session.state
        = (.ok ⟨items, .through .origin session.context.stop⟩, s') := by
      rw [Grammar.sourceFile, bind_ok hr]
      rfl
    rw [Session.file, Session.run, hrun]
    refine ⟨hend, hle.trans ?_⟩
    rw [ht.1, List.length_append]
    exact Nat.le_add_right _ _
  refine ⟨hfile.1, hfile.2, fun c depth => ?_⟩
  have hdepth := Nested.sound_ofDepth depth
  refine ⟨fun hne => ⟨?_, ?_, ?_⟩, ?_, ?_⟩
  · exact Grammar.advances_sourceUnit hfull hs hne
  · exact Grammar.advances_member hfull hs hne
  · exact Grammar.advances_statement hdepth hs hne
  · exact finishes_partsOver (fun s => Grammar.advances_member hfull) _ hs le_rfl
  · exact finishes_partsOver (fun s => Grammar.advances_statement hdepth) _ hs le_rfl

/-- Behind the first token of a source that is broken, a brace is taken though nothing can be read. -/
theorem file_finishes_stray :
    (behind "x \x7d ;" 1 #[]).state.rest ≠ []
      ∧ Advances (recovering .error (Grammar.sourceUnit .full)) (behind "x \x7d ;" 1 #[]).context
        (behind "x \x7d ;" 1 #[]).state
      ∧ Advances (recovering .error Nested.full.statement) (behind "x \x7d ;" 1 #[]).context
        (behind "x \x7d ;" 1 #[]).state := by
  have hne : (behind "x \x7d ;" 1 #[]).state.rest ≠ [] := by
    rw [behind, tokenize_ofList]
    decide
  obtain ⟨-, -, hloops⟩ := file_finishes "x \x7d ;" 1 #[]
  obtain ⟨hunit, -, hstatement⟩ := (hloops (behind "x \x7d ;" 1 #[]).context nestingLimit).1 hne
  exact ⟨hne, hunit, hstatement⟩

end Session

end SolidityFrontend
