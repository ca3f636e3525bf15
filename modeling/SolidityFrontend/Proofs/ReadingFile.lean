import SolidityFrontend.Session
import SolidityFrontend.Proofs.ReadingDecl
import SolidityFrontend.Proofs.Segments

/-!
# The phrases of files and sessions

The parsers of every level of nesting read what they give, by induction on the levels, and the items
of a file are written by all of its tokens. A session may be asked for any parts in any order, and
whatever it gives is written by tokens that lie side by side in its source (`WrittenIn`).
-/

namespace SolidityFrontend

open Phrase SolidityFrontend.Parser

/-! ### Levels of nesting -/

theorem Nested.Sound.above {n : Nested} (h : n.Sound) : n.above.Sound where
  expression _ := Grammar.reads_expression h
  operand _ := Grammar.reads_unaryExpr h
  exponent _ := Grammar.reads_powerExpr h
  typeName _ := Grammar.reads_typeName h
  statement := Grammar.reads_statement h

theorem Nested.sound_ofDepth : ∀ n, (Nested.ofDepth n).Sound
  | 0 => Nested.sound_none
  | n + 1 => (Nested.sound_ofDepth n).above

theorem Nested.sound_full : Nested.full.Sound := Nested.sound_ofDepth nestingLimit

/-! ### Files -/

namespace Parser

variable {α : Type} {q : Prop} {c : Context} {s : State} {L : α → Phrase}

/-- Parts that each take a token, as long as there is one, take all tokens. -/
theorem effect_manyOver_end {more : Parser (Option α)} (hL : ∀ x, (L x).Takes)
    (h : Reads q more fun o => o.elim (before (· = [])) L) (clock : List Lexeme) (hs : s.Ordered)
    (hclock : s.rest.length ≤ clock.length) :
    Effect q s (fun xs => (xs.map L).prod * before (· = [])) (manyOver more clock c s) := by
  induction clock generalizing s with
  | nil =>
    have hrest : s.rest = [] := List.eq_nil_of_length_eq_zero (Nat.le_zero.1 hclock)
    exact .ok ⟨[], [], .refl s, by simpa [one_mul] using ⟨rfl, rfl, hrest⟩, fun _ => rfl⟩
  | cons t clock ih =>
    have hmore := h c s hs
    unfold manyOver
    rcases hr : more c s with ⟨e | _ | x, s'⟩
    · rw [hr] at hmore
      rw [bind_error hr]
      exact .error hmore.reached_top
    · rw [hr] at hmore
      rw [bind_ok hr]
      exact .ok (hmore.reached.mono (by simp))
    · rw [hr] at hmore
      rw [bind_ok hr]
      have hx : Reached q s (L x) s' := hmore.reached
      have hshorter : s'.rest.length ≤ clock.length := by
        obtain ⟨ts, es, ht, hread, -⟩ := hx
        have hpos := List.length_pos_of_ne_nil (hL x _ _ _ hread)
        have hlength := congrArg List.length ht.1
        rw [List.length_append] at hlength
        rw [List.length_cons] at hclock
        omega
      have hrest := ih (hx.ordered hs) hshorter
      dsimp only
      rcases hr' : manyOver more clock c s' with ⟨e | xs, s''⟩
      · rw [hr'] at hrest
        rw [bind_error hr']
        exact .error (hx.mul hrest.reached_top).top
      · rw [hr'] at hrest
        rw [bind_ok hr']
        refine .ok ((hx.mul hrest.reached).mono ?_)
        rw [List.map_cons, List.prod_cons, mul_assoc]

/-- Parts that each take a token, as long as there is one, take all tokens. -/
theorem reads_many_end {more : Parser (Option α)} (hL : ∀ x, (L x).Takes)
    (h : Reads q more fun o => o.elim (before (· = [])) L) :
    Reads q (many more) fun xs => (xs.map L).prod * before (· = []) :=
  fun _ s hs => effect_manyOver_end hL h s.rest hs le_rfl

end Parser

/-- The span of a top-level item covers its tokens. -/
theorem SourceUnit.phrase_le (u : SourceUnit) : u.phrase ≤ covered u.span ⊤ := by
  cases u with
  | error mark => exact fun _ _ _ h => ⟨h.1, trivial⟩
  | _ => exact covered_mono le_top

theorem SourceUnit.takes_phrase (u : SourceUnit) : u.phrase.Takes :=
  (takes_covered _ _).mono u.phrase_le

namespace Grammar

variable {deeper : Nested} (hd : deeper.Sound)

include hd

/-- The items of a file are written by all of its tokens. -/
theorem reads_sourceUnits : Reads False (sourceUnits deeper) fun items =>
    (items.map SourceUnit.phrase).prod * before (· = []) := by
  refine reads_many_end SourceUnit.takes_phrase ?_
  refine peeks_atEnd.first fun c s ended => after_ite (fun hended => after_pure ?_) fun hended => ?_
  · refine before_mono fun rest hrest => ?_
    simpa [hended] using hrest
  · have hmark : ∀ m : ErrorMark, m.phrase ≤ (SourceUnit.error m).phrase := fun m => le_rfl
    refine (after_recovering_unless not_false (reads_sourceUnit hd) hmark hended).bind fun u => ?_
    exact after_pure le_rfl

theorem reads_sourceFile : Reads False (sourceFile deeper) fun f =>
    (f.items.map SourceUnit.phrase).prod * before (· = []) :=
  (reads_sourceUnits hd).first fun _ _ _ => looks_context.bind fun _ => after_pure le_rfl

end Grammar

/-! ### Sessions -/

/-- A phrase that some tokens of a source write. -/
def WrittenIn (source : String) (L : Phrase) : Prop :=
  ∃ before ts es after, (tokenize source).tokens = before ++ ts ++ after ∧ L ts es after

theorem WrittenIn.mono {source : String} {L M : Phrase} (h : WrittenIn source L) (hLM : L ≤ M) :
    WrittenIn source M := by
  obtain ⟨before, ts, es, after, htokens, hL⟩ := h
  exact ⟨before, ts, es, after, htokens, hLM _ _ _ hL⟩

/-- What stands in a phrase that is written is written too. -/
theorem WrittenIn.middle {source : String} {L : Phrase} (h : WrittenIn source (⊤ * L * ⊤)) :
    WrittenIn source L := by
  obtain ⟨before, _, _, after, htokens, _, us, _, _, rfl, rfl, ⟨ls, ts, _, es, rfl, rfl, -, hL⟩, -⟩ := h
  exact ⟨before ++ ls, ts, es, us ++ after, by simpa using htokens, hL⟩

namespace Session

/-- The sessions in which a source is read, whatever parts have been asked for. -/
inductive Reachable (source : String) : Session → Prop
  | start : Reachable source (ofSource source)
  | expression {s : Session} (h : Reachable source s) : Reachable source s.expression.2
  | statement {s : Session} (h : Reachable source s) : Reachable source s.statement.2
  | typeName {s : Session} (h : Reachable source s) : Reachable source s.typeName.2
  | file {s : Session} (h : Reachable source s) : Reachable source s.file.2

variable {source : String} {s : Session}

/-- A session knows its source and has read some of its tokens. -/
def Sound (source : String) (s : Session) : Prop :=
  s.source = source ∧ s.tokenized = tokenize source
    ∧ Reached False (.start (tokenize source).tokens) ⊤ s.state

theorem ordered_start (source : String) : (State.start (tokenize source).tokens).Ordered :=
  tokenize_inOrder source

theorem sound_ofSource (source : String) : (ofSource source).Sound source :=
  ⟨rfl, rfl, (Reached.refl False _).top⟩

/-- What a session gives is written in its source, and the session goes on. -/
theorem Sound.run {α : Type} {p : Parser α} {L : α → Phrase} (h : s.Sound source)
    (hp : Reads False p L) :
    (∀ x, (s.run p).1 = .ok x → WrittenIn source (L x)) ∧ (s.run p).2.Sound source := by
  obtain ⟨hsource, htokens, hreached⟩ := h
  have heffect := hp s.context s.state (hreached.ordered (ordered_start source))
  rw [Session.run]
  rcases hr : p s.context s.state with ⟨e | x, state⟩
  · rw [hr] at heffect
    refine ⟨fun x hx => by simp at hx, hsource, htokens, ?_⟩
    exact (hreached.mul heffect.reached_top).top
  · rw [hr] at heffect
    refine ⟨fun y hy => ?_, hsource, htokens, (hreached.mul heffect.reached).top⟩
    obtain rfl : x = y := by simpa using hy
    obtain ⟨before, _, ⟨hbefore, -⟩, -⟩ := hreached
    obtain ⟨ts, es, ⟨hts, -⟩, hx, -⟩ := heffect.reached
    refine ⟨before, ts, es, state.rest, ?_, hx⟩
    rw [List.append_assoc, ← hts, ← hbefore]
    rfl

theorem reads_whole {α : Type} {q : Prop} {p : Parser α} {L : α → Phrase} (h : Reads q p L) :
    Reads q (whole p) L :=
  h.first fun _ _ _ => reads_endOfInput.bind fun _ => after_pure mul_before_le

theorem Sound.expression (h : s.Sound source) :
    (∀ e, s.expression.1 = .ok e → WrittenIn source e.phrase) ∧ s.expression.2.Sound source :=
  h.run (reads_whole (Nested.sound_full.expression False))

theorem Sound.statement (h : s.Sound source) :
    (∀ t, s.statement.1 = .ok t → WrittenIn source t.phrase) ∧ s.statement.2.Sound source :=
  h.run (reads_whole Nested.sound_full.statement)

theorem Sound.typeName (h : s.Sound source) :
    (∀ t, s.typeName.1 = .ok t → WrittenIn source t.phrase) ∧ s.typeName.2.Sound source :=
  h.run (reads_whole (Nested.sound_full.typeName False))

theorem Sound.file (h : s.Sound source) :
    WrittenIn source ((s.file.1.items.map SourceUnit.phrase).prod * before (· = []))
      ∧ s.file.2.Sound source := by
  have hrun := h.run (Grammar.reads_sourceFile Nested.sound_full)
  rw [run_sourceFile] at hrun
  exact ⟨hrun.1 _ rfl, hrun.2⟩

theorem Reachable.sound (h : Reachable source s) : s.Sound source := by
  induction h with
  | start => exact sound_ofSource source
  | expression _ ih => exact ih.expression.2
  | statement _ ih => exact ih.statement.2
  | typeName _ ih => exact ih.typeName.2
  | file _ ih => exact ih.file.2

end Session

/-- The faults in the syntax of a source, in the order in which they are recorded. -/
def recordedErrors (source : String) : List SyntaxError :=
  (Session.ofSource source).file.2.state.errors.toList

/-- The errors of a source are its lexical faults and those that were recorded, by their places. -/
theorem parse_errors (source : String) : (parse source).errors
    = SourceError.sorted (tokenize source).errors (recordedErrors source) := by
  have hrun := Session.run_sourceFile (Session.ofSource source)
  have htokenized : (Session.ofSource source).file.2.tokenized = tokenize source := by
    rw [← congrArg Prod.snd hrun]
    rfl
  exact congrArg (SourceError.sorted · _) (congrArg Tokenized.errors htokenized)

/-- The items of a parsed source are written by all of its tokens, while the faults of its syntax are
recorded. -/
theorem parse_phrase (source : String) : ((parse source).file.items.map SourceUnit.phrase).prod
    (tokenize source).tokens (recordedErrors source) [] := by
  have hrun := Session.run_sourceFile (Session.ofSource source)
  have heffect := Grammar.reads_sourceFile Nested.sound_full (Session.ofSource source).context
    (Session.ofSource source).state (Session.ordered_start source)
  rw [Session.run] at hrun
  have hfile : (Grammar.sourceFile Nested.full (Session.ofSource source).context
      (Session.ofSource source).state).1 = .ok (parse source).file := congrArg Prod.fst hrun
  have hstate : (Grammar.sourceFile Nested.full (Session.ofSource source).context
      (Session.ofSource source).state).2 = (Session.ofSource source).file.2.state :=
    congrArg (Session.state ∘ Prod.snd) hrun
  rcases hr : Grammar.sourceFile Nested.full (Session.ofSource source).context
    (Session.ofSource source).state with ⟨r, state⟩
  rw [hr] at heffect hfile hstate
  subst hfile
  obtain ⟨_, _, ⟨htokens, -, herrors⟩, ⟨ts, _, es, _, rfl, rfl, hitems, rfl, rfl, hrest⟩, -⟩ :=
    heffect.reached
  rw [hrest, List.append_nil, List.append_nil] at htokens
  rw [hrest] at hitems
  have hes : recordedErrors source = es := by
    rw [recordedErrors, ← hstate, herrors, List.append_nil]
    rfl
  rw [show (tokenize source).tokens = ts from htokens, hes]
  exact hitems

end SolidityFrontend
