import SolidityFrontend.Proofs.Deciding

/-!
# A variable of a function type or a fallback

A member that begins with `function (` is read as a variable first, and as a fallback if that fails.
Parameters, attributes and a block are a fallback whatever attributes stand there, since a variable
would end at a semicolon and not at a brace; and a function type with a name behind it is a variable
(`variable_or_fallback`).
-/

namespace SolidityFrontend

open SolidityFrontend.Parser SolidityFrontend.Grammar SolidityFrontend.Session

/-! ### Attributes of functions -/

/-- A token that may stand behind an attribute of a function. -/
def endsAttribute (o : Option Token) : Prop :=
  (o.bind Token.identifier?).isSome ∨ o = some (.symbol .leftBrace)

/-- The next token is a word. -/
def wordAhead (rest : List Lexeme) : Prop :=
  ((rest.head?.map Lexeme.token).bind Token.identifier?).isSome

namespace Grammar

variable {H : Setting} {n : Nat} {d d' : Nested} {c : Context} {s t : State}

theorem echoes_functionAttributeStep (hd : d.Echoed H d') {k : Nat} (hdot : H.Lacks k (.symbol .dot))
    (hparen : H.Lacks k (.symbol .leftParen)) :
    Echoes H always wordAhead (k + 1) k (functionAttributeStep d) (functionAttributeStep d') := by
  refine echoes_here fun span span' => ?_
  rw [nextWord_bind, nextWord_bind]
  refine echoes_next fun o => ?_
  rcases hword : o.bind Token.identifier? with _ | word
  · refine echoes_of_fails (onward_pure _) fun c s x t hs => ?_
    have hsome := hs.1
    rw [wordAhead, hs.2, hword] at hsome
    simp at hsome
  · refine echoes_attribute (Option.isSome_of_isSome_bind (by rw [hword]; rfl))
      (alike_functionAttribute? word span span') (fun a ha => by simp only [ha])
      (fun a ha => by simp only [ha]) fun hnone hnone' => ?_
    simp only [hnone, hnone']
    refine echoes_ite (fun _ => ?_) fun _ => ?_
    · exact (echoes_overrideSpecifier hparen).bind fun o o' h => echoes_pure (by simp [Alike, h])
    · exact (echoes_modifierInvocation hd hdot hparen).bind fun m m' h =>
        echoes_pure (by simp [Alike, h])

theorem silent_overrideSpecifier : Silent overrideSpecifier :=
  (silent_word _).bind fun _ => silent_if_accept
    ((silent_separated silent_path).bind fun _ => (silent_symbol _).bind fun _ =>
      (silent_pure _).bind fun _ => silent_spanFrom fun _ => silent_pure _)
    ((silent_pure _).bind fun _ => silent_spanFrom fun _ => silent_pure _)

theorem silent_functionAttributeStep (hd : d.Silent) : Silent (functionAttributeStep d) := by
  have hmodifier : Silent (modifierInvocation d) :=
    silent_path.bind fun _ => (silent_callArguments? hd).bind fun _ =>
      silent_spanFrom fun _ => silent_pure _
  refine silent_here fun span => sees_nextWord.silent.bind fun o => ?_
  cases o with
  | none => exact silent_pure _
  | some w =>
    dsimp only
    cases functionAttribute? w span with
    | some a => exact silent_advance.bind fun _ => silent_pure _
    | none =>
      exact (silent_overrideSpecifier.bind fun _ => silent_pure _).ite
        (hmodifier.bind fun _ => silent_pure _)

/-- A single item is read by one round of the loop, if a round that reads none takes no token. -/
theorem round_of_singleton {α : Type} {more : Parser (Option α)} {a : α}
    (hidle : ∀ s t, more c s = (.ok none, t) → t = s) (h : many more c s = (.ok [a], t)) :
    more c s = (.ok (some a), t) := by
  have hnil : ∀ clock {s t}, manyOver more clock c s = (.ok [], t) → t = s := by
    rintro (_ | ⟨l, clock⟩) s t h
    · exact (pure_eq_ok h).2
    · rw [manyOver] at h
      obtain ⟨o, u, hstep, hmore⟩ := bind_eq_ok h
      cases o with
      | none => rw [(pure_eq_ok hmore).2, hidle s u hstep]
      | some a =>
        obtain ⟨as, v, -, hpure⟩ := bind_eq_ok hmore
        exact absurd (pure_eq_ok hpure).1 (by simp)
  have h : manyOver more s.rest c s = (.ok [a], t) := h
  generalize s.rest = clock at h
  cases clock with
  | nil => exact absurd (pure_eq_ok h).1 (by simp)
  | cons l clock =>
    rw [manyOver] at h
    obtain ⟨o, u, hstep, hmore⟩ := bind_eq_ok h
    cases o with
    | none => exact absurd (pure_eq_ok hmore).1 (by simp)
    | some a' =>
      obtain ⟨as, v, has, hpure⟩ := bind_eq_ok hmore
      obtain ⟨hsame, rfl⟩ := pure_eq_ok hpure
      obtain ⟨rfl, rfl⟩ := List.cons.inj hsame
      rw [hnil clock has]
      exact hstep

theorem functionAttributeStep_of_singleton {a : FunctionAttribute}
    (h : functionAttributes d c s = (.ok [a], t)) :
    wordAhead s.rest ∧ functionAttributeStep d c s = (.ok (some a), t) := by
  have hidle (s t : State) (h : functionAttributeStep d c s = (.ok none, t)) :
      nameless s.tokens ∧ t = s := by
    by_cases hnameless : nameless s.tokens
    · rw [functionAttributeStep_of_nameless hnameless] at h
      exact ⟨hnameless, (Prod.mk.inj h).2.symm⟩
    · obtain ⟨name, hname⟩ := Option.ne_none_iff_exists'.1 hnameless
      exact absurd h (functionAttributeStep_ne_none hname)
  have hstep := round_of_singleton (fun s t h => (hidle s t h).2) h
  refine ⟨?_, hstep⟩
  rw [wordAhead, ← Option.ne_none_iff_isSome, ← List.head?_map]
  intro hnameless
  rw [functionAttributeStep_of_nameless hnameless] at hstep
  simp at hstep

/-- The token that was read last is that before which the state stood. -/
theorem previous_advance {a : Token} (h : s.tokens.head? = some a) :
    s.advance.previous.map Lexeme.token = some a := by
  rw [State.tokens, List.head?_map, Option.map_eq_some_iff] at h
  obtain ⟨l, hl, rfl⟩ := h
  obtain ⟨rest, hrest⟩ := List.head?_eq_some_iff.1 hl
  rw [State.advance, hrest]
  rfl

/-- A block without errors ends with its brace. -/
theorem previous_of_block {b : Block} (ho : Onward d.statement) (h : block d c s = (.ok b, t))
    (herrors : t.errors.size ≤ s.errors.size) :
    s.tokens.head? = some (.symbol .leftBrace)
      ∧ t.previous.map Lexeme.token = some (.symbol .rightBrace) := by
  obtain ⟨start, u, hopen, hrest⟩ := bind_eq_ok h
  obtain ⟨hhead, rfl⟩ := symbol_eq_ok hopen
  obtain ⟨statements, v, hbody, hspan⟩ := bind_eq_ok hrest
  rw [bind_ok (looks_spanFrom start c v)] at hspan
  obtain ⟨-, rfl⟩ := pure_eq_ok hspan
  obtain ⟨w, span, -, -, hclose⟩ := body_ok ho hbody (by rwa [errors_advance])
  obtain ⟨hbrace, rfl⟩ := symbol_eq_ok hclose
  exact ⟨hhead, previous_advance hbrace⟩

/-- One attribute of a variable. -/
def variableAttributeStep : Parser (Option VariableAttribute) := do
  let span ← here
  match ← nextWord? with
  | none => return none
  | some w =>
    match variableAttribute? w span with
    | some a =>
      advance
      return some a
    | none =>
      if w = "override" then return some (.override (← overrideSpecifier)) else return none

theorem variableAttributes_eq : variableAttributes = many variableAttributeStep := rfl

end Grammar

/-! ### Texts -/

/-- The text in parentheses is a list of parameters. -/
def IsParameters (P : String) (ps : List Parameter) : Prop :=
  ((ofSource (lines ["(", P, ")"])).run (whole (parameters .full))).1 = .ok ps

/-- The text is an attribute of a function. -/
def IsFunctionAttribute (source : String) (a : FunctionAttribute) : Prop :=
  ((ofSource source).run (whole (functionAttributes .full))).1 = .ok [a]

/-- The text is read without errors as a block. -/
def IsBlock (source : String) (b : Block) : Prop :=
  ∃ next, (ofSource source).run (whole (block .full)) = (.ok b, next) ∧ next.errors = []

namespace IsParameters

variable {P : String} {ps : List Parameter}

theorem faultless (h : IsParameters P ps) : (tokenize P).errors = [] := by
  have hopen : (tokenize "(").errors = [] := faultless_of_symbol (tokensOf_symbol .leftParen)
  have hclose : ∀ d ∈ ")".toList, closesText d = false := by simp [closesText]
  have hlines : lines ["(", P, ")"] = "(" ++ "\n" ++ (P ++ "\n" ++ ")") := by
    rw [lines_cons (by simp), lines_cons (by simp)]
    rfl
  have hclean := faultless_of_whole (Prod.ext h rfl) (reads_parameters (Nested.sound_full)) (by
    refine parenthesized_le_sane ?_
    rw [List.forall_mem_map]
    exact fun p _ => p.phrase_le_sane)
  rw [hlines, tokenize_below hopen] at hclean
  exact errors_of_newline hclose (List.map_eq_nil_iff.1 hclean)

theorem tokensOf_eq (h : IsParameters P ps) : tokensOf (lines ["(", P, ")"])
    = .symbol .leftParen :: (tokensOf P ++ [Token.symbol .rightParen]) := by
  have hopen : tokensOf "(" = [.symbol .leftParen] := tokensOf_symbol .leftParen
  have hclose : tokensOf ")" = [.symbol .rightParen] := tokensOf_symbol .rightParen
  obtain ⟨htokens, -⟩ := tokenize_lines ["(", P, ")"] (by
    simp [faultless_of_symbol hopen, faultless_of_symbol hclose, h.faultless])
  rw [htokens]
  simp [hopen, hclose]

/-- Parameters are read before anything but a colon. -/
theorem readBefore (h : IsParameters P ps) : ReadBefore (parameters .full)
    (· ≠ some (.symbol .colon)) (.symbol .leftParen :: (tokensOf P ++ [Token.symbol .rightParen]))
    ps := by
  have hsilent : Silent (parameters .full) := silent_parameters (Nested.silent_ofDepth nestingLimit)
  rw [← h.tokensOf_eq]
  refine readBefore_of_whole (j := 1) (Prod.ext h rfl) (hsilent.errors_of_whole (Prod.ext h rfl))
    (fun o ho => ⟨ho, .inr ?_⟩) fun H _ => (echoes_parameters (Nested.echoed_ofDepth le_rfl)).any
  exact closesName_of_whole (Prod.ext h rfl) (reads_parameters Nested.sound_full) Phrase.closes_parenthesized

end IsParameters

namespace IsFunctionAttribute

variable {source : String} {a : FunctionAttribute}

theorem faultless (h : IsFunctionAttribute source a) : (tokenize source).errors = [] :=
  faultless_of_whole (Prod.ext h rfl) (reads_functionAttributes Nested.sound_full)
    (Phrase.prod_le_sane (by simpa using a.phrase_le_sane))

theorem step (h : IsFunctionAttribute source a) : wordAhead (ofSource source).state.rest
    ∧ ∃ t, functionAttributeStep .full (ofSource source).context (ofSource source).state
      = (.ok (some a), t) ∧ t.rest = [] := by
  obtain ⟨hread, hend, -⟩ := run_whole_eq_ok (Prod.ext h rfl)
  obtain ⟨hword, hstep⟩ := functionAttributeStep_of_singleton hread
  exact ⟨hword, _, hstep, hend⟩

/-- An attribute is read before another one and before the body. -/
theorem readBefore (h : IsFunctionAttribute source a) :
    ReadBefore (functionAttributeStep .full) endsAttribute (tokensOf source) (some a) := by
  have hlast := closesName_of_whole (Prod.ext h rfl) (reads_functionAttributes Nested.sound_full)
    (Phrase.closes_prod (by simpa using a.closes_phrase))
  obtain ⟨hword, t, hstep, hend⟩ := h.step
  have hsilent : Silent (functionAttributeStep .full) :=
    silent_functionAttributeStep (Nested.silent_ofDepth nestingLimit)
  refine readBefore_of_echoes (j := 1) rfl hstep hend rfl (hsilent.eq hstep) hword (fun o ho => ?_)
    fun H hH => ?_
  · refine ⟨?_, .inr hlast⟩
    rintro rfl
    rcases ho with ho | ho <;> simp [Token.identifier?] at ho
  · have hlacks {b : Symbol} (hb : b ≠ .leftBrace) : H.Lacks 0 (.symbol b) := by
      rintro - hhead
      rw [hhead] at hH
      rcases hH with hH | hH
      · simp [Token.identifier?] at hH
      · simp [hb] at hH
    exact (echoes_functionAttributeStep (Nested.echoed_ofDepth le_rfl) (hlacks (by simp))
      (hlacks (by simp))).any

end IsFunctionAttribute

namespace IsBlock

variable {source : String} {b : Block}

theorem faultless (h : IsBlock source b) : (tokenize source).errors = [] := by
  obtain ⟨next, hrun, herrors⟩ := h
  obtain ⟨-, -, htokenized⟩ := run_whole_eq_ok hrun
  exact htokenized ▸ (Session.errors_eq_nil_iff.1 herrors).1

/-- A block stands in braces. -/
theorem braces (h : IsBlock source b) : (tokensOf source).head? = some (.symbol .leftBrace)
    ∧ (tokensOf source).getLast? = some (.symbol .rightBrace) := by
  obtain ⟨next, hrun, herrors⟩ := h
  obtain ⟨hread, hend, -⟩ := run_whole_eq_ok hrun
  have hstate := (Session.errors_eq_nil_iff.1 herrors).2
  have hstatement : Onward Nested.full.statement := selfContained_statement.onward
  obtain ⟨hhead, hlast⟩ := previous_of_block hstatement hread (by rw [hstate]; exact Nat.zero_le _)
  refine ⟨hhead, ?_⟩
  obtain ⟨w, es, hrest, hprevious, -⟩ := (echoes_block (k := 0) (I := anywhere)
    (Nested.echoedWhole_full (H := .whole []))).onward (ofSource source).context (ofSource source).state
  rw [hread] at hrest hprevious
  dsimp only at hrest hprevious
  rw [hend, List.append_nil] at hrest
  rw [hprevious] at hlast
  have hw : (tokenize source).tokens = w := hrest
  rw [tokensOf, hw, List.getLast?_map]
  simpa [ofSource, State.start] using hlast

/-- A block is read before the brace that closes a contract. -/
theorem readBefore (h : IsBlock source b) : ReadBefore (block .full)
    (· = some (.symbol .rightBrace)) (tokensOf source) b := by
  obtain ⟨next, hrun, herrors⟩ := h
  refine readBefore_of_whole (j := 1) hrun (Session.errors_eq_nil_iff.1 herrors).2 ?_ fun H _ =>
    echoes_block Nested.echoedWhole_full
  rintro _ rfl
  exact ⟨by simp, .inl rfl⟩

end IsBlock

example : (parse "contract C \x7b function() f; function() \x7b\x7d \x7d").hasErrors = false := by
  rw [parse_ofList]
  decide +kernel

end SolidityFrontend
