import SolidityFrontend.Proofs.EchoingDecl
import SolidityFrontend.Proofs.TokenIndex

/-!
# The layout of a source

Blanks and comments, and where the lines end, do not change what a source means: as long as it has no
pragma, whose value is the text itself, the tokens alone tell whether it can be read and what its
syntax is.
-/

namespace SolidityFrontend

open SolidityFrontend.Parser SolidityFrontend.Grammar

/-- A passage that is the whole of two texts. -/
def Setting.whole (ts : List Token) : Setting where
  tokens := ts
  next₁ := []
  next₂ := []
  errors₁ := #[]
  errors₂ := #[]
  fields _ _ _ h := h
  path _ _ _ h := h

theorem Setting.mirror_whole (ts : List Token) : (whole ts).Mirror (whole ts) :=
  ⟨rfl, rfl, rfl, rfl, rfl⟩

section

variable {source source' : String}

theorem at_whole
    (htokens : (tokenize source').tokens.map Lexeme.token = (tokenize source).tokens.map Lexeme.token) :
    (Setting.whole ((tokenize source).tokens.map Lexeme.token)).At (tokenize source).tokens
      (Session.ofSource source).state (Session.ofSource source').state where
  suffix := List.suffix_refl _
  rest₁ := (List.append_nil _).symm
  rest₂ := ⟨(tokenize source').tokens, htokens, (List.append_nil _).symm⟩
  errors₁ := rfl
  errors₂ := rfl

/-- A source without error tokens has no lexical faults. -/
theorem errors_eq_nil_of_tokens
    (htokens : (tokenize source').tokens.map Lexeme.token = (tokenize source).tokens.map Lexeme.token)
    (h : (tokenize source).errors = []) : (tokenize source').errors = [] := by
  have hlength (source : String) : (tokenize source).errors.length
      = ((tokenize source).tokens.map Lexeme.token).countP (· = .error) := by
    rw [List.countP_map, ← List.length_map (f := LexError.span), map_span_errors, List.length_map,
      List.countP_eq_length_filter]
    rfl
  rw [← List.length_eq_zero_iff, hlength, htokens, ← hlength, h, List.length_nil]

theorem errors_eq_nil_iff : (parse source).errors = []
    ↔ (tokenize source).errors = [] ∧ recordedErrors source = [] := by
  rw [parse_errors, ← List.length_eq_zero_iff, SourceError.sorted, List.length_mergeSort,
    List.length_append, List.length_map, List.length_map, ← List.length_eq_zero_iff,
    ← List.length_eq_zero_iff]
  omega

/-! ### Fragments -/

theorem Session.errors_eq_nil_iff {session : Session} :
    session.errors = [] ↔ session.tokenized.errors = [] ∧ session.state.errors = #[] := by
  rw [Session.errors, ← List.length_eq_zero_iff, SourceError.sorted, List.length_mergeSort,
    List.length_append, List.length_map, List.length_map, ← List.length_eq_zero_iff,
    ← Array.size_eq_zero_iff, Array.length_toList]
  omega

/-- A fragment that is read as a whole, and nothing is left behind it. -/
theorem Session.run_whole_eq_ok {α : Type} {p : Parser α} {x : α} {next : Session}
    (h : (ofSource source).run (whole p) = (.ok x, next)) :
    p (ofSource source).context (ofSource source).state = (.ok x, next.state)
      ∧ next.state.rest = [] ∧ next.tokenized = tokenize source := by
  have hanswer := congrArg Prod.fst h
  have hstate := congrArg (Session.state ∘ Prod.snd) h
  have hwhole : whole p (ofSource source).context (ofSource source).state = (.ok x, next.state) :=
    Prod.ext hanswer hstate
  obtain ⟨y, t, hy, hrest⟩ := bind_eq_ok hwhole
  obtain ⟨_, u, hend, hpure⟩ := bind_eq_ok hrest
  obtain ⟨rfl, hu⟩ := pure_eq_ok (c := (ofSource source).context) hpure
  rw [endOfInput, bind_ok (peeks_atEnd _ t), run_ite] at hend
  split at hend
  · rename_i hempty
    obtain ⟨-, rfl⟩ := pure_eq_ok hend
    rw [hu]
    exact ⟨hy, List.isEmpty_iff.1 hempty, (congrArg (Session.tokenized ∘ Prod.snd) h).symm⟩
  · exact absurd hend (unexpected_ne_ok _ _ _ _ _)

/-! ### Files -/

/-- Two sources with the same tokens and without pragmas have the same syntax up to its spans, as far
as the first can be read. -/
theorem parse_of_same_tokens
    (htokens : (tokenize source').tokens.map Lexeme.token = (tokenize source).tokens.map Lexeme.token)
    (hpragma : Token.keyword .pragma ∉ (tokenize source).tokens.map Lexeme.token)
    (h : (parse source).errors = []) :
    (parse source').errors = [] ∧ erase (parse source').file = erase (parse source).file := by
  obtain ⟨hlex, hrecorded⟩ := errors_eq_nil_iff.1 h
  obtain ⟨t, hitems, hend, herrors⟩ := exists_items_parse source
  have hunits := sourceUnits_of_items (Session.ordered_start source) hitems hend
  have hkept : (Setting.whole ((tokenize source).tokens.map Lexeme.token)).Kept 0 t := by
    rw [hrecorded, Array.toList_eq_nil_iff] at herrors
    exact ⟨by rw [herrors]; exact le_rfl, Nat.zero_le _⟩
  have hknows : Setting.Knows 0 (Session.ofSource source).context
      (Session.ofSource source').context := ⟨id, fun _ => rfl⟩
  obtain ⟨xs, t', v, hunits', halike, ht⟩ := (echoes_sourceUnits (I := anywhere)
    (Setting.mirror_whole _) hpragma rfl rfl).run hknows (at_whole htokens) trivial hunits hkept rfl
  obtain ⟨s, hitems', hend', herrors'⟩ := exists_items_parse source'
  have hsame := (sourceUnits_of_items (Session.ordered_start source') hitems' hend').symm.trans hunits'
  obtain ⟨hxs, rfl⟩ := Prod.mk.inj hsame
  refine ⟨errors_eq_nil_iff.2 ⟨errors_eq_nil_of_tokens htokens hlex, ?_⟩, ?_⟩
  · rw [← herrors', ht.errors₂]
    rfl
  · have hfile (file : SourceFile) : erase file = ⟨erase file.items, .origin⟩ := rfl
    rw [hfile, hfile, Except.ok.inj hxs]
    exact congrArg (SourceFile.mk · Span.origin) halike

/-- A comment in the body of a contract and a line break before it. -/
theorem parse_of_same_tokens_comment :
    (tokenize "contract C\n{ uint /* a */ x ; }").tokens.map Lexeme.token
        = (tokenize "contract C { uint x; }").tokens.map Lexeme.token
      ∧ (parse "contract C\n{ uint /* a */ x ; }").errors = []
      ∧ erase (parse "contract C\n{ uint /* a */ x ; }").file
        = erase (parse "contract C { uint x; }").file := by
  obtain ⟨htokens, hpragma, hclean⟩ :
      (tokenize "contract C\n{ uint /* a */ x ; }").tokens.map Lexeme.token
          = (tokenize "contract C { uint x; }").tokens.map Lexeme.token
        ∧ Token.keyword .pragma ∉ (tokenize "contract C { uint x; }").tokens.map Lexeme.token
        ∧ (parse "contract C { uint x; }").hasErrors = false := by
    rw [parse_ofList, tokenize_ofList, tokenize_ofList]
    decide +kernel
  have hnil : (parse "contract C { uint x; }").errors = [] := by
    simpa [ParseOutput.hasErrors] using hclean
  exact ⟨htokens, parse_of_same_tokens htokens hpragma hnil⟩

end

end SolidityFrontend
