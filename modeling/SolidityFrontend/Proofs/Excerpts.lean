import SolidityFrontend.Proofs.Faultless
import SolidityFrontend.Proofs.GrantingDecl
import SolidityFrontend.Proofs.ReadingBack

/-!
# Excerpts of a text

The text that the span of a fragment covers, cut out on its own, has the same tokens as in the source.
So each expression, type name and statement in a file without errors is read from its own text.
-/

namespace SolidityFrontend

open SolidityFrontend.Parser

variable {source : String}

/-! ### The tokens of an excerpt -/

/-- Between the places that a span covers the text is cut into the segments of its tokens. -/
theorem exists_covered {ts us vs : List Lexeme} {span : Span}
    (h : (tokenize source).tokens = ts ++ us ++ vs) (hcovers : Covers span us) :
    ∃ x y, span.text source = String.ofList y
      ∧ (segments (Location.origin.advanceBy x) y).filterMap Segment.lexeme? = us := by
  have hne : us ≠ [] := hcovers.ne_nil
  obtain ⟨first, last, hfirst, hlast, rfl⟩ := hcovers
  obtain ⟨PQ, R, hcut, hPQ, -, hend⟩ := Segment.exists_cut_behind h
  obtain ⟨P, Q, rfl, hP, hhead⟩ := Segment.exists_cut_before hPQ
  obtain ⟨xy, z, hsource, hxy, hz⟩ := segments_eq_append hcut
  obtain ⟨x, y, rfl, hx, hy⟩ := segments_eq_append hxy
  rw [List.filterMap_append, hP] at hPQ
  refine ⟨x, y, ?_, hy ▸ List.append_cancel_left hPQ⟩
  have hstart : first.span.start = Location.origin.advanceBy x := by
    have hstart := head?_segments (Location.origin.advanceBy x) y
    have hsame := congrArg (Option.map Span.start) hhead
    rw [hfirst, Option.map_map, ← hy] at hsame
    change ((segments _ y).head?.map fun s => s.span.start) = some first.span.start at hsame
    rwa [hsame] at hstart
  have hstop : last.span.stop = Location.origin.advanceBy (x ++ y) := by
    have hstop := getLast?_segments .origin (x ++ y)
    have hsame := congrArg (Option.map Span.stop) hend
    rw [List.getLast?_append_of_ne_nil _ hne, hlast, Option.map_map, ← hxy] at hsame
    change ((segments _ (x ++ y)).getLast?.map fun s => s.span.stop) = some last.span.stop at hsame
    rwa [hsame] at hstop
  rw [Span.through, hstart, hstop]
  exact text_advanceBy x y hsource

theorem tokensOf_covered {us : List Lexeme} {span : Span} (h : us <:+: (tokenize source).tokens)
    (hcovers : Covers span us) : tokensOf (span.text source) = us.map Lexeme.token := by
  obtain ⟨ts, vs, h⟩ := h
  obtain ⟨x, y, htext, hus⟩ := exists_covered h.symm hcovers
  rw [htext, tokensOf, tokenize, String.toList_ofList, Segment.map_token_filterMap,
    map_content_segments _ (Location.origin.advanceBy x), ← Segment.map_token_filterMap, hus]

/-! ### Fragments -/

/-- The text is read as the fragment and nothing else, without errors. -/
def Fragment.ReadFrom (text : String) : Fragment → Prop
  | .expr e => ∃ e' next, (Session.ofSource text).expression = (.ok e', next) ∧ next.errors = []
      ∧ erase e' = erase e
  | .typeName T => ∃ T' next, (Session.ofSource text).typeName = (.ok T', next) ∧ next.errors = []
      ∧ erase T' = erase T
  | .stmt x => ∃ x' next, (Session.ofSource text).statement = (.ok x', next) ∧ next.errors = []
      ∧ erase x' = erase x

theorem tokenize_of_parse (h : (parse source).errors = []) : (tokenize source).errors = [] := by
  rw [parse_errors] at h
  have hlength := congrArg List.length h
  rw [SourceError.sorted, List.length_mergeSort, List.length_append, List.length_map,
    List.length_map, List.length_nil] at hlength
  exact List.eq_nil_of_length_eq_zero (by omega)

theorem run_alone {α : Type} [Placed α] {p : Parser α} {x : α} {text : String}
    (h : Parser.Alone p x (tokensOf text)) (hclean : (tokenize text).errors = []) :
    ∃ x' next, (Session.ofSource text).run (Session.whole p) = (.ok x', next) ∧ next.errors = []
      ∧ erase x' = erase x := by
  obtain ⟨x', t, hp, halike, hend, herrors⟩ :=
    h (Session.ofSource text).context (Session.ofSource text).state rfl rfl rfl
  obtain ⟨next, hrun, hnext⟩ := Session.run_whole_of_ended hclean hp hend herrors
  exact ⟨x', next, hrun, hnext, halike⟩

/-- Each expression, type name and statement in a file without errors is read from its own text, up to
its spans and without errors. -/
theorem fragments_readFrom (h : (parse source).errors = []) :
    ∀ f ∈ (parse source).file.fragments, f.ReadFrom (f.span.text source) := by
  intro f hf
  have hamong : (Session.ofSource source).state.Among (tokenize source).tokens :=
    ⟨Session.ordered_start source, List.suffix_rfl, rfl⟩
  have hrun : Grammar.sourceFile .full (Session.ofSource source).context
      (Session.ofSource source).state
        = (.ok (parse source).file, (Session.ofSource source).file.2.state) :=
    congrArg (fun r : Except SyntaxError SourceFile × Session => (r.1, r.2.state))
      (Session.ofSource source).run_sourceFile
  have herrors : (Session.ofSource source).file.2.state.errors = #[] :=
    Array.toList_eq_nil_iff.1 (recordedErrors_of_errors h)
  obtain ⟨us, hus, hcovers, halone⟩ := (Grammar.grants_sourceFile rfl).grants hamong hrun herrors f hf
  have htokens : tokensOf (f.span.text source) = us.map Lexeme.token := tokensOf_covered hus hcovers
  have hclean : (tokenize (f.span.text source)).errors = [] := by
    have hsource := tokenize_of_parse h
    rw [tokenize_errors_eq_nil_iff] at hsource ⊢
    rw [htokens]
    exact fun herror => hsource (hus.sublist.map Lexeme.token |>.mem herror)
  rw [← htokens] at halone
  cases f with
  | expr e => exact run_alone halone hclean
  | typeName T => exact run_alone halone hclean
  | stmt x => exact run_alone halone hclean

/-- The value of a variable in a contract is read from its own text. -/
theorem fragments_readFrom_value :
    (parse "contract C \x7b uint a = b + 1; \x7d").errors = []
      ∧ ∃ f ∈ (parse "contract C \x7b uint a = b + 1; \x7d").file.fragments,
        f.span.text "contract C \x7b uint a = b + 1; \x7d" = "b + 1"
          ∧ f.ReadFrom (f.span.text "contract C \x7b uint a = b + 1; \x7d") := by
  have hsource : (parse "contract C \x7b uint a = b + 1; \x7d").hasErrors = false
      ∧ (parse "contract C \x7b uint a = b + 1; \x7d").file.fragments.any
        (fun f => f.span.text "contract C \x7b uint a = b + 1; \x7d" == "b + 1") := by
    rw [parse_ofList]
    decide +kernel
  have hclean : (parse "contract C \x7b uint a = b + 1; \x7d").errors = [] := by
    simpa [ParseOutput.hasErrors] using hsource.1
  obtain ⟨f, hf, htext⟩ := List.any_eq_true.1 hsource.2
  exact ⟨hclean, f, hf, by simpa using htext, fragments_readFrom hclean f hf⟩

end SolidityFrontend
