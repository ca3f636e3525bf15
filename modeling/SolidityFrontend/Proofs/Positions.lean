import SolidityFrontend.Proofs.Discipline
import SolidityFrontend.Proofs.LocatedDecl
import SolidityFrontend.Proofs.NestedTree
import SolidityFrontend.Proofs.RespanningTree

/-!
# Offsets and positions agree

The spans of tokens, of errors, of syntax and of its tree are spans of the text, whatever a session
has been asked for: each runs forward between two locations of the text, and the line and the column
of a location are those behind the characters before its offset. So of two locations the one with the
smaller offset has the smaller position.
-/

namespace SolidityFrontend

open SolidityFrontend.Parser

variable {source : List Char}

/-! ### Locations -/

/-- A location of a text stands behind the characters before its offset. -/
theorem Location.in_iff {l : Location} : l.In source
    ↔ (takeBytes l.offset source).map Position.origin.advanceBy = some l.position := by
  constructor
  · rintro ⟨before, ⟨rest, rfl⟩, rfl⟩
    rw [offset_advanceBy, position_advanceBy, origin, Nat.zero_add, takeBytes_byteLength]
    rfl
  · intro h
    obtain ⟨before, hbefore, hposition⟩ := Option.map_eq_some_iff.1 h
    refine ⟨before, takeBytes_prefix hbefore, ?_⟩
    rw [advanceBy_eq, byteLength_takeBytes hbefore, origin, Nat.zero_add, hposition]

theorem Location.In.offset_le {l : Location} (h : l.In source) : l.offset ≤ byteLength source := by
  obtain ⟨before, ⟨rest, rfl⟩, rfl⟩ := h
  rw [offset_advanceBy, byteLength_append]
  exact (Nat.zero_add _).le.trans (Nat.le_add_right _ _)

theorem Span.in_iff {s : Span} : s.In source
    ↔ s.start.offset ≤ s.stop.offset ∧ s.stop.offset ≤ byteLength source
      ∧ (takeBytes s.start.offset source).map Position.origin.advanceBy = some s.start.position
      ∧ (takeBytes s.stop.offset source).map Position.origin.advanceBy = some s.stop.position := by
  rw [← Location.in_iff, ← Location.in_iff]
  exact ⟨fun h => ⟨h.le, h.stop.offset_le, h.start, h.stop⟩, fun h => ⟨h.2.2.1, h.2.2.2, h.1⟩⟩

namespace Position

/-- The first position stands on an earlier line, or farther left on the same line. -/
def Before (p q : Position) : Prop := p.line < q.line ∨ p.line = q.line ∧ p.column < q.column

theorem Before.trans {p q r : Position} (h : p.Before q) (h' : q.Before r) : p.Before r := by
  unfold Before at h h' ⊢
  omega

theorem Before.order {p q : Position} (h : p.Before q) : p.order q = .lt := by
  unfold Position.order
  rcases h with hline | ⟨hline, hcolumn⟩
  · rw [compare_lt_iff_lt.2 hline]
    rfl
  · rw [compare_eq_iff_eq.2 hline, compare_lt_iff_lt.2 hcolumn]
    rfl

theorem before_advance (p : Position) (c : Char) : p.Before (p.advance c) := by
  unfold advance Before
  split
  · exact .inl (Nat.lt_succ_self _)
  · exact .inr ⟨rfl, Nat.lt_succ_self _⟩

theorem before_advanceBy (p : Position) {cs : List Char} (h : cs ≠ []) :
    p.Before (p.advanceBy cs) := by
  induction cs generalizing p with
  | nil => exact absurd rfl h
  | cons c cs ih =>
    rw [advanceBy_cons]
    rcases cs with _ | ⟨d, cs⟩
    · exact p.before_advance c
    · exact (p.before_advance c).trans (ih _ (List.cons_ne_nil d cs))

end Position

/-- Of two locations of a text, the one with the smaller offset has the smaller position. -/
theorem Location.In.order {l l' : Location} (h : l.In source) (h' : l'.In source)
    (hlt : l.offset < l'.offset) : l.position.order l'.position = .lt := by
  obtain ⟨x, hx, rfl⟩ := h
  obtain ⟨y, hy, rfl⟩ := h'
  simp only [offset_advanceBy] at hlt
  rcases List.prefix_or_prefix_of_prefix hx hy with ⟨z, rfl⟩ | ⟨z, rfl⟩
  · rw [advanceBy_append, position_advanceBy _ z]
    refine (Position.before_advanceBy _ ?_).order
    rintro rfl
    simp at hlt
  · rw [byteLength_append] at hlt
    omega

/-! ### Tokens -/

theorem segments_in (here : Location) (cs : List Char) : ∀ before, source = before ++ cs →
    here = .advanceBy .origin before → ∀ s ∈ segments here cs, s.span.In source := by
  induction here, cs using segments_induction with
  | hnil here => simp [segments_nil]
  | hcons here c cs ih =>
    rintro before hsource rfl s hs
    have hsplit := List.take_append_drop (Content.first c cs).2 (c :: cs)
    have hnext := Location.advanceBy_append .origin before ((c :: cs).take (Content.first c cs).2)
    have hrest : source = before ++ (c :: cs).take (Content.first c cs).2
        ++ (c :: cs).drop (Content.first c cs).2 := by rw [List.append_assoc, hsplit, hsource]
    rw [segments_cons] at hs
    rcases List.mem_cons.1 hs with rfl | hs
    · refine ⟨⟨before, ⟨_, hsource.symm⟩, rfl⟩, ⟨_, ⟨_, hrest.symm⟩, hnext.symm⟩, ?_⟩
      rw [Location.offset_advanceBy _ ((c :: cs).take _)]
      exact Nat.le_add_right _ _
    · exact ih _ hrest hnext.symm s hs

theorem tokenize_tokens_in (source : String) :
    ∀ t ∈ (tokenize source).tokens, t.span.In source.toList := by
  intro t ht
  obtain ⟨s, hs, hlexeme⟩ := List.mem_filterMap.1 ht
  rw [Segment.span_lexeme? hlexeme]
  exact segments_in _ _ [] rfl rfl s hs

theorem tokenize_errors_in (source : String) :
    ∀ e ∈ (tokenize source).errors, e.span.In source.toList := by
  intro e he
  obtain ⟨s, hs, herror⟩ := List.mem_filterMap.1 he
  have hspan : e.span = s.span := by
    unfold Segment.error? at herror
    split at herror
    · exact Option.some.inj herror ▸ rfl
    · simp at herror
  rw [hspan]
  exact segments_in _ _ [] rfl rfl s hs

theorem tokenize_stop_in (source : String) : (tokenize source).stop.In source.toList :=
  .point ⟨source.toList, List.prefix_refl _, rfl⟩

/-! ### Trees -/

/-- A location that does not move wherever the locations of the text do not is one of these. -/
theorem Location.in_of_fixed {l : Location}
    (h : ∀ g : Location → Location, (∀ k : Location, k.In source → g k = k) → g l = l) :
    l.In source := by
  by_contra hl
  have hfixed := h (fun k => if k = l then l.advance default else k) fun k hk => if_neg <| by
    rintro rfl
    exact hl hk
  have hoffset := congrArg Location.offset hfixed
  rw [if_pos rfl, Location.advance] at hoffset
  have hpos := (default : Char).utf8Size_pos
  dsimp only at hoffset
  omega

/-- The nodes of syntax within the text begin and end within it. -/
theorem Fits.ends_in {α : Type} [Placed α] {toNode : α → Node} {x : α} (h : Fits source x)
    (hnode : Mapped toNode) {n : Node} (hn : n ∈ (toNode x).walk) :
    n.span.start.In source ∧ n.span.stop.In source := by
  have hfixed (g : Location → Location) (hg : ∀ k : Location, k.In source → g k = k) :
      n.span.map g = n.span := by
    have hkeeps : Keeps source (Span.map g) := fun s hs => by
      rw [Span.map, hg _ hs.start, hg _ hs.stop]
    have hwalk : (toNode x).walk.map (respan (Span.map g)) = (toNode x).walk := by
      rw [← respan_list, ← Node.walk_respan, ← hnode, h.eq hkeeps]
    have hsame : respan (Span.map g) n = n :=
      List.map_inj_left.1 (hwalk.trans (List.map_id _).symm) n hn
    exact (Node.span_respan n).symm.trans (congrArg Node.span hsame)
  exact ⟨Location.in_of_fixed fun g hg => congrArg Span.start (hfixed g hg),
    Location.in_of_fixed fun g hg => congrArg Span.stop (hfixed g hg)⟩

/-- Nested syntax within the text has a tree within it. -/
theorem Fits.walk_in {α : Type} [Placed α] {toNode : α → Node} {x : α} (h : Fits source x)
    (hnode : Mapped toNode) (hnested : (toNode x).Nested) :
    ∀ n ∈ (toNode x).walk, n.span.In source := by
  intro n hn
  obtain ⟨hstart, hstop⟩ := h.ends_in hnode hn
  exact ⟨hstart, hstop, (Node.nested_iff.1 (hnested.of_mem_walk hn)).le⟩

/-- What is written in a source stands between its ends. -/
theorem WrittenIn.between {source : String} {L : Phrase} (h : WrittenIn source L) :
    ∃ ts es rest, L ts es rest ∧ Between 0 (tokenize source).stop.stop.offset ts := by
  obtain ⟨before, ts, es, after, htokens, hL⟩ := h
  have hbetween := tokenize_between_ends source
  rw [htokens] at hbetween
  have hmem : ∀ t ∈ ts, t ∈ before ++ ts ++ after := fun t ht => by simp [ht]
  exact ⟨ts, es, after, hL, hbetween.1, hbetween.2.1.left.right, fun t ht => hbetween.2.2 t (hmem t ht)⟩

theorem WrittenIn.nested {source : String} {L : Phrase} {n : Node} (h : WrittenIn source L)
    (hn : L.Draws n) : n.Nested := by
  obtain ⟨ts, es, rest, hL, hbetween⟩ := h.between
  exact (hn "" _ _ _ _ _ hL hbetween).2.2.1

/-! ### Sessions -/

/-- Syntax within the text whose tree is within it too, or an error within the text. -/
inductive AnswerFits {α : Type} [Placed α] (source : List Char) (toNode : α → Node) :
    Except SyntaxError α → Prop
  | ok {x : α} (h : Fits source x) (hnodes : ∀ n ∈ (toNode x).walk, n.span.In source) :
    AnswerFits source toNode (.ok x)
  | error {e : SyntaxError} (h : e.span.In source) : AnswerFits source toNode (.error e)

namespace Session

/-- A session that has recorded its errors within the text. -/
structure Fits (source : String) (s : Session) : Prop where
  sound : s.Sound source
  errors : ∀ e ∈ s.state.errors.toList, e.span.In source.toList

variable {source : String} {s : Session}

theorem fits_ofSource (source : String) : (ofSource source).Fits source where
  sound := sound_ofSource source
  errors := by simp [ofSource, State.start]

/-- A session reads among the tokens of its source. -/
theorem Sound.sits (h : s.Sound source) : Sits source.toList s.context s.state := by
  obtain ⟨hsource, htokens, hreached⟩ := h
  have hordered := hreached.ordered (ordered_start source)
  obtain ⟨ts, es, ht, -⟩ := hreached
  have hstart : Sits source.toList s.context (.start (tokenize source).tokens) := by
    refine ⟨congrArg String.toList hsource, ?_, ordered_start source, fun t ht => ?_⟩
    · rw [context, htokens]
      exact tokenize_stop_in source
    · exact tokenize_tokens_in source t (by simpa [State.start] using ht)
  exact hstart.of_took ht

variable {α : Type} [Placed α] {p : Parser α} {L : α → Phrase} {toNode : α → Node}

/-- What a session answers is within the text, and so is what it has recorded. -/
theorem Fits.run (h : s.Fits source) (hlocated : Located source.toList p) (hreads : Reads False p L) :
    Answers source.toList (fun x _ => SolidityFrontend.Fits source.toList x) s.state (p s.context s.state)
      ∧ (s.run p).2.Fits source := by
  have hanswers := hlocated _ _ h.sound.sits trivial
  refine ⟨hanswers, (h.sound.run hreads).2, ?_⟩
  obtain ⟨ts, es, ht, hes⟩ := hanswers.took
  intro e he
  have herrors : (s.run p).2.state.errors.toList = s.state.errors.toList ++ es := ht.2.2
  rw [herrors] at he
  rcases List.mem_append.1 he with he | he
  · exact h.errors e he
  · exact hes e he

theorem located_whole {cs : List Char} (h : Located cs p) : Located cs (whole p) :=
  h.bind fun _ hx => located_endOfInput.bind fun _ _ => located_pure hx

theorem Fits.whole (h : s.Fits source) (hlocated : Located source.toList p) (hreads : Reads False p L)
    (hdraws : ∀ x, (L x).Draws (toNode x)) (hmapped : Mapped toNode) :
    AnswerFits source.toList toNode (s.run (Session.whole p)).1
      ∧ (s.run (Session.whole p)).2.Fits source := by
  have hwritten := (h.sound.run (reads_whole hreads)).1
  obtain ⟨hanswers, hnext⟩ := h.run (located_whole hlocated) (reads_whole hreads)
  refine ⟨?_, hnext⟩
  rcases hr : (s.run (Session.whole p)).1 with e | x
  · exact .error (hanswers.error e hr)
  · have hx := hanswers.ok x hr
    exact .ok hx (hx.walk_in hmapped ((hwritten x hr).nested (hdraws x)))

theorem Fits.expression (h : s.Fits source) :
    AnswerFits source.toList Expr.toNode s.expression.1 ∧ s.expression.2.Fits source :=
  h.whole Nested.fits_full.expression (Nested.sound_full.expression False) Expr.draws_phrase
    Expr.mapped

theorem Fits.statement (h : s.Fits source) :
    AnswerFits source.toList Stmt.toNode s.statement.1 ∧ s.statement.2.Fits source :=
  h.whole Nested.fits_full.statement Nested.sound_full.statement Stmt.draws_phrase Stmt.mapped

theorem Fits.typeName (h : s.Fits source) :
    AnswerFits source.toList TypeName.toNode s.typeName.1 ∧ s.typeName.2.Fits source :=
  h.whole Nested.fits_full.typeName (Nested.sound_full.typeName False) TypeName.draws_phrase
    TypeName.mapped

theorem Sound.file_nested (h : s.Sound source) : s.file.1.toNode.Nested := by
  obtain ⟨ts, es, rest, hL, hbetween⟩ := h.file.1.between
  have hspan : s.file.1.span = .through .origin s.context.stop :=
    Grammar.span_sourceFile (congrArg Prod.fst s.run_sourceFile)
  have hstop : s.context.stop = (tokenize source).stop := by rw [context, h.2.1]
  rw [Node.nested_iff]
  show Node.NestedIn s.file.1.span.start.offset s.file.1.span.stop.offset
    (Node.several "items" (s.file.1.items.map SourceUnit.toNode))
  rw [hspan, hstop]
  exact (Phrase.lays_prod "items" fun u _ => u.draws_phrase).left _ _ _ _ _ hL hbetween

theorem Fits.file (h : s.Fits source) :
    AnswerFits source.toList SourceFile.toNode (.ok s.file.1) ∧ s.file.2.Fits source := by
  obtain ⟨hanswers, hnext⟩ := h.run (Grammar.located_sourceFile Nested.fits_full)
    (Grammar.reads_sourceFile Nested.sound_full)
  rw [run_sourceFile] at hnext
  have hfile := hanswers.ok s.file.1 (congrArg Prod.fst s.run_sourceFile)
  exact ⟨.ok hfile (hfile.walk_in SourceFile.mapped h.sound.file_nested), hnext⟩

theorem Fits.call (h : s.Fits source) (call : Call) : (call.session s).Fits source := by
  cases call with
  | expression => exact h.expression.2
  | statement => exact h.statement.2
  | typeName => exact h.typeName.2
  | file => exact h.file.2

theorem fits_calls (source : String) (calls : List Call) :
    (calls.foldl (fun s call => call.session s) (ofSource source)).Fits source := by
  induction calls using List.reverseRecOn with
  | nil => exact fits_ofSource source
  | append_singleton calls call ih =>
    rw [List.foldl_concat]
    exact ih.call call

theorem Fits.errors_in (h : s.Fits source) :
    ∀ e ∈ s.errors, ∀ span ∈ e.span?, span.In source.toList := by
  intro e he span hspan
  rw [Session.errors, SourceError.sorted, List.mem_mergeSort, h.sound.2.1] at he
  rcases List.mem_append.1 he with he | he
  · obtain ⟨fault, hfault, rfl⟩ := List.mem_map.1 he
    exact Option.some.inj hspan ▸ tokenize_errors_in source fault hfault
  · obtain ⟨fault, hfault, rfl⟩ := List.mem_map.1 he
    exact Option.some.inj hspan ▸ h.errors fault hfault

end Session

/-- Offsets and positions agree everywhere. The spans of the tokens of a source, of its faults and,
whatever a session has been asked for before, of its errors, its next answer and the tree of that are
spans of the text. Such a span runs forward within the text, its offsets are offsets of characters,
and the positions at its ends are those behind the characters before them; and of two locations of a
text the one with the smaller offset has the smaller position. -/
theorem positions_agree (source : String) (calls : List Call) :
    let s := calls.foldl (fun s call => call.session s) (Session.ofSource source)
    (∀ t ∈ (tokenize source).tokens, t.span.In source.toList)
    ∧ (∀ e ∈ (tokenize source).errors, e.span.In source.toList)
    ∧ (∀ e ∈ s.errors, ∀ span ∈ e.span?, span.In source.toList)
    ∧ AnswerFits source.toList Expr.toNode s.expression.1
    ∧ AnswerFits source.toList Stmt.toNode s.statement.1
    ∧ AnswerFits source.toList TypeName.toNode s.typeName.1
    ∧ AnswerFits source.toList SourceFile.toNode (.ok s.file.1)
    ∧ (∀ span : Span, span.In source.toList
      ↔ span.start.offset ≤ span.stop.offset ∧ span.stop.offset ≤ byteLength source.toList
        ∧ (takeBytes span.start.offset source.toList).map Position.origin.advanceBy
          = some span.start.position
        ∧ (takeBytes span.stop.offset source.toList).map Position.origin.advanceBy
          = some span.stop.position)
    ∧ ∀ l l' : Location, l.In source.toList → l'.In source.toList → l.offset < l'.offset →
      l.position.order l'.position = .lt := by
  intro s
  have hs : s.Fits source := Session.fits_calls source calls
  clear_value s
  exact ⟨tokenize_tokens_in source, tokenize_errors_in source, hs.errors_in, hs.expression.1,
    hs.statement.1, hs.typeName.1, hs.file.1, fun _ => Span.in_iff, fun _ _ h h' => h.order h'⟩

end SolidityFrontend
