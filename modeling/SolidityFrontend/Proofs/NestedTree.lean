import SolidityFrontend.Proofs.Drawing
import SolidityFrontend.Proofs.VersionPlaces

/-!
# The tree of a source is nested

The value of a pragma is read from the text behind its name, so the nodes of its constraints stand
where these do in that text. With them every item draws its node, and the tokens of a file stand
between its start and its end.
-/

namespace SolidityFrontend

open Phrase Node

/-! ### Pragmas -/

namespace Version

/-- Constraints stand between any two offsets between which each of them stands. -/
theorem Spread.tighten {lo hi lo' hi' : Nat} {ks : List Constraint} (h : Spread lo hi ks)
    (hle : lo' ≤ hi') (hks : ∀ k ∈ ks, lo' ≤ k.start ∧ k.stop ≤ hi') : Spread lo' hi' ks := by
  have hstop : ∀ {lo ls}, Spread lo hi ls → lo ≤ hi' → (∀ k ∈ ls, k.stop ≤ hi') →
      Spread lo hi' ls := by
    intro lo ls hls hlo hstops
    induction ls generalizing lo with
    | nil => exact hlo
    | cons l ls ih =>
      rw [List.forall_mem_cons] at hstops
      exact ⟨hls.1, hls.2.1, ih hls.2.2 hstops.1 hstops.2⟩
  cases ks with
  | nil => exact hle
  | cons k ks =>
    rw [List.forall_mem_cons] at hks
    exact ⟨hks.1.1, h.2.1, hstop h.2.2 hks.1.2 fun l hl => (hks.2 l hl).2⟩

/-- Where the first of some constraints ends the others go on. -/
theorem Spread.split {lo hi : Nat} {first last : Constraint} {ks ls : List Constraint}
    (h : Spread lo hi (ks ++ ls)) (hfirst : ks.head? = some first)
    (hlast : ks.getLast? = some last) :
    lo ≤ first.start ∧ Spread first.start last.stop ks ∧ Spread last.stop hi ls := by
  induction ks generalizing lo first with
  | nil => simp at hfirst
  | cons k ks ih =>
    obtain rfl : k = first := by simpa using hfirst
    obtain ⟨hlo, hle, hrest⟩ := h
    rcases ks with _ | ⟨l, ks⟩
    · obtain rfl : k = last := by simpa using hlast
      exact ⟨hlo, ⟨le_rfl, hle, le_rfl⟩, hrest⟩
    · rw [List.getLast?_cons_cons] at hlast
      obtain ⟨hl, hks, hls⟩ := ih hrest rfl hlast
      exact ⟨hlo, ⟨le_rfl, hle, hks.mono hl⟩, hls⟩

end Version

section

variable {origin : Location} {text : List Char} {lo hi : Nat}

theorem nestedIn_constraints (origin : Location) (text : List Char)
    {ks : List Version.Constraint} (h : Version.Spread lo hi ks) :
    NestedIn (origin.offset + lo) (origin.offset + hi) (several "constraints"
      ((ks.map (Grammar.placeConstraint origin text)).map VersionConstraint.toNode)) := by
  induction ks generalizing lo with
  | nil => exact Nat.add_le_add_left h _
  | cons k ks ih =>
    obtain ⟨hlo, hle, hrest⟩ := h
    have hspan := Nat.add_le_add_left hle origin.offset
    exact ⟨Nat.add_le_add_left hlo _, hspan, nested_leaf _ _ hspan, ih hrest⟩

theorem alternativeNode?_eq {ks : List VersionConstraint} {first last : VersionConstraint}
    (hfirst : ks.head? = some first) (hlast : ks.getLast? = some last) :
    alternativeNode? ks = some ⟨"version_alternative", first.span.through last.span, none,
      several "constraints" (ks.map VersionConstraint.toNode)⟩ := by
  unfold alternativeNode?
  rw [hfirst, hlast]

theorem nestedIn_alternatives {kss : List (List Version.Constraint)}
    (h : Version.Spread lo hi kss.flatten) :
    NestedIn (origin.offset + lo) (origin.offset + hi) (several "alternatives"
      ((kss.map (·.map (Grammar.placeConstraint origin text))).filterMap alternativeNode?)) := by
  induction kss generalizing lo with
  | nil => exact Nat.add_le_add_left h _
  | cons ks kss ih =>
    rw [List.flatten_cons] at h
    rw [List.map_cons]
    rcases hks : ks with _ | ⟨k, rest⟩
    · rw [hks] at h
      exact ih h
    · obtain ⟨last, hlast⟩ : ∃ last, ks.getLast? = some last := by
        rw [hks, List.getLast?_cons]
        exact ⟨_, rfl⟩
      have hfirst : ks.head? = some k := by rw [hks, List.head?_cons]
      obtain ⟨hlo, hspread, hrest⟩ := h.split hfirst hlast
      rw [← hks, List.filterMap_cons_some (alternativeNode?_eq (by rw [List.head?_map, hfirst]; rfl)
        (by rw [List.getLast?_map, hlast]; rfl))]
      have hnode := nestedIn_constraints origin text hspread
      exact ⟨Nat.add_le_add_left hlo _, hnode.le, nested_iff.2 hnode, ih hrest⟩

/-- The value of a pragma has the span of the text without the blanks at its ends. -/
theorem pragmaValue_nested {name : Identifier} {value : PragmaValue} {es : List SyntaxError}
    (h : pragmaReading name text = (value, es)) :
    value.toNode.span = Grammar.trimmedSpan name.span.stop text ∧ value.toNode.Nested := by
  have hle := Nat.add_le_add_left (Nat.le_max_left (Version.leading text)
    (byteLength (Text.trimEnd text))) name.span.stop.offset
  have hraw : ∀ raw, (PragmaValue.raw raw (Grammar.trimmedSpan name.span.stop text)).toNode.Nested :=
    fun raw => nested_leaf _ _ hle
  unfold pragmaReading at h
  split at h
  · split at h
    · rename_i hversion
      obtain ⟨rfl, -⟩ := Prod.mk.inj h
      unfold Grammar.versionValue at hversion
      split at hversion
      · simp at hversion
      split at hversion
      · rename_i kss hkss
        obtain rfl := Except.ok.inj hversion
        obtain ⟨⟨hi, hspread⟩, hinside⟩ := Version.parse_spec hkss
        refine ⟨rfl, nested_iff.2 (nestedIn_alternatives ?_)⟩
        refine hspread.tighten (Nat.le_max_left _ _) fun k hk => ?_
        obtain ⟨ks, hks, hk⟩ := List.mem_flatten.1 hk
        obtain ⟨hstart, -, hstop⟩ := hinside ks hks k hk
        exact ⟨hstart, hstop.trans (Nat.le_max_right _ _)⟩
      · simp at hversion
    · obtain ⟨rfl, -⟩ := Prod.mk.inj h
      exact ⟨rfl, hraw _⟩
  · obtain ⟨rfl, -⟩ := Prod.mk.inj h
    exact ⟨rfl, hraw _⟩

end

theorem PragmaDirective.draws_phrase (d : PragmaDirective) : d.phrase.Draws d.toNode := by
  refine draws_of_nestedIn (covered_mono le_top) fun ts es rest hts hb => ?_
  obtain ⟨-, text, hreading, _, _, _, _, rfl, -, ⟨_, _, _, _, rfl, -, hfront, -⟩, hsemicolon⟩ := hts
  obtain ⟨mid, hb, hlast⟩ := hb.split
  obtain ⟨mid', hb, hskipped⟩ := hb.split
  have hname := Lays.right (L := keyword .pragma) (d.name.draws_phrase "name") _ _ _ _ _ hfront hb
  obtain ⟨l, rfl, -, -, hroom⟩ := hsemicolon
  obtain ⟨hspan, hnested⟩ := pragmaValue_nested hreading
  obtain ⟨hlo, hle, hidentifier, hmid'⟩ := hname
  have hmid' : d.name.span.stop.offset ≤ mid' := hmid'
  have hmid := hskipped.1
  have hstart := (hlast.2.2 l List.mem_cons_self).1
  have hend := hlast.2.1.1 l List.mem_cons_self
  have hstop := (hlast.2.2 l List.mem_cons_self).2
  have hleading : Version.leading text ≤ byteLength text := Version.byteLength_takeWhile_le _ _
  have htrimmed := Version.byteLength_trimEnd_le text
  -- The text ends before the semicolon, and so does what is left of it without its blanks.
  have hvalue : d.value.toNode.span.stop.offset ≤ d.span.stop.offset := by
    rw [hspan]
    show d.name.span.stop.offset + max (Version.leading text) _ ≤ _
    omega
  refine ⟨hlo, hle, hidentifier, ?_, ?_, hnested, hvalue⟩
  · rw [hspan]
    exact Nat.le_add_right _ _
  · rw [hspan]
    exact Nat.add_le_add_left (Nat.le_max_left _ _) _

/-! ### Files -/

theorem SourceUnit.draws_phrase (u : SourceUnit) : u.phrase.Draws u.toNode := by
  cases u with
  | pragma d => exact d.draws_phrase
  | import_ d => exact d.draws_phrase
  | contract d => exact d.draws_phrase
  | struct d => exact d.draws_phrase
  | enum d => exact d.draws_phrase
  | function d => exact d.draws_phrase
  | constant d => exact d.draws_phrase
  | error mark => exact mark.draws_phrase

theorem tokenize_between_ends (source : String) :
    Between 0 (tokenize source).stop.stop.offset (tokenize source).tokens :=
  ⟨Nat.zero_le _, tokenize_inOrder source, fun _ ht => ⟨Nat.zero_le _, tokenize_stop_le ht⟩⟩

theorem Grammar.span_sourceFile {deeper : Nested} {c : Context} {s : State} {f : SourceFile}
    (h : (sourceFile deeper c s).1 = .ok f) : f.span = .through .origin c.stop := by
  unfold sourceFile at h
  rcases hr : sourceUnits deeper c s with ⟨e | items, state⟩
  · rw [Parser.bind_error hr] at h
    simp at h
  · rw [Parser.bind_ok hr] at h
    obtain rfl := Except.ok.inj h
    rfl

/-- A file goes from the start of its source to the end. -/
theorem parse_span (source : String) :
    (parse source).file.span = .through .origin (tokenize source).stop :=
  Grammar.span_sourceFile (congrArg Prod.fst (Session.ofSource source).run_sourceFile)

theorem parse_nested (source : String) : (parse source).file.toNode.Nested := by
  have hitems := parse_phrase source
  have hbetween := tokenize_between_ends source
  rw [nested_iff]
  show NestedIn (parse source).file.span.start.offset (parse source).file.span.stop.offset
    (several "items" ((parse source).file.items.map SourceUnit.toNode))
  rw [parse_span]
  exact lays_prod "items" (fun u _ => u.draws_phrase) _ _ _ _ _ hitems hbetween

/-- In the tree of a source the children of every node stand inside the node one behind the other,
so sorting them by their places leaves them as they are, and a walk meets the nodes by their
starts. -/
theorem parse_tree_ordered (source : String) :
    (∀ n ∈ (parse source).file.toNode.walk,
      (∀ c ∈ n.children.map Prod.snd, n.span.start.offset ≤ c.span.start.offset
        ∧ c.span.start.offset ≤ c.span.stop.offset ∧ c.span.stop.offset ≤ n.span.stop.offset)
      ∧ (n.children.map Prod.snd).Pairwise (fun a b => a.span.stop.offset ≤ b.span.start.offset)
      ∧ n.sortedChildren = n.children.map Prod.snd)
    ∧ (parse source).file.toNode.walk.Pairwise
        fun a b => a.span.start.offset ≤ b.span.start.offset := by
  have hroot := parse_nested source
  refine ⟨fun n hn => ?_, hroot.walk_ordered.2⟩
  have hnode := hroot.of_mem_walk hn
  obtain ⟨hbounds, hpairwise⟩ := (nested_iff.1 hnode).bounds
  exact ⟨hbounds, hpairwise, hnode.sortedChildren_eq⟩

end SolidityFrontend
