import SolidityFrontend.Proofs.Composing
import SolidityFrontend.Proofs.Lagging
import SolidityFrontend.Proofs.LocatedDecl
import SolidityFrontend.Proofs.Positions
import SolidityFrontend.Proofs.Shifting
import SolidityFrontend.Proofs.VersionLayout

/-!
# Where the value of a pragma stands

The value of a pragma is cut out of the source between its name and its semicolon, trimmed by the
blanks of Unicode, and read as a requirement with blanks of its own. Offsets count from the name, and
those of a span from the start of the source. All the same each span is that of its text: of the
trimmed value, and of each constraint, which is read again from there alone (`parse_pragma_places`).
-/

namespace SolidityFrontend

open Text

/-! ### A constraint alone -/

namespace Version

/-- A text with one constraint and nothing behind it is a requirement. -/
theorem parse_of_constraint? {text : List Char} {k : Constraint} {next : Cursor}
    (h : Cursor.constraint? ⟨0, text⟩ = some (k, next)) (hend : next.rest = []) :
    parse text = .ok [[k]] := by
  have hskip : next.skipSpace.rest = [] := by
    rw [Cursor.rest_skipSpace, hend]
    rfl
  have hnone : next.constraint? = none :=
    Cursor.constraint?_eq_none isGap_nil (by simpa using hend) (by simp)
  have halternative : Cursor.alternative? ⟨0, text⟩ = some ([k], next) := by
    unfold Cursor.alternative?
    simp [h, Cursor.match?, hskip, Cursor.list, Cursor.constraints_of_none hnone]
  rw [parse, alternatives, halternative]
  simp [Cursor.match?, hskip, pure, Except.pure]

/-- The characters of a constraint are read as that constraint alone. -/
theorem Constraint.Stands.parse {k : Constraint} {op : Option VersionOperator} {n : Nat}
    {cs : List Char} (h : k.Stands op n cs) :
    ∃ k', parse cs = .ok [[k']] ∧ k'.operator = op ∧ k'.version = k.version := by
  obtain ⟨⟨gap, rfl, hgap, hnone⟩, hversion, -, -⟩ := h
  obtain ⟨k', next, hk', hcontent, hend⟩ := Cursor.constraint?_of_text
    (c := ⟨0, operatorText op ++ gap ++ k.version.toList⟩) hversion isGap_nil hgap hnone
    (by rw [List.append_nil, List.nil_append, List.append_assoc])
    (show EndsVersion [] by simp [EndsVersion])
  obtain ⟨rfl, htext⟩ := Prod.mk.inj hcontent
  exact ⟨k', parse_of_constraint? hk' hend, rfl, String.toList_inj.1 htext⟩

theorem Constraint.Stands.slice {k : Constraint} {op : Option VersionOperator} {x cs : List Char}
    (h : k.Stands op (byteLength x) cs) (z : List Char) :
    sliceBytes k.start k.stop (x ++ cs ++ z) = some cs := by
  rw [h.start, h.stop, ← byteLength_append]
  exact sliceBytes_byteLength x cs z

/-- From a place in a text a constraint is read with an operator. -/
def Constraint.ReadsAs (text : List Char) (op : Option VersionOperator) (k : Constraint) : Prop :=
  ∃ cs k', sliceBytes k.start k.stop text = some cs ∧ parse cs = .ok [[k']] ∧ k'.operator = op
    ∧ k'.version = k.version

theorem Constraint.Stands.readsAs {k : Constraint} {op : Option VersionOperator} {x cs : List Char}
    (h : k.Stands op (byteLength x) cs) (z : List Char) : k.ReadsAs (x ++ cs ++ z) op := by
  obtain ⟨k', hk', hop, hversion⟩ := h.parse
  exact ⟨cs, k', h.slice z, hk', hop, hversion⟩

/-- The constraints of an alternative are read from their places with their operators, or they are
the ends of a range, which have none there and a hyphen between them. -/
def ReadsAlone (text : List Char) (ks : List Constraint) : Prop :=
  (∀ k ∈ ks, k.ReadsAs text k.operator)
    ∨ ∃ first last before behind, ks = [first, last] ∧ first.operator = some .ge
      ∧ last.operator = some .le ∧ first.ReadsAs text none ∧ last.ReadsAs text none
      ∧ sliceBytes first.stop last.start text = some (before ++ '-' :: behind)
      ∧ IsGap before ∧ IsGap behind

theorem Row.readsAs {n : Nat} {x cs z : List Char} {ks : List Constraint} (h : Row n cs ks)
    (hn : n = byteLength x) : ∀ k ∈ ks, k.ReadsAs (x ++ cs ++ z) k.operator := by
  induction h generalizing x with
  | nil => simp
  | @cons n gap cs rest k ks _ hstands _ ih =>
    subst hn
    rw [← byteLength_append] at hstands
    refine List.forall_mem_cons.2 ⟨?_, fun l hl => ?_⟩
    · simpa only [List.append_assoc] using hstands.readsAs (rest ++ z)
    · have hmore := ih (x := x ++ (gap ++ cs)) (byteLength_append _ _).symm l hl
      simpa only [List.append_assoc] using hmore

theorem Alternative.readsAlone {x cs z : List Char} {ks : List Constraint}
    (h : Alternative (byteLength x) cs ks) : ReadsAlone (x ++ cs ++ z) ks := by
  cases h with
  | row h _ => exact .inl (h.readsAs rfl)
  | @range gap first before behind last k l _ hfirst hbefore hbehind hlast =>
    rw [← byteLength_append] at hfirst hlast
    have hfirst' := hfirst.readsAs (before ++ ['-'] ++ behind ++ last ++ z)
    have hlast' := hlast.readsAs z
    refine .inr ⟨_, _, before, behind, rfl, rfl, rfl, ?_, ?_, ?_, hbefore, hbehind⟩
    · change k.ReadsAs _ none
      simpa only [List.append_assoc] using hfirst'
    · change l.ReadsAs _ none
      simpa only [List.append_assoc] using hlast'
    · have hslice := sliceBytes_byteLength (x ++ gap ++ first) (before ++ '-' :: behind) (last ++ z)
      dsimp only
      rw [hfirst.stop, hlast.start, ← byteLength_append]
      simpa only [List.append_assoc, List.cons_append, List.nil_append] using hslice

theorem Requirement.readsAlone {n : Nat} {x cs : List Char} {kss : List (List Constraint)}
    (h : Requirement n cs kss) (hn : n = byteLength x) : ∀ ks ∈ kss, ReadsAlone (x ++ cs) ks := by
  induction h generalizing x with
  | @last n cs gap ks h _ =>
    subst hn
    refine List.forall_mem_singleton.2 ?_
    simpa only [List.append_assoc] using h.readsAlone (z := gap)
  | @more n cs gap rest ks kss h _ _ ih =>
    subst hn
    refine List.forall_mem_cons.2 ⟨?_, fun ls hls => ?_⟩
    · simpa only [List.append_assoc] using h.readsAlone (z := gap ++ ['|', '|'] ++ rest)
    · have hmore := ih (x := x ++ (cs ++ gap ++ ['|', '|'])) (byteLength_append _ _).symm ls hls
      simpa only [List.append_assoc] using hmore

/-- The constraints of a requirement are read again from their places. -/
theorem parse_readsAlone {text : List Char} {kss : List (List Constraint)}
    (h : parse text = .ok kss) : ∀ ks ∈ kss, ReadsAlone text ks :=
  (parse_stands h).readsAlone (x := []) rfl

theorem Spread.pairwise {lo hi : Nat} {ks : List Constraint} (h : Spread lo hi ks) :
    (∀ k ∈ ks, lo ≤ k.start) ∧ ks.Pairwise fun a b => a.stop ≤ b.start := by
  induction ks generalizing lo with
  | nil => simp
  | cons k ks ih =>
    obtain ⟨hlo, hle, hks⟩ := h
    obtain ⟨hbehind, hpairs⟩ := ih hks
    refine ⟨List.forall_mem_cons.2 ⟨hlo, fun l hl => ?_⟩, List.pairwise_cons.2 ⟨hbehind, hpairs⟩⟩
    exact hlo.trans (hle.trans (hbehind l hl))

end Version

/-! ### Trimming -/

/-- A text neither begins nor ends with a blank. -/
def Trimmed (cs : List Char) : Prop :=
  (∀ c ∈ cs.head?, isBlank c = false) ∧ ∀ c ∈ cs.getLast?, isBlank c = false

theorem trimEnd_eq (cs : List Char) : trimEnd cs = cs.rdropWhile isBlank := rfl

/-- A text is its leading blanks, itself trimmed, and what is behind that. -/
theorem exists_trim (text : List Char) : ∃ behind, text = text.takeWhile isBlank ++ trim text ++ behind
    ∧ max (byteLength (text.takeWhile isBlank)) (byteLength (trimEnd text))
        = byteLength (text.takeWhile isBlank ++ trim text) := by
  have hsplit : text.takeWhile isBlank ++ trimStart text = text := List.takeWhile_append_dropWhile
  obtain ⟨behind, hbehind⟩ : trim text <+: trimStart text := List.rdropWhile_prefix isBlank _
  refine ⟨behind, by rw [List.append_assoc, hbehind, hsplit], ?_⟩
  by_cases hblank : trimStart text = []
  · -- A text of blanks is trimmed to nothing.
    have hall : ∀ c ∈ text, isBlank c := List.dropWhile_eq_nil_iff.1 hblank
    have hnil : trimEnd text = [] := List.rdropWhile_eq_nil_iff.2 hall
    have htrim : trim text = [] := by rw [trim, hblank]; rfl
    rw [hnil, htrim, List.append_nil]
    exact Nat.max_eq_left (Nat.zero_le _)
  · have hne : (trimStart text).reverse.dropWhile isBlank ≠ [] := by
      obtain ⟨d, ds, hds⟩ := List.exists_cons_of_ne_nil hblank
      have hd := List.head?_dropWhile_not isBlank text
      rw [show text.dropWhile isBlank = d :: ds from hds, List.head?_cons] at hd
      rw [hds, ne_eq, List.dropWhile_eq_nil_iff]
      exact fun hall => by simp_all
    have hend : trimEnd text = text.takeWhile isBlank ++ trim text := by
      conv_lhs => rw [← hsplit]
      rw [trimEnd, List.reverse_append, List.dropWhile_append, if_neg (by simpa using hne),
        List.reverse_append, List.reverse_reverse]
      rfl
    rw [hend]
    refine Nat.max_eq_right ?_
    rw [byteLength_append]
    exact Nat.le_add_right _ _

theorem trimmed_trim (text : List Char) : Trimmed (trim text) := by
  refine ⟨fun c hc => ?_, fun c hc => ?_⟩
  · obtain ⟨cs, hcs⟩ := List.head?_eq_some_iff.1 hc
    obtain ⟨behind, hbehind⟩ : trim text <+: trimStart text := List.rdropWhile_prefix isBlank _
    rw [hcs, List.cons_append] at hbehind
    have hhead := List.head?_dropWhile_not isBlank text
    rw [show text.dropWhile isBlank = c :: (cs ++ behind) from hbehind.symm, List.head?_cons] at hhead
    simpa using hhead
  · have hne : (trimStart text).rdropWhile isBlank ≠ [] := by
      intro hnil
      rw [trim, trimEnd_eq, hnil] at hc
      simp at hc
    have hlast := List.rdropWhile_last_not isBlank _ hne
    have hc' : ((trimStart text).rdropWhile isBlank).getLast? = some c := hc
    rw [List.getLast?_eq_some_getLast hne] at hc'
    rw [← Option.some.inj hc']
    simpa using hlast

/-! ### Places in a source -/

/-- The bytes under a span are these characters. -/
def Span.Spells (source : String) (cs : List Char) (span : Span) : Prop :=
  sliceBytes span.start.offset span.stop.offset source.toList = some cs

/-- On its own, the text of a constraint is read as one constraint with this operator. -/
def VersionConstraint.ReadsAs (source : String) (op : Option VersionOperator)
    (k : VersionConstraint) : Prop :=
  ∃ cs k', k.span.Spells source cs ∧ Version.parse cs = .ok [[k']] ∧ k'.operator = op
    ∧ k'.version = k.version

/-- The constraints of an alternative are read on their own with their operators, or they are the
ends of a range, which have none in the source and a hyphen between them. -/
def VersionConstraint.ReadAlone (source : String) (ks : List VersionConstraint) : Prop :=
  (∀ k ∈ ks, k.ReadsAs source k.operator)
    ∨ ∃ first last before behind, ks = [first, last] ∧ first.operator = some .ge
      ∧ last.operator = some .le ∧ first.ReadsAs source none ∧ last.ReadsAs source none
      ∧ Span.Spells source (before ++ '-' :: behind) ⟨first.span.stop, last.span.start⟩
      ∧ Version.IsGap before ∧ Version.IsGap behind

/-- The places in a requirement that is read from a text of the source. -/
structure VersionRequirement.Placed (source : String) (text : List Char) (r : VersionRequirement) :
    Prop where
  spells : r.span.Spells source (trim text)
  inside : ∀ k ∈ r.constraints, r.span.contains k.span ∧ k.span.start.offset ≤ k.span.stop.offset
  order : r.constraints.Pairwise fun a b => a.span.stop.offset ≤ b.span.start.offset
  alone : ∀ ks ∈ r.alternatives, VersionConstraint.ReadAlone source ks

/-- The places in the value of a pragma that is read from a text of the source. -/
def PragmaValue.Placed (source : String) (text : List Char) : PragmaValue → Prop
  | .raw value span => span.Spells source value.toList ∧ value.toList = trim text
      ∧ Trimmed value.toList
  | .version r => r.Placed source text

theorem stop_le_of_slice {a b : Nat} {text cs : List Char} (h : sliceBytes a b text = some cs) :
    b ≤ byteLength text := by
  obtain ⟨hle, hslice⟩ := Option.ite_none_right_eq_some.1 h
  obtain ⟨rest, hdrop, htake⟩ := Option.bind_eq_some_iff.1 hslice
  have hrest := byteLength_of_dropBytes hdrop
  have htaken := byteLength_takeBytes htake
  obtain ⟨more, rfl⟩ := takeBytes_prefix htake
  rw [byteLength_append] at hrest
  omega

namespace Grammar

open SolidityFrontend.Parser

section

variable {source : String} {origin : Location} {text : List Char}
  (h : Stretch source.toList origin text)
include h

/-- The bytes of a part of the text are those under its span. -/
theorem spells_spanWithin {a b : Nat} {cs : List Char} (hslice : sliceBytes a b text = some cs) :
    sliceBytes (origin.offset + a) (origin.offset + b) source.toList = some cs := by
  obtain ⟨before, rest, hsource, rfl⟩ := h
  rw [Location.offset_advanceBy_origin, hsource, List.append_assoc, Nat.add_comm _ a, Nat.add_comm _ b,
    sliceBytes_append_left, sliceBytes_append_right rest (stop_le_of_slice hslice), hslice]

theorem spells_trimmedSpan : (trimmedSpan origin text).Spells source (trim text) := by
  obtain ⟨behind, hsplit, hstop⟩ := exists_trim text
  refine spells_spanWithin h ?_
  have hslice := sliceBytes_byteLength (text.takeWhile isBlank) (trim text) behind
  rwa [← hsplit, ← hstop] at hslice

theorem placed_raw : (PragmaValue.raw (String.ofList (trim text)) (trimmedSpan origin text)).Placed
    source text := by
  refine ⟨?_, String.toList_ofList, ?_⟩
  · rw [String.toList_ofList]
    exact spells_trimmedSpan h
  · rw [String.toList_ofList]
    exact trimmed_trim text

theorem readsAs_placeConstraint {k : Version.Constraint} {op : Option VersionOperator}
    (hk : k.ReadsAs text op) : (placeConstraint origin text k).ReadsAs source op := by
  obtain ⟨cs, k', hslice, hparse, hop, hversion⟩ := hk
  exact ⟨cs, k', spells_spanWithin h hslice, hparse, hop, hversion⟩

theorem readAlone_placeConstraint {ks : List Version.Constraint} (hks : Version.ReadsAlone text ks) :
    VersionConstraint.ReadAlone source (ks.map (placeConstraint origin text)) := by
  rcases hks with hall | ⟨first, last, before, behind, rfl, hge, hle, hfirst, hlast, hbetween, hgaps⟩
  · exact .inl (List.forall_mem_map.2 fun k hk => readsAs_placeConstraint h (hall k hk))
  · exact .inr ⟨_, _, before, behind, rfl, hge, hle, readsAs_placeConstraint h hfirst,
      readsAs_placeConstraint h hlast, spells_spanWithin h hbetween, hgaps⟩

theorem placed_versionValue {value : PragmaValue} (hvalue : versionValue origin text = .ok value) :
    value.Placed source text := by
  unfold versionValue at hvalue
  split at hvalue
  · simp at hvalue
  split at hvalue
  · rename_i kss hparse
    obtain rfl := Except.ok.inj hvalue
    obtain ⟨⟨hi, hspread⟩, hinside⟩ := Version.parse_spec hparse
    have hconstraints : (kss.map (·.map (placeConstraint origin text))).flatten
        = kss.flatten.map (placeConstraint origin text) := (List.map_flatten ..).symm
    refine ⟨spells_trimmedSpan h, ?_, ?_, ?_⟩
    · rw [VersionRequirement.constraints, hconstraints]
      refine List.forall_mem_map.2 fun k hk => ?_
      obtain ⟨ks, hks, hk⟩ := List.mem_flatten.1 hk
      obtain ⟨hstart, hle, hstop⟩ := hinside ks hks k hk
      refine ⟨?_, Nat.add_le_add_left hle _⟩
      rw [Span.contains, Bool.and_eq_true, decide_eq_true_eq, decide_eq_true_eq]
      exact ⟨Nat.add_le_add_left hstart _,
        Nat.add_le_add_left (hstop.trans (Nat.le_max_right _ _)) _⟩
    · rw [VersionRequirement.constraints, hconstraints, List.pairwise_map]
      exact hspread.pairwise.2.imp fun hle => Nat.add_le_add_left hle _
    · exact List.forall_mem_map.2 fun ks hks =>
        readAlone_placeConstraint h (Version.parse_readsAlone hparse ks hks)
  · simp at hvalue

theorem placed_pragmaValue {name : Identifier} {value : PragmaValue} {c : Context} {s t : State}
    (hname : name.span.stop = origin) (hvalue : pragmaValue name text c s = (.ok value, t)) :
    value.Placed source text := by
  subst hname
  by_cases hsolidity : name.name = "solidity"
  · rcases hversion : versionValue name.span.stop text with v | value'
    · simp only [pragmaValue, hsolidity, if_true, hversion] at hvalue
      obtain ⟨-, u, -, hraw⟩ := bind_eq_ok hvalue
      obtain ⟨rfl, -⟩ := pure_eq_ok hraw
      exact placed_raw h
    · simp only [pragmaValue, hsolidity, if_true, hversion] at hvalue
      obtain ⟨rfl, -⟩ := pure_eq_ok hvalue
      exact placed_versionValue h hversion
  · simp only [pragmaValue, hsolidity, if_false] at hvalue
    obtain ⟨rfl, -⟩ := pure_eq_ok hvalue
    exact placed_raw h

end

/-- What a pragma is read from: its name, tokens that do not end it, and its semicolon. -/
theorem pragmaDirective_eq_ok {c : Context} {s t : State} {d : PragmaDirective} (hs : s.Ordered)
    (h : pragmaDirective c s = (.ok d, t)) :
    ∃ (start : Lexeme) (between : List Lexeme) (stop : Lexeme) (u v : State),
      s.rest = start :: ⟨.identifier d.name.name, d.name.span⟩ :: (between ++ stop :: t.rest)
        ∧ v.errors = t.errors ∧ start.token = .keyword .pragma ∧ stop.token = .symbol .semicolon
        ∧ (∀ l ∈ between, endsPragma l.token = false)
        ∧ pragmaValue d.name ((sliceBytes d.name.span.stop.offset stop.span.start.offset
          c.source).getD []) c u = (.ok d.value, v) := by
  obtain ⟨first, s₁, hfirst, h⟩ := bind_eq_ok h
  obtain ⟨name, s₂, hname, h⟩ := bind_eq_ok h
  obtain ⟨_, s₃, hskip, h⟩ := bind_eq_ok h
  change pragmaRest first name c s₃ = _ at h
  obtain ⟨_, _, htook, ⟨start, rfl, rfl, hstart⟩, -⟩ :=
    (reads_keyword (q := False) .pragma).effect_ok hs hfirst
  have hs₁ := hs.of_took htook
  obtain ⟨_, _, htook', ⟨⟨word, place⟩, rfl, rfl, rfl, rfl⟩, -⟩ :=
    (reads_identifier (q := False)).effect_ok hs₁ hname
  obtain ⟨between, _, htook'', ⟨rfl, hbetween⟩, -⟩ :=
    (reads_skipPragmaValue (q := False)).effect_ok (hs₁.of_took htook') hskip
  -- The text ends where the next token begins, if that is a semicolon, as it must be.
  obtain ⟨text, hend, htext⟩ : ∃ text, pragmaEnd first name text c s₃ = (.ok d, t)
      ∧ (s₃.tokens.head? = some (.symbol .semicolon) → text = (sliceBytes name.span.stop.offset
        (s₃.nextSpan c.stop).start.offset c.source).getD []) := by
    rw [pragmaRest, bind_ok (peeks_nextIs _ c s₃)] at h
    dsimp only at h
    rw [run_ite] at h
    split at h
    · exact ⟨_, h, fun _ => rfl⟩
    · rename_i hnot
      refine ⟨_, h, fun hhead => absurd ?_ hnot⟩
      rw [← List.head?_eq_getElem?, beq_iff_eq, ← List.head?_map]
      exact hhead
  obtain ⟨_, s₄, hclose, hend⟩ := bind_eq_ok hend
  obtain ⟨value, s₅, hread, hend⟩ := bind_eq_ok hend
  rw [bind_ok (looks_spanFrom first c s₅)] at hend
  obtain ⟨rfl, rfl⟩ := pure_eq_ok hend
  obtain ⟨hhead, rfl⟩ := symbol_eq_ok hclose
  obtain ⟨stop, after, hrest, hstop⟩ : ∃ stop after, s₃.rest = stop :: after
      ∧ stop.token = .symbol .semicolon := by
    rw [State.tokens, List.head?_map] at hhead
    obtain ⟨stop, hstop, htoken⟩ := Option.map_eq_some_iff.1 hhead
    obtain ⟨after, hafter⟩ := List.head?_eq_some_iff.1 hstop
    exact ⟨stop, after, hafter, htoken⟩
  have hclosed : s₃.Took [stop] [] s₃.advance := .advance hrest
  have hs₃ := ((hs₁.of_took htook').of_took htook'').of_took hclosed
  obtain ⟨_, _, htook₃, ⟨rfl, -⟩, -⟩ := (reads_pragmaValue name text).effect_ok hs₃ hread
  obtain rfl : after = t.rest :=
    (List.tail_eq_of_cons_eq (hrest.symm.trans hclosed.1)).trans htook₃.1
  refine ⟨start, between, stop, s₃.advance, t, ?_, rfl, hstart, hstop, hbetween, ?_⟩
  · rw [htook.1, htook'.1, htook''.1, hrest]
    rfl
  · rw [htext hhead, State.nextSpan, hrest] at hread
    exact hread

end Grammar

open Grammar SolidityFrontend.Parser

/-- A pragma stands in a source with a text between its name and the semicolon that ends it. -/
def PragmaDirective.StandsIn (source : String) (d : PragmaDirective) (text : List Char) : Prop :=
  ∃ (before : List Lexeme) (start : Lexeme) (between : List Lexeme) (stop : Lexeme)
    (after : List Lexeme), (tokenize source).tokens
      = before ++ start :: ⟨.identifier d.name.name, d.name.span⟩ :: (between ++ stop :: after)
    ∧ start.token = .keyword .pragma ∧ stop.token = .symbol .semicolon
    ∧ (∀ l ∈ between, endsPragma l.token = false)
    ∧ Span.Spells source text ⟨d.name.span.stop, stop.span.start⟩

theorem Location.In.isCut {source : List Char} {l : Location} (h : l.In source) :
    Version.IsCut source l.offset := by
  obtain ⟨before, hbefore, rfl⟩ := h
  exact ⟨before, hbefore, Location.offset_advanceBy_origin before⟩

/-- There is a text between two tokens. -/
theorem exists_spells {source : String} {before between after : List Lexeme} {l m : Lexeme}
    (h : (tokenize source).tokens = before ++ l :: (between ++ m :: after)) :
    ∃ text, Span.Spells source text ⟨l.span.stop, m.span.start⟩ := by
  have hin := tokenize_tokens_in source
  have hinOrder := (tokenize_inOrder source).2
  rw [h] at hin hinOrder
  have hl := (hin l (by simp)).stop.isCut
  have hm := (hin m (by simp)).start.isCut
  have hle : l.span.stop.offset ≤ m.span.start.offset :=
    (List.pairwise_cons.1 (List.pairwise_append.1 hinOrder).2.1).1 m (by simp)
  obtain ⟨x, y, z, hsource, hx, hy⟩ := hl.split hm hle
  refine ⟨y, ?_⟩
  rw [Span.Spells, hsource]
  dsimp only
  rw [hx, hy]
  exact sliceBytes_byteLength x y z

/-- A pragma among the items of a file is read by the grammar of pragmas. -/
theorem pragmaDirective_of_item {c : Context} {s t : State} {d : PragmaDirective} (hs : s.Ordered)
    (h : recovering SourceUnit.error (sourceUnit .full) c s = (.ok (.pragma d), t)) :
    pragmaDirective c s = (.ok d, t) := by
  obtain ⟨u, hunit⟩ : ∃ u, (sourceUnit .full c s).1 = .ok u := by
    rcases hp : (sourceUnit .full c s).1 with e | u
    · rw [recovering, state_bind, attempt_bind, hp] at h
      obtain ⟨mark, _, -, hmark⟩ := bind_eq_ok h
      exact absurd (pure_eq_ok hmark).1 (by simp)
    · exact ⟨u, rfl⟩
  rw [recovering_ok hunit] at h
  obtain ⟨ts, es, htook, ⟨-, text, -, _, _, _, _, rfl, -, ⟨_, _, _, _, rfl, -, ⟨_, _, _, _, rfl, -,
    ⟨l, rfl, -, hl⟩, -⟩, -⟩, -⟩, -⟩ := (reads_sourceUnit Nested.sound_full).effect_ok hs h
  have hhead : s.tokens.head? = some (.keyword .pragma) := by simp [State.tokens, htook.1, hl]
  rw [sourceUnit, next_bind, hhead] at h
  obtain ⟨d', v, hd', hpure⟩ := bind_eq_ok h
  obtain ⟨heq, rfl⟩ := pure_eq_ok hpure
  rwa [SourceUnit.pragma.inj heq]

theorem Items.exists_pragma {c : Context} {s t : State} {us : List SourceUnit} {d : PragmaDirective}
    (h : Items c s us t) (hs : s.Ordered) (hd : .pragma d ∈ us) :
    ∃ ts es u v, s.Took ts es u ∧ u.Ordered ∧ pragmaDirective c u = (.ok d, v) := by
  induction h with
  | nil => simp at hd
  | @cons s t u x xs hne hx hxs ih =>
    rcases List.mem_cons.1 hd with rfl | hd
    · exact ⟨[], [], s, t, .refl s, hs, pragmaDirective_of_item hs hx⟩
    · obtain ⟨⟨ts, es, htook⟩, ht, -⟩ := took_item hs hne hx
      obtain ⟨us, ds, v, w, htook', hv, hread⟩ := ih ht hd
      exact ⟨ts ++ us, es ++ ds, v, w, htook.trans htook', hv, hread⟩

/-- Every pragma of a source stands in it with a text that its spans point into: the value as a whole
covers the text without the blanks at its ends, and each constraint is read again from its place. -/
theorem parse_pragma_places (source : String) : ∀ d, SourceUnit.pragma d ∈ (parse source).file.items →
    ∃ text, d.StandsIn source text ∧ d.value.Placed source text := by
  intro d hd
  obtain ⟨t, hitems, -⟩ := exists_items_parse source
  obtain ⟨before, _, u, v, htook, hu, hread⟩ := hitems.exists_pragma (Session.ordered_start source) hd
  obtain ⟨start, between, stop, w, w', hrest, -, hstart, hstop, hbetween, hvalue⟩ :=
    pragmaDirective_eq_ok hu hread
  have htokens : (tokenize source).tokens = before
      ++ start :: ⟨.identifier d.name.name, d.name.span⟩ :: (between ++ stop :: v.rest) := by
    rw [← hrest]
    exact htook.1
  have hdirective : (tokenize source).tokens = (before ++ [start])
      ++ ⟨.identifier d.name.name, d.name.span⟩ :: (between ++ stop :: v.rest) := by
    rw [htokens, List.append_assoc, List.singleton_append]
  obtain ⟨text, htext⟩ := exists_spells hdirective
  refine ⟨text, ⟨before, start, between, stop, v.rest, htokens, hstart, hstop, hbetween, htext⟩, ?_⟩
  have hname : d.name.span.stop.In source.toList :=
    (tokenize_tokens_in source ⟨.identifier d.name.name, d.name.span⟩ (by simp [htokens])).stop
  have hstretch := stretch_slice hname stop.span.start.offset
  rw [htext] at hstretch
  have hslice : (sliceBytes d.name.span.stop.offset stop.span.start.offset
      (Session.ofSource source).context.source).getD [] = text := congrArg (·.getD []) htext
  rw [hslice] at hvalue
  exact placed_pragmaValue hstretch rfl hvalue

/-- Whether an item is a pragma with a version requirement. -/
def SourceUnit.requiresVersion : SourceUnit → Bool
  | .pragma ⟨_, .version _, _⟩ => true
  | _ => false

/-- An alternative with an operator, and a range. -/
theorem parse_pragma_places_range : ∃ d r text,
    SourceUnit.pragma d ∈ (parse "pragma solidity ^0.4 || 1 - 2 ;").file.items
      ∧ d.value = .version r ∧ d.StandsIn "pragma solidity ^0.4 || 1 - 2 ;" text
      ∧ r.Placed "pragma solidity ^0.4 || 1 - 2 ;" text := by
  have heval : (parse "pragma solidity ^0.4 || 1 - 2 ;").file.items.any SourceUnit.requiresVersion := by
    rw [parse_ofList]
    decide +kernel
  obtain ⟨u, hu, hversion⟩ := List.any_eq_true.1 heval
  cases u with
  | pragma d =>
    obtain ⟨text, hstands, hplaced⟩ := parse_pragma_places _ d hu
    rcases hvalue : d.value with r | ⟨value, span⟩
    · rw [hvalue] at hplaced
      exact ⟨d, r, text, hu, hvalue, hstands, hplaced⟩
    · obtain ⟨name, value', span'⟩ := d
      subst hvalue
      simp [SourceUnit.requiresVersion] at hversion
  | _ => simp [SourceUnit.requiresVersion] at hversion

end SolidityFrontend
