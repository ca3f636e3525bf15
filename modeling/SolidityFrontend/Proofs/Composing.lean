import SolidityFrontend.Proofs.AgreeingDecl
import SolidityFrontend.Proofs.ErrorOrder
import SolidityFrontend.Proofs.Finishing
import SolidityFrontend.Proofs.Joining
import SolidityFrontend.Proofs.Portions

/-!
# Files one below the other

The items of two texts, one on the lines below the other, are those of each of them. What is read in
the first one does not lead behind it, since its items are passages of both texts; the second one is
then read as it is alone.
-/

namespace SolidityFrontend

open SolidityFrontend.Parser SolidityFrontend.Grammar

variable {c c' : Context} {s s' t t' u : State} {xs ys : List SourceUnit}

/-! ### The items of a file, one by one -/

/-- Items that are read one behind the other. -/
inductive Items (c : Context) : State → List SourceUnit → State → Prop
  | nil (s : State) : Items c s [] s
  | cons {s t u : State} {x : SourceUnit} {xs : List SourceUnit} (hne : s.rest ≠ [])
      (hx : recovering SourceUnit.error (sourceUnit .full) c s = (.ok x, t))
      (hxs : Items c t xs u) : Items c s (x :: xs) u

theorem Items.append (h : Items c s xs t) (h' : Items c t ys u) : Items c s (xs ++ ys) u := by
  induction h with
  | nil => exact h'
  | cons hne hx _ ih => exact .cons hne hx (ih h')

/-- An item takes a token. -/
theorem took_item {x : SourceUnit} (hs : s.Ordered) (hne : s.rest ≠ [])
    (hx : recovering SourceUnit.error (sourceUnit .full) c s = (.ok x, t)) :
    (∃ ts es, s.Took ts es t) ∧ t.Ordered ∧ t.rest.length < s.rest.length := by
  obtain ⟨y, t', ts, es, hy, htook, hts⟩ := advances_sourceUnit (c := c) Nested.sound_full hs hne
  obtain ⟨-, rfl⟩ := Prod.mk.inj (hx.symm.trans hy)
  have hpos := List.length_pos_of_ne_nil hts
  refine ⟨⟨ts, es, htook⟩, hs.of_took htook, ?_⟩
  rw [htook.1, List.length_append]
  omega

theorem Items.took (h : Items c s xs t) (hs : s.Ordered) : ∃ ts es, s.Took ts es t := by
  induction h with
  | nil s => exact ⟨[], [], .refl s⟩
  | cons hne hx _ ih =>
    obtain ⟨⟨ts, es, htook⟩, ht, -⟩ := took_item hs hne hx
    obtain ⟨us, ds, htook'⟩ := ih ht
    exact ⟨ts ++ us, es ++ ds, htook.trans htook'⟩

theorem exists_items (hs : s.Ordered) : ∃ xs t, Items c s xs t ∧ t.rest = [] := by
  induction hn : s.rest.length using Nat.strong_induction_on generalizing s with
  | _ n ih =>
    by_cases hne : s.rest = []
    · exact ⟨[], s, .nil s, hne⟩
    · obtain ⟨x, t, hx⟩ := neverFails_recovering SourceUnit.error (sourceUnit .full) c s
      obtain ⟨-, ht, hlt⟩ := took_item hs hne hx
      obtain ⟨xs, u, hxs, hu⟩ := ih _ (hn ▸ hlt) ht rfl
      exact ⟨x :: xs, u, .cons hne hx hxs, hu⟩

/-- The next item, unless nothing is left. -/
def item : Parser (Option SourceUnit) := atEnd >>= fun ended => if ended = true then pure none
  else recovering SourceUnit.error (sourceUnit .full) >>= fun x => pure (some x)

theorem item_none (hend : s.rest = []) : item c s = (.ok none, s) := by
  rw [item, bind_ok (peeks_atEnd c s), hend]
  rfl

theorem item_some {x : SourceUnit} (hne : s.rest ≠ [])
    (hx : recovering SourceUnit.error (sourceUnit .full) c s = (.ok x, t)) :
    item c s = (.ok (some x), t) := by
  rw [item, bind_ok (peeks_atEnd c s), List.isEmpty_eq_false_iff.2 hne]
  exact bind_ok hx

theorem manyOver_of_items (hs : s.Ordered) (h : Items c s xs t) (hend : t.rest = [])
    (clock : List Lexeme) (hclock : s.rest.length ≤ clock.length) :
    manyOver item clock c s = (.ok xs, t) := by
  induction h generalizing clock with
  | nil s =>
    cases clock with
    | nil => rfl
    | cons l clock =>
      rw [manyOver, bind_ok (item_none hend)]
      rfl
  | @cons s v u x xs hne hx hxs ih =>
    obtain ⟨-, hv, hlt⟩ := took_item hs hne hx
    cases clock with
    | nil => exact absurd (List.eq_nil_of_length_eq_zero (Nat.le_zero.1 hclock)) hne
    | cons l clock =>
      rw [List.length_cons] at hclock
      rw [manyOver, bind_ok (item_some hne hx)]
      dsimp only
      rw [bind_ok (ih hv hend clock (by omega))]
      rfl

theorem sourceUnits_of_items (hs : s.Ordered) (h : Items c s xs t) (hend : t.rest = []) :
    sourceUnits .full c s = (.ok xs, t) :=
  manyOver_of_items hs h hend s.rest le_rfl

/-- The items of a source are all that can be read one behind the other. -/
theorem parse_of_items {source : String} (h : Items (Session.ofSource source).context
      (Session.ofSource source).state xs t) (hend : t.rest = []) :
    (parse source).file.items = xs ∧ recordedErrors source = t.errors.toList := by
  have hrun := Session.run_sourceFile (Session.ofSource source)
  have hordered : (Session.ofSource source).state.Ordered := Session.ordered_start source
  have hunits := sourceUnits_of_items hordered h hend
  rw [Session.run, sourceFile, bind_ok hunits] at hrun
  have hfile := Except.ok.inj (congrArg Prod.fst hrun)
  have hstate := congrArg (Session.state ∘ Prod.snd) hrun
  refine ⟨?_, ?_⟩
  · exact (congrArg SourceFile.items hfile).symm
  · exact (congrArg (Array.toList ∘ State.errors) hstate).symm

theorem exists_items_parse (source : String) : ∃ t, Items (Session.ofSource source).context
    (Session.ofSource source).state (parse source).file.items t ∧ t.rest = []
      ∧ t.errors.toList = recordedErrors source := by
  obtain ⟨xs, t, hxs, hend⟩ := exists_items (c := (Session.ofSource source).context)
    (Session.ordered_start source)
  obtain ⟨hitems, herrors⟩ := parse_of_items hxs hend
  exact ⟨t, hitems ▸ hxs, hend, herrors.symm⟩

/-! ### Texts that stay where they are -/

/-- The places of a text stay up to an offset, and those behind it move. -/
def Motion.upTo (reach : Nat) : Motion where
  location l := if l.offset ≤ reach then l else ⟨l.offset + 1, l.position⟩
  reach := reach
  offset_lt a b := by
    split <;> split <;> simp <;> omega
  line_lt a b := by
    split <;> split <;> rfl
  along a n cs h := by
    rw [if_pos h, if_pos (by omega)]

theorem Motion.location_upTo {reach : Nat} {l : Location} (h : l.offset ≤ reach) :
    (Motion.upTo reach).location l = l := if_pos h

theorem Motion.span_upTo {reach : Nat} {a : Span} (h : a.start.offset ≤ reach)
    (h' : a.stop.offset ≤ reach) : (Motion.upTo reach).span a = a :=
  congrArg₂ Span.mk (location_upTo h) (location_upTo h')

theorem Motion.Reaches.move_upTo {reach : Nat} {ts : List Lexeme}
    (h : (Motion.upTo reach).Reaches ts) : respan (Motion.upTo reach).span ts = ts := by
  rw [respan_list]
  refine (List.map_congr_left fun t ht => ?_).trans (List.map_id ts)
  exact congrArg (Lexeme.mk t.token) (span_upTo (h t ht).1 (h t ht).2)

/-! ### Passages with nothing behind them in the first text -/

/-- Where no error leads out of a passage, its items are read alike in both texts. -/
theorem items_move {H : Passage} [H.Braced] (hstrict : H.strict) (hnext : H.next₁ = [])
    (houtside : ∀ {w}, H.outside w → w = [] ∨ H.inside 0 w)
    (hskip : ∀ {l w}, H.inside 0 (l :: w) → l.token ≠ .symbol .semicolon → H.inside 0 w)
    (hc : H.Knows 0 c c') (h : Items c s xs t) (hend : t.rest = []) {w : List Lexeme}
    (hs : H.At w w s s') (hw : H.outside w) :
    ∃ t', Items c' s' (H.move xs) t' ∧ H.At [] [] t t' := by
  induction h generalizing w s' with
  | nil s =>
    obtain rfl : w = [] := by
      have hrest := hs.rest₁
      rw [hend, hnext, List.append_nil] at hrest
      exact hrest.symm
    exact ⟨s', .nil s', hs⟩
  | @cons s v u x xs hne hx hxs ih =>
    have hw₀ : w ≠ [] := by
      rintro rfl
      exact hne (by rw [hs.rest₁, hnext, List.append_nil])
    have hin := (houtside hw).resolve_left hw₀
    have hfollows : Follows H 0 (H.before 0) (sourceUnit .full) (sourceUnit .full)
        fun _ => H.behind 0 :=
      follows_sourceUnit Nested.agreed_full
        ((follows_pragmaDirective hskip).weaken fun _ _ => And.left)
    have hmark (m : ErrorMark) : SourceUnit.error (H.move m) = H.move (SourceUnit.error m) := rfl
    have hsame := (same_recovering hfollows hmark hc hs
      ⟨hin, hw₀, fun h => absurd h (lt_irrefl 0)⟩).resolve_right fun hlost => hlost.1 hstrict
    rcases hr : recovering SourceUnit.error (sourceUnit .full) c' s' with ⟨r', v'⟩
    rw [hx, hr] at hsame
    cases hsame with
    | ok hx' hv hO =>
      subst hx'
      obtain ⟨t', ht', hat⟩ := ih hend hv.restart hO.1
      refine ⟨t', .cons ?_ hr ht', hat⟩
      exact mt (hs.nil_iff hin).2.2 hw₀

/-! ### Items without errors -/

theorem onward_pragmaDirective : Onward pragmaDirective := by
  have hskip {l : Lexeme} {w : List Lexeme} (h : (Passage.whole (.upTo 0) []).inside 0 (l :: w))
      (_ : l.token ≠ .symbol .semicolon) : (Passage.whole (.upTo 0) []).inside 0 w :=
    h.suffix (List.suffix_cons _ _)
  exact (follows_pragmaDirective hskip).onward

theorem takes_pragmaDirective : Takes pragmaDirective :=
  reads_pragmaDirective.takes fun _ => Phrase.takes_covered _ _

/-- An item that is no pragma. -/
theorem follows_otherUnit {H : Passage} [H.Braced] :
    Follows H 0 (lacking (H.before 0) (.keyword .pragma)) (sourceUnit .full) (sourceUnit .full)
      fun _ => H.behind 0 :=
  follows_sourceUnit Nested.agreed_full
    ⟨onward_pragmaDirective, fun _ => takes_pragmaDirective,
      fun _ _ _ _ _ _ _ _ hw => absurd hw.2 hw.1.2⟩

theorem sourceUnit_of_pragma {deeper : Nested}
    (h : s.rest.head?.map Lexeme.token = some (.keyword .pragma)) :
    sourceUnit deeper c s = (pragmaDirective >>= fun d => pure (.pragma d)) c s := by
  rw [List.head?_eq_getElem?] at h
  have hnext : next? c s = (.ok (some (.keyword .pragma)), s) :=
    (peeks_next c s).trans (congrArg (Except.ok · , s) h)
  rw [sourceUnit, bind_ok hnext]

/-- A pragma ends with a semicolon. -/
theorem getLast?_of_pragma {d : PragmaDirective} (hs : s.Ordered)
    (h : pragmaDirective c s = (.ok d, t)) :
    ∃ ts, s.rest = ts ++ t.rest
      ∧ (ts.map Lexeme.token).getLast? = some (.symbol .semicolon) := by
  obtain ⟨ts, es, htook, ⟨-, text, -, us, _, _, _, rfl, -, -, l, rfl, -, hl, -⟩, -⟩ :=
    (reads_pragmaDirective.effect_ok hs h)
  exact ⟨us ++ [l], htook.1, by simp [hl]⟩

/-- An item that is read without errors is read alike where other tokens stand behind it. -/
theorem Parser.Follows.extended {α : Type} [Placed α] {H : Passage} {I : Stage} {p p' : Parser α}
    {O : α → Stage} (hf : Follows H 0 I p p' O) {x : α} (hx : p c s = (.ok x, t))
    (hnext : H.next₁ = t.rest) (hempty : H.errors = []) (herrors : t.errors = #[])
    (hc : H.Knows 0 c c') {w : List Lexeme} (hs : H.At w w s s') (hw : I w w) :
    ∃ t', p' c' s' = (.ok (H.move x), t') ∧ t'.rest = H.next₂ ∧ t'.errors = #[]
      ∧ O x w [] := by
  have hsame := hf.same hc hs hw
  rw [hx] at hsame
  rcases hsame with hsame | ⟨-, ⟨e, he⟩ | hne | ⟨-, hlt⟩⟩
  · rcases hr : p' c' s' with ⟨r', t'⟩
    rw [hr] at hsame
    cases hsame with
    | @ok _ _ _ _ v hx' ht hO =>
      subst hx'
      obtain rfl : v = [] := by
        have hrest := ht.rest₁
        rw [hnext] at hrest
        exact List.self_eq_append_left.1 hrest
      refine ⟨t', rfl, by simpa using ht.rest₂, ?_, hO⟩
      have herrors' := ht.errors
      rw [hempty, herrors] at herrors'
      exact Array.toList_eq_nil_iff.1 herrors'
  · simp at he
  · exact absurd herrors hne
  · rw [hnext] at hlt
    exact absurd hlt (lt_irrefl _)

/-- What the contexts of two texts have in common, of which the second one has the places of the first
one, moved, as far as these are within reach. -/
structure Shares (m : Motion) (c c' : Context) : Prop where
  structLiterals : c.structLiterals = true
  structLiterals' : c'.structLiterals = true
  slice : ∀ {a b : Location}, a.offset ≤ m.reach → b.offset ≤ m.reach →
    sliceBytes (m.location a).offset (m.location b).offset c'.source
      = sliceBytes a.offset b.offset c.source

theorem Shares.knows {m : Motion} (h : Shares m c c') {H : Passage} (hmotion : H.motion = m)
    (hstop : ∀ {n}, H.inside n [] → c'.stop = m.span c.stop) : H.Knows 0 c c' where
  structLiterals := h.structLiterals'.trans h.structLiterals.symm
  toplevel _ := h.structLiterals
  stop hin := hmotion ▸ hstop hin
  slice ha hb := by
    rw [hmotion] at ha hb ⊢
    exact h.slice ha hb

/-- The contexts of texts that are the same up to an offset. -/
theorem Shares.upTo {reach : Nat} (h : c.structLiterals = true) (h' : c'.structLiterals = true)
    (hslice : ∀ {i j : Nat}, j ≤ reach → sliceBytes i j c'.source = sliceBytes i j c.source) :
    Shares (.upTo reach) c c' where
  structLiterals := h
  structLiterals' := h'
  slice {a b} ha hb := by
    change a.offset ≤ reach at ha
    change b.offset ≤ reach at hb
    rw [Motion.location_upTo ha, Motion.location_upTo hb]
    exact hslice hb

variable {m : Motion} {x : SourceUnit} {ts next : List Lexeme}

/-- Two readings at the beginning of a passage. -/
theorem Passage.At.start {H : Passage} {w : List Lexeme} (hempty : H.errors = []) (hs : s.Ordered)
    (hs₀ : s.errors = #[]) (hs₀' : s'.errors = #[]) (hrest : s.rest = w ++ H.next₁)
    (hrest' : s'.rest = H.move w ++ H.next₂) : H.At w w s s' := by
  refine ⟨List.suffix_refl w, hrest, hrest', fun h => absurd rfl h, ?_, hs⟩
  rw [hempty, hs₀, hs₀']
  rfl

/-- Some place lies behind all of some tokens. -/
theorem Motion.exists_reaches (ts : List Lexeme) : ∃ reach, (Motion.upTo reach).Reaches ts := by
  induction ts with
  | nil => exact ⟨0, fun t ht => absurd ht List.not_mem_nil⟩
  | cons l ts ih =>
    obtain ⟨reach, hts⟩ := ih
    refine ⟨reach + l.span.start.offset + l.span.stop.offset, ?_⟩
    rw [Reaches, List.forall_mem_cons]
    simp only [Motion.upTo]
    refine ⟨⟨by omega, by omega⟩, fun t ht => ?_⟩
    have hle : t.span.start.offset ≤ reach ∧ t.span.stop.offset ≤ reach := hts t ht
    exact ⟨by omega, by omega⟩

section

variable {α : Type} [Placed α] {p : Parser α} {y : α} {I : Passage → Stage}
  (hp : ∀ {H : Passage} [H.Braced], Follows H 0 (I H) p p fun _ => H.behind 0)
  (hI : ∀ {H : Passage} {w : List Lexeme}, H.inside 0 w → w ++ H.next₁ = s.rest → I H w w)
include hp hI

/-- An item that is read without errors closes the braces that it opens. -/
theorem isItem_of_errors (hc : c.structLiterals = true) (hs : s.Ordered)
    (hx : p c s = (.ok y, t)) (hs₀ : s.errors = #[]) (ht₀ : t.errors = #[]) :
    ∃ ts, s.rest = ts ++ t.rest ∧ Passage.IsItem (ts.map Lexeme.token) := by
  obtain ⟨reach, hreach⟩ := Motion.exists_reaches (⟨.symbol .semicolon, c.stop⟩ :: s.rest)
  obtain ⟨hstart, hstop⟩ := hreach _ List.mem_cons_self
  have hreaches : (Motion.upTo reach).Reaches s.rest := hreach.suffix (List.suffix_cons _ _)
  let H : Passage := .item (.upTo reach) s.rest [] [] True hreaches (fun _ => ⟨rfl, rfl⟩) (.inl trivial)
  have hat : H.At s.rest s.rest s s := by
    refine .start rfl hs hs₀ hs₀ (List.append_nil _).symm ?_
    exact (List.append_nil _).symm.trans (congrArg (· ++ []) hreaches.move_upTo.symm)
  have hknows : H.Knows 0 c c := (Shares.upTo hc hc fun _ => rfl).knows rfl fun _ =>
    (Motion.span_upTo hstart hstop).symm
  have hin : H.inside 0 s.rest := ⟨[], rfl, rfl, fun _ => trivial⟩
  have hsame := (hp (H := H)).same hknows hat (hI hin (List.append_nil _))
  rw [hx] at hsame
  rcases hsame with hsame | ⟨-, ⟨e, he⟩ | hne | ⟨-, hlt⟩⟩
  · cases hsame with
    | @ok _ _ _ _ w _ ht hO =>
      obtain ⟨ts, hts, hitem⟩ := hO.1
      have hrest : t.rest = w := ht.rest₁.trans (List.append_nil w)
      exact ⟨ts, hrest ▸ hts, hitem⟩
  · simp at he
  · exact absurd ht₀ hne
  · exact absurd hlt (Nat.not_lt_zero _)

/-- An item that is read without errors is read alike wherever its tokens stand. -/
theorem item_moved (hc : Shares m c c') (hs : s.Ordered) (hx : p c s = (.ok y, t))
    (hs₀ : s.errors = #[]) (ht₀ : t.errors = #[]) (hts : s.rest = ts ++ t.rest)
    (hreaches : m.Reaches ts) (hrest : s'.rest = respan m.span ts ++ next) (hs₀' : s'.errors = #[]) :
    ∃ t', p c' s' = (.ok (respan m.span y), t') ∧ t'.rest = next ∧ t'.errors = #[] := by
  obtain ⟨us, hus, hitem⟩ := isItem_of_errors hp hI hc.structLiterals hs hx hs₀ ht₀
  obtain rfl : us = ts := List.append_cancel_right (hus.symm.trans hts)
  have hne : us ≠ [] := by
    rintro rfl
    simp [Passage.IsItem] at hitem
  let H : Passage := .item m us t.rest next False hreaches False.elim (.inr hitem)
  have hat : H.At us us s s' := .start rfl hs hs₀ hs₀' hts hrest
  have hknows : H.Knows 0 c c' := hc.knows rfl fun ⟨_, _, _, hends⟩ => (hends rfl).elim
  have hin : H.inside 0 us := ⟨[], rfl, rfl, hne⟩
  obtain ⟨t', ht', hrest', herrors', -⟩ :=
    (hp (H := H)).extended hx rfl rfl ht₀ hknows hat (hI hin hts.symm)
  exact ⟨t', ht', hrest', herrors'⟩

end

/-- So is a pragma. -/
theorem pragmaUnit_moved (hc : Shares m c c') (hs : s.Ordered)
    (hx : (pragmaDirective >>= fun d => pure (SourceUnit.pragma d)) c s = (.ok x, t))
    (hs₀ : s.errors = #[]) (ht₀ : t.errors = #[]) (hts : s.rest = ts ++ t.rest)
    (hreaches : m.Reaches ts) (hrest : s'.rest = respan m.span ts ++ next) (hs₀' : s'.errors = #[]) :
    ∃ t', (pragmaDirective >>= fun d => pure (SourceUnit.pragma d)) c' s'
        = (.ok (respan m.span x), t') ∧ t'.rest = next ∧ t'.errors = #[] := by
  have hlast : (ts.map Lexeme.token).getLast? = some (.symbol .semicolon) := by
    rcases hd : pragmaDirective c s with ⟨e | d, u⟩
    · rw [bind_error hd] at hx
      simp at hx
    · rw [bind_ok hd] at hx
      obtain rfl : u = t := congrArg Prod.snd hx
      obtain ⟨us, hus, hlast⟩ := getLast?_of_pragma hs hd
      rwa [List.append_cancel_right (hts.symm.trans hus)]
  let H : Passage := .directive m t.rest next
  have hskip {l : Lexeme} {w : List Lexeme} (h : H.inside 0 (l :: w))
      (hl : l.token ≠ .symbol .semicolon) : H.inside 0 w :=
    ⟨rfl, h.2.1.suffix (List.suffix_cons _ _), getLast?_of_cons h.2.2 hl⟩
  have hfollows : Follows H 0 (H.before 0) (pragmaDirective >>= fun d => pure (SourceUnit.pragma d))
      (pragmaDirective >>= fun d => pure (SourceUnit.pragma d)) fun _ => H.behind 0 :=
    (follows_pragmaDirective hskip).make (fun _ _ => id) fun _ => rfl
  have hat : H.At ts ts s s' := .start rfl hs hs₀ hs₀' hts hrest
  have hknows : H.Knows 0 c c' := hc.knows rfl fun h => absurd h.2.2 (by simp)
  obtain ⟨t', ht', hrest', herrors', -⟩ :=
    hfollows.extended hx rfl rfl ht₀ hknows hat ⟨rfl, hreaches, hlast⟩
  exact ⟨t', ht', hrest', herrors'⟩

/-- A parser for parts that are read alike wherever their tokens stand, if they are without errors. -/
structure Parser.Portable {α : Type} [Placed α] (p : Parser α) : Prop where
  onward : Onward p
  takes : Takes p
  moved : ∀ {m : Motion} {c c' : Context} {s s' t : State} {x : α} {ts next : List Lexeme},
    Shares m c c' → s.Ordered → p c s = (.ok x, t) → s.errors = #[] → t.errors = #[] →
    s.rest = ts ++ t.rest → m.Reaches ts → s'.rest = respan m.span ts ++ next → s'.errors = #[] →
    ∃ t', p c' s' = (.ok (respan m.span x), t') ∧ t'.rest = next ∧ t'.errors = #[]

theorem portable_sourceUnit : Portable (sourceUnit .full) where
  onward := (follows_otherUnit (H := .whole (.upTo 0) [])).onward
  takes := (reads_sourceUnit Nested.sound_full).takes SourceUnit.takes_phrase
  moved {m c c' s s' t x ts next} hc hs hx hs₀ ht₀ hts hreaches hrest hs₀' := by
    have hlt := (reads_sourceUnit Nested.sound_full).takes SourceUnit.takes_phrase c s x t hs hx
    by_cases hpragma : s.rest.head?.map Lexeme.token = some (.keyword .pragma)
    · have hpragma' : s'.rest.head?.map Lexeme.token = some (.keyword .pragma) := by
        rcases ts with _ | ⟨l, ts⟩
        · rw [hts] at hlt
          exact absurd hlt (lt_irrefl _)
        · rw [hts] at hpragma
          rw [hrest]
          exact hpragma
      rw [sourceUnit_of_pragma hpragma] at hx
      rw [sourceUnit_of_pragma hpragma']
      exact pragmaUnit_moved hc hs hx hs₀ ht₀ hts hreaches hrest hs₀'
    · refine item_moved follows_otherUnit (fun {H w} hin hw => ⟨hin, fun hhead => hpragma ?_⟩) hc hs
        hx hs₀ ht₀ hts hreaches hrest hs₀'
      have hseen : seeing (H.before 0) (some (.keyword .pragma)) w w := ⟨hin, hhead⟩
      exact hw ▸ head?_of_seeing hseen

/-! ### Parts without errors -/

theorem State.Took.errors_nil {ts : List Lexeme} {es : List SyntaxError} (h : s.Took ts es t)
    (ht : t.errors = #[]) : s.errors = #[] := by
  by_contra hne
  exact h.errors_ne hne ht

/-- Parts that are read one behind the other. -/
inductive Chain {α : Type} (part : Parser α) (c : Context) : State → List α → State → Prop
  | nil (s : State) : Chain part c s [] s
  | cons {s t u : State} {x : α} {xs : List α} (hx : part c s = (.ok x, t))
      (hxs : Chain part c t xs u) : Chain part c s (x :: xs) u

namespace Chain

variable {α : Type} {part : Parser α} {zs zs' : List α}

theorem took (h : Chain part c s zs t) (honward : Onward part) : ∃ ts es, s.Took ts es t := by
  induction h with
  | nil s => exact ⟨[], [], .refl s⟩
  | cons hx _ ih =>
    obtain ⟨ts, es, htook⟩ := honward.took hx
    obtain ⟨us, ds, htook'⟩ := ih
    exact ⟨ts ++ us, es ++ ds, htook.trans htook'⟩

/-- Parts that are read without errors are read alike wherever their tokens stand. -/
theorem moved [Placed α] (hpart : Portable part) (hc : Shares m c c') (h : Chain part c s zs t)
    (hs : s.Ordered) (ht₀ : t.errors = #[]) (hts : s.rest = ts ++ t.rest) (hreaches : m.Reaches ts)
    (hrest : s'.rest = respan m.span ts ++ next) (hs₀' : s'.errors = #[]) :
    ∃ t', Chain part c' s' (respan m.span zs) t' ∧ t'.rest = next ∧ t'.errors = #[] := by
  induction h generalizing s' ts with
  | nil s =>
    obtain rfl : ts = [] := List.self_eq_append_left.1 hts
    exact ⟨s', .nil s', hrest, hs₀'⟩
  | @cons s v u x xs hx hxs ih =>
    obtain ⟨vs, es, htook⟩ := hpart.onward.took hx
    obtain ⟨us, ds, htook'⟩ := hxs.took hpart.onward
    have hv₀ := htook'.errors_nil ht₀
    have hwhole : ts ++ u.rest = (vs ++ us) ++ u.rest := by
      rw [← hts, htook.1, htook'.1, List.append_assoc]
    obtain rfl : ts = vs ++ us := List.append_cancel_right hwhole
    obtain ⟨hvs, hus⟩ := List.forall_mem_append.1 hreaches
    have hsplit : s'.rest = respan m.span vs ++ (respan m.span us ++ next) := by
      rw [hrest, respan_list, List.map_append, List.append_assoc]
      rfl
    obtain ⟨v', hv', hrest', hv₀'⟩ :=
      hpart.moved hc hs hx (htook.errors_nil hv₀) hv₀ htook.1 hvs hsplit hs₀'
    obtain ⟨t', ht', hend, herrors⟩ := ih (hs.of_took htook) ht₀ htook'.1 hus hrest' hv₀'
    exact ⟨t', .cons hv' ht', hend, herrors⟩

theorem items (h : Chain (sourceUnit .full) c s xs t) (hs : s.Ordered) : Items c s xs t := by
  induction h with
  | nil s => exact .nil s
  | @cons s v u x xs hx _ ih =>
    have hlt := portable_sourceUnit.takes c s x v hs hx
    obtain ⟨vs, es, htook⟩ := portable_sourceUnit.onward.took hx
    refine .cons ?_ ?_ (ih (hs.of_took htook))
    · rintro hnil
      rw [hnil] at hlt
      exact absurd hlt (Nat.not_lt_zero _)
    · rw [recovering_ok (congrArg Prod.fst hx), hx]

end Chain

theorem Items.chain (h : Items c s xs t) (hs : s.Ordered) (ht₀ : t.errors = #[]) :
    Chain (sourceUnit .full) c s xs t := by
  induction h with
  | nil s => exact .nil s
  | @cons s v u x xs hne hx hxs ih =>
    obtain ⟨-, hv, -⟩ := took_item hs hne hx
    obtain ⟨us, ds, htook'⟩ := hxs.took hv
    refine .cons ?_ (ih hv ht₀)
    rcases hr : sourceUnit .full c s with ⟨e | y, w⟩
    · have herrors : (recovering SourceUnit.error (sourceUnit .full) c s).2.errors ≠ #[] :=
        recovering_errors_ne (congrArg Prod.fst hr)
      rw [hx] at herrors
      exact absurd (htook'.errors_nil ht₀) herrors
    · have hok : recovering SourceUnit.error (sourceUnit .full) c s = sourceUnit .full c s :=
        recovering_ok (congrArg Prod.fst hr)
      exact hr.symm.trans (hok.symm.trans hx)

/-! ### A text with another one below it -/

/-- Every opening bracket is closed by one of its kind. -/
def wellBracketed (ts : List Token) : Bool := closes [] ts

section

variable {a b : String}

theorem offset_stop (a : String) :
    (tokenize a).stop.stop.offset = byteLength a.toList := Location.offset_advanceBy_origin a.toList

theorem reaches_tokens (a : String) :
    (Motion.upTo (byteLength a.toList)).Reaches (tokenize a).tokens := by
  intro t ht
  have hstop := tokenize_stop_le ht
  have hlt := (tokenize_inOrder a).1 t ht
  rw [offset_stop] at hstop
  exact ⟨hlt.le.trans hstop, hstop⟩

theorem shares_of_append {a b : String} {x : List Char} (h : b.toList = a.toList ++ x) :
    Shares (.upTo (byteLength a.toList)) (Session.ofSource a).context
      (Session.ofSource b).context := by
  refine .upTo rfl rfl fun {i j} hj => ?_
  change sliceBytes i j b.toList = sliceBytes i j a.toList
  rw [h]
  exact sliceBytes_append_right _ hj

theorem shares_below (a b : String) : Shares (.upTo (byteLength a.toList))
    (Session.ofSource a).context (Session.ofSource (a ++ "\n" ++ b)).context :=
  shares_of_append (by rw [String.toList_append, String.toList_append, List.append_assoc])

/-- Tokens of a text, and those that stand behind them, in it and where another text goes on. -/
theorem Passage.At.above {H : Passage} (hmotion : H.motion = .upTo (byteLength a.toList))
    (hempty : H.errors = []) (hnext : H.next₁ = []) (hs₀ : s.errors = #[])
    (hrest : s.rest = (tokenize a).tokens ++ H.next₂) :
    H.At (tokenize a).tokens (tokenize a).tokens (Session.ofSource a).state s := by
  refine .start hempty (Session.ordered_start a) rfl hs₀ ?_ ?_
  · rw [hnext, List.append_nil]
    rfl
  · rw [Passage.move, hmotion, (reaches_tokens a).move_upTo]
    exact hrest

/-- Nothing that is read from a text lies behind it. -/
theorem parse_upTo (a : String) :
    respan (Motion.upTo (byteLength a.toList)).span (parse a).file.items = (parse a).file.items
      ∧ respan (Motion.upTo (byteLength a.toList)).span (recordedErrors a) = recordedErrors a := by
  let H : Passage := .whole (.upTo (byteLength a.toList)) []
  obtain ⟨t, ht, hend, herrors⟩ := exists_items_parse a
  have hknows : H.Knows 0 (Session.ofSource a).context (Session.ofSource a).context :=
    (shares_of_append (List.append_nil _).symm).knows rfl fun _ =>
      (Motion.span_upTo (offset_stop a).le (offset_stop a).le).symm
  have hat : H.At (tokenize a).tokens (tokenize a).tokens (Session.ofSource a).state
      (Session.ofSource a).state := .above rfl rfl rfl rfl (List.append_nil _).symm
  obtain ⟨t', ht', hat'⟩ := items_move (H := H) trivial rfl
    (fun hw => .inr hw) (fun h _ => h.suffix (List.suffix_cons _ _)) hknows ht hend hat
    (reaches_tokens a)
  obtain ⟨hitems, hrecorded⟩ := parse_of_items ht' hat'.rest₂
  refine ⟨hitems.symm, ?_⟩
  rw [hat'.errors, herrors] at hrecorded
  exact hrecorded.symm

theorem start_le_of_recorded {e : SyntaxError} (he : e ∈ recordedErrors a) :
    e.span.start.offset ≤ byteLength a.toList := by
  have hmove := (parse_upTo a).2
  rw [respan_list] at hmove
  have hsame : respan (Motion.upTo (byteLength a.toList)).span e = e :=
    List.map_inj_left.1 (hmove.trans (List.map_id _).symm) e he
  by_contra hlt
  have hoffset := congrArg (·.span.start.offset) hsame
  simp [respan, Placed.respan, Motion.upTo, hlt] at hoffset

theorem recordedErrors_of_errors (h : (parse a).errors = []) : recordedErrors a = [] := by
  rw [parse_errors] at h
  have hlength := congrArg List.length h
  rw [SourceError.sorted, List.length_mergeSort, List.length_append, List.length_map,
    List.length_map, List.length_nil] at hlength
  exact List.eq_nil_of_length_eq_zero (by omega)

/-- The items of a text without errors, or of one that closes its brackets and ends with a semicolon,
are read alike where another text stands below it. -/
theorem items_above (hlex : (tokenize a).errors = [])
    (h : (parse a).errors = [] ∨ wellBracketed ((tokenize a).tokens.map Lexeme.token)
      ∧ ((tokenize a).tokens.map Lexeme.token).getLast? = some (.symbol .semicolon)) :
    ∃ t, Items (Session.ofSource (a ++ "\n" ++ b)).context (Session.ofSource (a ++ "\n" ++ b)).state
        (parse a).file.items t
      ∧ t.rest = respan (Shift.below a.toList).span (tokenize b).tokens
      ∧ t.errors.toList = recordedErrors a := by
  obtain ⟨s, hs, hend, herrors⟩ := exists_items_parse a
  obtain ⟨hitems, hrecorded⟩ := parse_upTo a
  have hrest : (Session.ofSource (a ++ "\n" ++ b)).state.rest
      = (tokenize a).tokens ++ respan (Shift.below a.toList).span (tokenize b).tokens :=
    congrArg Tokenized.tokens (tokenize_below hlex)
  rcases h with h | ⟨hbrackets, hlast⟩
  · have hnone := recordedErrors_of_errors h
    have hs₀ : s.errors = #[] := Array.toList_eq_nil_iff.1 (herrors.trans hnone)
    have hts : (Session.ofSource a).state.rest = (tokenize a).tokens ++ s.rest := by
      rw [hend, List.append_nil]
      rfl
    rw [← (reaches_tokens a).move_upTo] at hrest
    have hstart := Session.ordered_start a
    obtain ⟨t, ht, hrest', herrors'⟩ := (hs.chain hstart hs₀).moved portable_sourceUnit
      (shares_below a b) hstart hs₀ hts (reaches_tokens a) hrest rfl
    rw [hitems] at ht
    exact ⟨t, ht.items (Session.ordered_start _), hrest', by rw [hnone, herrors']⟩
  · let H : Passage := .bracketed (.upTo (byteLength a.toList))
      (respan (Shift.below a.toList).span (tokenize b).tokens)
    have hclosing : H.inside 0 (tokenize a).tokens :=
      ⟨reaches_tokens a, hlast, [], hbrackets, Nat.zero_le _⟩
    have hat : H.At (tokenize a).tokens (tokenize a).tokens (Session.ofSource a).state
        (Session.ofSource (a ++ "\n" ++ b)).state :=
      .above rfl rfl rfl rfl hrest
    have hknows : H.Knows 0 (Session.ofSource a).context (Session.ofSource (a ++ "\n" ++ b)).context :=
      (shares_below a b).knows rfl fun hin => absurd rfl hin.ne_nil
    have hskip {l : Lexeme} {w : List Lexeme} (hin : H.inside 0 (l :: w))
        (hl : l.token ≠ .symbol .semicolon) : H.inside 0 w :=
      hin.behind (hin.tail_ne_nil hl) fun _ _ _ _ => Nat.zero_le _
    obtain ⟨t, ht, hat'⟩ := items_move (H := H) trivial rfl id hskip hknows hs hend hat (.inr hclosing)
    have hmoved : H.move (parse a).file.items = (parse a).file.items := hitems
    rw [hmoved] at ht
    refine ⟨t, ht, hat'.rest₂, ?_⟩
    rw [hat'.errors, herrors]
    exact hrecorded

/-- The items of a text are read alike where another one stands above it. -/
theorem items_below (hlex : (tokenize a).errors = [])
    (hrest : t.rest = respan (Shift.below a.toList).span (tokenize b).tokens)
    (herrors : t.errors.toList = recordedErrors a) :
    ∃ u, Items (Session.ofSource (a ++ "\n" ++ b)).context t
        (respan (Shift.below a.toList).span (parse b).file.items) u
      ∧ u.rest = []
      ∧ u.errors.toList
        = recordedErrors a ++ respan (Shift.below a.toList).span (recordedErrors b) := by
  obtain ⟨s, hs, hend, hrecorded⟩ := exists_items_parse b
  let H : Passage :=
    .whole ((Shift.below a.toList).motion rfl (byteLength b.toList)) (recordedErrors a)
  have hin : H.inside 0 (tokenize b).tokens := reaches_tokens b
  have hat : H.At (tokenize b).tokens (tokenize b).tokens (Session.ofSource b).state t := by
    refine ⟨List.suffix_refl _, (List.append_nil _).symm, ?_, fun hne => absurd rfl hne, ?_,
      Session.ordered_start b⟩
    · exact hrest.trans (List.append_nil _).symm
    · exact herrors.trans (List.append_nil _).symm
  have hknows : H.Knows 0 (Session.ofSource b).context (Session.ofSource (a ++ "\n" ++ b)).context := by
    refine ⟨rfl, fun _ => rfl, fun _ => congrArg Tokenized.stop (tokenize_below hlex),
      fun {i j} _ _ => ?_⟩
    have hsource : (Session.ofSource (a ++ "\n" ++ b)).context.source
        = (a.toList ++ ['\n']) ++ b.toList := by
      simp [Session.ofSource, Session.context]
    have hbytes : (Shift.below a.toList).bytes = byteLength (a.toList ++ ['\n']) := by
      rw [byteLength_append]
      rfl
    change sliceBytes (i.offset + (Shift.below a.toList).bytes)
      (j.offset + (Shift.below a.toList).bytes) _ = _
    rw [hsource, hbytes]
    exact sliceBytes_append_left _ _ _ _
  obtain ⟨u, hu, hat'⟩ := items_move (H := H) trivial rfl .inr
    (fun hin _ => hin.suffix (List.suffix_cons _ _)) hknows hs hend hat hin
  refine ⟨u, hu, hat'.rest₂, ?_⟩
  rw [hat'.errors, hrecorded]
  rfl

/-- The items and errors of a text with another one on the lines below it are those of both, if it has
no lexical faults, and no other ones or brackets that are closed and a semicolon at its end. -/
theorem parse_below (hlex : (tokenize a).errors = [])
    (h : (parse a).errors = [] ∨ wellBracketed ((tokenize a).tokens.map Lexeme.token)
      ∧ ((tokenize a).tokens.map Lexeme.token).getLast? = some (.symbol .semicolon)) :
    (parse (a ++ "\n" ++ b)).file.items
        = (parse a).file.items ++ respan (Shift.below a.toList).span (parse b).file.items
      ∧ (parse (a ++ "\n" ++ b)).errors
        = (parse a).errors ++ respan (Shift.below a.toList).span (parse b).errors := by
  obtain ⟨t, habove, hrest, herrors⟩ := items_above (b := b) hlex h
  obtain ⟨u, hbelow, hend, hrecorded⟩ := items_below hlex hrest herrors
  obtain ⟨hitems, hall⟩ := parse_of_items (habove.append hbelow) hend
  refine ⟨hitems, ?_⟩
  have hreach : byteLength a.toList < (Shift.below a.toList).bytes := Nat.lt_succ_self _
  rw [parse_errors, parse_errors, parse_errors, hall, hrecorded, tokenize_below hlex, hlex,
    SourceError.sorted_below hreach fun _ => start_le_of_recorded]

/-- A contract with an error in it, and one without errors, stand above a text with an error. -/
theorem parse_below_contract :
    ((parse "contract C \x7b 1; \x7d ;").errors ≠ []
      ∧ (parse ("contract C \x7b 1; \x7d ;" ++ "\n" ++ "1;")).file.items
          = (parse "contract C \x7b 1; \x7d ;").file.items
            ++ respan (Shift.span ⟨20, 1, 0⟩) (parse "1;").file.items
      ∧ (parse ("contract C \x7b 1; \x7d ;" ++ "\n" ++ "1;")).errors
          = (parse "contract C \x7b 1; \x7d ;").errors
            ++ respan (Shift.span ⟨20, 1, 0⟩) (parse "1;").errors)
    ∧ (parse ("contract C \x7b\x7d" ++ "\n" ++ "1;")).file.items
        = (parse "contract C \x7b\x7d").file.items
          ++ respan (Shift.span ⟨14, 1, 0⟩) (parse "1;").file.items
    ∧ (parse ("contract C \x7b\x7d" ++ "\n" ++ "1;")).errors
        = (parse "contract C \x7b\x7d").errors
          ++ respan (Shift.span ⟨14, 1, 0⟩) (parse "1;").errors := by
  obtain ⟨hbroken, hlex, hclosed⟩ :
      (recordedErrors "contract C \x7b 1; \x7d ;").isEmpty = false
        ∧ (tokenize "contract C \x7b 1; \x7d ;").errors.isEmpty
        ∧ wellBracketed ((tokenize "contract C \x7b 1; \x7d ;").tokens.map Lexeme.token)
        ∧ ((tokenize "contract C \x7b 1; \x7d ;").tokens.map Lexeme.token).getLast?
          = some (.symbol .semicolon) := by
    rw [recordedErrors, Session.ofSource_ofList, tokenize_ofList]
    decide +kernel
  obtain ⟨hclean, hlex'⟩ : (parse "contract C \x7b\x7d").hasErrors = false
      ∧ (tokenize "contract C \x7b\x7d").errors.isEmpty := by
    rw [parse_ofList, tokenize_ofList]
    decide +kernel
  have hshift : Shift.below "contract C \x7b 1; \x7d ;".toList = ⟨20, 1, 0⟩ :=
    congrArg₂ (Shift.mk · · 0) (by decide) (by decide)
  have hshift' : Shift.below "contract C \x7b\x7d".toList = ⟨14, 1, 0⟩ :=
    congrArg₂ (Shift.mk · · 0) (by decide) (by decide)
  have hne : (parse "contract C \x7b 1; \x7d ;").errors ≠ [] := by
    intro hnil
    rw [recordedErrors_of_errors hnil] at hbroken
    exact absurd hbroken (by decide)
  have hnil : (parse "contract C \x7b\x7d").errors = [] := by
    simpa [ParseOutput.hasErrors] using hclean
  refine ⟨⟨hne, ?_⟩, ?_⟩
  · rw [← hshift]
    exact parse_below (List.isEmpty_iff.1 hlex) (.inr hclosed)
  · rw [← hshift']
    exact parse_below (List.isEmpty_iff.1 hlex') (.inl hnil)

end

end SolidityFrontend
