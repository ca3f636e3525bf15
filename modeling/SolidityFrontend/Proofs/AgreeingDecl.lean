import SolidityFrontend.Proofs.AgreeingStmt
import SolidityFrontend.Proofs.ReadingFile
import SolidityFrontend.Proofs.VersionPlaces

/-!
# Directives and declarations in two readings

What ends with a closing brace or with a semicolon at the top of a file may leave the passage, and
then it is an item, which the readings of a passage follow alike.
-/

namespace SolidityFrontend

open SolidityFrontend.Parser

namespace Grammar

variable {H : Passage} {k n : Nat}

/-! ### The ends of items -/

section

variable {α : Type} [Placed α] {I : Stage} {f f' : Span → Parser α} {O : α → Stage}

theorem takes_unexpected {α : Type} (e : Expected) : Takes (unexpected (α := α) e) := by
  have hfails : Reads False (unexpected (α := α) e) fun _ => ⊥ :=
    reads_of_after fun c s => after_unexpected _
  exact hfails.takes fun _ _ _ _ h => h.elim

theorem takes_symbol (t : Symbol) : Takes (symbol t) :=
  (reads_symbol t).takes fun _ => Phrase.takes_token _

variable [H.Braced]

/-- An item that a semicolon ends. -/
theorem follows_semicolon [Within H n I] [Behind I]
    (hf : ∀ x, Agrees H (n + 1) n (H.behind n) (f x) (f' (H.move x)) O) :
    Follows H n I (symbol .semicolon >>= f) (symbol .semicolon >>= f') O :=
  (agrees_lastSemicolon.bind hf).follows fun _ =>
    (takes_symbol .semicolon).bind fun x => (hf x).onward

/-- An item that a brace closes. -/
theorem follows_brace [Within H (n + 1) I] [Behind I]
    (hf : ∀ x, Agrees H (n + 1) n (H.behind n) (f x) (f' (H.move x)) O) :
    Follows H n I (symbol .rightBrace >>= f) (symbol .rightBrace >>= f') O :=
  (agrees_lastBrace.bind hf).follows fun _ =>
    (takes_symbol .rightBrace).bind fun x => (hf x).onward

end

/-! ### Pragmas -/

theorem span_spanWithin (m : Motion) {origin : Location} {text : List Char} {a b : Nat}
    (ha : origin.offset + a ≤ m.reach) (hb : origin.offset + b ≤ m.reach) :
    spanWithin (m.location origin) text a b = m.span (spanWithin origin text a b) := by
  unfold spanWithin
  refine congrArg₂ Span.mk (m.along origin a _ ha).symm ?_
  dsimp only
  rw [← Position.advanceBy_append, ← Position.advanceBy_append]
  exact (m.along origin b _ hb).symm

section

variable {m : Motion} {origin : Location} {text : List Char}
  (hreach : origin.offset + byteLength text ≤ m.reach)
include hreach

theorem trimmedSpan_move :
    trimmedSpan (m.location origin) text = m.span (trimmedSpan origin text) := by
  have hleading := Version.byteLength_takeWhile_le Text.isBlank text
  have htrimmed := Version.byteLength_trimEnd_le text
  exact span_spanWithin m (by omega) (by omega)

theorem versionValue_move : versionValue (m.location origin) text
    = (versionValue origin text).map (respan m.span) := by
  unfold versionValue
  split
  · rfl
  · split
    · rename_i alternatives halternatives
      have hinside := (Version.parse_spec halternatives).2
      have htrimmed := Version.byteLength_trimEnd_le text
      rw [trimmedSpan_move hreach]
      refine congrArg (fun kss => Except.ok (PragmaValue.version ⟨kss, _⟩)) ?_
      rw [respan_list, List.map_map]
      refine List.map_congr_left fun ks hks => ?_
      rw [Function.comp_apply, respan_list, List.map_map]
      refine List.map_congr_left fun k hk => ?_
      obtain ⟨-, hle, hstop⟩ := hinside ks hks k hk
      exact congrArg (VersionConstraint.mk k.operator k.version)
        (span_spanWithin m (by omega) (by omega))
    · rfl

end

theorem onward_pragmaValue (name : Identifier) (text : List Char) :
    Onward (pragmaValue name text) := by
  refine .ite (fun _ => ?_) fun _ => onward_pure _
  split
  · exact onward_pure _
  · exact (onward_record _).bind fun _ => onward_pure _

theorem agrees_pragmaValue {I : Stage} {name : Identifier} {text : List Char}
    (hreach : name.span.stop.offset + byteLength text ≤ H.motion.reach) :
    Agrees H k n I (pragmaValue name text) (pragmaValue (H.move name) text) fun _ => I := by
  have hspan : trimmedSpan (H.move name).span.stop text
      = H.motion.span (trimmedSpan name.span.stop text) := trimmedSpan_move hreach
  have hversion : versionValue (H.move name).span.stop text
      = (versionValue name.span.stop text).map H.move := versionValue_move hreach
  unfold pragmaValue
  dsimp only
  rw [hspan, hversion]
  refine agrees_ite (fun _ => ?_) fun _ => agrees_value rfl
  cases versionValue name.span.stop text with
  | ok value => exact agrees_value rfl
  | error v => exact (agrees_record rfl).bind fun _ => agrees_value rfl

/-- A name that was read lies within reach. -/
theorem agrees_identifier_within {I : Stage} [Within H n I] : Agrees H k n I identifier identifier
    fun i w₀ w => H.amid n w₀ w ∧ i.span.stop.offset ≤ H.motion.reach where
  onward := (agrees_identifier (H := H) (k := k) (I := I)).onward
  run c c' hc w₀ w s s' hs hw := by
    refine (agrees_identifier.same hc hs hw).imp_left fun hsame => ?_
    have heffect := reads_identifier (q := True) c s hs.ordered
    generalize identifier c s = a, identifier c' s' = a' at hsame heffect ⊢
    cases hsame with
    | error he ht hv => exact .error he ht hv
    | @ok i i' t t' v hi ht hO =>
      refine .ok hi ht ⟨hO, ?_⟩
      obtain ⟨ts, es, htook, ⟨l, rfl, -, -, hspan⟩, -⟩ := heffect.reached
      have hrest := htook.1
      rw [hs.rest₁, ht.rest₁] at hrest
      have hwhole : w = l :: v := List.append_cancel_right hrest
      rw [← hspan]
      exact (H.le_reach (Within.inside hw) (by rw [hwhole]; exact List.mem_cons_self)).2

/-- Where nothing but a semicolon ends a part, its value may be left: any token leads on. -/
theorem agrees_skipPragmaValue (hskip : ∀ {t w}, H.inside 0 (t :: w) →
    t.token ≠ .symbol .semicolon → H.inside 0 w) :
    Agrees H k 0 (H.before 0) skipPragmaValue skipPragmaValue fun _ => H.before 0 := by
  have hleads {t : Token} (ht : ¬endsPragma t = true) : H.Leads t 0 0 := by
    rintro l w rfl hw
    exact hskip hw fun h => ht (by rw [h]; rfl)
  refine (agrees_many ?_).bind fun _ => agrees_value rfl
  refine agrees_next fun next => ?_
  cases next with
  | none => exact agrees_pure rfl fun _ _ => And.left
  | some t =>
    refine agrees_ite (fun _ => agrees_pure rfl fun _ _ => And.left) fun ht => ?_
    exact (agrees_advance (hleads ht)).bind fun _ => agrees_pure rfl fun _ _ => id

/-- The end of a pragma whose text is known. -/
def pragmaEnd (start : Span) (name : Identifier) (text : List Char) : Parser PragmaDirective := do
  let _ ← symbol .semicolon
  let value ← pragmaValue name text
  return ⟨name, value, ← spanFrom start⟩

/-- A pragma behind the tokens of its value. -/
def pragmaRest (start : Span) (name : Identifier) : Parser PragmaDirective := do
  let stop ← if ← nextIs (.symbol .semicolon) then pure (← here).start.offset
    else pure (← previousSpan).stop.offset
  pragmaEnd start name ((sliceBytes name.span.stop.offset stop (← context).source).getD [])

/-- A symbol that does not follow. -/
theorem agrees_symbol_lacking {I : Stage} [Within H n I] [Behind I] {t : Symbol} :
    Agrees H k n (lacking I (.symbol t)) (symbol t) (symbol t) fun _ _ _ => False := by
  refine agrees_closing_of le_rfl (agrees_advance_of fun hl hI _ => ?_)
  exact hI.2 (by simp [hl])

theorem onward_pragmaEnd (start : Span) (name : Identifier) (text : List Char) :
    Onward (pragmaEnd start name text) :=
  (onward_symbol _).bind fun _ => (onward_pragmaValue name text).bind fun _ =>
    (onward_spanFrom start).bind fun _ => onward_pure _

theorem agrees_pragmaEnd {start : Span} {name : Identifier} {text : List Char}
    (hreach : name.span.stop.offset + byteLength text ≤ H.motion.reach) :
    Agrees H k 0 (H.amid 0) (pragmaEnd start name text)
      (pragmaEnd (H.motion.span start) (H.move name) text) fun _ => H.behind 0 := by
  have hsemicolon : Agrees H k 0 (seeing (H.amid 0) (some (.symbol .semicolon))) advance advance
      fun _ => H.behind 0 :=
    agrees_advance_of fun hl hI hne => ⟨H.leave_cons hI.1 (.inr hl), hne⟩
  refine (agrees_closing_of le_rfl hsemicolon).bind fun _ => ?_
  refine (agrees_pragmaValue hreach).bind fun value => ?_
  exact agrees_spanFrom fun span => agrees_value rfl

/-- The text of a pragma up to an offset in the source. -/
def pragmaText (name : Identifier) (stop : Nat) (c : Context) : List Char :=
  (sliceBytes name.span.stop.offset stop c.source).getD []

theorem onward_pragmaUpTo (start : Span) (name : Identifier) (stop : Nat) :
    Onward (pure stop >>= fun stop => context >>= fun c =>
      pragmaEnd start name (pragmaText name stop c)) :=
  (onward_pure stop).bind fun _ => looks_context.onward.bind fun _ => onward_pragmaEnd _ _ _

theorem onward_pragmaRest (start : Span) (name : Identifier) : Onward (pragmaRest start name) :=
  (peeks_nextIs _).looks.onward.bind fun _ => .ite
    (fun _ => looks_here.onward.bind fun _ => onward_pragmaUpTo start name _)
    fun _ => looks_previousSpan.onward.bind fun _ => onward_pragmaUpTo start name _

/-- Both readings find the same text before the semicolon. Without one they fail, whatever the
text. -/
theorem agrees_pragmaRest {start : Span} {name : Identifier}
    (hname : name.span.stop.offset ≤ H.motion.reach) :
    Agrees H k 0 (H.amid 0) (pragmaRest start name)
      (pragmaRest (H.motion.span start) (H.move name)) fun _ => H.behind 0 := by
  refine agrees_nextIs ?_ ?_
  · refine ⟨looks_here.onward.bind fun _ => onward_pragmaUpTo start name _, ?_⟩
    rintro c c' hc w₀ (_ | ⟨l, w⟩) s s' hs ⟨hw, hl⟩
    · simp at hl
    have hspan : s.nextSpan c.stop = l.span := by
      rw [State.nextSpan, hs.rest₁]
      rfl
    have hstop := (H.le_reach hw.1 List.mem_cons_self).1
    have htext : pragmaText (H.move name) (H.motion.span l.span).start.offset c'
        = pragmaText name l.span.start.offset c := congrArg (Option.getD · []) (hc.slice hname hstop)
    have hreach : name.span.stop.offset + byteLength (pragmaText name l.span.start.offset c)
        ≤ H.motion.reach := by
      have hlength := byteLength_sliceBytes_le name.span.stop.offset l.span.start.offset c.source
      unfold pragmaText
      omega
    change Same H 0 w₀ _
        (pragmaEnd start name (pragmaText name (s.nextSpan c.stop).start.offset c) c s)
        (pragmaEnd _ _ (pragmaText (H.move name) (s'.nextSpan c'.stop).start.offset c') c' s')
      ∨ H.Lost k
        (pragmaEnd start name (pragmaText name (s.nextSpan c.stop).start.offset c) c s).2
    rw [nextSpan_eq hc hs hw.1, hspan, htext]
    exact (agrees_pragmaEnd hreach).same hc hs hw
  · refine ⟨looks_previousSpan.onward.bind fun _ => onward_pragmaUpTo start name _, ?_⟩
    intro c c' hc w₀ w s s' hs hw
    have hfail (text text' : List Char) : Agrees H k 0 (lacking (H.amid 0) (.symbol .semicolon))
        (pragmaEnd start name text) (pragmaEnd (H.motion.span start) (H.move name) text')
        fun _ => H.behind 0 := by
      refine agrees_symbol_lacking.bind fun _ => ⟨?_, fun _ _ _ _ _ _ _ _ h => h.elim⟩
      exact (onward_pragmaValue name text).bind fun _ =>
        (onward_spanFrom start).bind fun _ => onward_pure _
    exact (hfail _ _).same hc hs hw

theorem follows_pragmaDirective (hskip : ∀ {t w}, H.inside 0 (t :: w) →
    t.token ≠ .symbol .semicolon → H.inside 0 w) :
    Follows H 0 (H.before 0) pragmaDirective pragmaDirective fun _ => H.behind 0 := by
  have hvalue : Agrees H 1 0 (H.amid 0) skipPragmaValue skipPragmaValue fun _ => H.amid 0 :=
    (agrees_skipPragmaValue hskip).amid fun _ _ _ => id
  have hagrees : Agrees H 1 0 (H.before 0) pragmaDirective pragmaDirective
      fun _ => H.behind 0 := by
    refine (agrees_keyword .pragma).bind fun start => agrees_identifier_within.bind fun name => ?_
    refine agrees_of_stage (hvalue.onward.bind fun _ => onward_pragmaRest start name) fun hname => ?_
    exact hvalue.bind fun _ => agrees_pragmaRest hname
  exact hagrees.follows fun _ => reads_pragmaDirective.takes fun d => Phrase.takes_covered _ _

/-! ### Imports -/

theorem agrees_importPath : Agrees H k n (H.before n) importPath importPath fun _ => H.amid n :=
  agrees_stringText.bind fun _ => agrees_value rfl

theorem agrees_renaming? : Agrees H k n (H.before n) renaming? renaming?
    fun o => stepped H n o.isSome := by
  refine agrees_if_accept (Passage.leads_inner rfl) ?_ (agrees_pure rfl fun _ _ => id)
  exact agrees_identifier.bind fun i => agrees_pure rfl fun _ _ => id

theorem agrees_importAlias :
    Agrees H k n (H.before n) importAlias importAlias fun _ => H.amid n := by
  refine agrees_identifier.bind fun name => ?_
  refine (agrees_renaming?.amid fun _ _ _ => inside_of_stepped).bind fun renamed => ?_
  exact agrees_spanFrom fun span => agrees_value (by simp)

theorem agrees_wildcardImport :
    Agrees H k n (H.before n) wildcardImport wildcardImport fun _ => H.amid n := by
  refine (agrees_symbol rfl (Passage.leads_inner rfl)).bind fun star => ?_
  refine (agrees_word _).bind fun _ => agrees_identifier.bind fun name => ?_
  exact agrees_spanFrom fun span => agrees_value (by simp)

theorem agrees_multipleImport [H.Braced] : Parser.Agreed H n multipleImport := by
  refine (agrees_symbol rfl Passage.leads_leftBrace).bind fun start => ?_
  refine ((agrees_separated agrees_importAlias.of_before).lower (Nat.le_succ n)).bind
    fun symbols => ?_
  refine agrees_rightBrace.bind fun _ => ?_
  exact agrees_spanFrom fun span => agrees_value (by simp)

theorem agrees_namedImport :
    Agrees H k n (H.before n) namedImport namedImport fun _ => H.amid n := by
  refine agrees_identifier.bind fun name => ?_
  refine (agrees_renaming?.amid fun _ _ _ => inside_of_stepped).bind fun renamed => ?_
  exact agrees_spanFrom fun span => agrees_value (by simp)

theorem agrees_importFrom {clause : Parser ImportClause} (h : Parser.Agreed H n clause) :
    Parser.Agreed H n (importFrom clause) := by
  refine h.bind fun c => (agrees_word _).bind fun _ => ?_
  exact agrees_importPath.then fun p => agrees_value rfl

theorem agrees_importTarget [H.Braced] : Parser.Agreed H n importTarget := by
  refine agrees_next fun next => ?_
  split
  · refine agrees_importPath.then fun p => ?_
    refine (agrees_renaming?.amid fun _ _ _ => inside_of_stepped).bind fun renamed => ?_
    exact agrees_value rfl
  · exact (agrees_importFrom agrees_wildcardImport).of_before
  · exact (agrees_importFrom agrees_multipleImport).of_before
  · exact (agrees_importFrom agrees_namedImport).of_before
  · exact agrees_unexpected le_rfl _

theorem follows_importDirective [H.Braced] :
    Follows H n (H.before n) importDirective importDirective fun _ => H.behind n := by
  refine (agrees_keyword .import_).bind_follows fun start => ?_
  refine agrees_importTarget.of_before.bind_follows fun x => ?_
  obtain ⟨p, renamed, clause⟩ := x
  refine follows_semicolon (I := H.amid n) fun _ => ?_
  exact agrees_spanFrom fun span => agrees_value (by simp)

/-! ### Attributes -/

theorem agrees_overrideSpecifier : Parser.Agreed H n overrideSpecifier := by
  refine (agrees_word _).bind fun start => ?_
  have hspan (overrides : List Path) : Agrees H n n (H.amid n)
      (pure overrides >>= fun paths => spanFrom start >>= fun span =>
        pure (OverrideSpecifier.mk paths span))
      (pure (H.move overrides) >>= fun paths => spanFrom (H.motion.span start) >>= fun span =>
        pure (OverrideSpecifier.mk paths span)) fun _ => H.amid n :=
    (agrees_value rfl).bind fun paths => agrees_spanFrom fun span => agrees_value (by simp)
  refine agrees_if_accept (Passage.leads_inner rfl) ?_ (hspan [])
  refine (agrees_separated agrees_path.of_before).bind fun paths => ?_
  exact (agrees_closing (Passage.leads_inner rfl)).bind fun _ => hspan paths

theorem variableAttribute?_move (word : String) (span : Span) :
    variableAttribute? word (H.motion.span span) = H.move (variableAttribute? word span) := by
  unfold variableAttribute?
  cases Visibility.ofWord? word with
  | some v => rfl
  | none =>
    dsimp only
    split
    · rfl
    · split
      · rfl
      · rfl

theorem functionAttribute?_move (word : String) (span : Span) :
    functionAttribute? word (H.motion.span span) = H.move (functionAttribute? word span) := by
  unfold functionAttribute?
  split
  · rfl
  · rfl
  · split
    · rfl
    · rfl

theorem agrees_variableAttributes : Agrees H n n (H.before n) variableAttributes
    variableAttributes fun _ => H.before n := by
  refine agrees_many (agrees_here fun span => ?_)
  refine agrees_nextWord (fun name => ?_) (agrees_pure rfl fun _ _ => id)
  dsimp only
  rw [variableAttribute?_move]
  cases variableAttribute? name span with
  | some a =>
    refine (agrees_advance (Passage.leads_inner rfl)).bind fun _ => ?_
    exact agrees_pure rfl fun _ _ => id
  | none =>
    refine agrees_ite (fun _ => ?_) fun _ => agrees_pure rfl fun _ _ => And.left
    exact agrees_overrideSpecifier.then fun o => agrees_pure rfl fun _ _ => id

section

variable {deeper : Nested} (hd : deeper.Agreed) [H.Braced]
include hd

theorem agrees_modifierInvocation : Parser.Agreed H n (modifierInvocation deeper) := by
  refine agrees_path.bind fun p => ?_
  refine ((agrees_callArguments? hd).amid fun _ _ _ => inside_of_stepped).bind fun arguments => ?_
  exact agrees_spanFrom fun span => agrees_value (by simp)

theorem agrees_functionAttributes : Agrees H n n (H.before n) (functionAttributes deeper)
    (functionAttributes deeper) fun _ => H.before n := by
  refine agrees_many (agrees_here fun span => ?_)
  refine agrees_nextWord (fun name => ?_) (agrees_pure rfl fun _ _ => id)
  dsimp only
  rw [functionAttribute?_move]
  cases functionAttribute? name span with
  | some a =>
    refine (agrees_advance (Passage.leads_inner rfl)).bind fun _ => ?_
    exact agrees_pure rfl fun _ _ => id
  | none =>
    refine agrees_ite (fun _ => ?_) fun _ => ?_
    · exact agrees_overrideSpecifier.then fun o => agrees_pure rfl fun _ _ => id
    · exact (agrees_modifierInvocation hd).then fun m => agrees_pure rfl fun _ _ => id

/-! ### Functions -/

theorem follows_functionBody {I : Stage} [Within H n I] [Behind I] {α : Type} [Placed α]
    {f f' : Option Block → Parser α} {O : α → Stage}
    (hf : ∀ x, Agrees H (n + 1) n (H.behind n) (f x) (f' (H.move x)) O) :
    Follows H n I (functionBody deeper >>= f) (functionBody deeper >>= f') O := by
  have htakes : Takes (functionBody deeper) := (reads_functionBody hd.toSound).takes fun b => by
    cases b with
    | none => exact Phrase.takes_token _
    | some b =>
      cases b with
      | mk statements span => exact Phrase.takes_covered _ _
  have hsemicolon : Agrees H (n + 1) n (seeing I (some (.symbol .semicolon))) advance advance
      fun _ => H.behind n :=
    agrees_advance_of fun hl hI hne => ⟨Passage.landing_of_semicolon hl (Within.inside hI), hne⟩
  have hbody : Agrees H (n + 1) n I (functionBody deeper) (functionBody deeper)
      fun _ => H.behind n := by
    refine (agrees_accept_of hsemicolon).bind fun b => ?_
    cases b with
    | true => exact agrees_value rfl
    | false =>
      have hblock : Agrees H (n + 1) n I (block deeper) (block deeper) fun _ => H.behind n :=
        (agrees_block hd).of_before
      exact hblock.bind fun b => agrees_value rfl
  exact (hbody.bind hf).follows fun _ => htakes.bind fun x => (hf x).onward

theorem follows_functionDefinition : Follows H n (H.before n) (functionDefinition deeper)
    (functionDefinition deeper) fun _ => H.behind n := by
  refine (agrees_keyword .function).bind_follows fun start => ?_
  refine agrees_identifier.bind_follows fun name => ?_
  refine (agrees_parameters hd).of_before.bind_follows fun ps => ?_
  refine ((agrees_functionAttributes hd).amid fun _ _ _ => id).bind_follows fun attributes => ?_
  refine ((agrees_returnParameters hd).amid fun _ _ _ => id).bind_follows fun returns => ?_
  refine follows_functionBody hd fun inner => ?_
  exact agrees_spanFrom fun span => agrees_value (by simp)

theorem follows_modifierDefinition : Follows H n (H.before n) (modifierDefinition deeper)
    (modifierDefinition deeper) fun _ => H.behind n := by
  refine (agrees_keyword .modifier).bind_follows fun start => ?_
  refine agrees_identifier.bind_follows fun name => ?_
  refine follows_if_nextIs (M := fun _ => H.amid n)
    ((agrees_parameters hd).of_before) (agrees_value rfl) fun ps => ?_
  refine ((agrees_functionAttributes hd).amid fun _ _ _ => id).bind_follows fun attributes => ?_
  refine follows_functionBody hd fun inner => ?_
  exact agrees_spanFrom fun span => agrees_value (by simp)

theorem follows_constructorDefinition : Follows H n (H.before n) (constructorDefinition deeper)
    (constructorDefinition deeper) fun _ => H.behind n := by
  refine (agrees_keyword .constructor).bind_follows fun start => ?_
  refine (agrees_parameters hd).of_before.bind_follows fun ps => ?_
  refine ((agrees_functionAttributes hd).amid fun _ _ _ => id).bind_follows fun attributes => ?_
  refine follows_functionBody hd fun inner => ?_
  exact agrees_spanFrom fun span => agrees_value (by simp)

theorem follows_fallbackRest (kind : FallbackKind) (start : Span) :
    Follows H n (H.amid n) (fallbackRest deeper kind start)
      (fallbackRest deeper kind (H.motion.span start)) fun _ => H.behind n := by
  refine (agrees_parameters hd).of_before.bind_follows fun ps => ?_
  refine ((agrees_functionAttributes hd).amid fun _ _ _ => id).bind_follows fun attributes => ?_
  refine follows_functionBody hd fun inner => ?_
  exact agrees_spanFrom fun span => agrees_value (by simp)

theorem follows_namelessFallback : Follows H n (H.before n) (namelessFallback deeper)
    (namelessFallback deeper) fun _ => H.behind n :=
  (agrees_keyword .function).bind_follows fun start => follows_fallbackRest hd _ start

theorem follows_fallbackDefinition (kind : FallbackKind) : Follows H n (H.before n)
    (fallbackDefinition deeper kind) (fallbackDefinition deeper kind) fun _ => H.behind n :=
  (agrees_word _).bind_follows fun start => follows_fallbackRest hd kind start

/-! ### Variables, structs, enumerations and events -/

theorem agrees_stateVariable : Parser.Agreed H (n + 1) (stateVariable deeper) := by
  refine agrees_here fun start => (hd.typeName_agreed H _).bind fun type => ?_
  refine (agrees_variableAttributes.amid fun _ _ _ => id).bind fun attributes => ?_
  refine agrees_identifier.bind fun name => ?_
  refine agrees_if_accept_bind (M := fun _ => H.amid (n + 1)) (Passage.leads_inner rfl)
    ((hd.expression_agreed H _).of_before.map (fun _ => rfl) fun _ _ _ => id) (agrees_value rfl)
    fun value => ?_
  refine (agrees_closing Passage.leads_semicolon).bind fun _ => ?_
  exact agrees_spanFrom fun span => agrees_value (by simp)

theorem follows_constantDeclaration : Follows H n (H.before n) (constantDeclaration deeper)
    (constantDeclaration deeper) fun _ => H.behind n := by
  refine follows_here fun start => (hd.typeName_agreed H n).bind_follows fun type => ?_
  refine (agrees_word _).bind_follows fun _ => agrees_identifier.bind_follows fun name => ?_
  refine (agrees_symbol rfl (Passage.leads_inner rfl)).bind_follows fun _ => ?_
  refine (hd.expression_agreed H n).of_before.bind_follows fun value => ?_
  refine follows_semicolon fun _ => ?_
  exact agrees_spanFrom fun span => agrees_value (by simp)

theorem agrees_structMember : Parser.Agreed H (n + 1) (structMember deeper) := by
  refine agrees_here fun start => (hd.typeName_agreed H _).bind fun type => ?_
  refine agrees_identifier.bind fun name => ?_
  refine (agrees_closing Passage.leads_semicolon).bind fun _ => ?_
  exact agrees_spanFrom fun span => agrees_value (by simp)

theorem follows_structDeclaration : Follows H n (H.before n) (structDeclaration deeper)
    (structDeclaration deeper) fun _ => H.behind n := by
  refine (agrees_keyword .struct).bind_follows fun start => ?_
  refine agrees_identifier.bind_follows fun name => ?_
  refine (agrees_symbol rfl Passage.leads_leftBrace).bind_follows fun _ => ?_
  have hmembers : Agrees H n n (H.amid (n + 1))
      (itemsUntil .rightBrace (pure true) (structMember deeper))
      (itemsUntil .rightBrace (pure true) (structMember deeper)) fun _ => H.amid (n + 1) := by
    have hitems : Agrees H (n + 1) (n + 1) (H.amid (n + 1))
        (itemsUntil .rightBrace (pure true) (structMember deeper))
        (itemsUntil .rightBrace (pure true) (structMember deeper)) fun _ => H.amid (n + 1) :=
      agrees_itemsUntil (agrees_structMember hd) (agrees_value rfl)
    exact (hitems.loosen (Nat.le_succ n)).lower (Nat.le_succ n)
  refine hmembers.bind_follows fun members => follows_brace fun _ => ?_
  refine agrees_spanFrom fun span => ?_
  rw [isEmpty_respan]
  refine agrees_ite (fun _ => ?_) fun _ => ?_
  · exact (agrees_record rfl).bind fun _ => agrees_value (by simp)
  · exact agrees_value (by simp)

omit hd in
theorem follows_enumDeclaration : Follows H n (H.before n) enumDeclaration enumDeclaration
    fun _ => H.behind n := by
  refine (agrees_keyword .enum).bind_follows fun start => ?_
  refine agrees_identifier.bind_follows fun name => ?_
  refine (agrees_symbol rfl Passage.leads_leftBrace).bind_follows fun _ => ?_
  refine ((agrees_commaItems agrees_identifier).lower (Nat.le_succ n)).bind_follows fun values => ?_
  refine follows_brace fun _ => ?_
  exact agrees_spanFrom fun span => agrees_value (by simp)

omit hd [H.Braced] in
theorem agrees_acceptWord {I : Stage} [Within H n I] (w : String) :
    Agrees H k n I (acceptWord w) (acceptWord w) fun b => if b then H.amid n else I :=
  agrees_accept (Passage.leads_inner rfl)

theorem agrees_eventParameter : Parser.Agreed H n (eventParameter deeper) := by
  refine agrees_here fun start => (hd.typeName_agreed H _).bind fun type => ?_
  refine (agrees_acceptWord "indexed").bind fun isIndexed => ?_
  refine ((agrees_identifier?.amid fun _ _ _ => inside_of_stepped).weaken fun w₀ w hw => ?_).bind
    fun name => agrees_spanFrom fun span => agrees_value (by simp)
  exact (ite_self (H.amid n) ▸ hw)

theorem follows_eventDefinition : Follows H n (H.before n) (eventDefinition deeper)
    (eventDefinition deeper) fun _ => H.behind n := by
  refine (agrees_keyword .event).bind_follows fun start => ?_
  refine agrees_identifier.bind_follows fun name => ?_
  refine (agrees_symbol rfl (Passage.leads_inner rfl)).bind_follows fun _ => ?_
  refine follows_if_nextIs (M := fun _ => H.amid n) (agrees_pure rfl fun _ _ => And.left)
    (agrees_separated (agrees_eventParameter hd).of_before) fun ps => ?_
  refine (agrees_closing (Passage.leads_inner rfl)).bind_follows fun _ => ?_
  refine (agrees_acceptWord "anonymous").bind_follows fun isAnonymous => ?_
  refine follows_semicolon fun _ => ?_
  exact agrees_spanFrom fun span => agrees_value (by simp)

theorem agrees_usingTarget : Parser.Agreed H n (usingTarget deeper) := by
  refine agrees_here fun span => agrees_if_accept (Passage.leads_inner rfl) (agrees_value rfl) ?_
  exact (hd.typeName_agreed H _).bind fun type => agrees_value rfl

theorem follows_usingDirective : Follows H n (H.before n) (usingDirective deeper)
    (usingDirective deeper) fun _ => H.behind n := by
  refine (agrees_keyword .using_).bind_follows fun start => ?_
  refine agrees_path.of_before.bind_follows fun library => ?_
  refine (agrees_keyword .for_).bind_follows fun _ => ?_
  refine (agrees_usingTarget hd).of_before.bind_follows fun target => ?_
  refine follows_semicolon fun _ => ?_
  exact agrees_spanFrom fun span => agrees_value (by simp)

/-! ### Contracts -/

theorem follows_stateVariable : Follows H n (H.before n) (stateVariable deeper)
    (stateVariable deeper) fun _ => H.behind n := by
  refine follows_here fun start => (hd.typeName_agreed H n).bind_follows fun type => ?_
  refine (agrees_variableAttributes.amid fun _ _ _ => id).bind_follows fun attributes => ?_
  refine agrees_identifier.bind_follows fun name => ?_
  have hend (value : Option Expr) : Follows H n (H.amid n)
      (symbol .semicolon >>= fun _ => spanFrom start >>= fun span =>
        pure (StateVariable.mk type attributes name value span))
      (symbol .semicolon >>= fun _ => spanFrom (H.motion.span start) >>= fun span =>
        pure (StateVariable.mk (H.move type) (H.move attributes) (H.move name) (H.move value) span))
      fun _ => H.behind n :=
    follows_semicolon fun _ => agrees_spanFrom fun span => agrees_value (by simp)
  refine (agrees_accept (Passage.leads_inner rfl)).bind_follows fun assigned => ?_
  cases assigned with
  | true =>
    have hvalue : Agrees H n n (H.amid n) (some <$> deeper.expression) (some <$> deeper.expression)
        fun _ => H.amid n :=
      (hd.expression_agreed H n).of_before.map (fun _ => rfl) fun _ _ _ => id
    exact hvalue.bind_follows hend
  | false => exact (agrees_value rfl).bind_follows hend

theorem follows_variableOrFallback : Follows H (n + 1) (H.before (n + 1))
    (variableOrFallback deeper) (variableOrFallback deeper) fun _ => H.behind (n + 1) := by
  have hvariable : Agrees H (n + 1) (n + 1) (H.before (n + 1))
      (Member.stateVariable <$> stateVariable deeper) (Member.stateVariable <$> stateVariable deeper)
      fun _ => H.behind (n + 1) :=
    (agrees_stateVariable hd).map (fun _ => rfl) fun _ _ _ => id
  have hfallback : Follows H (n + 1) (H.before (n + 1))
      (Member.fallback <$> namelessFallback deeper) (Member.fallback <$> namelessFallback deeper)
      fun _ => H.behind (n + 1) :=
    (follows_namelessFallback hd).bind_agrees (k := 0) fun _ => agrees_value rfl
  have hquiet : Quiet (Member.stateVariable <$> stateVariable deeper) :=
    ((reads_stateVariable hd.toSound).map (N := fun _ => ⊤) fun _ => le_top).quiet
  exact follows_either hvariable hfallback hquiet

omit hd [H.Braced] in
/-- Whether a function without a name begins, or a variable of a function type. -/
def namelessAhead (ts : List Token) : Prop :=
  ts[0]? = some (Token.keyword .function) ∧ ts[1]? = some (Token.symbol .leftParen)

/-- A member, if one is followed that begins with `function (`. -/
theorem follows_member_of {I : Stage} [Within H n I]
    (hchoice : Follows H n
      (fun w₀ w => I w₀ w ∧ namelessAhead ((w ++ H.next₁).map Lexeme.token))
      (variableOrFallback deeper) (variableOrFallback deeper) fun _ => H.behind n) :
    Follows H n I (member deeper) (member deeper) fun _ => H.behind n := by
  have hin {x : Option Token} : ∀ w₀ w, seeing I x w₀ w → H.before n w₀ w :=
    fun _ _ hw => Within.inside (I := I) hw.1
  refine follows_next fun next => ?_
  split
  · refine follows_peek_seen (Passage.leads_inner rfl) fun next => follows_ite (fun hnext => ?_) fun _ => ?_
    · refine hchoice.weaken fun w₀ w hw => ⟨hw.1.1, ?_, ?_⟩
      · rw [List.getElem?_map, ← List.head?_eq_getElem?]
        exact head?_of_seeing hw.1
      · rw [List.getElem?_map, hw.2, hnext]
    · exact (follows_functionDefinition hd).make (fun w₀ w hw => hin w₀ w hw.1) fun _ => rfl
  · exact (follows_modifierDefinition hd).make hin fun _ => rfl
  · exact (follows_constructorDefinition hd).make hin fun _ => rfl
  · exact (follows_eventDefinition hd).make hin fun _ => rfl
  · exact (follows_structDeclaration hd).make hin fun _ => rfl
  · exact follows_enumDeclaration.make hin fun _ => rfl
  · exact (follows_usingDirective hd).make hin fun _ => rfl
  · refine follows_peek_one (Passage.leads_inner rfl) fun next => ?_
    split
    · exact (follows_fallbackDefinition hd _).make hin fun _ => rfl
    · exact (follows_stateVariable hd).make hin fun _ => rfl
  · exact (follows_stateVariable hd).make hin fun _ => rfl
  · exact (follows_stateVariable hd).make hin fun _ => rfl
  · exact (agrees_unexpected (k := 1) le_rfl _).follows fun _ => takes_unexpected _

theorem follows_member : Follows H (n + 1) (H.before (n + 1)) (member deeper) (member deeper)
    fun _ => H.behind (n + 1) :=
  follows_member_of hd ((follows_variableOrFallback hd).weaken fun _ _ => And.left)

theorem agrees_inheritanceSpecifier : Parser.Agreed H n (inheritanceSpecifier deeper) := by
  refine agrees_path.bind fun p => ?_
  refine ((agrees_callArguments? hd).amid fun _ _ _ => inside_of_stepped).bind fun arguments => ?_
  exact agrees_spanFrom fun span => agrees_value (by simp)

omit hd [H.Braced] in
theorem agrees_contractKind (isAbstract : Bool) : Agrees H k n (H.before n)
    (contractKind isAbstract) (contractKind isAbstract) fun _ => H.amid n := by
  refine agrees_next fun next => ?_
  cases hkind : next.bind ContractKind.ofToken? with
  | none => exact agrees_unexpected le_rfl _
  | some kind =>
    obtain ⟨t, rfl, ht⟩ := Option.bind_eq_some_iff.1 hkind
    refine agrees_ite (fun _ => agrees_here fun span => agrees_violation le_rfl _ span) fun _ => ?_
    refine (agrees_advance (Passage.leads_inner ?_)).bind fun _ => agrees_value rfl
    unfold ContractKind.ofToken? at ht
    split at ht
    · rfl
    · rfl
    · rfl
    · exact absurd ht (by simp)

theorem agrees_inheritance (kind : ContractKind) : Agrees H n n (H.before n)
    (inheritance deeper kind) (inheritance deeper kind) fun _ => H.before n := by
  refine agrees_if_nextIs ?_ (agrees_value rfl)
  refine agrees_ite (fun _ => agrees_here fun span => agrees_violation le_rfl _ span) fun _ => ?_
  refine (agrees_advance (Passage.leads_inner rfl)).bind fun _ => ?_
  exact (agrees_separated (agrees_inheritanceSpecifier hd).of_before).mono (fun _ _ => id)
    fun _ _ _ => And.left

theorem follows_contractDeclaration : Follows H n (H.before n) (contractDeclaration deeper)
    (contractDeclaration deeper) fun _ => H.behind n := by
  refine follows_here fun start => (agrees_accept (Passage.leads_inner rfl)).bind_follows
    fun isAbstract => ?_
  refine (agrees_contractKind isAbstract).of_before.bind_follows fun kind => ?_
  refine agrees_identifier.bind_follows fun name => ?_
  refine ((agrees_inheritance hd kind).amid fun _ _ _ => id).bind_follows fun bases => ?_
  have hbody : Agrees H (n + 1) n (H.amid (n + 1)) (body Member.error (member deeper))
      (body Member.error (member deeper)) fun _ => H.behind n :=
    agrees_body (follows_member hd) fun _ => rfl
  refine Agrees.follows (k := n) ((agrees_symbol rfl Passage.leads_leftBrace).bind fun _ =>
    hbody.bind fun members => agrees_spanFrom fun span => agrees_value (by simp)) fun _ => ?_
  exact (takes_symbol .leftBrace).bind fun _ => hbody.onward.bind fun _ =>
    (onward_spanFrom start).bind fun _ => onward_pure _

end

/-! ### Items of files -/

section

variable {deeper : Nested} (hd : deeper.Agreed) [H.Braced]
include hd

/-- A top-level item, if a pragma is followed where one may stand. -/
theorem follows_sourceUnit {I : Stage} [Within H 0 I]
    (hpragma : Follows H 0 (seeing I (some (.keyword .pragma))) pragmaDirective pragmaDirective
      fun _ => H.behind 0) :
    Follows H 0 I (sourceUnit deeper) (sourceUnit deeper) fun _ => H.behind 0 := by
  have hin {x : Option Token} : ∀ w₀ w, seeing I x w₀ w → H.before 0 w₀ w :=
    fun _ _ hw => Within.inside (I := I) hw.1
  refine follows_next fun next => ?_
  split
  · exact hpragma.make (fun _ _ => id) fun _ => rfl
  · exact follows_importDirective.make hin fun _ => rfl
  · exact (follows_contractDeclaration hd).make hin fun _ => rfl
  · exact (follows_contractDeclaration hd).make hin fun _ => rfl
  · exact (follows_contractDeclaration hd).make hin fun _ => rfl
  · exact (follows_contractDeclaration hd).make hin fun _ => rfl
  · exact (follows_structDeclaration hd).make hin fun _ => rfl
  · exact follows_enumDeclaration.make hin fun _ => rfl
  · exact (follows_functionDefinition hd).make hin fun _ => rfl
  · exact (follows_constantDeclaration hd).make hin fun _ => rfl
  · exact (follows_constantDeclaration hd).make hin fun _ => rfl
  · exact (follows_constantDeclaration hd).make hin fun _ => rfl
  · exact (agrees_unexpected (k := 1) le_rfl _).follows fun _ => takes_unexpected _

end

end Grammar

/-! ### Levels of nesting -/

theorem Nested.agreed_none : Nested.none.Agreed where
  toSound := Nested.sound_none
  expression_agreed _ _ _ := agrees_here fun span => agrees_violation le_rfl _ span
  operand_agreed _ _ _ := agrees_here fun span => agrees_violation le_rfl _ span
  exponent_agreed _ _ _ := agrees_here fun span => agrees_violation le_rfl _ span
  typeName_agreed _ _ _ := agrees_here fun span => agrees_violation le_rfl _ span
  statement_agreed _ _ _ := agrees_here fun span => agrees_violation le_rfl _ span

theorem Nested.Agreed.above {deeper : Nested} (h : deeper.Agreed) : deeper.above.Agreed where
  toSound := h.toSound.above
  expression_agreed _ _ _ := Grammar.agrees_expression h
  operand_agreed _ _ _ := Grammar.agrees_unaryExpr h
  exponent_agreed _ _ _ := Grammar.agrees_powerExpr h
  typeName_agreed _ _ _ := Grammar.agrees_typeName h
  statement_agreed _ _ _ := Grammar.agrees_statement h

theorem Nested.agreed_ofDepth : ∀ depth, (Nested.ofDepth depth).Agreed
  | 0 => Nested.agreed_none
  | depth + 1 => (Nested.agreed_ofDepth depth).above

theorem Nested.agreed_full : Nested.full.Agreed := Nested.agreed_ofDepth nestingLimit

end SolidityFrontend
