import SolidityFrontend.Proofs.Ending

/-!
# Statements without their semicolon

A parser that `Misses` its semicolon ends with one in the first text, at the end of the passage. Where
the second text goes on with something else, and with nothing that goes on with an expression, it fails
there: the semicolon is missing behind the last token of the passage. This passes from what stands
before a semicolon to the statements of one line that end with it (`misses_statement`).
-/

namespace SolidityFrontend

open SolidityFrontend.Parser

/-- Whether a statement is an assignment, a call or an emit, a word of its own, a return with a value,
or a declaration with one. -/
def Stmt.isPlain : Stmt → Bool
  | .expression (.assignment ..) _ | .expression (.call ..) _ | .emit .. | .break_ _ | .continue_ _
  | .throw _ | .return_ (some _) _ | .variables _ (some _) _ => true
  | _ => false

/-- A semicolon stands behind the passage in the first text, but not in the second one, where nothing
goes on with an expression there. -/
structure Setting.Omits (H : Setting) : Prop where
  semicolon : H.head₁ = some (.symbol .semicolon)
  missing : H.head₂ ≠ some (.symbol .semicolon)
  calm : H.Calm 0

namespace Parser

variable {α β : Type} [Placed α] {H : Setting} {i j m : Nat} {c c' : Context} {s s' t : State}
  {w : List Lexeme} {p p' : Parser α} {q q' : Parser β} {f f' : α → Parser β}
  {P : β → Prop} {R : Proviso α} {I I' : List Lexeme → Prop}

/-- The first parser takes at least `j` tokens before a semicolon. Where that semicolon stands behind
the passage, the second parser fails at the end of the passage. -/
structure Misses (H : Setting) (P : β → Prop) (I : List Lexeme → Prop) (j : Nat)
    (q q' : Parser β) : Prop where
  onward : Onward q
  steps : ∀ c s y t, I s.rest → q c s = (.ok y, t) → P y → t.rest.length + (j + 1) ≤ s.rest.length
  run : ∀ {c c'}, c.structLiterals = true → c'.structLiterals = true → ∀ {w s s'}, H.At w s s' →
    I s.rest → ∀ {y t}, q c s = (.ok y, t) → P y → t.errors.size ≤ H.errors₁.size →
      t.rest.length + 1 = H.next₁.length →
      ∃ t', q' c' s' = (.error ⟨.missing .semicolon, t'.previousSpan.after⟩, t')
        ∧ t'.rest = H.next₂ ∧ t'.errors = H.errors₂

omit [Placed α] in
theorem Misses.lower (h : Misses H P I j q q') (hi : i ≤ j) : Misses H P I i q q' where
  onward := h.onward
  steps c s y t hs hy hP := by
    have hle := h.steps c s y t hs hy hP
    omega
  run := h.run

omit [Placed α] in
theorem Misses.weaken (h : Misses H P I j q q') (hI : ∀ rest, I' rest → I rest) :
    Misses H P I' j q q' :=
  ⟨h.onward, fun c s y t hs => h.steps c s y t (hI _ hs),
    fun hc hc' _ _ _ hs hI' => h.run hc hc' hs (hI _ hI')⟩

omit [Placed α] in
/-- A parser whose values are of another kind. -/
theorem misses_of_not (ho : Onward q) (h : ∀ c s y t, I s.rest → q c s = (.ok y, t) → ¬P y) :
    Misses H P I j q q' :=
  ⟨ho, fun c s y t hs hy hP => absurd hP (h c s y t hs hy),
    fun _ _ _ _ _ _ hI _ _ hy hP => absurd hP (h _ _ _ _ hI hy)⟩

omit [Placed α] in
/-- What the value tells of the next tokens. -/
theorem Misses.of_seen (h : Misses H P (fun rest => I rest ∧ I' rest) j q q') (ho : Onward q)
    (hI' : ∀ c s y t, q c s = (.ok y, t) → P y → I' s.rest) : Misses H P I j q q' :=
  ⟨ho, fun c s y t hs hy hP => h.steps c s y t ⟨hs, hI' c s y t hy hP⟩ hy hP,
    fun hc hc' _ _ _ hs hI _ _ hy hP => h.run hc hc' hs ⟨hI, hI' _ _ _ _ hy hP⟩ hy hP⟩

omit [Placed α] in
theorem Misses.ne_nil (h : Misses H P I j q q') (hj : 0 < j) (hs : H.At w s s') (hI : I s.rest) {y : β}
    (hy : q c s = (.ok y, t)) (hP : P y) (hend : t.rest.length + 1 = H.next₁.length) : w ≠ [] := by
  rintro rfl
  have hle := h.steps c s y t hI hy hP
  rw [hs.length₁, List.length_nil] at hle
  omega

theorem symbol_of_missing {b : Symbol} (h : s.tokens.head? ≠ some (.symbol b)) (hb : isClosing b) :
    symbol b c s = (.error ⟨.missing b, s.previousSpan.after⟩, s) := by
  rw [symbol, bind_ok (looks_here c s), bind_ok (accept_eq_false h), run_ite,
    if_neg Bool.false_ne_true, run_ite, if_pos hb]
  rfl

omit [Placed α] in
/-- The end of a statement. -/
theorem misses_end (hH : H.Omits) (start : Span) {make : Span → β}
    {f' : Span → Parser β} :
    Misses H P I 0 (symbol .semicolon >>= fun _ => spanFrom start >>= fun span => pure (make span))
      (symbol .semicolon >>= f') where
  onward := (onward_symbol _).bind fun _ => (looks_spanFrom start).onward.bind fun _ => onward_pure _
  steps c s y t _ hy _ := by
    obtain ⟨_, u, hu, h⟩ := bind_eq_ok hy
    obtain ⟨hsemicolon, rfl⟩ := symbol_eq_ok hu
    rw [bind_ok (looks_spanFrom start c _)] at h
    obtain ⟨-, rfl⟩ := pure_eq_ok h
    have hlt := Grammar.length_advance_lt hsemicolon
    omega
  run {c c'} _ _ w s s' hs _ y t hy _ _ hend := by
    obtain ⟨_, u, hu, h⟩ := bind_eq_ok hy
    obtain ⟨hsemicolon, rfl⟩ := symbol_eq_ok hu
    rw [bind_ok (looks_spanFrom start c _)] at h
    obtain ⟨-, rfl⟩ := pure_eq_ok h
    obtain rfl : w = [] := by
      have hlt := Grammar.length_advance_lt hsemicolon
      have hle := length_advance s
      have hlength := hs.length₁
      exact List.eq_nil_of_length_eq_zero (by omega)
    have hmissing : s'.tokens.head? ≠ some (.symbol .semicolon) := by
      rw [hs.head_nil₂]
      exact hH.missing
    obtain ⟨w', hw', hrest⟩ := hs.rest₂
    obtain rfl := List.map_eq_nil_iff.1 hw'
    exact ⟨s', bind_error (symbol_of_missing hmissing rfl), hrest, hs.errors₂⟩

/-! ### Parts before the semicolon -/

theorem Echoes.bind_misses (h : Echoes H R I j m p p')
    (hf : ∀ x x', Alike x x' → Misses H P anywhere m (f x) (f' x'))
    (hR : ∀ x c t y u, c.structLiterals = true → f x c t = (.ok y, u) → P y → R x c t) :
    Misses H P I j (p >>= f) (p' >>= f') where
  onward := h.onward.bind fun x => (hf x x rfl).onward
  steps c s y u hs hy hP := by
    obtain ⟨x, t, hp, hf'⟩ := bind_eq_ok hy
    have hle := h.steps c s x t hs hp
    have hle' := (hf x x rfl).steps c t y u trivial hf' hP
    omega
  run {c c'} hc hc' w s s' hs hI y u hy hP herrors hend := by
    obtain ⟨x, t, hp, hf'⟩ := bind_eq_ok hy
    have hle := (hf x x rfl).steps c t y u trivial hf' hP
    have hsize := (hf x x rfl).onward.errors_size_le c t
    rw [hf'] at hsize
    have hkept : H.Kept m t := ⟨hsize.trans herrors, by omega⟩
    obtain ⟨x', t', v, hx', halike, ht⟩ :=
      h.run ⟨fun _ => hc', fun _ => hc'⟩ hs hI hp hkept (hR x c t y u hc hf' hP)
    obtain ⟨u', hu', hend'⟩ := (hf x x' halike).run hc hc' ht trivial hf' hP herrors hend
    exact ⟨u', by rw [bind_ok hx', hu'], hend'⟩

theorem Echoes.bind_misses_any (h : Echoes H always I j m p p')
    (hf : ∀ x x', Alike x x' → Misses H P anywhere m (f x) (f' x')) :
    Misses H P I j (p >>= f) (p' >>= f') := h.bind_misses hf fun _ _ _ _ _ _ _ _ => trivial

omit [Placed α] in
/-- Behind a look at the places, which may be any. -/
theorem Looks.misses {r r' : Parser α} {l l' : α → Parser β} {g g' : Context → State → α}
    (h : Looks r g) (h' : Looks r' g') (hk : ∀ x x', Misses H P I j (l x) (l' x')) :
    Misses H P I j (r >>= l) (r' >>= l') where
  onward := h.onward.bind fun x => (hk x x).onward
  steps c s y t hs hy hP := by
    rw [bind_ok (h c s)] at hy
    exact (hk _ (g c s)).steps c s y t hs hy hP
  run {c c'} hc hc' w s s' hs hI y t hy hP := by
    rw [bind_ok (h c s)] at hy
    rw [bind_ok (h' c' s')]
    exact (hk _ _).run hc hc' hs hI hy hP

omit [Placed α] in
/-- Behind a look that is the same in both texts before a token of the passage. -/
theorem Sees.misses {g : List Token → α} {look : Parser α} {l l' : α → Parser β} (hl : Sees look g)
    (hsame : ∀ {w s s'}, H.At w s s' → w ≠ [] → g s'.tokens = g s.tokens)
    (h : ∀ a, Misses H P (fun rest => I rest ∧ g (rest.map Lexeme.token) = a) j (l a) (l' a))
    (hj : 0 < j) : Misses H P I j (look >>= l) (look >>= l') where
  onward c s := by
    rw [bind_ok (hl c s)]
    exact (h _).onward c s
  steps c s y t hs hy hP := by
    rw [bind_ok (hl c s)] at hy
    exact (h _).steps c s y t ⟨hs, rfl⟩ hy hP
  run {c c'} hc hc' w s s' hs hI y t hy hP herrors hend := by
    rw [bind_ok (hl c s)] at hy
    rw [bind_ok (hl c' s'), hsame hs ((h _).ne_nil hj hs ⟨hI, rfl⟩ hy hP hend)]
    exact (h _).run hc hc' hs ⟨hI, rfl⟩ hy hP herrors hend

omit [Placed α] in
/-- Behind a look at a token of the passage. -/
theorem misses_next {l l' : Option Token → Parser β}
    (h : ∀ o, Misses H P (facing I o) j (l o) (l' o)) (hj : 0 < j) :
    Misses H P I j (next? >>= l) (next? >>= l') := by
  refine sees_next.misses (fun hs hw => hs.head_eq hw) (fun o => ?_) hj
  simp only [List.head?_map]
  exact h o

omit [Placed α] in
theorem misses_ite {b : Prop} [Decidable b] {r r' : Parser β} (h : b → Misses H P I j q q')
    (h' : ¬b → Misses H P I j r r') :
    Misses H P I j (if b then q else r) (if b then q' else r') := by
  split
  · exact h ‹_›
  · exact h' ‹_›

omit [Placed α] in
/-- A choice by a token of the passage. -/
theorem misses_if_nextIs {a : Token} {r r' : Parser β} (htrue : Misses H P (facing I (some a)) j q q')
    (hfalse : Misses H P I j r r') (hj : 0 < j) :
    Misses H P I j (nextIs a >>= fun b => if b = true then q else r)
      (nextIs a >>= fun b => if b = true then q' else r') := by
  rw [nextIs_bind, nextIs_bind]
  refine misses_next (fun o => misses_ite (fun ho => ?_) fun _ => ?_) hj
  · exact htrue.weaken fun rest hI => ⟨hI.1, hI.2.trans (beq_iff_eq.1 ho)⟩
  · exact hfalse.weaken fun _ => And.left

omit [Placed α] in
/-- A choice by a token of the passage, which is taken. -/
theorem misses_if_accept {a : Token} {r r' : Parser β} (htrue : Misses H P anywhere j q q')
    (hfalse : Misses H P I (j + 1) r r') :
    Misses H P I (j + 1) (accept a >>= fun b => if b = true then q else r)
      (accept a >>= fun b => if b = true then q' else r') := by
  rw [accept_bind, accept_bind]
  exact misses_if_nextIs (echoes_advance_seen.bind_misses_any fun _ _ _ => htrue) hfalse
    (Nat.succ_pos j)

end Parser

namespace Grammar

/-- The statement is one of those that end with the semicolon of their line. -/
abbrev plain : Stmt → Prop := fun x => x.isPlain = true

variable {H : Setting} {I : List Lexeme → Prop} {d d' : Nested} (hH : H.Omits)
include hH

theorem misses_keywordStatement (word : Keyword) {make make' : Span → Stmt} :
    Misses H plain I 1 (keywordStatement word make) (keywordStatement word make') :=
  (echoes_keyword (k := 0) word).bind_misses_any fun start _ _ => misses_end hH start

variable (hd : d.Echoed H d')
include hd

theorem misses_expressionStatement :
    Misses H plain I 1 (expressionStatement d) (expressionStatement d') :=
  (hd.expression 0 hH.calm).at.bind_misses (fun e _ _ => misses_end hH e.span)
    fun _ _ _ _ _ hc _ _ => .inl hc

theorem misses_returnStatement :
    Misses H plain I 1 (returnStatement d) (returnStatement d') := by
  refine ((echoes_keyword (k := 1) .return_).lower (Nat.le_succ 1)).bind_misses_any
    fun start start' _ => ?_
  let valued (rest : List Lexeme) : Prop := rest.head?.map Lexeme.token ≠ some (.symbol .semicolon)
  have hvalue : Echoes H unrestricted (fun rest => anywhere rest ∧ valued rest) 1 0
      (optional d .semicolon) (optional d' .semicolon) := by
    refine echoes_if_nextIs_inside ?_ ?_
    · exact ⟨onward_pure none, fun _ _ _ _ hs => absurd hs.2 hs.1.2,
        fun _ _ _ _ _ hs => absurd hs.2 hs.1.2⟩
    · exact (hd.expression 0 hH.calm).at.bind_if (fun e e' he => echoes_pure (congrArg some he))
        fun _ _ _ _ _ _ h => .inl h
  have hend : Misses H plain (fun rest => anywhere rest ∧ valued rest) 1
      (optional d .semicolon >>= fun value => symbol .semicolon >>= fun _ => spanFrom start >>=
        fun span => pure (Stmt.return_ value span))
      (optional d' .semicolon >>= fun value => symbol .semicolon >>= fun _ => spanFrom start' >>=
        fun span => pure (Stmt.return_ value span)) :=
    hvalue.bind_misses (fun _ _ _ => misses_end hH start) fun _ _ _ _ _ hc _ _ => hc
  refine hend.of_seen hend.onward fun c s y t hy hplain hsemicolon => ?_
  have hnext : s.tokens.head? = some (.symbol .semicolon) := by
    rw [State.tokens, List.head?_map]
    exact hsemicolon
  have hnone : optional d .semicolon c s = (.ok none, s) := by
    rw [optional, bind_ok (sees_nextIs _ c s), run_ite, if_pos (by simp [hnext])]
    rfl
  rw [bind_ok hnone] at hy
  obtain ⟨_, u, -, h⟩ := bind_eq_ok hy
  rw [bind_ok (looks_spanFrom start c u)] at h
  obtain ⟨rfl, -⟩ := pure_eq_ok h
  simp [plain, Stmt.isPlain] at hplain

theorem misses_emitStatement :
    Misses H plain I 1 (emitStatement d) (emitStatement d') := by
  refine ((echoes_keyword (k := 2) .emit).lower (by omega)).bind_misses_any fun start _ _ => ?_
  refine ((echoes_path (k := 2) Setting.lacks_succ).lower (by omega)).bind_misses_any fun _ _ _ => ?_
  exact (echoes_callArguments (k := 0) hd).bind_misses_any fun _ _ _ => misses_end hH start

theorem misses_declarationEnd {v v' : Declarator} (hv : Alike v v') (start start' : Span) :
    Misses H plain I 1 (declarationEnd d v start) (declarationEnd d' v' start') := by
  have hend (value value' : Option Expr) (hvalue : Alike value value') :
      Misses H plain anywhere 0
        (if value.isNone && !needsNoValue v then
          spanFrom start >>= fun span => violation .tupleWithoutValue span
        else symbol .semicolon >>= fun _ => spanFrom start >>= fun span =>
          pure (Stmt.variables v value span))
        (if value'.isNone && !needsNoValue v' then
          spanFrom start' >>= fun span => violation .tupleWithoutValue span
        else symbol .semicolon >>= fun _ => spanFrom start' >>= fun span =>
          pure (Stmt.variables v' value' span)) := by
    rw [needsNoValue_of_alike hv, isNone_of_alike hvalue]
    refine misses_ite (fun _ => misses_of_not ?_ fun c s y t _ hy => ?_) fun _ => misses_end hH start
    · exact (looks_spanFrom start).onward.bind fun _ => onward_fail _
    · rw [bind_ok (looks_spanFrom start c s)] at hy
      simp [violation, fail] at hy
  have hvalue : Echoes H unrestricted anywhere 1 0 (some <$> d.expression) (some <$> d'.expression) :=
    (hd.expression 0 hH.calm).map (fun _ _ h => congrArg some h) fun _ _ _ h => .inl h
  refine misses_if_accept ((hvalue.lower (Nat.zero_le 1)).bind_misses hend fun _ _ _ _ _ hc _ _ => hc)
    (misses_of_not ?_ fun c s y t _ hy => ?_)
  · exact (onward_pure none).bind fun value => (hend value value rfl).onward
  · have hrun : (if (none : Option Expr).isNone && !needsNoValue v then
          spanFrom start >>= fun span => violation .tupleWithoutValue span
        else symbol .semicolon >>= fun _ => spanFrom start >>= fun span =>
          pure (Stmt.variables v none span)) c s = (.ok y, t) := hy
    rw [run_ite] at hrun
    split at hrun
    · rw [bind_ok (looks_spanFrom start c s)] at hrun
      simp [violation, fail] at hrun
    · obtain ⟨_, u, -, h⟩ := bind_eq_ok hrun
      rw [bind_ok (looks_spanFrom start c u)] at h
      obtain ⟨rfl, -⟩ := pure_eq_ok h
      simp [plain, Stmt.isPlain]

theorem misses_varTupleDeclaration :
    Misses H plain (fun rest => I rest ∧ rest ≠ []) 1 (varTupleDeclaration d)
      (varTupleDeclaration d') := by
  refine looks_here.misses looks_here fun start start' => ?_
  refine ((echoes_advance (k := 1) fun _ => And.right).lower (by omega)).bind_misses_any fun _ _ _ => ?_
  refine (echoes_symbol (k := 1) _).perhaps.bind_misses_any fun _ _ _ => ?_
  refine (echoes_separated echoes_varPlace Setting.bars_succ).bind_misses_any fun names names' h => ?_
  refine (echoes_symbol (k := 1) _).perhaps.bind_misses_any fun _ _ _ => ?_
  refine (looks_spanFrom start).misses (looks_spanFrom start') fun _ _ => ?_
  exact misses_declarationEnd hH hd (by simp [Alike, h]) start start'

end Grammar

/-! ### Declarations and expressions -/

theorem isTypeLike_respan (f : Span → Span) : ∀ e : Expr, (respan f e).isTypeLike = e.isTypeLike
  | .member base i span => by
    rw [respan_member, Expr.isTypeLike, Expr.isTypeLike, isTypeLike_respan f base]
  | .index base i span => by
    rw [respan_index, Expr.isTypeLike, Expr.isTypeLike, isTypeLike_respan f base]
  | .update _ .before _ _ | .update _ .after _ _ => rfl
  | .binary .. | .unary .. | .ternary .. | .assignment .. | .call .. | .slice .. | .tuple ..
  | .inlineArray .. | .struct .. | .new .. | .cast .. | .elementary .. | .metaType .. | .payable ..
  | .parenthesized .. | .literal .. | .identifier .. => by simp [Expr.isTypeLike]

theorem isTypeLike_of_alike {e e' : Expr} (h : Alike e e') : e'.isTypeLike = e.isTypeLike := by
  rw [← isTypeLike_respan (fun _ => Span.origin) e', h, isTypeLike_respan]

/-- An expression that is a statement that `isPlain` is no type name. -/
theorem Stmt.isTypeLike_of_isPlain {e : Expr} {span : Span} (h : (Stmt.expression e span).isPlain) :
    e.isTypeLike = false := by
  cases e <;> first | rfl | cases h

namespace Grammar

variable {H : Setting} {I : List Lexeme → Prop} {c : Context} {s t : State} {α : Type}

/-- Where the first reading comes no farther than the second, the error is that of the second. -/
theorem either_of_halts {r : Reading} {p q : Parser α} {e : SyntaxError} (hp : Halts t (p c s))
    (hq : q c s = (.error e, t)) : either r p q c s = (.error e, t) := by
  obtain ⟨error, v, hv, hle⟩ := hp
  have hprogressed : t.progressed v = false := by
    rw [State.progressed, decide_eq_false_iff_not]
    omega
  rw [either_eq, hv, hq]
  simp [hprogressed]

variable (hH : H.Omits)
include hH

theorem misses_declarationOrExpression (n : Nat) :
    Misses H plain I 1 (declarationOrExpression (.ofDepth n)) (declarationOrExpression (.ofDepth n)) := by
  have hd : (Nested.ofDepth n).Echoed H (.ofDepth n) := Nested.echoed_ofDepth le_rfl
  have hwhole := echoes_declarationOrExpression (I := I) (k := 0) hd (Nested.exclusive_ofDepth n)
  refine ⟨hwhole.onward, fun c s y t hs hy _ => hwhole.steps c s y t hs hy, ?_⟩
  intro c c' hc hc' w s s' hs _ y t hy hplain herrors hend
  have hknows (k : Nat) : Setting.Knows k c c' := ⟨fun _ => hc', fun _ => hc'⟩
  rw [declarationOrExpression, bind_ok (looks_here c s)] at hy
  rw [declarationOrExpression, bind_ok (looks_here c' s')]
  obtain ⟨r, u, heither, hy⟩ := bind_eq_ok hy
  rcases either_eq_ok heither with hfirst | hsecond
  · obtain ⟨v, u', hv, hpure⟩ := bind_eq_ok hfirst
    obtain ⟨rfl, rfl⟩ := pure_eq_ok (c := c) hpure
    have hmisses {v' : Declarator} (halike : Alike v v') :=
      misses_declarationEnd (I := anywhere) hH hd halike (s.nextSpan c.stop)
        (s'.nextSpan c'.stop)
    have hle := (hmisses rfl).steps c u y t trivial hy hplain
    have hsize := (hmisses rfl).onward.errors_size_le c u
    rw [show declarationEnd (.ofDepth n) v (s.nextSpan c.stop) c u = (.ok y, t) from hy] at hsize
    obtain ⟨v', t', w', hv', halike, hw'⟩ := (echoes_declarator (I := I) (k := 1) hd).run (hknows 1) hs ‹_›
      hv ⟨hsize.trans herrors, by omega⟩ trivial
    obtain ⟨r', hr', hend'⟩ := (hmisses halike).run hc hc' hw' trivial hy hplain herrors hend
    refine ⟨r', ?_, hend'⟩
    have hfirst' : (Sum.inl <$> declarator (.ofDepth n) : Parser (Declarator ⊕ Stmt)) c' s'
        = (.ok (.inl v'), t') := bind_ok hv'
    rw [bind_ok (show either .variableDeclaration _ _ c' s' = _ by rw [either_eq, hfirst'])]
    exact hr'
  · -- The declaration comes no farther than the expression, behind which the semicolon is missing.
    obtain ⟨x, u', hx, hpure⟩ := bind_eq_ok hsecond
    obtain ⟨rfl, rfl⟩ := pure_eq_ok (c := c) hpure
    obtain ⟨rfl, rfl⟩ := pure_eq_ok (c := c) hy
    obtain ⟨e, v, he, hrest⟩ := bind_eq_ok hx
    obtain ⟨_, v', hsymbol, hspan⟩ := bind_eq_ok hrest
    rw [bind_ok (looks_spanFrom e.span c v')] at hspan
    obtain ⟨rfl, rfl⟩ := pure_eq_ok hspan
    obtain ⟨hsemicolon, rfl⟩ := symbol_eq_ok hsymbol
    have hlt := length_advance_lt hsemicolon
    rw [errors_advance] at herrors
    obtain ⟨e', t', v', he', halike, hv'⟩ := (hd.expression 0 hH.calm).run (hknows 0) hs trivial he
      ⟨herrors, by omega⟩ (.inl hc)
    have hv₀ : v' = [] := by
      have hlength := hv'.length₁
      have hle := length_advance v
      exact List.eq_nil_of_length_eq_zero (by omega)
    subst hv₀
    obtain ⟨w', hw', hrest'⟩ := hv'.rest₂
    obtain rfl := List.map_eq_nil_iff.1 hw'
    have hmissing : t'.tokens.head? ≠ some (.symbol .semicolon) := by
      rw [hv'.head_nil₂]
      exact hH.missing
    have hlike : e'.isTypeLike = false := by
      rw [isTypeLike_of_alike halike]
      exact Stmt.isTypeLike_of_isPlain hplain
    have hhalts := Nested.halts_declarator n hc' he' (.inr hlike)
    refine ⟨t', bind_error (either_of_halts hhalts.bind (bind_error ?_)), hrest', hv'.errors₂⟩
    exact (bind_ok he').trans (bind_error (symbol_of_missing hmissing rfl))

omit hH in
/-- The word `var` and a parenthesis are ahead in both texts, or in none. -/
theorem varTupleAhead_eq (hH : H.Omits) {w : List Lexeme} {s s' : State} (hs : H.At w s s')
    (hw : w ≠ []) : varTupleAhead s'.tokens = varTupleAhead s.tokens := by
  rw [hs.tokens₁, hs.tokens₂]
  match w, hw with
  | [l], _ =>
    have hparen : H.head₂ ≠ some (.symbol .leftParen) := hH.calm.lacks rfl rfl
    have hsemicolon := hH.semicolon
    rw [Setting.head₁, List.head?_eq_getElem?] at hsemicolon
    rw [Setting.head₂, List.head?_eq_getElem?] at hparen
    simp [varTupleAhead, hsemicolon, beq_eq_false_iff_ne.2 hparen]
  | _ :: _ :: _, _ => rfl

theorem misses_simpleStatement (n : Nat) :
    Misses H plain I 1 (simpleStatement (.ofDepth n)) (simpleStatement (.ofDepth n)) := by
  have hd : (Nested.ofDepth n).Echoed H (.ofDepth n) := Nested.echoed_ofDepth le_rfl
  refine sees_varTupleBegins.misses (varTupleAhead_eq hH) (fun a => misses_ite (fun ha => ?_) fun _ => ?_)
    Nat.one_pos
  · refine (misses_varTupleDeclaration hH hd).weaken fun rest hI => ⟨hI.1, ?_⟩
    rintro rfl
    exact Bool.false_ne_true (hI.2.trans ha)
  · refine misses_next (fun o => misses_ite (fun _ => ?_) fun _ => ?_) Nat.one_pos
    · exact misses_declarationOrExpression hH n
    · exact misses_expressionStatement hH hd

/-! ### Statements -/

section

variable {x : Stmt}

omit hH in
/-- A part and a value of another kind. -/
theorem not_plain_of_spanned {p : Parser α} {start : Span} {make : α → Span → Stmt}
    (hmake : ∀ a span, (make a span).isPlain = false)
    (h : (p >>= fun a => spanFrom start >>= fun span => pure (make a span)) c s = (.ok x, t)) :
    ¬plain x := by
  obtain ⟨a, u, -, hspan⟩ := bind_eq_ok h
  rw [bind_ok (looks_spanFrom start c u)] at hspan
  obtain ⟨rfl, -⟩ := pure_eq_ok hspan
  simp [plain, hmake]

variable {d : Nested}

omit hH in
theorem not_plain_of_ifStatement (h : ifStatement d c s = (.ok x, t)) : ¬plain x := by
  obtain ⟨start, _, -, h⟩ := bind_eq_ok h
  obtain ⟨test, _, -, h⟩ := bind_eq_ok h
  obtain ⟨thenBranch, _, -, h⟩ := bind_eq_ok h
  obtain ⟨b, _, -, h⟩ := bind_eq_ok h
  rw [run_ite] at h
  split at h
  · exact not_plain_of_spanned (fun _ _ => rfl) h
  · exact not_plain_of_spanned (fun _ _ => rfl) h

omit hH in
theorem not_plain_of_forStatement (h : forStatement d c s = (.ok x, t)) : ¬plain x := by
  have hend {start : Span} {init : Option Stmt} {s : State}
      (h : (optional d .semicolon >>= fun test => symbol .semicolon >>= fun _ =>
        optional d .rightParen >>= fun update => symbol .rightParen >>= fun _ =>
          d.statement >>= fun inner => spanFrom start >>= fun span =>
            pure (Stmt.forLoop init test update inner span)) c s = (.ok x, t)) : ¬plain x := by
    obtain ⟨test, _, -, h⟩ := bind_eq_ok h
    obtain ⟨_, _, -, h⟩ := bind_eq_ok h
    obtain ⟨update, _, -, h⟩ := bind_eq_ok h
    obtain ⟨_, _, -, h⟩ := bind_eq_ok h
    exact not_plain_of_spanned (fun _ _ => rfl) h
  obtain ⟨start, _, -, h⟩ := bind_eq_ok h
  obtain ⟨_, _, -, h⟩ := bind_eq_ok h
  obtain ⟨b, _, -, h⟩ := bind_eq_ok h
  rw [run_ite] at h
  split at h
  all_goals
    obtain ⟨init, _, -, h⟩ := bind_eq_ok h
    exact hend h

omit hH in
theorem not_plain_of_whileStatement (h : whileStatement d c s = (.ok x, t)) : ¬plain x := by
  obtain ⟨start, _, -, h⟩ := bind_eq_ok h
  obtain ⟨test, _, -, h⟩ := bind_eq_ok h
  exact not_plain_of_spanned (fun _ _ => rfl) h

omit hH in
theorem not_plain_of_doWhileStatement (h : doWhileStatement d c s = (.ok x, t)) : ¬plain x := by
  obtain ⟨start, _, -, h⟩ := bind_eq_ok h
  obtain ⟨inner, _, -, h⟩ := bind_eq_ok h
  obtain ⟨_, _, -, h⟩ := bind_eq_ok h
  obtain ⟨test, _, -, h⟩ := bind_eq_ok h
  exact not_plain_of_spanned (fun _ _ => rfl) h

omit hH in
theorem not_plain_of_tryStatement (h : tryStatement d c s = (.ok x, t)) : ¬plain x := by
  obtain ⟨start, _, -, h⟩ := bind_eq_ok h
  obtain ⟨call, _, -, h⟩ := bind_eq_ok h
  obtain ⟨returns, _, -, h⟩ := bind_eq_ok h
  obtain ⟨inner, _, -, h⟩ := bind_eq_ok h
  obtain ⟨clauses, u, -, h⟩ := bind_eq_ok h
  rw [run_ite] at h
  split at h <;> rw [bind_ok (looks_spanFrom start c u)] at h
  · simp [violation, fail] at h
  · obtain ⟨rfl, -⟩ := pure_eq_ok h
    simp [plain, Stmt.isPlain]

omit hH in
theorem not_plain_of_assemblyStatement (h : assemblyStatement c s = (.ok x, t)) : ¬plain x := by
  obtain ⟨start, _, -, h⟩ := bind_eq_ok h
  obtain ⟨next, _, -, h⟩ := bind_eq_ok h
  extract_lets rest at h
  split at h
  all_goals
    obtain ⟨dialect, _, -, h⟩ := bind_eq_ok h
    obtain ⟨opening, _, -, h⟩ := bind_eq_ok h
    obtain ⟨_, u, -, h⟩ := bind_eq_ok h
    rw [bind_ok (looks_spanFrom opening c u)] at h
    rw [bind_ok (looks_spanFrom start c u)] at h
    obtain ⟨rfl, -⟩ := pure_eq_ok h
    simp [plain, Stmt.isPlain]

end

/-- The statements that end with the semicolon of their line. -/
theorem misses_statement (n : Nat) :
    Misses H plain I 1 (statement (.ofDepth n)) (statement (.ofDepth n)) := by
  have hd : (Nested.ofDepth n).Echoed H (.ofDepth n) := Nested.echoed_ofDepth le_rfl
  have hwhole : (Nested.ofDepth n).EchoedWhole (.whole []) (.ofDepth n) :=
    Nested.echoedWhole_ofDepth le_rfl
  have hclosed : (Setting.whole []).Closed 1 := Setting.closed_succ
  refine misses_next (fun next => ?_) Nat.one_pos
  split
  · refine misses_of_not ((echoes_block (I := anywhere) (k := 0) hwhole).onward.bind fun b =>
      onward_pure _) fun c s y t _ hy => ?_
    obtain ⟨b, u, -, hpure⟩ := bind_eq_ok hy
    obtain ⟨rfl, -⟩ := pure_eq_ok hpure
    simp [plain, Stmt.isPlain]
  · exact misses_of_not (echoes_ifStatement (I := anywhere) hwhole hclosed).onward
      fun c s y t _ => not_plain_of_ifStatement
  · exact misses_of_not (echoes_forStatement (I := anywhere) hwhole hclosed).onward
      fun c s y t _ => not_plain_of_forStatement
  · exact misses_of_not (echoes_whileStatement (I := anywhere) hwhole hclosed).onward
      fun c s y t _ => not_plain_of_whileStatement
  · exact misses_of_not (echoes_doWhileStatement (I := anywhere) (k := 0) hwhole).onward
      fun c s y t _ => not_plain_of_doWhileStatement
  · exact misses_keywordStatement hH _
  · exact misses_keywordStatement hH _
  · exact misses_keywordStatement hH _
  · exact misses_returnStatement hH hd
  · exact misses_emitStatement hH hd
  · exact misses_of_not (echoes_tryStatement (I := anywhere) hwhole hclosed).onward
      fun c s y t _ => not_plain_of_tryStatement
  · exact misses_of_not (echoes_assemblyStatement (H := .whole []) (I := anywhere) (k := 0)).onward
      fun c s y t _ => not_plain_of_assemblyStatement
  · exact misses_simpleStatement hH n

end Grammar

end SolidityFrontend
