import SolidityFrontend.Proofs.Halting
import SolidityFrontend.Proofs.Standing
import SolidityFrontend.Proofs.Unfinished

/-!
# Reading on without a semicolon

A statement of one line without its semicolon, with a line below it that does not go on with it, is
marked, and reading goes on with that line. What stands around it is read as in the whole text: what
stands before it since the tokens up to the semicolon are the same in both texts, and what stands
behind it since it ends by itself. An `Omission` is what both texts have in common there, and a parser
that `Rereads` gives its value up to the omission, and what is left is the same.
-/

namespace SolidityFrontend

open SolidityFrontend.Parser SolidityFrontend.Grammar

/-! ### The last token before a semicolon -/

namespace Phrase

variable {L : Phrase} {ts rest : List Lexeme} {es : List SyntaxError}

/-- What stands before the semicolon at the end of a phrase. -/
theorem Closes.exists_last (hL : L.Closes) (htakes : L.Takes)
    (h : (L * symbol .semicolon) ts es rest) :
    ∃ (w : List Lexeme) (last semi : Lexeme), ts = w ++ [last, semi] ∧ last.token.endsTerm
      ∧ semi.token = .symbol .semicolon := by
  obtain ⟨us, _, ds, _, rfl, rfl, hus, ⟨semi, rfl, -, hsemi⟩⟩ := h
  obtain ⟨w, last, rfl⟩ := List.eq_nil_or_concat us |>.resolve_left (htakes _ _ _ hus)
  refine ⟨w, last, semi, by simp, hL _ _ _ hus last (by simp), hsemi⟩

end Phrase

open Phrase in
/-- Before the semicolon of a statement that `isPlain` stands a token with which an expression may end.
-/
theorem Stmt.exists_last {x : Stmt} {ts rest : List Lexeme} {es : List SyntaxError} (hx : x.isPlain)
    (h : x.phrase ts es rest) :
    ∃ (w : List Lexeme) (last semi : Lexeme), ts = w ++ [last, semi] ∧ last.token.endsTerm
      ∧ semi.token = .symbol .semicolon := by
  cases x with
  | expression e span =>
    rw [Stmt.phrase] at h
    exact e.closes_phrase.exists_last e.takes_phrase h.2
  | «variables» v value span =>
    cases value with
    | none => cases hx
    | some e =>
      rw [Stmt.phrase] at h
      have htakes := e.takes_phrase
      refine Closes.exists_last ?_ ?_ h.2.2
      · exact (e.closes_phrase.mul_left htakes).mul_left (htakes.mul_left _)
      · exact v.takes_phrase.mul_right _
  | continue_ | break_ | throw =>
    rw [Stmt.phrase] at h
    exact (closes_token rfl).exists_last (takes_token _) h.2
  | return_ value span =>
    cases value with
    | none => cases hx
    | some e =>
      rw [Stmt.phrase] at h
      exact (e.closes_phrase.mul_left e.takes_phrase).exists_last (e.takes_phrase.mul_left _) h.2
  | emit p a span =>
    rw [Stmt.phrase] at h
    have htakes : (Phrase.keyword .emit * p.phrase).Takes := p.opens_phrase.takes.mul_left _
    exact (Closes.mul (p.closes_phrase.mul_left p.opens_phrase.takes) a.closes_phrase).exists_last
      (htakes.mul_right _) h.2
  | _ => cases hx

/-! ### Texts without one of their semicolons -/

/-- The tokens of a text around a semicolon, and what stands behind it where it is left out: the same
tokens, which begin a later line and go on with nothing before them. -/
structure Omission where
  /-- The tokens before the last one that is kept. -/
  before : List Lexeme
  last : Lexeme
  semi : Lexeme
  behind : List Lexeme
  later : List Lexeme
  semicolon : semi.token = .symbol .semicolon
  ends : last.token.endsTerm
  same : later.map Lexeme.token = behind.map Lexeme.token
  missing : ∀ l ∈ later.head?, l.token ≠ .symbol .semicolon
  calm : ∀ l ∈ later.head?, l.token.isCalm
  line : ∀ l ∈ later.head?, last.span.stop.position.line < l.span.start.position.line

namespace Omission

variable {O : Omission} {α β : Type} {c c' : Context} {s s' t t' u : State} {w ts ts' : List Lexeme}
  {es es' : List SyntaxError}

/-- The error that is reported: the semicolon is missing behind the last token. -/
def error (O : Omission) : SyntaxError := ⟨.missing .semicolon, O.last.span.after⟩

theorem length_later (O : Omission) : O.later.length = O.behind.length := by
  have hlength := congrArg List.length O.same
  rwa [List.length_map, List.length_map] at hlength

theorem parted (O : Omission) :
    Parted ((O.before ++ [O.last]).map Lexeme.token) (O.later.map Lexeme.token).head? := by
  refine ⟨fun hcolon => ?_, .inr fun t ht => ?_⟩
  · rw [List.head?_map, Option.map_eq_some_iff] at hcolon
    obtain ⟨l, hl, hcolon⟩ := hcolon
    have hcalm := O.calm l hl
    rw [hcolon] at hcalm
    exact absurd hcalm (by decide)
  · obtain rfl : O.last.token = t := by simpa using ht
    exact Token.closesName_of_endsTerm O.ends

/-- The tokens up to the semicolon, which stand in both texts. -/
def setting (O : Omission) : Setting where
  tokens := (O.before ++ [O.last]).map Lexeme.token
  next₁ := O.semi :: O.behind
  next₂ := O.later
  errors₁ := #[]
  errors₂ := #[]
  fields _ hsuffix hne hus := fieldsAhead_of_append (O.parted.fieldsAhead hsuffix hne hus)
  path _ hsuffix hne hus := pathAhead_of_append (O.parted.pathAhead hsuffix hne hus)

theorem omits (O : Omission) : O.setting.Omits where
  semicolon := congrArg some O.semicolon
  missing h := by
    obtain ⟨l, hl, hsemicolon⟩ := Option.map_eq_some_iff.1 h
    exact O.missing l hl hsemicolon
  calm _ t ht := by
    obtain ⟨l, hl, rfl⟩ := Option.map_eq_some_iff.1 ht
    exact O.calm l hl

/-- Both readings stand before the same tokens up to the semicolon, and no error is recorded. -/
structure At (O : Omission) (w : List Lexeme) (s s' : State) : Prop where
  suffix : w <:+ O.before
  rest : s.rest = w ++ O.last :: O.semi :: O.behind
  rest' : s'.rest = w ++ O.last :: O.later
  errors : s.errors = #[]
  errors' : s'.errors = #[]

/-- The first reading stands before the last token that is kept, and no error is recorded. -/
def Before (O : Omission) (s : State) : Prop := O.behind.length + 2 ≤ s.rest.length ∧ s.errors = #[]

theorem At.setting (h : O.At w s s') : O.setting.At (w ++ [O.last]) s s' where
  suffix := by
    obtain ⟨v, hv⟩ := h.suffix
    exact ⟨v.map Lexeme.token, by rw [← List.map_append, ← List.append_assoc, hv]; rfl⟩
  rest₁ := by
    rw [List.append_assoc]
    exact h.rest
  rest₂ := ⟨w ++ [O.last], rfl, by rw [List.append_assoc]; exact h.rest'⟩
  errors₁ := h.errors
  errors₂ := h.errors'

theorem At.before (h : O.At w s s') : O.Before s := by
  refine ⟨?_, h.errors⟩
  rw [h.rest, List.length_append, List.length_cons, List.length_cons]
  omega

/-- Before the last token both readings see the same. -/
theorem At.head?_eq (h : O.At w s s') : s'.tokens.head? = s.tokens.head? :=
  h.setting.head_eq (by simp)

/-- What the first reading has taken before the last token that is kept. -/
theorem At.split (h : O.At w s s') (hs : s.Took ts es t) (hbefore : O.Before t) :
    ∃ u, w = ts ++ u ∧ t.rest = u ++ O.last :: O.semi :: O.behind := by
  have hrest := h.rest.symm.trans hs.1
  have hle := hbefore.1
  have hwhole := congrArg List.length hrest
  simp only [List.length_append, List.length_cons] at hwhole
  have hts : ts = w.take ts.length := by
    rw [← List.take_append_of_le_length (by omega), hrest, List.take_left]
  refine ⟨w.drop ts.length, ?_, ?_⟩
  · rw [congrArg (· ++ w.drop ts.length) hts, List.take_append_drop]
  · rw [← List.drop_append_of_le_length (by omega), hrest, List.drop_left]

/-- Where both readings have taken as many tokens, they have taken the same. -/
theorem At.forward (h : O.At w s s') (hs : s.Took ts es t) (hs' : s'.Took ts' es' t')
    (hbefore : O.Before t) (hlength : t'.rest.length + 1 = t.rest.length) (herrors : t'.errors = #[]) :
    ∃ u, w = ts ++ u ∧ O.At u t t' := by
  obtain ⟨u, rfl, hrest⟩ := h.split hs hbefore
  refine ⟨u, rfl, (List.suffix_append ts u).trans h.suffix, hrest, ?_, hbefore.2, herrors⟩
  have hrest' : ts' ++ t'.rest = ts ++ (u ++ O.last :: O.later) := by
    rw [← List.append_assoc, ← h.rest', hs'.1]
  refine (List.append_inj' hrest' ?_).2
  rw [hrest] at hlength
  simp only [List.length_append, List.length_cons, O.length_later] at hlength ⊢
  omega

/-! ### A statement that is marked -/

theorem nextSpan_of_rest {l : Lexeme} {ls : List Lexeme} (h : s.rest = l :: ls) (stop : Span) :
    s.nextSpan stop = l.span := by
  rw [State.nextSpan, h]
  rfl

/-- Where only a semicolon is missing at the end of a line, nothing is skipped. -/
theorem resume_of_missing (hprogressed : s.progressed t) (hend : t.atLineEnd) :
    s.resume (.missing .semicolon) t = t := by
  simp [State.resume, hprogressed, hend]

theorem statement_mark {n : Nat} {x : Stmt} (hx : statement (.ofDepth n) c s = (.ok x, t))
    (hplain : x.isPlain) (hc : c.structLiterals = true) (hc' : c'.structLiterals = true)
    (hord : s.Ordered) (hs : O.At w s s') (ht : t.rest = O.behind) (ht₀ : t.errors = #[]) :
    ∃ t', recovering Stmt.error (statement (.ofDepth n)) c' s'
        = (.ok (.error (O.error.mark ⟨x.span.start, O.last.span.stop⟩)), t')
      ∧ t'.rest = O.later ∧ t'.errors = #[O.error] := by
  have hmisses := misses_statement (I := anywhere) O.omits n
  obtain ⟨u, hu, hrest, herrors⟩ := hmisses.run hc hc' hs.setting trivial hx hplain
    (by rw [ht₀]; exact le_rfl) (by rw [ht]; rfl)
  change u.rest = O.later at hrest
  change u.errors = #[] at herrors
  obtain ⟨ts, es, htook⟩ := hmisses.onward c' s'
  rw [hu] at htook
  have hsplit : (w ++ [O.last]) ++ O.later = ts ++ O.later := by
    rw [List.append_assoc]
    exact hs.rest'.symm.trans (htook.1.trans (congrArg (ts ++ ·) hrest))
  obtain rfl : w ++ [O.last] = ts := List.append_cancel_right hsplit
  have hprevious : u.previous = some O.last := by
    rw [htook.2.1, List.getLast?_concat]
    rfl
  -- The mark begins where the statement does.
  obtain ⟨first, rest, hfirst⟩ := List.exists_cons_of_ne_nil (List.append_ne_nil_of_right_ne_nil w
    (List.cons_ne_nil O.last []))
  have hspan : x.span.start = first.span.start := by
    obtain ⟨vs, ds, htook', hphrase, -⟩ :=
      (reads_statement (Nested.sound_ofDepth n)).effect_ok hord hx
    obtain ⟨⟨head, stop, hhead, -, hcovers⟩, -⟩ := x.phrase_le _ _ _ hphrase
    have hheads : (vs ++ t.rest).head? = (w ++ [O.last] ++ O.semi :: O.behind).head? := by
      rw [← htook'.1, hs.rest, List.append_assoc]
      rfl
    rw [hfirst, List.head?_append, hhead] at hheads
    obtain rfl : head = first := Option.some.inj hheads
    rw [hcovers]
    rfl
  have hspan' : s'.nextSpan c'.stop = first.span := by
    have hwhole : s'.rest = first :: (rest ++ O.later) := by
      rw [hs.rest', ← List.cons_append, ← hfirst, List.append_assoc]
      rfl
    exact nextSpan_of_rest hwhole _
  have hle : first.span.start.offset ≤ O.last.span.stop.offset := by
    have hin : InOrder ((w ++ [O.last]) ++ O.semi :: O.behind) := by
      rw [List.append_assoc]
      exact hs.rest ▸ InOrder.right hord
    have hmem : O.last ∈ first :: rest := hfirst ▸ List.mem_append_right w List.mem_cons_self
    have hstart := (hfirst ▸ hin.left).head_start_le hmem
    exact hstart.trans (hin.1 O.last (by simp)).le
  have hprogressed : s'.progressed u := by
    rw [State.progressed, decide_eq_true_eq, htook.1, List.length_append, List.length_append]
    exact Nat.lt_add_of_pos_left (Nat.succ_pos _)
  have hend : u.atLineEnd := by
    rw [State.atLineEnd, hprevious, hrest]
    rcases hlater : O.later with _ | ⟨next, later⟩
    · rfl
    · exact decide_eq_true (O.line next (by rw [hlater]; rfl))
  refine ⟨{ u with errors := u.errors.push O.error }, ?_, hrest, by rw [herrors]; rfl⟩
  have hlast : u.previousSpan = O.last.span := by
    rw [State.previousSpan, hprevious]
    rfl
  have hcovered : spanFrom first.span c' u = (.ok ⟨x.span.start, O.last.span.stop⟩, u) := by
    rw [looks_spanFrom first.span c' u]
    dsimp only
    rw [hlast, if_neg hle.not_gt, hspan]
    rfl
  rw [recovering, state_bind, attempt_bind, hu]
  dsimp only
  rw [recover_bind, resume_of_missing hprogressed hend, hspan', hlast]
  exact bind_ok (bind_ok hcovered)

end Omission

/-! ### Parts of a body -/

theorem Parser.Parts.took {α : Type} {c : Context} {s t : State} {part : Parser α} {xs : List α}
    (h : Parts part c s xs t) (ho : Onward part) : ∃ ts es, s.Took ts es t := by
  induction h with
  | nil s => exact ⟨[], [], .refl s⟩
  | cons _ hx _ _ ih =>
    obtain ⟨ts, es, htook⟩ := ho.took hx
    obtain ⟨us, ds, htook'⟩ := ih
    exact ⟨ts ++ us, es ++ ds, htook.trans htook'⟩

namespace Omission

variable {O : Omission} {α β : Type} {c c' : Context} {s s' t u v : State} {p : Parser α}

/-- Where the first reading of a part led from one state to another, over the semicolon, the second one
has a value, and is left with the same tokens and the error. -/
def Rereads (O : Omission) (c' : Context) (p : Parser α) (Q : α → Prop) (s t : State) : Prop :=
  ∀ ⦃w s'⦄, O.At w s s' → ∃ y t', p c' s' = (.ok y, t') ∧ Q y ∧ t'.tokens = t.tokens
    ∧ t'.errors = #[O.error]

/-- A list with one part of its own, and the parts before it and behind it up to their spans. -/
def Around [Placed α] (xs ys : List α) (Q : α → Prop) (zs : List α) : Prop :=
  ∃ xs' z ys', zs = xs' ++ z :: ys' ∧ Alike xs xs' ∧ Q z ∧ Alike ys ys'

/-- A body with one part over the omission, and the parts around it. -/
theorem Rereads.body [Placed α] {part : Parser α} {before : Option Token → Prop}
    {mark : ErrorMark → α} {xs ys : List α} {x : α} {Q : α → Prop}
    (hpart : SelfContained part before) (hc : c.structLiterals = true)
    (hc' : c'.structLiterals = true) (hxs : Chain part c s xs t) (hx : part c t = (.ok x, u))
    (hys : Chain part c u ys v) (hv : v.tokens.head? = some (.symbol .rightBrace))
    (hv₀ : v.errors = #[]) (hbefore : O.Before t) (hbehind : u.rest.length ≤ O.behind.length)
    (h : O.Rereads c' (recovering mark part) Q t u) :
    O.Rereads c' (body mark part) (Around xs ys Q) s v.advance := by
  intro w s' hs
  obtain ⟨ts, hts, hrow⟩ := hxs.row hpart hc hbefore.2
  obtain ⟨us, hus, hrow'⟩ := hys.row hpart hc hv₀
  obtain ⟨vs, es, htook⟩ := hxs.took hpart.onward
  -- The tokens before the part stand in both texts, and so does its first one.
  obtain ⟨w', hw, hrest⟩ := hs.split htook hbefore
  have hvs : ts = vs.map Lexeme.token := by
    refine List.append_cancel_right (hts.symm.trans ?_)
    rw [State.tokens, htook.1, List.map_append]
    rfl
  have hs' : s'.tokens = ts ++ (w' ++ O.last :: O.later).map Lexeme.token := by
    rw [State.tokens, hs.rest', hw, List.append_assoc, List.map_append, hvs]
  have hhead : ((w' ++ O.last :: O.later).map Lexeme.token).head? = t.tokens.head? := by
    rw [State.tokens, hrest]
    cases w' <;> rfl
  obtain ⟨xs', t', hparts, halike, ht', herrors⟩ :=
    hrow.parts mark hc' hs' (hhead ▸ hpart.opens hx)
  obtain ⟨_, _, htook'⟩ := hparts.took (onward_recovering mark hpart.onward)
  obtain ⟨w₁, -, hat⟩ := hs.forward htook htook' hbefore (by
    rw [← length_tokens, ht', hrest]
    simp [O.length_later, Nat.add_assoc]) (herrors.trans hs.errors')
  obtain ⟨z, u', hz, hQ, hu', herrors'⟩ := h hat
  obtain ⟨ys', v', hparts', halike', hv', herrors''⟩ :=
    hrow'.parts mark hc' (hu'.trans hus) (hv ▸ hpart.brace)
  refine ⟨xs' ++ z :: ys', v'.advance, ?_, ⟨xs', z, ys', rfl, halike, hQ, halike'⟩, ?_, ?_⟩
  · refine (hparts.append (.cons ?_ hz ?_ hparts')).body (by rw [hv', hv])
    · rw [hat.head?_eq]
      exact hpart.not_brace hx
    · rw [← length_tokens u', hu', length_tokens, hat.rest', List.length_append, List.length_cons,
        O.length_later]
      omega
  · rw [tokens_advance, tokens_advance, hv']
  · rw [errors_advance, herrors'', herrors']

/-! ### Before and behind a body -/

theorem Before.of_took {ts : List Lexeme} {es : List SyntaxError} (h : O.Before t)
    (hs : s.Took ts es t) : O.Before s := ⟨h.1.trans hs.length_le, hs.errors_nil h.2⟩

/-- Behind a part that both readings take before the omission. -/
theorem Rereads.bind [Placed α] {j : Nat} {P : Proviso α} {f : α → Parser β} {Q : β → Prop} {x : α}
    (h : Echoes O.setting P anywhere j 1 p p) (hc' : c'.structLiterals = true)
    (hx : p c s = (.ok x, u)) (hP : P x c u) (hu : O.Before u)
    (hf : ∀ x', Alike x x' → O.Rereads c' (f x') Q u t) : O.Rereads c' (p >>= f) Q s t := by
  intro w s' hs
  have hkept : O.setting.Kept 1 u := by
    refine ⟨by rw [hu.2]; exact le_rfl, ?_⟩
    exact le_of_eq_of_le (by simp [Omission.setting]) hu.1
  obtain ⟨x', u', v, hx', halike, hat⟩ :=
    h.run ⟨fun _ => hc', fun _ => hc'⟩ hs.setting trivial hx hkept hP
  obtain ⟨_, _, htook⟩ := h.onward.took hx
  obtain ⟨ts', es', htook'⟩ := h.onward.took hx'
  have hlength : u'.rest.length + 1 = u.rest.length := by
    rw [hat.length₁, hat.length₂]
    change v.length + O.later.length + 1 = v.length + (O.semi :: O.behind).length
    rw [O.length_later, List.length_cons, Nat.add_assoc]
  obtain ⟨w', -, hu'⟩ := hs.forward htook htook' hu hlength hat.errors₂
  obtain ⟨y, t', hy, hend⟩ := hf x' halike hu'
  exact ⟨y, t', by rw [bind_ok hx', hy], hend⟩

theorem Rereads.map {Q : α → Prop} {R : β → Prop} {make : α → β} (h : O.Rereads c' p Q s t)
    (hR : ∀ x, Q x → R (make x)) : O.Rereads c' (p >>= fun x => pure (make x)) R s t := by
  intro w s' hs
  obtain ⟨y, t', hy, hQ, hend⟩ := h hs
  exact ⟨make y, t', bind_ok hy, hR y hQ, hend⟩

theorem Rereads.mono {Q R : α → Prop} (h : O.Rereads c' p Q s t) (hR : ∀ x, Q x → R x) :
    O.Rereads c' p R s t := by
  intro w s' hs
  obtain ⟨y, t', hy, hQ, hend⟩ := h hs
  exact ⟨y, t', hy, hR y hQ, hend⟩

theorem Rereads.recovering {Q : α → Prop} {mark : ErrorMark → α} (h : O.Rereads c' p Q s t) :
    O.Rereads c' (recovering mark p) Q s t := by
  intro w s' hs
  obtain ⟨y, t', hy, hend⟩ := h hs
  exact ⟨y, t', (recovering_ok (by rw [hy])).trans hy, hend⟩

/-- Behind a look at the places, which may be any. -/
theorem Rereads.spanned {Q : α → Prop} {R : β → Prop} {make : α → Span → β} (start : Span)
    (h : O.Rereads c' p Q s t) (hR : ∀ x span, Q x → R (make x span)) :
    O.Rereads c' (p >>= fun x => spanFrom start >>= fun span => pure (make x span)) R s t := by
  intro w s' hs
  obtain ⟨y, t', hy, hQ, hend⟩ := h hs
  obtain ⟨span, hspan⟩ : ∃ span, spanFrom start c' t' = (.ok span, t') :=
    ⟨_, looks_spanFrom start c' t'⟩
  exact ⟨make y span, t', (bind_ok hy).trans (bind_ok hspan), hR y span hQ, hend⟩

end Omission

end SolidityFrontend
