import SolidityFrontend.Proofs.Reading

/-!
# Repetition, choice and recovery

What repeated parsers, choices and bodies read, given what their parts read. A body reads its parts
one behind the other; where a part cannot be read, the mark in its place is written by the tokens
that were skipped, of which there is at least one.
-/

namespace SolidityFrontend

open Phrase

namespace Parser

variable {α β : Type} {q : Prop} {c : Context} {s₀ s : State} {A : Phrase} {L : α → Phrase}
  {N : β → Phrase}

/-! ### Repetition -/

theorem after_iterateOver {step : α → Parser (Option α)}
    (hstep : ∀ x, ReadsAfter q c s₀ (L x) (step x) fun o => L (o.getD x)) :
    ∀ clock x, ReadsAfter q c s₀ (L x) (iterateOver step clock x) L
  | [], _ => after_pure le_rfl
  | _ :: clock, x => by
    refine (hstep x).bind fun o => ?_
    cases o with
    | some y => exact after_iterateOver hstep clock y
    | none => exact after_pure le_rfl

/-- A value that is changed as long as each step keeps its phrase. -/
theorem after_iterate {step : α → Parser (Option α)}
    (hstep : ∀ x, ReadsAfter q c s₀ (L x) (step x) fun o => L (o.getD x)) (x : α) :
    ReadsAfter q c s₀ (L x) (iterate step x) L :=
  looks_state.bind fun s => after_iterateOver hstep s.rest x

theorem reads_manyOver {more : Parser (Option α)}
    (h : Reads q more fun o => perhaps (o.map L)) :
    ∀ clock, Reads q (manyOver more clock) fun xs => (xs.map L).prod
  | [] => reads_pure le_rfl
  | _ :: clock => by
    refine h.first fun c s o => ?_
    cases o with
    | none => exact after_pure le_rfl
    | some x =>
      refine (reads_manyOver h clock).bind fun xs => after_pure ?_
      simp

theorem reads_many {more : Parser (Option α)} (h : Reads q more fun o => perhaps (o.map L)) :
    Reads q (many more) fun xs => (xs.map L).prod :=
  looks_state.first fun s => reads_manyOver h s.rest

/-- Where the first part is known to be there. -/
theorem after_many_ne_nil {more : Parser (Option α)} {P : List Lexeme → Prop} (hnil : ¬P [])
    (hfirst : ReadsAfter q c s₀ (A * before P) more fun o => o.elim ⊥ fun x => A * L x)
    (h : Reads q more fun o => perhaps (o.map L)) :
    ReadsAfter q c s₀ (A * before P) (many more)
      fun xs => such (xs ≠ []) (A * (xs.map L).prod) := by
  intro hs s hA
  obtain ⟨t, rest, hrest⟩ := List.exists_cons_of_ne_nil (l := s.rest) (by
    rintro hrest
    exact hnil (hrest ▸ (reached_mul_before.1 hA).2))
  rw [many, state_bind, hrest]
  refine hfirst.bind (fun o => ?_) hs s hA
  cases o with
  | none => exact fun _ _ h => absurd h (by rintro ⟨_, _, _, h, _⟩; exact h)
  | some x =>
    refine (reads_manyOver h rest).bind fun xs => after_pure (le_such (by simp) ?_)
    rw [List.map_cons, List.prod_cons, ← mul_assoc]
    exact le_rfl

theorem reads_separated_ne_nil {item : Parser α} (h : Reads q item L) :
    Reads q (separated item) fun xs => such (xs ≠ []) (Phrase.separated (xs.map L)) := by
  have hmore : Reads q (accept (.symbol .comma) >>= fun b => if b = true then
      item >>= fun x => pure (some x) else pure none)
      fun o => perhaps (o.map fun x => Phrase.symbol .comma * L x) := by
    refine reads_if_accept (fun c s => ?_) (reads_pure le_rfl)
    exact h.bind fun x => after_pure le_rfl
  refine h.first fun c s x => (reads_many hmore).bind fun xs => after_pure (le_such (by simp) ?_)
  simp [Phrase.separated, Function.comp_def]

theorem reads_separated {item : Parser α} (h : Reads q item L) :
    Reads q (separated item) fun xs => Phrase.separated (xs.map L) :=
  (reads_separated_ne_nil h).mono fun _ => such_le

theorem mul_comma_mul_trailed_le (L : Phrase) (Ls : List Phrase) :
    L * Phrase.symbol .comma * trailed Ls ≤ trailed (L :: Ls) := by
  cases Ls with
  | nil =>
    rw [trailed, trailed, mul_one]
    exact mul_mono le_rfl le_sup_right
  | cons => exact le_rfl

theorem le_trailed_singleton (L : Phrase) : L ≤ trailed [L] :=
  (mul_one L).ge.trans (mul_mono le_rfl le_sup_left)

/-- The next token is this one. -/
def isNext (t : Token) (rest : List Lexeme) : Prop := rest.head?.map Lexeme.token = some t

/-- Where the closing symbol is next, there are no items. -/
theorem itemsOver_of_isNext {close : Symbol} {continues : Parser Bool} {item : Parser α}
    (h : isNext (.symbol close) s.rest) (clock : List Lexeme) :
    itemsOver close continues item clock c s = (.ok [], s) := by
  cases clock with
  | nil => rfl
  | cons t clock =>
    have hnext : (s.rest[0]?.map Lexeme.token == some (.symbol close)) = true := by
      rw [isNext, List.head?_eq_getElem?] at h
      simp [h]
    rw [itemsOver, peeks_atEnd.apply]
    split
    · rfl
    · rw [(peeks_nextIs _).apply, hnext]
      rfl

/-- Items behind each of which a comma is taken, unless the closing symbol is next or no further
item follows. -/
theorem reads_itemsOver {close : Symbol} {continues : Parser Bool} {item : Parser α}
    (h : Reads q item L) (hc : Reads q continues fun b =>
      if b then Phrase.symbol .comma ⊔ before (isNext (.symbol close)) else 1) :
    ∀ clock, Reads q (itemsOver close continues item clock) fun xs => trailed (xs.map L)
  | [] => reads_pure le_rfl
  | _ :: clock => by
    refine peeks_atEnd.looks.first fun _ => reads_ite (fun _ => reads_pure le_rfl) fun _ => ?_
    refine (peeks_nextIs _).looks.first fun _ => reads_ite (fun _ => reads_pure le_rfl) fun _ => ?_
    refine h.first fun c s x => hc.bind fun b => ?_
    cases b with
    | false => exact after_pure ((mul_one (L x)).le.trans (le_trailed_singleton (L x)))
    | true =>
      simp only [↓reduceIte, mul_sup]
      refine ReadsAfter.sup ?_ ?_
      · refine (reads_itemsOver h hc clock).bind fun xs => after_pure ?_
        exact mul_comma_mul_trailed_le (L x) (xs.map L)
      · refine ReadsAfter.bind (M := fun xs => trailed ((x :: xs).map L)) ?_ fun xs =>
          after_pure le_rfl
        intro hs s' hA
        obtain ⟨hx, hnext⟩ := reached_mul_before.1 hA
        rw [itemsOver_of_isNext hnext]
        exact .ok (hx.mono (le_trailed_singleton (L x)))

theorem reads_itemsUntil {close : Symbol} {continues : Parser Bool} {item : Parser α}
    (h : Reads q item L) (hc : Reads q continues fun b =>
      if b then Phrase.symbol .comma ⊔ before (isNext (.symbol close)) else 1) :
    Reads q (itemsUntil close continues item) fun xs => trailed (xs.map L) :=
  looks_state.first fun s => reads_itemsOver h hc s.rest

theorem reads_commaItems {close : Symbol} {item : Parser α} (h : Reads q item L) :
    Reads q (commaItems close item) fun xs => trailed (xs.map L) := by
  refine reads_itemsUntil h ((reads_accept _).mono fun b => ?_)
  cases b
  · exact before_le_one
  · exact le_sup_left

/-- Items with nothing between them. -/
theorem reads_itemsOver_true {close : Symbol} {item : Parser α} (h : Reads q item L) :
    ∀ clock, Reads q (itemsOver close (pure true) item clock) fun xs => (xs.map L).prod
  | [] => reads_pure le_rfl
  | _ :: clock => by
    refine peeks_atEnd.looks.first fun _ => reads_ite (fun _ => reads_pure le_rfl) fun _ => ?_
    refine (peeks_nextIs _).looks.first fun _ => reads_ite (fun _ => reads_pure le_rfl) fun _ => ?_
    refine h.first fun c s x => ?_
    refine (reads_itemsOver_true h clock).bind fun xs => after_pure ?_
    simp

/-! ### Choice -/

/-- The error of a choice whose first reading came farther. -/
def farther (r : Reading) (e : SyntaxError) : SyntaxError :=
  match e.fault with
  | .missing _ => e
  | fault => ⟨.ambiguous r fault, e.span⟩

theorem either_eq (r : Reading) (first second : Parser α) (c : Context) (s : State) :
    either r first second c s = match first c s with
      | (.ok x, s₁) => (.ok x, s₁)
      | (.error e, s₁) => match second c s with
        | (.ok x, s₂) => (.ok x, s₂)
        | (.error e', s₂) => if s₂.progressed s₁ then (.error (farther r e), s₁)
          else (.error e', s₂) := by
  rw [either, state_bind, attempt_bind]
  rcases first c s with ⟨e | x, s₁⟩
  · dsimp only
    rw [state_bind, goTo_bind, attempt_bind]
    rcases second c s with ⟨e' | y, s₂⟩
    · dsimp only
      rw [state_bind, run_ite, goTo_bind]
      congr 1
      unfold farther
      cases e.fault <;> rfl
    · rfl
  · rfl

/-- Whatever the first reading does, the second one begins where the first did. -/
theorem reads_either {r : Reading} {first second : Parser α} (h : Reads q first L)
    (h' : Reads q second L) : Reads q (either r first second) L := by
  intro c s hs
  have hfirst := h c s hs
  have hsecond := h' c s hs
  rw [either_eq]
  split
  · rename_i hr
    rw [hr] at hfirst
    exact hfirst
  · rename_i hr
    rw [hr] at hfirst
    split
    · rename_i hr'
      rw [hr'] at hsecond
      exact hsecond
    · rename_i hr'
      rw [hr'] at hsecond
      split
      · exact .error hfirst.reached_top
      · exact .error hsecond.reached_top

/-! ### Recovery -/

/-- Tokens are skipped, and the last of them becomes the one read last. -/
def Skips (previous : Option Lexeme) (rest : List Lexeme)
    (next : Option Lexeme × List Lexeme) : Prop :=
  ∃ us, rest = us ++ next.2 ∧ next.1 = us.getLast?.or previous

theorem Skips.refl (previous : Option Lexeme) (rest : List Lexeme) :
    Skips previous rest (previous, rest) := ⟨[], rfl, rfl⟩

theorem Skips.cons {t : Lexeme} {previous : Option Lexeme} {rest : List Lexeme}
    {next : Option Lexeme × List Lexeme} (h : Skips (some t) rest next) :
    Skips previous (t :: rest) next := by
  obtain ⟨us, hrest, hprevious⟩ := h
  refine ⟨t :: us, by rw [hrest, List.cons_append], ?_⟩
  rw [hprevious, List.getLast?_cons]
  cases us.getLast? <;> rfl

theorem skips_skipToBoundary (depth : Nat) (previous : Option Lexeme) (rest : List Lexeme) :
    Skips previous rest (skipToBoundary depth previous rest) := by
  fun_induction skipToBoundary depth previous rest
  case case1 | case7 => exact .refl _ _
  case case8 | case10 => exact .cons (.refl _ _)
  all_goals exact .cons ‹_›

theorem took_synchronize (s : State) : ∃ us, s.Took us [] s.synchronize := by
  obtain ⟨us, hrest, hprevious⟩ := skips_skipToBoundary 0 s.previous s.rest
  exact ⟨us, hrest, hprevious, by simp [State.synchronize]⟩

/-- After an error in a part that began before a token, reading goes on behind that token. -/
theorem took_resume {before now : State} {ts : List Lexeme} {es : List SyntaxError}
    (h : before.Took ts es now) (hne : before.rest ≠ []) (fault : SyntaxFault) :
    ∃ us, us ≠ [] ∧ before.Took us es (before.resume fault now) := by
  have hnext : ∀ keep : Bool, ∃ us, before.Took us es (if keep then now else now.synchronize) := by
    intro keep
    cases keep with
    | true => exact ⟨ts, h⟩
    | false =>
      obtain ⟨us, hus⟩ := took_synchronize now
      exact ⟨ts ++ us, by simpa using h.trans hus⟩
  unfold State.resume
  extract_lets progressed keep next
  obtain ⟨us, hus⟩ : ∃ us, before.Took us es next := hnext keep
  have hlength : before.rest.length = us.length + next.rest.length := by
    rw [hus.1, List.length_append]
  split
  · rename_i hprogressed
    refine ⟨us, ?_, hus⟩
    rintro rfl
    simp only [State.progressed, decide_eq_true_eq, List.length_nil] at hprogressed hlength
    omega
  · rename_i hprogressed
    simp only [State.progressed, decide_eq_true_eq] at hprogressed
    have hnil : us = [] := List.eq_nil_of_length_eq_zero (by omega)
    obtain ⟨t, rest, hrest⟩ := List.exists_cons_of_ne_nil hne
    have hnext : next.rest = t :: rest := by rw [← hrest, hus.1, hnil, List.nil_append]
    exact ⟨us ++ [t], by simp, by simpa using hus.trans (.advance hnext)⟩

theorem recover_eq (before : State) (e : SyntaxError) (c : Context) (s : State) :
    recover before e c s = (spanFrom (before.nextSpan c.stop) >>= fun span =>
      record e >>= fun _ => pure (e.mark span)) c (before.resume e.fault s) := rfl

/-- A mark is written by the tokens that are skipped, of which there is at least one. -/
theorem recover_effect (hq : ¬q) {before now : State} (hs : before.Ordered)
    (hnow : Reached q before ⊤ now) (hne : before.rest ≠ []) (e : SyntaxError) :
    Effect q before ErrorMark.phrase (recover before e c now) := by
  obtain ⟨ts, es, ht, -, -⟩ := hnow
  obtain ⟨us, hus, hresume⟩ := took_resume ht hne e.fault
  let skipped : Phrase := fun ts _ _ =>
    ∃ t, ts.head? = some t ∧ t.span.start = (before.nextSpan c.stop).start
  have hskipped : Reached q before skipped (before.resume e.fault now) := by
    obtain ⟨t, us, rfl⟩ := List.exists_cons_of_ne_nil hus
    exact ⟨_, _, hresume, ⟨t, rfl, by simp [State.nextSpan, hresume.1]⟩, fun h => absurd h hq⟩
  have hopens : skipped.Opens (before.nextSpan c.stop) := fun _ _ _ h => h
  have hmark : ReadsAfter q c before skipped (spanFrom (before.nextSpan c.stop) >>= fun span =>
      record e >>= fun _ => pure (e.mark span)) ErrorMark.phrase := by
    refine (after_spanFrom hopens).bind fun span => (after_record hq e).bind fun _ => after_pure ?_
    rintro ts es rest ⟨us, _, ds, _, rfl, rfl, ⟨hcovers, -⟩, rfl, rfl⟩
    exact ⟨by simpa [SyntaxError.mark] using hcovers, ds, e, rfl, rfl⟩
  rw [recover_eq]
  exact hmark hs _ hskipped

/-- A part, or a mark for what was skipped in its place. -/
theorem after_recovering {mark : ErrorMark → α} {part : Parser α} (hq : ¬q) (h : Reads q part L)
    (hmark : ∀ m : ErrorMark, m.phrase ≤ L (mark m)) :
    ReadsAfter q c s₀ (A * before (· ≠ [])) (recovering mark part) fun x => A * L x := by
  intro hs s hA
  obtain ⟨hA, hne⟩ := reached_mul_before.1 hA
  refine Effect.mul hA ?_
  have hs' := hA.ordered hs
  have hpart := h c s hs'
  rw [recovering, state_bind, attempt_bind]
  rcases hr : part c s with ⟨e | x, s₁⟩
  · rw [hr] at hpart
    have hrecover := recover_effect (c := c) hq hs' hpart.reached_top hne e
    dsimp only
    rcases hm : recover s e c s₁ with ⟨e' | m, s₂⟩
    · rw [hm] at hrecover
      rw [bind_error hm]
      exact .error hrecover.reached_top
    · rw [hm] at hrecover
      rw [bind_ok hm]
      exact .ok (hrecover.reached.mono (hmark m))
  · rw [hr] at hpart
    exact hpart

/-! ### Bodies -/

theorem after_recovering_unless {mark : ErrorMark → α} {part : Parser α} {ended : Bool} (hq : ¬q)
    (h : Reads q part L) (hmark : ∀ m : ErrorMark, m.phrase ≤ L (mark m)) (hended : ¬ended) :
    ReadsAfter q c s₀ (before fun rest => rest.isEmpty = ended) (recovering mark part) L := by
  have hpart : ReadsAfter q c s₀ (1 * before (· ≠ [])) (recovering mark part) fun x => 1 * L x :=
    after_recovering hq h hmark
  refine hpart.mono ?_ fun x => (one_mul _).le
  rw [one_mul]
  refine before_mono fun rest hrest => ?_
  rintro rfl
  exact hended hrest.symm

theorem reads_partsOver {mark : ErrorMark → α} {part : Parser α} (hq : ¬q) (h : Reads q part L)
    (hmark : ∀ m : ErrorMark, m.phrase ≤ L (mark m)) :
    ∀ clock, Reads q (partsOver (recovering mark part) clock) fun xs => (xs.map L).prod
  | [] => reads_pure le_rfl
  | _ :: clock => by
    refine peeks_atEnd.first fun c s ended => after_ite (fun _ => after_pure before_le_one) ?_
    intro hended
    refine (peeks_nextIs _).looks.bind fun _ => after_ite (fun _ => after_pure before_le_one) ?_
    intro _
    refine (after_recovering_unless hq h hmark hended).bind fun x => ?_
    refine (reads_partsOver hq h hmark clock).bind fun xs => after_pure ?_
    simp

/-- The brace that closes a part is missing behind the token read last. -/
theorem after_missingBrace (hq : ¬q) (hA : A.Takes) :
    ReadsAfter q c s₀ A missingBrace fun m ts es rest => ∃ t ds, ts.getLast? = some t
      ∧ m = (bracelessError t.span).mark t.span.after ∧ es = ds ++ [bracelessError t.span]
      ∧ A ts ds rest := by
  rintro hs s ⟨ts, es, ht, hread, -⟩
  have hlast := List.getLast?_eq_some_getLast (hA _ _ _ hread)
  have hprevious : s.previousSpan = (ts.getLast (hA _ _ _ hread)).span := by
    simp [State.previousSpan, ht.2.1, hlast]
  refine .ok ⟨ts, es ++ [bracelessError s.previousSpan], ?_, ?_, fun h => absurd h hq⟩
  · exact ⟨ht.1, ht.2.1, by simp [ht.2.2, bracelessError]⟩
  · exact ⟨_, es, hlast, by rw [hprevious]; rfl, by rw [hprevious], hread⟩

theorem prod_mul_rightBrace_le_body (parts : List (Phrase × Phrase)) :
    (parts.map Prod.fst).prod * Phrase.symbol .rightBrace ≤ Phrase.body parts := by
  induction parts with
  | nil => rw [List.map_nil, List.prod_nil, one_mul, Phrase.body]
  | cons part parts ih =>
    rw [List.map_cons, List.prod_cons, mul_assoc, Phrase.body]
    exact (mul_mono le_rfl ih).trans le_sup_left

theorem prod_mul_le_body (parts : List (Phrase × Phrase)) (L M : Phrase) :
    (parts.map Prod.fst).prod * M ≤ Phrase.body (parts ++ [(L, M)]) := by
  induction parts with
  | nil =>
    rw [List.map_nil, List.prod_nil, one_mul, List.nil_append, Phrase.body]
    exact (le_such rfl le_rfl).trans le_sup_right
  | cons part parts ih =>
    rw [List.map_cons, List.prod_cons, mul_assoc, List.cons_append, Phrase.body]
    exact (mul_mono le_rfl ih).trans le_sup_left

/-- The parts of a body whose closing brace is missing, the last of them the mark of that. -/
def Unclosed (A : Phrase) (L : α → Phrase) (mark : ErrorMark → α) (parts : List α) : Phrase :=
  fun ts es rest => ∃ init t, ts.getLast? = some t
    ∧ parts = init ++ [mark ((bracelessError t.span).mark t.span.after)]
    ∧ (A * (init.map L).prod * before (· = []) * recording (bracelessError t.span)) ts es rest

theorem after_body {mark : ErrorMark → α} {part : Parser α} (hq : ¬q) (h : Reads q part L)
    (hmark : ∀ m : ErrorMark, m.phrase ≤ L (mark m)) (hA : A.Takes) :
    ReadsAfter q c s₀ A (body mark part) fun parts =>
      A * ((parts.map L).prod * Phrase.symbol .rightBrace) ⊔ Unclosed A L mark parts := by
  refine looks_state.bind fun s => (reads_partsOver hq h hmark _).bind fun parts => ?_
  refine peeks_atEnd.bind fun ended => after_ite (fun hended => ?_) fun _ => ?_
  · refine (after_missingBrace hq ?_).bind fun m => after_pure ?_
    · exact (hA.mul_right _).mul_right _
    · rintro ts es rest ⟨t, ds, hlast, rfl, rfl, hread⟩
      have hend : before (fun rest => rest.isEmpty = ended) ≤ before (· = []) :=
        before_mono fun rest hrest => by simpa [hended] using hrest
      have hparts := mul_mono (le_refl (A * (parts.map L).prod)) hend _ _ _ hread
      exact .inr ⟨parts, t, hlast, rfl, ts, [], ds, _, by simp, rfl, by simpa using hparts, rfl, rfl⟩
  · refine ((reads_symbol _).after c s₀ _).weaken mul_before_le |>.bind fun _ => after_pure ?_
    rw [mul_assoc]
    exact le_sup_left

/-- A body and the span of the part that ends with it. -/
theorem bind_body_spanFrom {mark : ErrorMark → α} {part : Parser α} {start : Span}
    {k : List α → Span → Parser β} (missing : Span → α → Phrase) (hq : ¬q) (h : Reads q part L)
    (hmark : ∀ m : ErrorMark, m.phrase ≤ L (mark m))
    (hmissing : ∀ around m, ErrorMark.missing around m ≤ missing around (mark m))
    (hA : A.Opens start) (hk : ∀ parts span, ReadsAfter q c s₀ (covered span
      (A * Phrase.body (parts.map fun x => (L x, missing span x)))) (k parts span) N) :
    ReadsAfter q c s₀ A (body mark part >>= fun parts => spanFrom start >>= k parts) N := by
  refine (after_body hq h hmark hA.takes).bind fun parts => ?_
  have hopens : (A * ((parts.map L).prod * Phrase.symbol .rightBrace)
      ⊔ Unclosed A L mark parts).Opens start := by
    rintro ts es rest (hclosed | ⟨init, t, -, -, hunclosed⟩)
    · exact hA.mul _ _ _ _ hclosed
    · exact ((hA.mul _).mul _).mul _ _ _ _ hunclosed
  refine (after_spanFrom hopens).bind fun span => (hk parts span).weaken ?_
  rintro ts es rest ⟨hcovers, hclosed | ⟨init, t, hlast, rfl, hunclosed⟩⟩
  · refine ⟨hcovers, mul_mono le_rfl ?_ _ _ _ hclosed⟩
    have hbody := prod_mul_rightBrace_le_body (parts.map fun x => (L x, missing span x))
    simpa [List.map_map, Function.comp_def] using hbody
  · refine ⟨hcovers, ?_⟩
    obtain ⟨first, last, -, hlast', rfl⟩ := hcovers
    obtain rfl : last = t := by simpa [hlast] using hlast'.symm
    have hmissed : before (· = []) * recording (bracelessError last.span)
        ≤ missing (first.span.through last.span)
          (mark ((bracelessError last.span).mark last.span.after)) := by
      refine le_trans ?_ (hmissing (first.span.through last.span) _)
      exact le_such rfl le_rfl
    rw [mul_assoc, mul_assoc] at hunclosed
    refine mul_mono le_rfl ?_ _ _ _ hunclosed
    rw [List.map_append, List.map_singleton]
    refine le_trans ?_ (prod_mul_le_body _ _ _)
    rw [List.map_map]
    exact mul_mono le_rfl hmissed

end Parser

end SolidityFrontend
