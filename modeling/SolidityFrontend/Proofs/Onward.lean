import SolidityFrontend.Proofs.Repeating

/-!
# Parsers that go forward

A parser is `Onward` if it only takes tokens and records errors, whether it fails or not. It is
`Quiet` if it records no error, and it `Takes` a token if it does so whenever it gives a value.
-/

namespace SolidityFrontend

namespace State

variable {s s' : State} {ts : List Lexeme} {es : List SyntaxError}

theorem Took.length_le (h : s.Took ts es s') : s'.rest.length ≤ s.rest.length := by
  rw [h.1, List.length_append]
  exact Nat.le_add_left _ _

theorem Took.errors_ne (h : s.Took ts es s') (hs : s.errors ≠ #[]) : s'.errors ≠ #[] := by
  intro hnil
  have herrors := h.2.2
  rw [hnil] at herrors
  exact hs (Array.toList_eq_nil_iff.1 (List.append_eq_nil_iff.1 herrors.symm).1)

end State

namespace Parser

variable {α β : Type} {p : Parser α} {f : α → Parser β} {L : α → Phrase}

/-- The parser only takes tokens and records errors. -/
def Onward (p : Parser α) : Prop := ∀ (c : Context) (s : State), ∃ ts es, s.Took ts es (p c s).2

/-- The parser records no error. -/
def Quiet (p : Parser α) : Prop :=
  ∀ (c : Context) (s : State), s.Ordered → (p c s).2.errors = s.errors

/-- The parser takes a token if it gives a value. -/
def Takes (p : Parser α) : Prop :=
  ∀ (c : Context) (s : State) (x : α) (t : State), s.Ordered →
    p c s = (.ok x, t) → t.rest.length < s.rest.length

theorem Onward.took {c : Context} {s t : State} {r : Except SyntaxError α} (h : Onward p)
    (hr : p c s = (r, t)) : ∃ ts es, s.Took ts es t := by
  obtain ⟨ts, es, htook⟩ := h c s
  rw [hr] at htook
  exact ⟨ts, es, htook⟩

theorem onward_of_state_eq (h : ∀ c s, (p c s).2 = s) : Onward p :=
  fun c s => ⟨[], [], by rw [h c s]; exact .refl s⟩

theorem onward_pure (x : α) : Onward (pure x) := onward_of_state_eq fun _ _ => rfl

theorem onward_fail (e : SyntaxError) : Onward (fail e : Parser α) :=
  onward_of_state_eq fun _ _ => rfl

theorem Onward.bind (h : Onward p) (hf : ∀ x, Onward (f x)) : Onward (p >>= f) := by
  intro c s
  obtain ⟨ts, es, ht⟩ := h c s
  rcases hr : p c s with ⟨e | x, t⟩
  · rw [hr] at ht
    rw [bind_error hr]
    exact ⟨ts, es, ht⟩
  · rw [hr] at ht
    rw [bind_ok hr]
    obtain ⟨us, ds, hu⟩ := hf x c t
    exact ⟨ts ++ us, es ++ ds, ht.trans hu⟩

theorem Onward.ite {b : Prop} [Decidable b] {q : Parser α} (h : b → Onward p) (h' : ¬b → Onward q) :
    Onward (if b then p else q) := by
  split
  · exact h ‹_›
  · exact h' ‹_›

theorem Looks.onward {g : Context → State → α} (h : Looks p g) : Onward p :=
  onward_of_state_eq fun c s => congrArg Prod.snd (h c s)

theorem onward_advance : Onward advance := by
  intro c s
  change ∃ ts es, s.Took ts es s.advance
  rcases hrest : s.rest with _ | ⟨t, rest⟩
  · have hstay : s.advance = s := by rw [State.advance, hrest]
    exact ⟨[], [], by rw [hstay]; exact .refl s⟩
  · exact ⟨[t], [], .advance hrest⟩

theorem onward_record (e : SyntaxError) : Onward (record e) :=
  fun _ s => ⟨[], [e], by simp [record, State.Took]⟩

theorem Onward.either {q : Parser α} (r : Reading) (h : Onward p) (h' : Onward q) :
    Onward (either r p q) := by
  intro c s
  have hfirst := h c s
  have hsecond := h' c s
  rw [either_eq]
  generalize p c s = a, q c s = b at hfirst hsecond ⊢
  rcases a with ⟨e | x, t⟩
  · rcases b with ⟨e' | y, t'⟩
    · dsimp only
      split
      · exact hfirst
      · exact hsecond
    · exact hsecond
  · exact hfirst

theorem onward_spanFrom (start : Span) : Onward (spanFrom start) :=
  Looks.onward (g := fun _ s => if s.previousSpan.stop.offset < start.start.offset then
    .point start.start else start.through s.previousSpan) fun _ _ => rfl

theorem onward_recovering (mark : ErrorMark → α) (h : Onward p) : Onward (recovering mark p) := by
  intro c s
  obtain ⟨ts, es, ht⟩ := h c s
  rw [recovering, state_bind, attempt_bind]
  generalize p c s = a at ht ⊢
  rcases a with ⟨e | x, t⟩
  · have hresume : ∃ us ds, s.Took us ds (s.resume e.fault t) := by
      obtain ⟨us, hu⟩ := took_synchronize t
      unfold State.resume
      have hnext (keep : Bool) : ∃ us ds, s.Took us ds (if keep then t else t.synchronize) := by
        cases keep with
        | true => exact ⟨ts, es, ht⟩
        | false => exact ⟨ts ++ us, es ++ [], ht.trans hu⟩
      extract_lets progressed keep next
      obtain ⟨vs, ds, hv⟩ : ∃ us ds, s.Took us ds next := hnext keep
      split
      · exact ⟨vs, ds, hv⟩
      · obtain ⟨ws, fs, hw⟩ := onward_advance c next
        exact ⟨vs ++ ws, ds ++ fs, hv.trans hw⟩
    obtain ⟨us, ds, hu⟩ := hresume
    have hmark : Onward ((spanFrom (s.nextSpan c.stop) >>= fun span =>
        record e >>= fun _ => pure (e.mark span)) >>= fun m => pure (mark m)) :=
      ((onward_spanFrom _).bind fun _ => (onward_record e).bind fun _ => onward_pure _).bind
        fun _ => onward_pure _
    obtain ⟨vs, fs, hv⟩ := hmark c (s.resume e.fault t)
    exact ⟨us ++ vs, ds ++ fs, hu.trans hv⟩
  · exact ⟨ts, es, ht⟩

theorem onward_unexpected (e : Expected) : Onward (unexpected e : Parser α) :=
  looks_here.onward.bind fun _ => peeks_next.looks.onward.bind fun next => by
    cases next with
    | none => exact onward_fail _
    | some t => exact onward_fail _

theorem onward_symbol (t : Symbol) : Onward (symbol t) := by
  refine looks_here.onward.bind fun _ => Onward.bind ?_ fun b => .ite (fun _ => onward_pure _) fun _ => ?_
  · refine (peeks_nextIs _).looks.onward.bind fun _ => .ite (fun _ => ?_) fun _ => onward_pure _
    exact onward_advance.bind fun _ => onward_pure _
  · refine .ite (fun _ => ?_) fun _ => onward_unexpected _
    exact looks_previousSpan.onward.bind fun _ => onward_fail _

/-! ### Repetition -/

theorem onward_iterateOver {step : α → Parser (Option α)} (h : ∀ x, Onward (step x)) :
    ∀ clock x, Onward (iterateOver step clock x)
  | [], x => onward_pure x
  | _ :: clock, x => (h x).bind fun
    | some y => onward_iterateOver h clock y
    | none => onward_pure x

theorem onward_iterate {step : α → Parser (Option α)} (h : ∀ x, Onward (step x)) (x : α) :
    Onward (iterate step x) := fun c s => onward_iterateOver h s.rest x c s

theorem onward_manyOver {more : Parser (Option α)} (h : Onward more) :
    ∀ clock, Onward (manyOver more clock)
  | [] => onward_pure []
  | _ :: clock => h.bind fun
    | some _ => (onward_manyOver h clock).bind fun _ => onward_pure _
    | none => onward_pure []

theorem onward_many {more : Parser (Option α)} (h : Onward more) : Onward (many more) :=
  fun c s => onward_manyOver h s.rest c s

theorem onward_itemsOver {close : Symbol} {continues : Parser Bool} {item : Parser α}
    (h : Onward item) (hc : Onward continues) : ∀ clock, Onward (itemsOver close continues item clock)
  | [] => onward_pure []
  | _ :: clock => by
    refine peeks_atEnd.looks.onward.bind fun _ => .ite (fun _ => onward_pure _) fun _ => ?_
    refine (peeks_nextIs _).looks.onward.bind fun _ => .ite (fun _ => onward_pure _) fun _ => ?_
    refine h.bind fun x => hc.bind fun b => .ite (fun _ => ?_) fun _ => onward_pure _
    exact (onward_itemsOver h hc clock).bind fun _ => onward_pure _

theorem onward_itemsUntil {close : Symbol} {continues : Parser Bool} {item : Parser α}
    (h : Onward item) (hc : Onward continues) : Onward (itemsUntil close continues item) :=
  fun c s => onward_itemsOver h hc s.rest c s

theorem onward_partsOver (h : Onward p) : ∀ clock, Onward (partsOver p clock)
  | [] => onward_pure []
  | _ :: clock => by
    refine peeks_atEnd.looks.onward.bind fun _ => .ite (fun _ => onward_pure _) fun _ => ?_
    refine (peeks_nextIs _).looks.onward.bind fun _ => .ite (fun _ => onward_pure _) fun _ => ?_
    exact h.bind fun x => (onward_partsOver h clock).bind fun _ => onward_pure _

/-! ### Quiet parsers and parsers that take a token -/

theorem Reads.quiet (h : Reads True p L) : Quiet p := by
  intro c s hs
  have heffect := h c s hs
  have herrors : ∀ {A : Phrase}, Reached True s A (p c s).2 → (p c s).2.errors = s.errors := by
    rintro A ⟨ts, es, ht, -, hes⟩
    have htook := ht.2.2
    rw [hes trivial, List.append_nil] at htook
    exact Array.toList_inj.1 htook
  rcases hr : p c s with ⟨e | x, t⟩
  · rw [hr] at heffect herrors
    exact herrors heffect.reached_top
  · rw [hr] at heffect herrors
    exact herrors heffect.reached

theorem Reads.takes (h : Reads False p L) (hL : ∀ x, (L x).Takes) : Takes p := by
  intro c s x t hs hr
  have heffect := h c s hs
  rw [hr] at heffect
  obtain ⟨ts, es, ht, hread, -⟩ := heffect.reached
  have hpos := List.length_pos_of_ne_nil (hL x _ _ _ hread)
  rw [ht.1, List.length_append]
  omega

theorem Takes.bind (h : Takes p) (hf : ∀ x, Onward (f x)) : Takes (p >>= f) := by
  intro c s y u hs hr
  rcases hp : p c s with ⟨e | x, t⟩
  · rw [bind_error hp] at hr
    simp at hr
  · rw [bind_ok hp] at hr
    obtain ⟨ts, es, ht⟩ := hf x c t
    rw [hr] at ht
    exact lt_of_le_of_lt ht.length_le (h c s x t hs hp)

theorem Onward.bind_takes (h : Onward p) (hf : ∀ x, Takes (f x)) : Takes (p >>= f) := by
  intro c s y u hs hr
  obtain ⟨ts, es, ht⟩ := h c s
  rcases hp : p c s with ⟨e | x, t⟩
  · rw [bind_error hp] at hr
    simp at hr
  · rw [hp] at ht
    rw [bind_ok hp] at hr
    exact lt_of_lt_of_le (hf x c t y u (hs.of_took ht) hr) ht.length_le

end Parser

end SolidityFrontend
