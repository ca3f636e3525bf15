import SolidityFrontend.Proofs.Alone
import SolidityFrontend.Proofs.Fragments
import SolidityFrontend.Proofs.Yielding

/-!
# What readings without errors grant

`Grants V c p P` says of a parser that where it reads among the tokens `V` and no error is recorded, its
value has the property `P`. Its rules follow the steps of a parser; what is known of an earlier value
stands as a premise in the property of the later ones. Of a fragment it is granted that it stands: it is
read from its own tokens alone, as the run that gave it shows.
-/

namespace SolidityFrontend

open SolidityFrontend.Parser

/-! ### Fragments that stand -/

/-- The fragment is read from these tokens alone. -/
def Fragment.Alone : Fragment → List Token → Prop
  | .expr e => Parser.Alone Nested.full.expression e
  | .typeName t => Parser.Alone Nested.full.typeName t
  | .stmt s => Parser.Alone Nested.full.statement s

/-- Among some tokens are those that the fragment covers, and it is read from them alone. -/
def Fragment.Stands (V : List Lexeme) (f : Fragment) : Prop :=
  ∃ ts, ts <:+: V ∧ Covers f.span ts ∧ f.Alone (ts.map Lexeme.token)

/-- All of some fragments stand. -/
abbrev Stand (V : List Lexeme) (fs : List Fragment) : Prop := ∀ f ∈ fs, f.Stands V

/-- Reading stands among some tokens, and no error was recorded. -/
structure State.Among (V : List Lexeme) (s : State) : Prop where
  ordered : s.Ordered
  suffix : s.rest <:+ V
  errors : s.errors = #[]

theorem Fragment.stands_of_reached {V : List Lexeme} {s t : State} {f : Fragment}
    {L : Phrase} (hs : s.Among V) (h : Reached False s L t) (hL : L ≤ Phrase.covered f.span ⊤)
    (halone : ∀ ts, s.rest = ts ++ t.rest → f.Alone (ts.map Lexeme.token)) : f.Stands V := by
  obtain ⟨ts, es, htook, hphrase, -⟩ := h
  exact ⟨ts, (htook.1 ▸ List.prefix_append ts t.rest).isInfix.trans hs.suffix.isInfix,
    (hL _ _ _ hphrase).1, halone ts htook.1⟩

namespace Parser

variable {α β : Type} {V : List Lexeme} {c : Context} {p q : Parser α} {f : α → Parser β}
  {P P' : α → Prop} {Q : β → Prop} {s t u : State} {x y : α}

theorem Onward.among (h : Onward p) (hs : s.Among V) (hx : p c s = (.ok x, t))
    (ht : t.errors = #[]) : t.Among V := by
  obtain ⟨ts, es, htook⟩ := h c s
  rw [hx] at htook
  exact ⟨hs.ordered.of_took htook, (htook.1 ▸ List.suffix_append ts t.rest).trans hs.suffix, ht⟩

/-- Where the parser reads among some tokens and records no error, its value has a property. -/
structure Grants (V : List Lexeme) (c : Context) (p : Parser α) (P : α → Prop) : Prop where
  onward : Onward p
  grants : ∀ {s x t}, s.Among V → p c s = (.ok x, t) → t.errors = #[] → P x

/-! ### Steps -/

theorem Grants.mono (h : Grants V c p P) (hP : ∀ x, P x → P' x) : Grants V c p P' :=
  ⟨h.onward, fun hs hx ht => hP _ (h.grants hs hx ht)⟩

theorem Grants.and (h : Grants V c p P) (h' : Grants V c p P') :
    Grants V c p fun x => P x ∧ P' x :=
  ⟨h.onward, fun hs hx ht => ⟨h.grants hs hx ht, h'.grants hs hx ht⟩⟩

theorem grants_pure (h : P x) : Grants V c (pure x) P :=
  ⟨onward_pure x, fun _ hy _ => (pure_eq_ok hy).1 ▸ h⟩

theorem Onward.grants (h : Onward p) (hP : ∀ x, P x) : Grants V c p P := ⟨h, fun _ _ _ => hP _⟩

theorem grants_fail (e : SyntaxError) : Grants V c (fail e) P :=
  ⟨onward_fail e, fun _ hx => by simp [fail] at hx⟩

theorem grants_violation (v : Violation) (span : Span) : Grants V c (violation v span) P :=
  grants_fail _

theorem grants_unexpected (e : Expected) : Grants V c (unexpected e) P :=
  ⟨onward_unexpected e, fun _ hx => absurd hx (unexpected_ne_ok e c _ _ _)⟩

theorem Grants.bind (h : Grants V c p P) (hf : ∀ x, Grants V c (f x) fun y => P x → Q y) :
    Grants V c (p >>= f) Q where
  onward := h.onward.bind fun x => (hf x).onward
  grants hs hy hu := by
    obtain ⟨x, t, hx, hfx⟩ := bind_eq_ok hy
    have ht := (hf x).onward.errors_eq_empty hfx hu
    exact (hf x).grants (h.onward.among hs hx ht) hfx hu (h.grants hs hx ht)

/-- A part whose value does not matter. -/
theorem Onward.bind_grants (h : Onward p) (hf : ∀ x, Grants V c (f x) Q) : Grants V c (p >>= f) Q :=
  (h.grants (P := fun _ => True) fun _ => trivial).bind fun x => (hf x).mono fun _ hy _ => hy

theorem Grants.map {g : α → β} (h : Grants V c p P) (hg : ∀ x, P x → Q (g x)) :
    Grants V c (g <$> p) Q := h.bind fun x => grants_pure (hg x)

theorem Grants.ite {b : Prop} [Decidable b] (h : Grants V c p P) (h' : Grants V c q P) :
    Grants V c (if b then p else q) P := by
  split
  · exact h
  · exact h'

theorem Grants.structLiterals {allowed : Bool}
    (h : Grants V { c with structLiterals := allowed } p P) (ho : Onward p) :
    Grants V c (structLiterals allowed p) P :=
  ⟨fun _ s => ho _ s, fun hs hx => h.grants hs hx⟩

theorem grants_spanFrom {start : Span} {l : Span → Parser β} (h : ∀ span, Grants V c (l span) Q) :
    Grants V c (spanFrom start >>= l) Q := (onward_spanFrom start).bind_grants h

theorem grants_here {l : Span → Parser β} (h : ∀ span, Grants V c (l span) Q) :
    Grants V c (here >>= l) Q := looks_here.onward.bind_grants h

theorem grants_next {l : Option Token → Parser β} (h : ∀ o, Grants V c (l o) Q) :
    Grants V c (next? >>= l) Q := peeks_next.looks.onward.bind_grants h

theorem grants_symbol {b : Symbol} {l : Span → Parser β} (h : ∀ span, Grants V c (l span) Q) :
    Grants V c (symbol b >>= l) Q := (onward_symbol b).bind_grants h

theorem grants_keyword {k : Keyword} {l : Span → Parser β} (h : ∀ span, Grants V c (l span) Q) :
    Grants V c (keyword k >>= l) Q := (onward_take _ _).bind_grants h

theorem grants_if_nextIs {a : Token} (h : Grants V c p P) (h' : Grants V c q P) :
    Grants V c (nextIs a >>= fun b => if b = true then p else q) P :=
  (peeks_nextIs a).looks.onward.bind_grants fun _ => h.ite h'

theorem grants_if_accept {a : Token} (h : Grants V c p P) (h' : Grants V c q P) :
    Grants V c (accept a >>= fun b => if b = true then p else q) P :=
  (onward_accept a).bind_grants fun _ => h.ite h'

/-! ### Repetition -/

theorem grants_many {more : Parser (Option α)} (h : Grants V c more fun o => ∀ x ∈ o, P x) :
    Grants V c (many more) fun xs => ∀ x ∈ xs, P x := by
  have hover (clock : List Lexeme) : Grants V c (manyOver more clock) fun xs => ∀ x ∈ xs, P x := by
    induction clock with
    | nil => exact grants_pure (by simp)
    | cons l clock ih =>
      refine h.bind fun o => ?_
      cases o with
      | none => exact grants_pure fun _ => by simp
      | some x => exact ih.bind fun xs => grants_pure fun hxs hx =>
          List.forall_mem_cons.2 ⟨hx x rfl, hxs⟩
  exact ⟨onward_many h.onward, fun hs hxs => (hover _).grants hs hxs⟩

theorem Grants.some (h : Grants V c p P) :
    Grants V c (p >>= fun x => pure (some x)) fun o => ∀ x ∈ o, P x :=
  h.bind fun _ => grants_pure fun hx _ hy => Option.some.inj hy ▸ hx

theorem grants_none : Grants V c (pure none) fun o => ∀ x ∈ o, P x := grants_pure (by simp)

theorem grants_separated (h : Grants V c p P) : Grants V c (separated p) fun xs => ∀ x ∈ xs, P x :=
  h.bind fun _ => (grants_many (grants_if_accept h.some grants_none)).bind fun _ =>
    grants_pure fun hxs hx => List.forall_mem_cons.2 ⟨hx, hxs⟩

theorem grants_itemsUntil {close : Symbol} {continues : Parser Bool} (h : Grants V c p P)
    (hcontinues : Onward continues) :
    Grants V c (itemsUntil close continues p) fun xs => ∀ x ∈ xs, P x := by
  have hover (clock : List Lexeme) :
      Grants V c (itemsOver close continues p clock) fun xs => ∀ x ∈ xs, P x := by
    induction clock with
    | nil => exact grants_pure (by simp)
    | cons l clock ih =>
      refine peeks_atEnd.looks.onward.bind_grants fun _ => (grants_pure (by simp)).ite ?_
      refine grants_if_nextIs (grants_pure (by simp)) (h.bind fun x => ?_)
      refine hcontinues.bind_grants fun _ => Grants.ite ?_ (grants_pure fun hx => by simpa using hx)
      exact ih.bind fun xs => grants_pure fun hxs hx => List.forall_mem_cons.2 ⟨hx, hxs⟩
  exact ⟨onward_itemsUntil h.onward hcontinues, fun hs hxs => (hover _).grants hs hxs⟩

theorem grants_commaItems {close : Symbol} (h : Grants V c p P) :
    Grants V c (commaItems close p) fun xs => ∀ x ∈ xs, P x := grants_itemsUntil h (onward_accept _)

theorem grants_either {r : Reading} (h : Grants V c p P) (h' : Grants V c q P) :
    Grants V c (either r p q) P :=
  ⟨h.onward.either r h'.onward, fun hs hx ht =>
    (either_eq_ok hx).elim (fun hx => h.grants hs hx ht) fun hx => h'.grants hs hx ht⟩

/-- A part that was read without an error is no mark. -/
theorem grants_recovering {mark : ErrorMark → α} (h : Grants V c p P) :
    Grants V c (recovering mark p) P where
  onward := onward_recovering mark h.onward
  grants {s x t} hs hx ht := by
    rcases hp : (p c s).1 with e | y
    · have herrors : (recovering mark p c s).2.errors ≠ #[] := recovering_errors_ne hp
      rw [hx] at herrors
      exact absurd ht herrors
    · rw [recovering_ok hp] at hx
      exact h.grants hs hx ht

/-- The parts of a body that was read without errors. -/
theorem grants_body {mark : ErrorMark → α} (h : Grants V c p P) :
    Grants V c (body mark p) fun xs => ∀ x ∈ xs, P x := by
  have hover (clock : List Lexeme) :
      Grants V c (partsOver (recovering mark p) clock) fun xs => ∀ x ∈ xs, P x := by
    induction clock with
    | nil => exact grants_pure (by simp)
    | cons l clock ih =>
      refine peeks_atEnd.looks.onward.bind_grants fun _ => (grants_pure (by simp)).ite ?_
      refine grants_if_nextIs (grants_pure (by simp)) ((grants_recovering h).bind fun x => ?_)
      exact ih.bind fun xs => grants_pure fun hxs hx => List.forall_mem_cons.2 ⟨hx, hxs⟩
  refine ⟨onward_body mark h.onward, fun {s xs t} hs hxs ht => ?_⟩
  obtain ⟨u, span, hparts, -, hbrace⟩ := body_ok h.onward hxs (by rw [ht]; exact Nat.zero_le _)
  exact (hover _).grants hs hparts ((onward_symbol _).errors_eq_empty hbrace ht)

/-! ### Chains -/

variable {step : α → Parser (Option α)} {L : α → Phrase}

theorem Steps.reached (h : Steps step c x u y t) (hs : s.Ordered) (hx : Reached False s (L x) u)
    (hstep : ∀ y, ReadsAfter False c s (L y) (step y) fun o => L (o.getD y)) :
    Reached False s (L y) t := by
  induction h with
  | refl => exact hx
  | tail _ hy _ ih =>
    have heffect := hstep _ hs _ ih
    rw [hy] at heffect
    exact heffect.reached

/-- A chain of steps, where each value that it comes to has a property because its parts do. -/
theorem grants_iterate {P Q : α → Prop} (hp : Grants V c p P) (ho : ∀ x, Onward (step x))
    (hstrides : ∀ x {s y t}, step x c s = (.ok (some y), t) → t.rest.length < s.rest.length)
    (hstep : ∀ x, P x → ∀ {s y t}, s.Among V → step x c s = (.ok (some y), t) → t.errors = #[] → Q y)
    (hchain : ∀ {s x u y t}, s.Among V → p c s = (.ok x, u) → Steps step c x u y t →
      t.errors = #[] → Q y → P y) : Grants V c (p >>= iterate step) P where
  onward := hp.onward.bind fun x => onward_iterate ho x
  grants {s z v} hs hz hv := by
    obtain ⟨x, u, hx, hiterate⟩ := bind_eq_ok hz
    have hu := (onward_iterate ho x).errors_eq_empty hiterate hv
    have hover (clock : List Lexeme) : ∀ {y t}, Steps step c x u y t → t.Among V → P y →
        iterateOver step clock y c t = (.ok z, v) → P z := by
      induction clock with
      | nil => exact fun _ _ hy hz => (pure_eq_ok hz).1 ▸ hy
      | cons l clock ih =>
        intro y t hsteps ht hy hz
        obtain ⟨o, t', ho', hrest⟩ := bind_eq_ok hz
        cases o with
        | none => exact (pure_eq_ok hrest).1 ▸ hy
        | some y' =>
          have ht' := (onward_iterateOver ho clock y').errors_eq_empty hrest hv
          have hsteps' := hsteps.tail ho' (hstrides y ho')
          exact ih hsteps' ((ho y).among ht ho' ht')
            (hchain hs hx hsteps' ht' (hstep y hy ht ho' ht')) hrest
    exact hover _ .refl (hp.onward.among hs hx hu) (hp.grants hs hx hu) hiterate

end Parser

end SolidityFrontend
