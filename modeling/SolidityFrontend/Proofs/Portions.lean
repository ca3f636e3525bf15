import SolidityFrontend.Proofs.Brackets
import SolidityFrontend.Proofs.Passages

/-!
# Portions of a file as passages

A whole file is a passage with nothing behind it. So are tokens that close their brackets and end with
a semicolon, whatever follows: no error in them leads behind them. Of an item that is read without
errors it is only known that its braces are closed at its end, and of a pragma that it ends with a
semicolon.
-/

namespace SolidityFrontend

/-- The tokens lie where a motion is that of characters. -/
def Motion.Reaches (m : Motion) (ts : List Lexeme) : Prop :=
  ∀ t ∈ ts, t.span.start.offset ≤ m.reach ∧ t.span.stop.offset ≤ m.reach

theorem Motion.Reaches.suffix {m : Motion} {ts w : List Lexeme} (h : m.Reaches ts) (hw : w <:+ ts) :
    m.Reaches w := fun t ht => h t (hw.mem ht)

namespace Passage

/-! ### Whole files -/

/-- A text behind errors that were recorded, with nothing that follows. -/
def whole (m : Motion) (errors : List SyntaxError) : Passage where
  motion := m
  next₁ := []
  next₂ := []
  errors := errors
  strict := True
  inside _ w := m.Reaches w
  outside w := m.Reaches w
  ends_of_inside _ := ⟨rfl, rfl⟩
  le_reach h ht := h _ ht
  lower _ _ _ h := h
  inner h _ _ _ := h.suffix (List.suffix_cons _ _)
  leave _ _ h := h
  leave_cons h _ := h.suffix (List.suffix_cons _ _)

instance (m : Motion) (errors : List SyntaxError) : (whole m errors).Braced where
  semicolon h _ := h.suffix (List.suffix_cons _ _)
  opened h _ := h.suffix (List.suffix_cons _ _)
  closed h _ := ⟨fun _ => h.suffix (List.suffix_cons _ _), .inl (h.suffix (List.suffix_cons _ _))⟩
  skipped _ n w h := by
    refine ⟨boundary 0 (w.map Lexeme.token), by simpa using boundary_le 0 (w.map Lexeme.token), ?_⟩
    refine ⟨by simp [whole], by simp [whole], ?_⟩
    have hdrop := h.suffix (List.drop_suffix (boundary 0 (w.map Lexeme.token)) w)
    cases n with
    | zero => exact hdrop
    | succ n => exact hdrop
  closes {n w} h := by
    rcases hclosing : closingBrace 1 (w.map Lexeme.token) with _ | k
    · refine .inr ⟨by simpa [whole] using hclosing, by simpa [whole] using hclosing, rfl, rfl, ?_⟩
      exact ⟨n + 1, le_rfl, fun t ht => absurd ht List.not_mem_nil⟩
    · refine .inl ⟨k, by simpa using closingBrace_le hclosing, ?_, ?_, ?_⟩
      · simpa [whole] using hclosing
      · simpa [whole] using hclosing
      · exact h.suffix (List.drop_suffix k w)

/-! ### Tokens that close their brackets -/

/-- Tokens that close the awaited brackets, among them a number of braces, and end with a
semicolon. -/
def Closing (m : Motion) (n : Nat) (w : List Lexeme) : Prop :=
  m.Reaches w ∧ (w.map Lexeme.token).getLast? = some (.symbol .semicolon)
    ∧ ∃ awaited, closes awaited (w.map Lexeme.token) ∧ n ≤ braces awaited

section

variable {m : Motion} {n n' : Nat} {t : Lexeme} {v w : List Lexeme}

theorem Closing.le (h : Closing m n w) (hn : n' ≤ n) : Closing m n' w :=
  ⟨h.1, h.2.1, h.2.2.imp fun _ hcloses => ⟨hcloses.1, hn.trans hcloses.2⟩⟩

theorem Closing.suffix (h : Closing m n w) (hv : v <:+ w) (hne : v ≠ [])
    (hcloses : ∃ awaited, closes awaited (v.map Lexeme.token) ∧ n' ≤ braces awaited) :
    Closing m n' v := by
  refine ⟨h.1.suffix hv, ?_, hcloses⟩
  obtain ⟨u, rfl⟩ := hv
  rw [← h.2.1, List.map_append, List.getLast?_append_of_ne_nil _ (by simpa using hne)]

theorem Closing.ne_nil (h : Closing m n w) : w ≠ [] := by
  rintro rfl
  simpa using h.2.1

/-- What is left behind a token, where so many braces are open that it may not close another. -/
theorem Closing.behind (h : Closing m n (t :: w)) (hne : w ≠ [])
    (hstep : ∀ b b', n ≤ b → afterBrace b t.token = some b' → n' ≤ b') : Closing m n' w := by
  obtain ⟨awaited, hcloses, hle⟩ := h.2.2
  obtain ⟨awaited', hafter, hrest⟩ := closes_cons hcloses
  refine h.suffix (List.suffix_cons _ _) hne ⟨awaited', hrest, ?_⟩
  exact hstep _ _ hle (afterBrace_of_afterBracket hafter)

theorem Closing.tail_ne_nil (h : Closing m n (t :: w)) (ht : t.token ≠ .symbol .semicolon) :
    w ≠ [] := by
  rintro rfl
  exact ht (Option.some.inj h.2.1)

theorem afterBrace_of_ne {t : Token} (h : t ≠ .symbol .leftBrace) (h' : t ≠ .symbol .rightBrace) :
    afterBrace n t = some n := by
  rw [afterBrace]
  · exact h
  · exact h'

theorem Closing.inner (h : Closing m n (t :: w)) (hne : w ≠ []) (hopen : t.token ≠ .symbol .leftBrace)
    (hclose : t.token ≠ .symbol .rightBrace) : Closing m n w :=
  h.behind hne fun b b' hle hafter => by
    rw [afterBrace_of_ne hopen hclose] at hafter
    exact Option.some.inj hafter ▸ hle

end

/-- Tokens that close their brackets and end with a semicolon, with other ones behind them in the
second text. -/
def bracketed (m : Motion) (next : List Lexeme) : Passage where
  motion := m
  next₁ := []
  next₂ := next
  errors := []
  strict := True
  inside n w := Closing m n w
  outside w := w = [] ∨ Closing m 0 w
  ends_of_inside h := absurd rfl h.ne_nil
  le_reach h ht := h.1 _ ht
  lower _ _ _ h := h.le (Nat.le_succ _)
  inner h hopen hclose hsemicolon := h.inner (h.tail_ne_nil hsemicolon) hopen hclose
  leave _ _ h := .inr h
  leave_cons {t w} h _ := by
    by_cases hnil : w = []
    · exact .inl hnil
    · exact .inr (h.behind hnil fun _ _ _ _ => Nat.zero_le _)

instance (m : Motion) (next : List Lexeme) : (bracketed m next).Braced where
  semicolon {n t w} h ht := by
    have hinner (b : Nat) : afterBrace b t.token = some b := by rw [ht]; rfl
    have hne : w ≠ [] := by
      obtain ⟨awaited, hcloses, hle⟩ := h.2.2
      obtain ⟨awaited', hafter, hrest⟩ := closes_cons hcloses
      have hsame := (hinner _).symm.trans (afterBrace_of_afterBracket hafter)
      have hnil := ne_nil_of_closes hrest (ne_nil_of_braces (Option.some.inj hsame ▸ hle))
      simpa using hnil
    exact h.inner hne (by simp [ht]) (by simp [ht])
  opened {n t w} h ht := by
    refine h.behind (h.tail_ne_nil (by simp [ht])) fun b b' hle hafter => ?_
    rw [ht] at hafter
    exact Option.some.inj hafter ▸ Nat.succ_le_succ hle
  closed {n t w} h ht := by
    have hw : Closing m n w := by
      refine h.behind (h.tail_ne_nil (by simp [ht])) fun b b' hle hafter => ?_
      rw [ht, afterBrace, if_neg (by omega)] at hafter
      have hb := Option.some.inj hafter
      omega
    exact ⟨fun hn => .inr (hn ▸ hw), .inl hw⟩
  skipped _ n w h := by
    obtain ⟨hreaches, hlast, awaited, hcloses, hle⟩ := h
    have hawaited : closes ([] ++ awaited) (w.map Lexeme.token) := hcloses
    obtain ⟨k, hk, hboundary, awaited', hdrop, hbraces⟩ :=
      stops_of_closes hawaited hlast (Nat.zero_le 0)
    refine ⟨k, by simpa using hk, ?_, ?_, ?_⟩
    · rw [List.map_append]
      exact hboundary _
    · rw [List.map_append]
      exact hboundary _
    rw [← List.map_drop] at hdrop
    have hclosing (hne : w.drop k ≠ []) : Closing m n (w.drop k) :=
      Closing.suffix ⟨hreaches, hlast, awaited, hcloses, hle⟩ (List.drop_suffix k w) hne
        ⟨awaited', hdrop, hle.trans hbraces⟩
    cases n with
    | zero => exact Classical.or_iff_not_imp_left.2 hclosing
    | succ n =>
      have hne := ne_nil_of_closes hdrop (ne_nil_of_braces (hle.trans hbraces))
      exact hclosing (by simpa using hne)
  closes {n w} h := by
    obtain ⟨hreaches, hlast, awaited, hcloses, hle⟩ := h
    obtain ⟨b, hb⟩ : ∃ b, braces awaited = b + 1 := ⟨braces awaited - 1, by omega⟩
    have hdepth := braceDepth_of_closes hcloses
    rw [hb] at hdepth
    obtain ⟨k, hk, hclosing, htake⟩ := closingBrace_of_braceDepth hdepth (Nat.zero_le b)
    obtain ⟨awaited', hdrop, hleft⟩ := closes_drop hcloses k
    rw [hb, htake] at hleft
    have hleft := Option.some.inj hleft
    rw [← List.map_drop] at hdrop
    refine .inl ⟨k, by simpa using hk, ?_, ?_, ?_⟩
    · rw [List.map_append]
      exact hclosing _
    · rw [List.map_append]
      exact hclosing _
    · have hne := ne_nil_of_closes hdrop (ne_nil_of_braces (n := n) (by omega))
      exact Closing.suffix ⟨hreaches, hlast, awaited, hcloses, hle⟩ (List.drop_suffix k w)
        (by simpa using hne) ⟨awaited', hdrop, by omega⟩

/-! ### Items without errors -/

/-- Tokens that close the braces they open, and end as an item does. -/
def IsItem (ts : List Token) : Prop :=
  braceDepth 0 ts = some 0
    ∧ (ts.getLast? = some (.symbol .semicolon) ∨ ts.getLast? = some (.symbol .rightBrace))

/-- What is left of some tokens where a number of braces is open; all of them may be taken only if
they go on to the end of the text. -/
def Left (ts : List Lexeme) (ends : Prop) (n : Nat) (w : List Lexeme) : Prop :=
  ∃ v, ts = v ++ w ∧ braceDepth 0 (v.map Lexeme.token) = some n ∧ (w = [] → ends)

section

variable {ts : List Lexeme} {ends : Prop} {n n' : Nat} {t : Lexeme} {w : List Lexeme}

theorem Left.behind (h : Left ts ends n (t :: w)) (hafter : afterBrace n t.token = some n') :
    ∃ v, ts = v ++ w ∧ braceDepth 0 (v.map Lexeme.token) = some n'
      ∧ (v.map Lexeme.token).getLast? = some t.token := by
  obtain ⟨v, rfl, hdepth, -⟩ := h
  refine ⟨v ++ [t], by simp, ?_, by simp⟩
  rw [List.map_append, braceDepth_append, hdepth, Option.bind_some, List.map_singleton,
    braceDepth_of_afterBrace hafter]
  rfl

/-- An item is not at its end behind a token that does not end it. -/
theorem Left.step (h : Left ts ends n (t :: w)) (hts : ends ∨ IsItem (ts.map Lexeme.token))
    (hafter : afterBrace n t.token = some n')
    (hne : n' ≠ 0 ∨ t.token ≠ .symbol .semicolon ∧ t.token ≠ .symbol .rightBrace) :
    Left ts ends n' w := by
  obtain ⟨v, hv, hdepth, hlast⟩ := h.behind hafter
  refine ⟨v, hv, hdepth, fun hnil => hts.resolve_right fun hitem => ?_⟩
  rw [hnil, List.append_nil] at hv
  rw [hv] at hitem
  obtain ⟨hclosed, hend⟩ := hitem
  rw [hdepth] at hclosed
  rw [hlast] at hend
  rcases hne with hne | ⟨hsemicolon, hbrace⟩
  · exact hne (Option.some.inj hclosed)
  · exact hend.elim (fun h => hsemicolon (Option.some.inj h)) fun h => hbrace (Option.some.inj h)

/-- An item behind its last token. -/
theorem Left.ended (h : Left ts ends n (t :: w)) (hafter : afterBrace n t.token = some 0)
    (ht : t.token = .symbol .semicolon ∨ t.token = .symbol .rightBrace) :
    ∃ v, ts = v ++ w ∧ IsItem (v.map Lexeme.token) := by
  obtain ⟨v, hv, hdepth, hlast⟩ := h.behind hafter
  have hend {s : Token} (h : t.token = s) : (v.map Lexeme.token).getLast? = some s :=
    hlast.trans (congrArg some h)
  exact ⟨v, hv, hdepth, ht.imp hend hend⟩

theorem Left.append {u : List Lexeme} (h : Left ts ends n (u ++ w))
    (hdepth : braceDepth n (u.map Lexeme.token) = some n') :
    ∃ v, ts = v ++ w ∧ braceDepth 0 (v.map Lexeme.token) = some n' := by
  obtain ⟨v, rfl, hv, -⟩ := h
  refine ⟨v ++ u, by simp, ?_⟩
  rw [List.map_append, braceDepth_append, hv, Option.bind_some, hdepth]

/-- While braces are open, only the end of the text ends the tokens. -/
theorem ends_of_depth (hts : ends ∨ IsItem (ts.map Lexeme.token))
    (hdepth : braceDepth 0 (ts.map Lexeme.token) = some n) (hn : n ≠ 0) : ends :=
  hts.resolve_right fun hitem => hn (Option.some.inj (hdepth.symm.trans hitem.1))

end

/-- An item that is read without errors: its tokens with others behind them in both texts, or else
all that is left of the text. -/
def item (m : Motion) (ts next₁ next₂ : List Lexeme) (ends : Prop) (hreaches : m.Reaches ts)
    (hends : ends → next₁ = [] ∧ next₂ = []) (hts : ends ∨ IsItem (ts.map Lexeme.token)) :
    Passage where
  motion := m
  next₁ := next₁
  next₂ := next₂
  errors := []
  strict := False
  inside := Left ts ends
  outside w := ∃ v, ts = v ++ w ∧ IsItem (v.map Lexeme.token)
  ends_of_inside h := hends (h.choose_spec.2.2 rfl)
  le_reach := fun ⟨_, hv, _⟩ ht => hreaches _ (hv ▸ List.mem_append_right _ ht)
  lower h := h.elim
  inner h hopen hclose hsemicolon :=
    h.step hts (afterBrace_of_ne hopen hclose) (.inr ⟨hsemicolon, hclose⟩)
  leave h := h.elim
  leave_cons h ht := by
    have ht := ht.resolve_left id
    exact h.ended (by rw [ht]; rfl) (.inl ht)

instance {m : Motion} {ts next₁ next₂ : List Lexeme} {ends : Prop} {hreaches : m.Reaches ts}
    {hends : ends → next₁ = [] ∧ next₂ = []} {hts : ends ∨ IsItem (ts.map Lexeme.token)} :
    (item m ts next₁ next₂ ends hreaches hends hts).Braced where
  semicolon {n t w} h ht :=
    Left.step h hts (by rw [ht]; rfl) (.inl (Nat.succ_ne_zero n))
  opened {n t w} h ht := Left.step h hts (by rw [ht]; rfl) (.inl (Nat.succ_ne_zero n))
  closed {n t w} h ht := by
    have hafter : afterBrace (n + 1) t.token = some n := by rw [ht]; rfl
    refine ⟨fun hn => Left.ended h (hn ▸ hafter) (.inr ht), ?_⟩
    by_cases hw : w = []
    · by_cases hn : n = 0
      · exact .inr ⟨id, hn, hw⟩
      · exact .inl (Left.step h hts hafter (.inl hn))
    · obtain ⟨v, hv, hdepth, -⟩ := Left.behind h hafter
      exact .inl ⟨v, hv, hdepth, fun hnil => absurd hnil hw⟩
  skipped h := h.elim
  closes {n w} h := by
    rcases hclosing : closingBrace 1 (w.map Lexeme.token) with _ | k
    · obtain ⟨m, hlt, hm⟩ := braceDepth_of_no_closingBrace (n + 1) hclosing
      rw [← List.append_nil w] at h
      obtain ⟨v, hv, hdepth⟩ := Left.append h hm
      rw [List.append_nil] at hv
      have hend : ends := ends_of_depth hts (hv ▸ hdepth) (by omega)
      obtain ⟨rfl, rfl⟩ := hends hend
      refine .inr ⟨by simpa [item] using hclosing, by simpa [item] using hclosing, rfl, rfl, ?_⟩
      exact ⟨m, by omega, v, by simpa using hv, hdepth, fun _ => hend⟩
    · have hdepth := braceDepth_of_closingBrace (n + 1) hclosing
      rw [← List.map_take] at hdepth
      have hwhole : Left ts ends (n + 2) (w.take k ++ w.drop k) := by
        rw [List.take_append_drop]
        exact h
      obtain ⟨v, hv, hleft⟩ := hwhole.append hdepth
      refine .inl ⟨k, by simpa using closingBrace_le hclosing, ?_, ?_, v, hv, hleft, fun hnil => ?_⟩
      · rw [List.map_append]
        exact closingBrace_append _ hclosing
      · rw [List.map_append]
        exact closingBrace_append _ hclosing
      · rw [hnil, List.append_nil] at hv
        exact ends_of_depth hts (hv ▸ hleft) (Nat.succ_ne_zero n)

/-! ### Pragmas without errors -/

/-- A pragma that is read without errors, with other tokens behind it in both texts. -/
def directive (m : Motion) (next₁ next₂ : List Lexeme) : Passage where
  motion := m
  next₁ := next₁
  next₂ := next₂
  errors := []
  strict := False
  inside n w := n = 0 ∧ m.Reaches w ∧ (w.map Lexeme.token).getLast? = some (.symbol .semicolon)
  outside _ := True
  ends_of_inside h := absurd h.2.2 (by simp)
  le_reach h ht := h.2.1 _ ht
  lower h := h.elim
  inner h _ _ hsemicolon := ⟨h.1, h.2.1.suffix (List.suffix_cons _ _),
    getLast?_of_cons h.2.2 hsemicolon⟩
  leave h := h.elim
  leave_cons _ _ := trivial

end Passage

end SolidityFrontend
