import SolidityFrontend.Proofs.Boundary
import SolidityFrontend.Proofs.Shifting

/-!
# The same tokens read twice

A `Passage` describes tokens that stand in two texts, at other places in the second one and with other
tokens behind them. As long as reading stays in the passage, both readings go the same way. What is
left of a passage is `inside` it at a number of open braces, and from there no error and no skipping
leads out of it; behind its last item it may be `outside`.

Where reading began, the token read last may be another one in each text. So the stages of reading
tell whether a token has been taken since.

Of a passage that is not `strict` only that is known which holds where the first reading meets no
error and does not go on behind the end of the passage: a reading that does is `Lost`.
-/

namespace SolidityFrontend

/-! ### Motions -/

/-- How the places of a text move: in order, and up to `reach` bytes as characters do. -/
structure Motion where
  location : Location → Location
  reach : Nat
  offset_lt : ∀ a b, (location a).offset < (location b).offset ↔ a.offset < b.offset
  line_lt : ∀ a b,
    (location a).position.line < (location b).position.line ↔ a.position.line < b.position.line
  along : ∀ (a : Location) (n : Nat) (cs : List Char), a.offset + n ≤ reach →
    location ⟨a.offset + n, a.position.advanceBy cs⟩
      = ⟨(location a).offset + n, (location a).position.advanceBy cs⟩

namespace Motion

variable (m : Motion)

def span (a : Span) : Span := ⟨m.location a.start, m.location a.stop⟩

@[simp] theorem start_span (a : Span) : (m.span a).start = m.location a.start := rfl

@[simp] theorem stop_span (a : Span) : (m.span a).stop = m.location a.stop := rfl

@[simp] theorem span_point (l : Location) : m.span (.point l) = .point (m.location l) := rfl

@[simp] theorem span_through (a b : Span) : m.span (a.through b) = (m.span a).through (m.span b) :=
  rfl

@[simp] theorem span_after (a : Span) : m.span a.after = (m.span a).after := rfl

end Motion

/-- A text that moves by whole lines. -/
def Shift.motion (m : Shift) (h : m.columns = 0) (reach : Nat) : Motion where
  location := m.location
  reach := reach
  offset_lt _ _ := Nat.add_lt_add_iff_right
  line_lt _ _ := Nat.add_lt_add_iff_right
  along a n cs _ := by
    refine congrArg₂ Location.mk ?_ (m.position_advanceBy (.inr h) cs)
    simp only [Shift.offset_location]
    omega

/-! ### Passages -/

/-- Tokens that stand in two texts. -/
structure Passage where
  /-- How the passage moves from the first text to the second. -/
  motion : Motion
  /-- What follows the passage in each text. -/
  next₁ : List Lexeme
  next₂ : List Lexeme
  /-- The errors of the second text that were recorded before the passage. -/
  errors : List SyntaxError
  /-- Whether reading goes on in the passage after an error. -/
  strict : Prop
  /-- What may be left of the passage where a number of braces is open. -/
  inside : Nat → List Lexeme → Prop
  /-- What may be left of the passage behind an item of a file. -/
  outside : List Lexeme → Prop
  ends_of_inside : ∀ {n}, inside n [] → next₁ = [] ∧ next₂ = []
  le_reach : ∀ {n w t}, inside n w → t ∈ w →
    t.span.start.offset ≤ motion.reach ∧ t.span.stop.offset ≤ motion.reach
  lower : strict → ∀ {n w}, inside (n + 1) w → inside n w
  inner : ∀ {n t w}, inside n (t :: w) → t.token ≠ .symbol .leftBrace →
    t.token ≠ .symbol .rightBrace → t.token ≠ .symbol .semicolon → inside n w
  leave : strict → ∀ {w}, inside 0 w → outside w
  leave_cons : ∀ {t w}, inside 0 (t :: w) → strict ∨ t.token = .symbol .semicolon → outside w

/-- What is left of a passage where a part of it began and where reading stands. -/
abbrev Stage : Type := List Lexeme → List Lexeme → Prop

namespace Passage

variable {H : Passage}

/-- What may be left behind an item: of a file if no brace is open, or else of a body. -/
def landing (H : Passage) : Nat → List Lexeme → Prop
  | 0 => H.outside
  | n + 1 => H.inside (n + 1)

/-- What may be left where at least a number of braces is open. -/
def deep (H : Passage) (n : Nat) (w : List Lexeme) : Prop := ∃ m, n ≤ m ∧ H.inside m w

theorem deep.le {n m : Nat} {w : List Lexeme} (h : H.deep m w) (hnm : n ≤ m) : H.deep n w :=
  h.imp fun _ hw => ⟨hnm.trans hw.1, hw.2⟩

/-- Passages in which braces open and close what stands between them. -/
class Braced (H : Passage) : Prop where
  semicolon : ∀ {n t w}, H.inside (n + 1) (t :: w) → t.token = .symbol .semicolon →
    H.inside (n + 1) w
  opened : ∀ {n t w}, H.inside n (t :: w) → t.token = .symbol .leftBrace → H.inside (n + 1) w
  closed : ∀ {n t w}, H.inside (n + 1) (t :: w) → t.token = .symbol .rightBrace →
    (n = 0 → H.outside w) ∧ (H.inside n w ∨ ¬H.strict ∧ n = 0 ∧ w = [])
  /-- Skipping after an error stays in the passage. -/
  skipped : H.strict → ∀ {n w}, H.inside n w → ∃ k ≤ w.length,
    boundary 0 ((w ++ H.next₁).map Lexeme.token) = k
      ∧ boundary 0 ((w ++ H.next₂).map Lexeme.token) = k ∧ H.landing n (w.drop k)
  /-- So does skipping to a closing brace, unless there is none. -/
  closes : ∀ {n w}, H.inside (n + 2) w →
    (∃ k ≤ w.length, closingBrace 1 ((w ++ H.next₁).map Lexeme.token) = some k
      ∧ closingBrace 1 ((w ++ H.next₂).map Lexeme.token) = some k ∧ H.inside (n + 1) (w.drop k))
    ∨ (closingBrace 1 ((w ++ H.next₁).map Lexeme.token) = none
      ∧ closingBrace 1 ((w ++ H.next₂).map Lexeme.token) = none
      ∧ H.next₁ = [] ∧ H.next₂ = [] ∧ H.deep (n + 1) [])

/-- A value of the first reading, as the second one has it. -/
abbrev move {α : Type} [Placed α] (H : Passage) (x : α) : α := respan H.motion.span x

/-- What is known of the two contexts. -/
structure Knows (H : Passage) (k : Nat) (c c' : Context) : Prop where
  structLiterals : c'.structLiterals = c.structLiterals
  /-- Only in a statement named fields may be forbidden. -/
  toplevel : k = 0 → c.structLiterals = true
  stop : ∀ {n}, H.inside n [] → c'.stop = H.motion.span c.stop
  slice : ∀ {a b : Location}, a.offset ≤ H.motion.reach → b.offset ≤ H.motion.reach →
    sliceBytes (H.motion.location a).offset (H.motion.location b).offset c'.source
      = sliceBytes a.offset b.offset c.source

theorem Knows.raise {k k' : Nat} {c c' : Context} (h : H.Knows k' c c') (hk : k' ≤ k) :
    H.Knows k c c' :=
  ⟨h.structLiterals, fun hzero => h.toplevel (Nat.le_zero.1 (hzero ▸ hk)), h.stop, h.slice⟩

/-- Both readings stand before `w` in a part that began before `w₀`. -/
structure At (H : Passage) (w₀ w : List Lexeme) (s s' : State) : Prop where
  suffix : w <:+ w₀
  rest₁ : s.rest = w ++ H.next₁
  rest₂ : s'.rest = H.move w ++ H.next₂
  previous : w ≠ w₀ → ∃ t, s.previous = some t ∧ s'.previous = some (H.move t)
  errors : s'.errors.toList = H.errors ++ H.move s.errors.toList
  ordered : s.Ordered

/-- The first reading has met an error or, where no brace was open, the end of the passage. -/
def Lost (H : Passage) (n : Nat) (s : State) : Prop :=
  ¬H.strict ∧ (s.errors ≠ #[] ∨ n = 0 ∧ s.rest.length ≤ H.next₁.length)

theorem Lost.lower {n m : Nat} {s : State} (h : H.Lost m s) (hnm : n ≤ m) : H.Lost n s :=
  ⟨h.1, h.2.imp_right fun ⟨hm, hs⟩ => ⟨Nat.le_zero.1 (hm ▸ hnm), hs⟩⟩

theorem Lost.errors {n : Nat} {s : State} (h : H.Lost (n + 1) s) : s.errors ≠ #[] :=
  h.2.elim id fun ⟨hn, _⟩ => absurd hn (Nat.succ_ne_zero n)

/-- Before a token may have been taken. -/
def before (H : Passage) (n : Nat) : Stage := fun _ w => H.inside n w

/-- Behind the first token. -/
def amid (H : Passage) (n : Nat) : Stage := fun w₀ w => H.inside n w ∧ w ≠ w₀

/-- Behind an item. -/
def behind (H : Passage) (n : Nat) : Stage := fun w₀ w => H.landing n w ∧ w ≠ w₀

theorem deep.inside (hstrict : H.strict) {n : Nat} {w : List Lexeme} (h : H.deep n w) :
    H.inside n w := by
  obtain ⟨m, hnm, hw⟩ := h
  induction m with
  | zero => rwa [Nat.le_zero.1 hnm]
  | succ m ih =>
    rcases Nat.le_succ_iff.1 hnm with hle | rfl
    · exact ih hle (H.lower hstrict hw)
    · exact hw

theorem landing_of_inside (hstrict : H.strict) {n : Nat} {w : List Lexeme} (h : H.inside n w) :
    H.landing n w := by
  cases n with
  | zero => exact H.leave hstrict h
  | succ n => exact h

/-- A token leads from one number of open braces to another. -/
def Leads (H : Passage) (t : Token) (n m : Nat) : Prop :=
  ∀ {l w}, l.token = t → H.inside n (l :: w) → H.inside m w

/-- Whether a token is none of those that begin and end items. -/
def isInner (t : Token) : Bool :=
  t != .symbol .leftBrace && t != .symbol .rightBrace && t != .symbol .semicolon

theorem leads_inner {t : Token} {n : Nat} (ht : isInner t) : H.Leads t n n := by
  simp only [isInner, Bool.and_eq_true, bne_iff_ne] at ht
  rintro l w rfl h
  exact H.inner h ht.1.1 ht.1.2 ht.2

section

variable [H.Braced]

theorem leads_leftBrace {n : Nat} : H.Leads (.symbol .leftBrace) n (n + 1) :=
  fun ht h => Braced.opened h ht

theorem leads_semicolon {n : Nat} : H.Leads (.symbol .semicolon) (n + 1) (n + 1) :=
  fun ht h => Braced.semicolon h ht

/-- A closing brace ends an item. -/
theorem landing_of_rightBrace {n : Nat} {l : Lexeme} {w : List Lexeme}
    (hl : l.token = .symbol .rightBrace) (h : H.inside (n + 1) (l :: w)) : H.landing n w := by
  obtain ⟨houtside, hinside⟩ := Braced.closed h hl
  cases n with
  | zero => exact houtside rfl
  | succ n => exact hinside.resolve_right fun hlost => absurd hlost.2.1 (Nat.succ_ne_zero n)

/-- A semicolon ends an item. -/
theorem landing_of_semicolon {n : Nat} {l : Lexeme} {w : List Lexeme}
    (hl : l.token = .symbol .semicolon) (h : H.inside n (l :: w)) : H.landing n w := by
  cases n with
  | zero => exact H.leave_cons h (.inr hl)
  | succ n => exact Braced.semicolon h hl

end

namespace At

variable {w₀ w v : List Lexeme} {s s' t t' : State}

/-- A part that begins where reading stands. -/
theorem restart (h : H.At w₀ w s s') : H.At w w s s' :=
  ⟨List.suffix_refl w, h.rest₁, h.rest₂, fun hne => absurd rfl hne, h.errors, h.ordered⟩

theorem unique (h : H.At w₀ w s s') {u₀ : List Lexeme} (h' : H.At u₀ v s s') : w = v :=
  List.append_cancel_right (h.rest₁.symm.trans h'.rest₁)

/-- What was known of a part that has taken a token is known of the part around it. -/
theorem around (h : H.At w v s s') (hw : w <:+ w₀) (hne : v ≠ w) : H.At w₀ v s s' :=
  ⟨h.suffix.trans hw, h.rest₁, h.rest₂, fun _ => h.previous hne, h.errors, h.ordered⟩

theorem nil_iff (h : H.At w₀ w s s') {n : Nat} (hw : H.inside n w) :
    (w = [] ↔ s.rest = []) ∧ (w = [] ↔ s'.rest = []) := by
  rw [h.rest₁, h.rest₂]
  rcases w with _ | ⟨l, w⟩
  · obtain ⟨h₁, h₂⟩ := H.ends_of_inside hw
    simp [h₁, h₂]
  · simp

theorem head (h : H.At w₀ w s s') {n : Nat} (hw : H.inside n w) :
    s.rest.head? = w.head? ∧ s'.rest.head? = w.head?.map H.move := by
  rw [h.rest₁, h.rest₂]
  rcases w with _ | ⟨l, w⟩
  · obtain ⟨h₁, h₂⟩ := H.ends_of_inside hw
    simp [h₁, h₂]
  · simp

end At

end Passage

theorem ne_of_suffix {α : Type} {u v w : List α} (hv : v <:+ w) (hu : u <:+ v) (hne : v ≠ w) :
    u ≠ w := by
  rintro rfl
  exact hne (hv.eq_of_length_le hu.length_le)

theorem ne_of_suffix_of_ne {α : Type} {v w w₀ : List α} (hw : w <:+ w₀) (hv : v <:+ w)
    (hne : v ≠ w) : v ≠ w₀ := by
  rintro rfl
  exact hne (hv.eq_of_length_le hw.length_le)

end SolidityFrontend
