import Mathlib.Algebra.BigOperators.Group.List.Basic
import Mathlib.Order.CompletePartialOrder
import Mathlib.Order.ConditionallyCompleteLattice.Basic
import SolidityFrontend.Grammar.Basic

/-!
# Phrases

A `Phrase` says which tokens may write a piece of syntax, which errors are recorded while they are
read, and before which tokens this may happen. Phrases are multiplied by writing one behind the
other; `1` is written by nothing.

Tokens are in order if each takes at least one byte and ends where the next one starts or before.
A span covers tokens if it runs from the start of the first to the end of the last.
-/

namespace SolidityFrontend

/-! ### Tokens in order -/

/-- Tokens of at least one byte each, one behind the other. -/
def InOrder (ts : List Lexeme) : Prop :=
  (∀ t ∈ ts, t.span.start.offset < t.span.stop.offset)
    ∧ ts.Pairwise fun a b => a.span.stop.offset ≤ b.span.start.offset

namespace InOrder

variable {ts us : List Lexeme}

theorem nil : InOrder [] := ⟨by simp, .nil⟩

theorem sublist (h : InOrder us) (hs : ts.Sublist us) : InOrder ts :=
  ⟨fun t ht => h.1 t (hs.mem ht), h.2.sublist hs⟩

theorem left (h : InOrder (ts ++ us)) : InOrder ts := h.sublist (List.sublist_append_left ts us)

theorem right (h : InOrder (ts ++ us)) : InOrder us := h.sublist (List.sublist_append_right ts us)

theorem stop_le_start (h : InOrder (ts ++ us)) {t u : Lexeme} (ht : t ∈ ts) (hu : u ∈ us) :
    t.span.stop.offset ≤ u.span.start.offset :=
  (List.pairwise_append.1 h.2).2.2 t ht u hu

/-- The first token starts no later than any other. -/
theorem head_start_le {t u : Lexeme} (h : InOrder (t :: ts)) (hu : u ∈ t :: ts) :
    t.span.start.offset ≤ u.span.start.offset := by
  rcases List.mem_cons.1 hu with rfl | hu
  · exact le_rfl
  · have hpos := h.1 t List.mem_cons_self
    have hle := (List.pairwise_cons.1 h.2).1 u hu
    omega

end InOrder

/-- A span that runs from the start of the first of some tokens to the end of the last. -/
def Covers (span : Span) (ts : List Lexeme) : Prop :=
  ∃ first last, ts.head? = some first ∧ ts.getLast? = some last ∧
    span = first.span.through last.span

namespace Covers

variable {a b span : Span} {ts us vs : List Lexeme}

theorem singleton (t : Lexeme) : Covers t.span [t] := ⟨t, t, rfl, rfl, rfl⟩

theorem ne_nil (h : Covers span ts) : ts ≠ [] := by
  obtain ⟨first, last, hfirst, -, -⟩ := h
  rintro rfl
  simp at hfirst

/-- From the start of a first run of tokens to the end of a last one. -/
theorem through (ha : Covers a ts) (hb : Covers b vs) : Covers (a.through b) (ts ++ us ++ vs) := by
  obtain ⟨first, last, hfirst, hlast, rfl⟩ := ha
  obtain ⟨first', last', hfirst', hlast', rfl⟩ := hb
  refine ⟨first, last', ?_, ?_, rfl⟩
  · simp [List.head?_append, hfirst]
  · simp [List.getLast?_append, hlast']

end Covers

/-! ### The algebra of phrases -/

/-- What may write a piece of syntax: the tokens it takes, the errors that are recorded meanwhile,
and the tokens that follow. -/
def Phrase : Type := List Lexeme → List SyntaxError → List Lexeme → Prop

namespace Phrase

instance : CompleteLattice Phrase :=
  inferInstanceAs (CompleteLattice (List Lexeme → List SyntaxError → List Lexeme → Prop))

instance : One Phrase := ⟨fun ts es _ => ts = [] ∧ es = []⟩

instance : Mul Phrase := ⟨fun L M ts es rest => ∃ a b d e, ts = a ++ b ∧ es = d ++ e ∧
  L a d (b ++ rest) ∧ M b e rest⟩

variable {L L' M M' : Phrase} {ts us rest : List Lexeme} {es ds : List SyntaxError}

theorem le_def : L ≤ M ↔ ∀ ts es rest, L ts es rest → M ts es rest := Iff.rfl

theorem mul_intro (hL : L ts es (us ++ rest)) (hM : M us ds rest) :
    (L * M) (ts ++ us) (es ++ ds) rest := ⟨ts, us, es, ds, rfl, rfl, hL, hM⟩

instance : Monoid Phrase where
  one_mul L := by
    funext ts es rest
    refine propext ⟨?_, fun h => ⟨[], ts, [], es, rfl, rfl, ⟨rfl, rfl⟩, h⟩⟩
    rintro ⟨_, b, _, e, rfl, rfl, ⟨rfl, rfl⟩, h⟩
    exact h
  mul_one L := by
    funext ts es rest
    refine propext ⟨?_, fun h => ⟨ts, [], es, [], by simp, by simp, h, rfl, rfl⟩⟩
    rintro ⟨a, _, d, _, rfl, rfl, h, rfl, rfl⟩
    simpa using h
  mul_assoc L M N := by
    funext ts es rest
    refine propext ⟨?_, ?_⟩
    · rintro ⟨_, c, _, f, rfl, rfl, ⟨a, b, d, e, rfl, rfl, hL, hM⟩, hN⟩
      refine ⟨a, b ++ c, d, e ++ f, by simp, by simp, by simpa using hL, ?_⟩
      exact ⟨b, c, e, f, rfl, rfl, hM, hN⟩
    · rintro ⟨a, _, d, _, rfl, rfl, hL, ⟨b, c, e, f, rfl, rfl, hM, hN⟩⟩
      refine ⟨a ++ b, c, d ++ e, f, by simp, by simp, ?_, hN⟩
      exact ⟨a, b, d, e, rfl, rfl, by simpa using hL, hM⟩

@[gcongr]
theorem mul_mono (hL : L ≤ L') (hM : M ≤ M') : L * M ≤ L' * M' := by
  rintro ts es rest ⟨a, b, d, e, rfl, rfl, h, h'⟩
  exact ⟨a, b, d, e, rfl, rfl, hL _ _ _ h, hM _ _ _ h'⟩

theorem mul_sup (L M N : Phrase) : L * (M ⊔ N) = L * M ⊔ L * N := by
  refine le_antisymm ?_ (sup_le (mul_mono le_rfl le_sup_left) (mul_mono le_rfl le_sup_right))
  rintro ts es rest ⟨a, b, d, e, rfl, rfl, hL, hM | hN⟩
  · exact .inl (mul_intro hL hM)
  · exact .inr (mul_intro hL hN)

theorem sup_mul (L M N : Phrase) : (L ⊔ M) * N = L * N ⊔ M * N := by
  refine le_antisymm ?_ (sup_le (mul_mono le_sup_left le_rfl) (mul_mono le_sup_right le_rfl))
  rintro ts es rest ⟨a, b, d, e, rfl, rfl, hL | hM, hN⟩
  · exact .inl (mul_intro hL hN)
  · exact .inr (mul_intro hM hN)

/-! ### Simple phrases -/

/-- One token with a property. -/
def lexeme (p : Lexeme → Prop) : Phrase := fun ts es _ => ∃ t, ts = [t] ∧ es = [] ∧ p t

def token (t : Token) : Phrase := lexeme (·.token = t)

def symbol (s : Symbol) : Phrase := token (.symbol s)

def keyword (k : Keyword) : Phrase := token (.keyword k)

def word (w : String) : Phrase := token (.identifier w)

/-- A token where it stands. -/
def tokenAt (t : Token) (span : Span) : Phrase := lexeme fun l => l.token = t ∧ l.span = span

/-- Any number of tokens with a property. -/
def tokens (p : Token → Prop) : Phrase := fun ts es _ => es = [] ∧ ∀ t ∈ ts, p t.token

/-- Nothing, before tokens with a property. -/
def before (p : List Lexeme → Prop) : Phrase := fun ts es rest => ts = [] ∧ es = [] ∧ p rest

/-- Nothing, before a token where a span says. -/
def opening (span : Span) : Phrase := before fun rest => ∀ t ∈ rest.head?, t.span = span

/-- No token, where an error is recorded. -/
def recording (e : SyntaxError) : Phrase := fun ts es _ => ts = [] ∧ es = [e]

/-- A phrase under a condition. -/
def such (p : Prop) (L : Phrase) : Phrase := fun ts es rest => p ∧ L ts es rest

/-- A phrase that a span covers. -/
def covered (span : Span) (L : Phrase) : Phrase := fun ts es rest => Covers span ts ∧ L ts es rest

/-- A phrase that may be left out. -/
def perhaps (L : Option Phrase) : Phrase := L.getD 1

/-- Phrases with commas between them. -/
def separated : List Phrase → Phrase
  | [] => 1
  | L :: Ls => L * (Ls.map (symbol .comma * ·)).prod

/-- Phrases with commas between them and perhaps one behind the last. -/
def trailed : List Phrase → Phrase
  | [] => 1
  | [L] => L * (1 ⊔ symbol .comma)
  | L :: Ls => L * symbol .comma * trailed Ls

/-- Phrases in parentheses with commas between them. -/
def parenthesized (Ls : List Phrase) : Phrase :=
  symbol .leftParen * separated Ls * symbol .rightParen

theorem such_le {p : Prop} : such p L ≤ L := fun _ _ _ h => h.2

theorem covered_le {span : Span} : covered span L ≤ L := fun _ _ _ h => h.2

@[gcongr]
theorem covered_mono {span : Span} (h : L ≤ L') : covered span L ≤ covered span L' :=
  fun _ _ _ hL => ⟨hL.1, h _ _ _ hL.2⟩

theorem covered_mul_recording {span : Span} {e : SyntaxError} :
    covered span L * recording e ≤ covered span (L * recording e) := by
  rintro ts es rest ⟨us, _, ds, _, rfl, rfl, ⟨hcovers, hL⟩, rfl, rfl⟩
  exact ⟨by simpa using hcovers, us, [], ds, [e], rfl, rfl, hL, rfl, rfl⟩

theorem le_such {p : Prop} (hp : p) (h : L ≤ L') : L ≤ such p L' := fun _ _ _ hL => ⟨hp, h _ _ _ hL⟩

theorem tokenAt_le {t : Token} {span : Span} : tokenAt t span ≤ token t := by
  rintro ts es rest ⟨l, rfl, rfl, hl, -⟩
  exact ⟨l, rfl, rfl, hl⟩

theorem tokenAt_le_covered {t : Token} {span : Span} : tokenAt t span ≤ covered span ⊤ := by
  rintro ts es rest ⟨l, rfl, -, -, rfl⟩
  exact ⟨.singleton l, trivial⟩

theorem before_le_one {p : List Lexeme → Prop} : before p ≤ 1 := fun _ _ _ h => ⟨h.1, h.2.1⟩

/-- A token where it was seen to begin. -/
theorem opening_mul_token {t : Token} {span : Span} : opening span * token t ≤ tokenAt t span := by
  rintro ts es rest ⟨_, _, _, _, rfl, rfl, ⟨rfl, rfl, hspan⟩, l, rfl, rfl, hl⟩
  exact ⟨l, rfl, rfl, hl, hspan l (by simp)⟩

theorem opening_mul_le {span : Span} : opening span * L ≤ L :=
  (mul_mono before_le_one le_rfl).trans_eq (one_mul L)

theorem before_mono {p p' : List Lexeme → Prop} (h : ∀ rest, p rest → p' rest) :
    before p ≤ before p' := fun _ _ _ hp => ⟨hp.1, hp.2.1, h _ hp.2.2⟩

theorem before_mul_before {p p' : List Lexeme → Prop} :
    before p * before p' = before fun rest => p rest ∧ p' rest := by
  funext ts es rest
  refine propext ⟨?_, fun ⟨hts, hes, hp, hp'⟩ => ?_⟩
  · rintro ⟨_, _, _, _, rfl, rfl, ⟨rfl, rfl, hp⟩, rfl, rfl, hp'⟩
    exact ⟨rfl, rfl, hp, hp'⟩
  · subst hts hes
    exact ⟨[], [], [], [], rfl, rfl, ⟨rfl, rfl, hp⟩, rfl, rfl, hp'⟩

theorem before_comm (p p' : List Lexeme → Prop) : before p * before p' = before p' * before p := by
  simp only [before_mul_before, and_comm]

/-- A condition on what follows may be dropped. -/
theorem mul_before_le {p : List Lexeme → Prop} : L * before p ≤ L :=
  (mul_mono le_rfl before_le_one).trans_eq (mul_one L)

@[simp] theorem perhaps_none : perhaps none = 1 := rfl

@[simp] theorem perhaps_some (L : Phrase) : perhaps (some L) = L := rfl

/-- From the start of a first phrase to the end of a last one. -/
theorem mul_mul_le_covered {a b : Span} {N : Phrase} (hL : L ≤ covered a ⊤) (hN : N ≤ covered b ⊤) :
    L * M * N ≤ covered (a.through b) (L * M * N) := by
  intro ts es rest h
  refine ⟨?_, h⟩
  obtain ⟨_, c, _, f, rfl, rfl, ⟨a', b', d, e, rfl, rfl, hl, -⟩, hn⟩ := h
  exact (hL _ _ _ hl).1.through (hN _ _ _ hn).1

/-! ### Where a phrase starts -/

/-- A phrase that takes at least one token. -/
def Takes (L : Phrase) : Prop := ∀ ts es rest, L ts es rest → ts ≠ []

/-- A phrase whose first token starts where a span does. -/
def Opens (L : Phrase) (span : Span) : Prop :=
  ∀ ts es rest, L ts es rest → ∃ t, ts.head? = some t ∧ t.span.start = span.start

@[simp]
theorem takes_lexeme (p : Lexeme → Prop) : (lexeme p).Takes := by
  rintro ts es rest ⟨t, rfl, -⟩
  simp

@[simp]
theorem takes_token (t : Token) : (token t).Takes := takes_lexeme _

@[simp]
theorem takes_tokenAt (t : Token) (span : Span) : (tokenAt t span).Takes := takes_lexeme _

@[simp]
theorem Takes.mul_right (h : L.Takes) (M : Phrase) : (L * M).Takes := by
  rintro ts es rest ⟨a, b, d, e, rfl, rfl, hL, -⟩
  simp [h _ _ _ hL]

@[simp]
theorem Takes.mul_left (h : M.Takes) (L : Phrase) : (L * M).Takes := by
  rintro ts es rest ⟨a, b, d, e, rfl, rfl, -, hM⟩
  simp [h _ _ _ hM]

@[simp]
theorem takes_covered (span : Span) (L : Phrase) : (covered span L).Takes :=
  fun _ _ _ h => h.1.ne_nil

theorem Opens.takes {span : Span} (h : L.Opens span) : L.Takes := by
  rintro ts es rest hL rfl
  obtain ⟨t, ht, -⟩ := h _ _ _ hL
  simp at ht

theorem opens_of_covers {span : Span} (h : ∀ ts es rest, L ts es rest → Covers span ts) :
    L.Opens span := by
  intro ts es rest hL
  obtain ⟨first, last, hfirst, -, rfl⟩ := h _ _ _ hL
  exact ⟨first, hfirst, rfl⟩

theorem Takes.mono (h : M.Takes) (hL : L ≤ M) : L.Takes := fun _ _ _ h' => h _ _ _ (hL _ _ _ h')

theorem Opens.mono {span : Span} (h : M.Opens span) (hL : L ≤ M) : L.Opens span :=
  fun _ _ _ h' => h _ _ _ (hL _ _ _ h')

@[simp]
theorem Opens.mul {span : Span} (h : L.Opens span) (M : Phrase) : (L * M).Opens span := by
  rintro ts es rest ⟨a, b, d, e, rfl, rfl, hL, -⟩
  obtain ⟨t, ht, hs⟩ := h _ _ _ hL
  exact ⟨t, by simp [List.head?_append, ht], hs⟩

@[simp]
theorem opens_tokenAt (t : Token) (span : Span) : (tokenAt t span).Opens span := by
  rintro ts es rest ⟨l, rfl, -, -, rfl⟩
  exact ⟨l, rfl, rfl⟩

@[simp]
theorem opens_covered (span : Span) (L : Phrase) : (covered span L).Opens span :=
  opens_of_covers fun _ _ _ h => h.1

theorem Opens.covered {a : Span} (h : L.Opens a) (b : Span) : (covered b L).Opens a :=
  h.mono covered_le

@[simp]
theorem opens_opening_mul {span : Span} (h : L.Takes) : (opening span * L).Opens span := by
  rintro ts es rest ⟨a, b, d, e, rfl, rfl, ⟨rfl, -, ht⟩, hL⟩
  obtain ⟨t, us, rfl⟩ := List.exists_cons_of_ne_nil (h _ _ _ hL)
  exact ⟨t, rfl, by rw [ht t (by simp)]⟩

end Phrase

end SolidityFrontend
