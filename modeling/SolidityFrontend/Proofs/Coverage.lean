import SolidityFrontend.Proofs.Scanning
import SolidityFrontend.Proofs.Tiers

/-!
# No token is dropped

Parts that are written one behind the other hold each of their tokens in exactly one span, their
spans are in order, and the text in the gaps between them has no token. So it is with the items of
a file, and with the members or statements between the braces of a body, of which the closing one
may be missing at the end of the input.
-/

namespace SolidityFrontend

open Phrase

theorem Span.contains_iff {a b : Span} : a.contains b ↔
    a.start.offset ≤ b.start.offset ∧ b.stop.offset ≤ a.stop.offset := by
  simp [Span.contains]

/-! ### Parts one behind the other -/

section

variable {α : Type} {f : α → Phrase} {span : α → Span} {ts us vs rest : List Lexeme}
  {es : List SyntaxError}

/-- A span that covers some tokens holds these. -/
theorem Covers.contains {s : Span} (h : Covers s ts) (hin : InOrder ts) {t : Lexeme}
    (ht : t ∈ ts) : s.contains t.span := by
  obtain ⟨first, last, hfirst, hlast, rfl⟩ := h
  have hstart : first.span.start.offset ≤ t.span.start.offset := by
    obtain ⟨ts, rfl⟩ := List.head?_eq_some_iff.1 hfirst
    exact hin.head_start_le ht
  have hstop : t.span.stop.offset ≤ last.span.stop.offset := by
    obtain ⟨ts, rfl⟩ := List.getLast?_eq_some_iff.1 hlast
    rcases List.mem_append.1 ht with ht | ht
    · have hle := hin.stop_le_start ht (List.mem_singleton_self last)
      have hlt := hin.1 last (by simp)
      omega
    · rw [List.mem_singleton.1 ht]
  exact Span.contains_iff.2 ⟨hstart, hstop⟩

/-- A span that covers some tokens holds no others. -/
theorem Covers.not_contains {s : Span} (h : Covers s ts) (hin : InOrder (us ++ ts ++ vs))
    {t : Lexeme} (ht : t ∈ us ∨ t ∈ vs) : ¬s.contains t.span := by
  obtain ⟨first, last, hfirst, hlast, rfl⟩ := h
  have hfirst := List.mem_of_head? hfirst
  have hlast := List.mem_of_getLast? hlast
  intro hcontains
  obtain ⟨hstart, hstop⟩ := Span.contains_iff.1 hcontains
  simp only [Span.through] at hstart hstop
  rcases ht with ht | ht
  · have hpos := hin.1 t (by simp [ht])
    have hle := hin.left.stop_le_start ht hfirst
    omega
  · have hpos := hin.1 t (by simp [ht])
    have hle := hin.stop_le_start (List.mem_append_right us hlast) ht
    omega

/-- Each token of parts one behind the other is in the span of exactly one of them, and each token
before and behind them in none. -/
theorem countP_contains (hf : ∀ x, f x ≤ covered (span x) ⊤) {xs : List α}
    (h : (xs.map f).prod ts es rest) (hin : InOrder (us ++ ts ++ vs)) :
    (∀ t ∈ ts, xs.countP (fun x => (span x).contains t.span) = 1)
      ∧ ∀ t, t ∈ us ∨ t ∈ vs → xs.countP (fun x => (span x).contains t.span) = 0 := by
  induction xs generalizing us ts es with
  | nil =>
    obtain ⟨rfl, rfl⟩ := h
    simp
  | cons x xs ih =>
    rw [List.map_cons, List.prod_cons] at h
    obtain ⟨as, bs, d, e, rfl, rfl, hx, hxs⟩ := h
    have hcovers : Covers (span x) as := (hf x _ _ _ hx).1
    rw [← List.append_assoc] at hin
    obtain ⟨hone, hnone⟩ := ih hxs hin
    rw [List.append_assoc (us ++ as) bs vs] at hin
    have hinside : ∀ t ∈ as, (span x).contains t.span :=
      fun t ht => hcovers.contains hin.left.right ht
    have houtside : ∀ t, t ∈ us ∨ t ∈ bs ++ vs → ¬(span x).contains t.span :=
      fun t ht => hcovers.not_contains hin ht
    have hskip : ∀ t, t ∈ us ∨ t ∈ bs ++ vs → (x :: xs).countP (fun y => (span y).contains t.span)
        = xs.countP fun y => (span y).contains t.span :=
      fun t ht => List.countP_cons_of_neg (houtside t ht)
    constructor
    · intro t ht
      rcases List.mem_append.1 ht with ht | ht
      · have htake : (x :: xs).countP (fun y => (span y).contains t.span)
            = xs.countP (fun y => (span y).contains t.span) + 1 :=
          List.countP_cons_of_pos (hinside t ht)
        rw [htake, hnone t (.inl (List.mem_append_right us ht))]
      · rw [hskip t (.inr (List.mem_append_left vs ht)), hone t ht]
    · intro t ht
      rw [hskip t (ht.imp_right (List.mem_append_right bs))]
      exact hnone t (ht.imp_left (List.mem_append_left as))

/-- The span of each of parts one behind the other covers some of their tokens. -/
theorem exists_covers (hf : ∀ x, f x ≤ covered (span x) ⊤) {xs : List α}
    (h : (xs.map f).prod ts es rest) : ∀ x ∈ xs, ∃ as, Covers (span x) as ∧ as ⊆ ts := by
  induction xs generalizing ts es with
  | nil => simp
  | cons x xs ih =>
    rw [List.map_cons, List.prod_cons] at h
    obtain ⟨as, bs, d, e, rfl, rfl, hx, hxs⟩ := h
    intro y hy
    rcases List.mem_cons.1 hy with rfl | hy
    · exact ⟨as, (hf y _ _ _ hx).1, List.subset_append_left as bs⟩
    · obtain ⟨cs, hcovers, hsubset⟩ := ih hxs y hy
      exact ⟨cs, hcovers, List.subset_append_of_subset_right as hsubset⟩

/-- The stretches between spans, from one place to another. -/
def gaps (stop : Location) : Location → List Span → List Span
  | here, [] => [⟨here, stop⟩]
  | here, s :: ss => ⟨here, s.start⟩ :: gaps stop s.stop ss

/-- Between two tokens side by side the text has none. -/
theorem tokenize_gap {source : String} (h : (tokenize source).tokens = us ++ vs) :
    (tokenize (Span.text ⟨endOf us, startOf (tokenize source).stop.start vs⟩ source)).tokens
      = [] := by
  have hsplit : (tokenize source).tokens = us ++ [] ++ vs := by rw [h, List.append_nil]
  exact List.map_eq_nil_iff.1 (tokenize_between hsplit)

end

/-! ### Bodies -/

/-- Of some tokens, those between the brace that opens the body of a part and the brace that closes
it are each in exactly one of the given spans. Where the input ends instead, so do they, and the last
span is the empty one behind the part. -/
def Fills (tokens : List Lexeme) (opening : Lexeme) (around : Span) (parts : List Span) : Prop :=
  let holders (t : Lexeme) := parts.countP (·.contains t.span)
  opening.token = .symbol .leftBrace ∧ around.contains opening.span ∧ holders opening = 0
    ∧ ∃ before inner after, tokens = before ++ opening :: inner ++ after
      ∧ (∀ t ∈ inner, holders t = 1)
      ∧ ((∃ closing behind, after = closing :: behind ∧ closing.token = .symbol .rightBrace
            ∧ closing.span.stop = around.stop ∧ holders closing = 0)
        ∨ after = [] ∧ parts.getLast? = some around.after)

section

variable {α : Type} {f m : α → Phrase} {span : α → Span} {around : Span} {xs : List α}
  {ts rest : List Lexeme} {es : List SyntaxError}

/-- A body is its parts and a closing brace, or at the end of the input its parts and the mark of
the missing brace. -/
theorem body_cases (h : body (xs.map fun x => (f x, m x)) ts es rest) :
    (∃ (inner : List Lexeme) (closing : Lexeme) (ds : List SyntaxError),
        ts = inner ++ [closing] ∧ closing.token = .symbol .rightBrace
          ∧ (xs.map f).prod inner ds ([closing] ++ rest))
      ∨ ∃ (init : List α) (last : α) (inner missed : List Lexeme) (ds es' : List SyntaxError),
        xs = init ++ [last] ∧ ts = inner ++ missed
          ∧ (init.map f).prod inner ds (missed ++ rest) ∧ m last missed es' rest := by
  induction xs generalizing ts es with
  | nil =>
    obtain ⟨closing, rfl, rfl, hclosing⟩ := h
    exact .inl ⟨[], closing, [], rfl, hclosing, rfl, rfl⟩
  | cons x xs ih =>
    rw [List.map_cons, body] at h
    rcases h with ⟨as, bs, d, e, rfl, rfl, hx, hxs⟩ | ⟨hnil, hm⟩
    · rcases ih hxs with ⟨inner, closing, ds, rfl, hclosing, hinner⟩ |
        ⟨init, last, inner, missed, ds, es', rfl, rfl, hinner, hmissed⟩
      · refine .inl ⟨as ++ inner, closing, d ++ ds, by simp, hclosing, ?_⟩
        rw [List.map_cons, List.prod_cons]
        exact mul_intro (by simpa using hx) hinner
      · refine .inr ⟨x :: init, last, as ++ inner, missed, d ++ ds, es', rfl, by simp, ?_, hmissed⟩
        rw [List.map_cons, List.prod_cons]
        exact mul_intro (by simpa using hx) hinner
    · rw [List.map_eq_nil_iff.1 hnil]
      exact .inr ⟨[], x, [], ts, [], es, rfl, rfl, ⟨rfl, rfl⟩, hm⟩

theorem Span.not_contains_after (a : Span) {b : Span} (h : b.start.offset < b.stop.offset) :
    ¬a.after.contains b := by
  intro hcontains
  obtain ⟨hstart, hstop⟩ := Span.contains_iff.1 hcontains
  simp only [Span.after, Span.point] at hstart hstop
  omega

/-- A body between tokens of a source fills the part that ends with it. -/
theorem fills_of_body {tokens before header after : List Lexeme} {opening : Lexeme}
    (hf : ∀ x, f x ≤ covered (span x) ⊤)
    (hm : ∀ x ts es rest, m x ts es rest → ts = [] ∧ rest = [] ∧ span x = around.after)
    (h : body (xs.map fun x => (f x, m x)) ts es after)
    (hopening : opening.token = .symbol .leftBrace)
    (hcovers : Covers around (header ++ opening :: ts))
    (htokens : tokens = before ++ (header ++ opening :: ts) ++ after) (hin : InOrder tokens) :
    Fills tokens opening around (xs.map span) := by
  have haround : ∀ t ∈ header ++ opening :: ts, around.contains t.span := by
    refine fun t ht => hcovers.contains ?_ ht
    rw [htokens] at hin
    exact hin.left.right
  rcases body_cases h with ⟨inner, closing, ds, rfl, hclosing, hinner⟩ |
    ⟨init, last, inner, missed, ds, es', rfl, rfl, hinner, hmissed⟩
  · have hsplit : tokens = (before ++ header ++ [opening]) ++ inner ++ (closing :: after) := by
      rw [htokens]
      simp
    obtain ⟨hone, hnone⟩ := countP_contains hf hinner (hsplit ▸ hin)
    have hstop : closing.span.stop = around.stop := by
      obtain ⟨first, last, -, hlast, rfl⟩ := hcovers
      rw [← List.cons_append, ← List.append_assoc, List.getLast?_concat] at hlast
      rw [Option.some_inj.1 hlast]
      rfl
    simp only [Fills, List.countP_map]
    refine ⟨hopening, haround opening (by simp), hnone opening (.inl (by simp)), ?_⟩
    refine ⟨before ++ header, inner, closing :: after, by simpa using hsplit, hone, .inl ?_⟩
    exact ⟨closing, after, rfl, hclosing, hstop, hnone closing (.inr List.mem_cons_self)⟩
  · obtain ⟨rfl, rfl, hlast⟩ := hm last _ _ _ hmissed
    have hsplit : tokens = (before ++ header ++ [opening]) ++ inner ++ [] := by
      rw [htokens]
      simp
    obtain ⟨hone, hnone⟩ := countP_contains hf hinner (hsplit ▸ hin)
    -- The mark of the missing brace is empty and holds no token.
    have hcount : ∀ t ∈ tokens, (init ++ [last]).countP (fun x => (span x).contains t.span)
        = init.countP fun x => (span x).contains t.span := by
      intro t ht
      have hmark := around.not_contains_after (hin.1 t ht)
      rw [List.countP_append, List.countP_singleton, hlast, if_neg hmark, Nat.add_zero]
    simp only [Fills, List.countP_map]
    refine ⟨hopening, haround opening (by simp), ?_, ?_⟩
    · exact (hcount opening (by rw [hsplit]; simp)).trans (hnone opening (.inl (by simp)))
    · refine ⟨before ++ header, inner, [], by simpa using hsplit, fun t ht => ?_, .inr ⟨rfl, ?_⟩⟩
      · exact (hcount t (by rw [hsplit]; simp [ht])).trans (hone t ht)
      · rw [List.map_append, List.map_singleton, hlast, List.getLast?_concat]

end

/-! ### Blocks, contracts and files -/

theorem Block.phrase_le (b : Block) : b.phrase ≤ covered b.span ⊤ := by
  obtain ⟨statements, span⟩ := b
  rw [Block.phrase]
  exact covered_mono le_top

theorem Stmt.phrase_le (s : Stmt) : s.phrase ≤ covered s.span ⊤ := by
  cases s
  case block b =>
    rw [Stmt.phrase]
    exact b.phrase_le
  case error mark =>
    rw [Stmt.phrase]
    exact fun _ _ _ h => ⟨h.1, trivial⟩
  all_goals
    rw [Stmt.phrase]
    first | exact covered_mono le_top | exact such_le.trans (covered_mono le_top)

theorem Member.phrase_le (m : Member) : m.phrase ≤ covered m.span ⊤ := by
  cases m
  case error mark => exact fun _ _ _ h => ⟨h.1, trivial⟩
  all_goals exact covered_mono le_top

theorem ErrorMark.of_missing {mark : ErrorMark} {around : Span} {ts rest : List Lexeme}
    {es : List SyntaxError} (h : mark.missing around ts es rest) :
    ts = [] ∧ rest = [] ∧ mark.span = around.after := by
  obtain ⟨rfl, _, _, _, _, rfl, rfl, ⟨rfl, rfl, hrest⟩, rfl, -⟩ := h
  exact ⟨rfl, by simpa using hrest, rfl⟩

theorem Stmt.of_missing {around : Span} (s : Stmt) {ts rest : List Lexeme} {es : List SyntaxError}
    (h : s.missing around ts es rest) : ts = [] ∧ rest = [] ∧ s.span = around.after := by
  cases s with
  | error mark => exact ErrorMark.of_missing h
  | _ => exact h.elim

theorem Member.of_missing {around : Span} (m : Member) {ts rest : List Lexeme}
    {es : List SyntaxError} (h : m.missing around ts es rest) :
    ts = [] ∧ rest = [] ∧ m.span = around.after := by
  cases m with
  | error mark => exact ErrorMark.of_missing h
  | _ => exact h.elim

end SolidityFrontend
