import Mathlib.Data.List.Basic
import SolidityFrontend.Proofs.Respanning
import SolidityFrontend.Proofs.Segments

/-!
# Moved texts

A `Shift` says by how much a text moves when another one is put in front of it. What the lexer finds
in the text moves with it, and so do the bytes under a span.
-/

namespace SolidityFrontend

/-- How far a text moves: all of it by bytes and lines, its first line also by columns. -/
structure Shift where
  bytes : Nat
  lines : Nat
  columns : Nat

namespace Shift

variable (m : Shift)

def position (p : Position) : Position :=
  ⟨p.line + m.lines, if p.line = 1 then p.column + m.columns else p.column⟩

def location (l : Location) : Location := ⟨l.offset + m.bytes, m.position l.position⟩

def span (a : Span) : Span := ⟨m.location a.start, m.location a.stop⟩

@[simp] theorem span_point (l : Location) : m.span (.point l) = .point (m.location l) := rfl

@[simp] theorem span_through (a b : Span) : m.span (a.through b) = (m.span a).through (m.span b) := rfl

@[simp] theorem span_after (a : Span) : m.span a.after = (m.span a).after := rfl

@[simp] theorem start_span (a : Span) : (m.span a).start = m.location a.start := rfl

@[simp] theorem stop_span (a : Span) : (m.span a).stop = m.location a.stop := rfl

@[simp] theorem offset_location (l : Location) : (m.location l).offset = l.offset + m.bytes := rfl

@[simp] theorem line_location (l : Location) :
    (m.location l).position.line = l.position.line + m.lines := rfl

/-- Lines are counted from one, so a text moves as its first position does. -/
theorem position_advance {p : Position} (h : 1 ≤ p.line ∨ m.columns = 0) (c : Char) :
    m.position (p.advance c) = (m.position p).advance c := by
  unfold position Position.advance
  split
  · have hnext : (if p.line + 1 = 1 then 1 + m.columns else 1) = 1 := by split <;> omega
    simp only [hnext, Position.mk.injEq, and_true]
    omega
  · split <;> simp
    omega

theorem position_advanceBy {p : Position} (h : 1 ≤ p.line ∨ m.columns = 0) (cs : List Char) :
    m.position (p.advanceBy cs) = (m.position p).advanceBy cs := by
  induction cs generalizing p with
  | nil => rfl
  | cons c cs ih =>
    rw [Position.advanceBy_cons, Position.advanceBy_cons, ← m.position_advance h]
    refine ih (h.imp_left fun hline => ?_)
    unfold Position.advance
    split
    · exact Nat.le_add_left 1 _
    · exact hline

theorem location_advanceBy {l : Location} (h : 1 ≤ l.position.line ∨ m.columns = 0)
    (cs : List Char) : m.location (l.advanceBy cs) = (m.location l).advanceBy cs := by
  have hoffset : (m.location (l.advanceBy cs)).offset = ((m.location l).advanceBy cs).offset := by
    simp only [Location.offset_advanceBy, offset_location]
    omega
  have hposition : (m.location (l.advanceBy cs)).position
      = ((m.location l).advanceBy cs).position := by
    simp only [location, Location.position_advanceBy]
    exact m.position_advanceBy h cs
  exact congrArg₂ Location.mk hoffset hposition

end Shift

theorem Position.line_advanceBy (p : Position) (cs : List Char) :
    (p.advanceBy cs).line = p.line + cs.count '\n' := by
  induction cs generalizing p with
  | nil => rfl
  | cons c cs ih =>
    rw [Position.advanceBy_cons, ih, Position.advance]
    split
    · rename_i hc
      rw [hc, List.count_cons_self]
      dsimp only
      omega
    · rename_i hc
      rw [List.count_cons_of_ne hc]

/-! ### Segments -/

instance : Placed Segment := ⟨fun f s => { s with span := f s.span }⟩

@[simp]
theorem respan_segment (f : Span → Span) (content : Content) (span : Span) :
    respan f (Segment.mk content span) = ⟨content, f span⟩ := rfl

theorem lexeme?_respan (f : Span → Span) (s : Segment) :
    (respan f s).lexeme? = respan f s.lexeme? := by
  obtain ⟨content, span⟩ := s
  cases content <;> rfl

theorem error?_respan (f : Span → Span) (s : Segment) :
    (respan f s).error? = respan f s.error? := by
  obtain ⟨content, span⟩ := s
  cases content <;> rfl

/-- The segments of a text move with it. -/
theorem segments_location (m : Shift) {here : Location} (h : 1 ≤ here.position.line)
    (cs : List Char) : segments (m.location here) cs = respan m.span (segments here cs) := by
  induction here, cs using segments_induction with
  | hnil here => rw [segments_nil, segments_nil, respan_nil]
  | hcons here c cs ih =>
    have hline : 1 ≤ (here.advanceBy ((c :: cs).take (Content.first c cs).2)).position.line := by
      rw [Location.position_advanceBy, Position.line_advanceBy]
      omega
    rw [segments_cons, segments_cons, respan_cons, respan_segment]
    rw [← m.location_advanceBy (.inl h), ih hline]
    rfl

theorem filterMap_lexeme?_respan (f : Span → Span) (S : List Segment) :
    (respan f S).filterMap Segment.lexeme? = respan f (S.filterMap Segment.lexeme?) := by
  rw [respan_list, respan_list, List.filterMap_map, List.map_filterMap]
  exact List.filterMap_congr fun s _ => lexeme?_respan f s

theorem filterMap_error?_respan (f : Span → Span) (S : List Segment) :
    (respan f S).filterMap Segment.error? = respan f (S.filterMap Segment.error?) := by
  rw [respan_list, respan_list, List.filterMap_map, List.map_filterMap]
  exact List.filterMap_congr fun s _ => error?_respan f s

/-! ### Slices -/

theorem dropBytes_add (x y : List Char) (n : Nat) :
    dropBytes (byteLength x + n) (x ++ y) = dropBytes n y := by
  induction x with
  | nil => rw [byteLength, Nat.zero_add, List.nil_append]
  | cons c x ih =>
    have hpos := c.utf8Size_pos
    obtain ⟨k, hk⟩ : ∃ k, byteLength (c :: x) + n = k + 1 :=
      ⟨byteLength (c :: x) + n - 1, by simp only [byteLength]; omega⟩
    have hle : c.utf8Size ≤ k + 1 := by
      simp only [byteLength] at hk
      omega
    have hrest : k + 1 - c.utf8Size = byteLength x + n := by
      simp only [byteLength] at hk
      omega
    rw [hk, List.cons_append, dropBytes, if_pos hle, hrest, ih]

/-- The bytes of a text are the same bytes farther on where another text stands in front of it. -/
theorem sliceBytes_append_left (x y : List Char) (a b : Nat) :
    sliceBytes (a + byteLength x) (b + byteLength x) (x ++ y) = sliceBytes a b y := by
  unfold sliceBytes
  rw [Nat.add_comm a, dropBytes_add, Nat.add_comm b, Nat.add_sub_add_left]
  exact if_congr (Nat.add_le_add_iff_left) rfl rfl

theorem takeBytes_append {n : Nat} {x : List Char} (y : List Char) (h : n ≤ byteLength x) :
    takeBytes n (x ++ y) = takeBytes n x := by
  induction x generalizing n with
  | nil =>
    obtain rfl : n = 0 := by simpa [byteLength] using h
    rw [takeBytes, takeBytes]
  | cons c x ih =>
    cases n with
    | zero => rw [takeBytes, takeBytes]
    | succ n =>
      rw [List.cons_append, takeBytes, takeBytes]
      split
      · rw [ih]
        simp only [byteLength] at h
        omega
      · rfl

theorem dropBytes_append {n : Nat} {x : List Char} (y : List Char) (h : n ≤ byteLength x) :
    dropBytes n (x ++ y) = (dropBytes n x).map (· ++ y) := by
  induction x generalizing n with
  | nil =>
    obtain rfl : n = 0 := by simpa [byteLength] using h
    rw [dropBytes, dropBytes]
    rfl
  | cons c x ih =>
    cases n with
    | zero =>
      rw [dropBytes, dropBytes]
      rfl
    | succ n =>
      rw [List.cons_append, dropBytes, dropBytes]
      split
      · rw [ih]
        simp only [byteLength] at h
        omega
      · rfl

theorem byteLength_of_dropBytes {n : Nat} {x z : List Char} (h : dropBytes n x = some z) :
    n + byteLength z = byteLength x := by
  induction x generalizing n with
  | nil =>
    cases n with
    | zero =>
      rw [dropBytes] at h
      rw [← Option.some.inj h, Nat.zero_add]
    | succ n =>
      rw [dropBytes] at h
      exact absurd h (by simp)
  | cons c x ih =>
    cases n with
    | zero =>
      rw [dropBytes] at h
      rw [← Option.some.inj h, Nat.zero_add]
    | succ n =>
      rw [dropBytes] at h
      split at h
      · have hrest := ih h
        rw [byteLength]
        omega
      · exact absurd h (by simp)

/-- The bytes of a text are the same bytes where another text stands behind it. -/
theorem sliceBytes_append_right {a b : Nat} {x : List Char} (y : List Char) (h : b ≤ byteLength x) :
    sliceBytes a b (x ++ y) = sliceBytes a b x := by
  unfold sliceBytes
  split
  · rename_i hab
    rw [dropBytes_append y (by omega)]
    rcases hdrop : dropBytes a x with _ | z
    · rfl
    · have hlength := byteLength_of_dropBytes hdrop
      exact takeBytes_append y (by omega)
  · rfl

end SolidityFrontend
