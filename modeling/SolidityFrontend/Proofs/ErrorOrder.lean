import Mathlib.Data.List.Sort
import SolidityFrontend.Proofs.Shifting
import SolidityFrontend.Session

/-!
# The order of errors

Sorting keeps the order of equals, so errors that all start before some others are sorted apart from
them, wherever they stood. Errors of a moved text are sorted as in the text itself.
-/

namespace SolidityFrontend

/-! ### Sorting -/

section

variable {α : Type} {le : α → α → Bool} (htrans : ∀ a b c, le a b → le b c → le a c)
  (htotal : ∀ a b, le a b || le b a)
include htrans htotal

/-- An element is sorted in behind those that are not behind it. -/
theorem mergeSort_cons_eq (a : α) (l : List α) : (a :: l).mergeSort le
    = (l.mergeSort le).filter (fun b => !le a b) ++ a :: (l.mergeSort le).filter (le a) := by
  obtain ⟨l₁, l₂, hcons, hl, hbefore⟩ := List.mergeSort_cons htrans htotal a l
  have hsorted := List.pairwise_mergeSort htrans htotal (a :: l)
  rw [hcons] at hsorted
  have hbehind : ∀ b ∈ l₂, le a b := (List.pairwise_cons.1 (List.pairwise_append.1 hsorted).2.1).1
  have hnot : ∀ b ∈ l₁, le a b = false := fun b hb => by simpa using hbefore b hb
  have hfirst : (l₁ ++ l₂).filter (fun b => !le a b) = l₁ := by
    rw [List.filter_append, List.filter_eq_self.2 fun b hb => by simp [hnot b hb],
      List.filter_eq_nil_iff.2 fun b hb => by simp [hbehind b hb], List.append_nil]
  have hsecond : (l₁ ++ l₂).filter (le a) = l₂ := by
    rw [List.filter_append, List.filter_eq_nil_iff.2 fun b hb => by simp [hnot b hb],
      List.filter_eq_self.2 hbehind, List.nil_append]
  rw [hcons, hl, hfirst, hsecond]

/-- Elements of which all come before all others are sorted apart from them. -/
theorem mergeSort_filter (p : α → Bool) (l : List α)
    (hp : ∀ a ∈ l, ∀ b ∈ l, p a → p b = false → le a b ∧ le b a = false) :
    l.mergeSort le = (l.filter p).mergeSort le ++ (l.filter fun a => !p a).mergeSort le := by
  induction l with
  | nil => simp
  | cons a l ih =>
    have ih := ih fun x hx y hy => hp x (List.mem_cons_of_mem a hx) y (List.mem_cons_of_mem a hy)
    rw [mergeSort_cons_eq htrans htotal, ih, List.filter_append, List.filter_append]
    rcases ha : p a with _ | _
    · have hlow : ∀ b ∈ (l.filter p).mergeSort le, le a b = false := by
        intro b hb
        obtain ⟨hb, hpb⟩ := List.mem_filter.1 (List.mem_mergeSort.1 hb)
        exact (hp b (List.mem_cons_of_mem a hb) a List.mem_cons_self hpb ha).2
      have hall : ((l.filter p).mergeSort le).filter (fun b => !le a b) = (l.filter p).mergeSort le :=
        List.filter_eq_self.2 fun b hb => by simp [hlow b hb]
      have hnone : ((l.filter p).mergeSort le).filter (le a) = [] :=
        List.filter_eq_nil_iff.2 fun b hb => by simp [hlow b hb]
      rw [hall, hnone, List.filter_cons_of_neg (by simp [ha]), List.filter_cons_of_pos (by simp [ha]),
        mergeSort_cons_eq htrans htotal a (l.filter fun a => !p a), List.nil_append,
        List.append_assoc]
    · have hhigh : ∀ b ∈ (l.filter fun a => !p a).mergeSort le, le a b := by
        intro b hb
        obtain ⟨hb, hpb⟩ := List.mem_filter.1 (List.mem_mergeSort.1 hb)
        exact (hp a List.mem_cons_self b (List.mem_cons_of_mem a hb) ha (by simpa using hpb)).1
      have hall : ((l.filter fun a => !p a).mergeSort le).filter (le a)
          = (l.filter fun a => !p a).mergeSort le := List.filter_eq_self.2 hhigh
      have hnone : ((l.filter fun a => !p a).mergeSort le).filter (fun b => !le a b) = [] :=
        List.filter_eq_nil_iff.2 fun b hb => by simp [hhigh b hb]
      rw [hall, hnone, List.filter_cons_of_pos ha, List.filter_cons_of_neg (by simp [ha]),
        mergeSort_cons_eq htrans htotal a (l.filter p), List.append_nil, List.append_assoc,
        List.cons_append]

end

/-! ### Errors -/

namespace SourceError

/-- Where an error starts, as errors are ordered. -/
def start (e : SourceError) : Nat := e.span?.elim 0 (·.start.offset)

theorem startsBefore_iff {a b : SourceError} : startsBefore a b ↔ a.start ≤ b.start :=
  decide_eq_true_iff

theorem startsBefore_eq_false {a b : SourceError} : startsBefore a b = false ↔ b.start < a.start := by
  rw [← Bool.not_eq_true, startsBefore_iff, Nat.not_le]

theorem startsBefore_trans (a b c : SourceError) (h : startsBefore a b) (h' : startsBefore b c) :
    startsBefore a c :=
  startsBefore_iff.2 ((startsBefore_iff.1 h).trans (startsBefore_iff.1 h'))

theorem startsBefore_total (a b : SourceError) : startsBefore a b || startsBefore b a := by
  simpa only [Bool.or_eq_true, startsBefore_iff] using Nat.le_total a.start b.start

/-- The errors of a text without lexical ones, and those of a text below it. -/
theorem sorted_below {reach : Nat} {above : List SyntaxError} {lexical : List LexError}
    {syntactic : List SyntaxError} {m : Shift} (hm : reach < m.bytes)
    (habove : ∀ e ∈ above, e.span.start.offset ≤ reach) :
    sorted (respan m.span lexical) (above ++ respan m.span syntactic)
      = sorted [] above ++ respan m.span (sorted lexical syntactic) := by
  let low (e : SourceError) : Bool := decide (e.start ≤ reach)
  let all := lexical.map SourceError.lexical ++ syntactic.map SourceError.syntactic
  have hmoved : (respan m.span lexical).map SourceError.lexical
      ++ (respan m.span syntactic).map SourceError.syntactic = all.map (respan m.span) := by
    simp only [all, List.map_append, respan_list, List.map_map]
    rfl
  have hstart : ∀ e ∈ all, (respan m.span e).start = e.start + m.bytes := by
    intro e he
    rcases List.mem_append.1 he with he | he
    · obtain ⟨e, -, rfl⟩ := List.mem_map.1 he
      rfl
    · obtain ⟨e, -, rfl⟩ := List.mem_map.1 he
      rfl
  have hhigh : ∀ e ∈ all.map (respan m.span), low e = false := by
    intro e he
    obtain ⟨d, hd, rfl⟩ := List.mem_map.1 he
    have hmove := hstart d hd
    simp only [low, decide_eq_false_iff_not]
    omega
  have hlow : ∀ e ∈ above.map SourceError.syntactic, low e := by
    intro e he
    obtain ⟨d, hd, rfl⟩ := List.mem_map.1 he
    exact decide_eq_true (habove d hd)
  have hsplit := mergeSort_filter startsBefore_trans startsBefore_total low
    ((respan m.span lexical).map SourceError.lexical
      ++ (above ++ respan m.span syntactic).map SourceError.syntactic) fun a _ b _ ha hb => by
    have ha := of_decide_eq_true ha
    have hb := of_decide_eq_false hb
    exact ⟨startsBefore_iff.2 (by omega), startsBefore_eq_false.2 (by omega)⟩
  rw [← hmoved] at hhigh
  have hlexical := fun e he => hhigh e (List.mem_append_left _ he)
  have hsyntactic := fun e he => hhigh e (List.mem_append_right _ he)
  rw [List.map_append, List.filter_append, List.filter_append, List.filter_append,
    List.filter_append, List.filter_eq_self.2 hlow,
    List.filter_eq_nil_iff.2 fun e he => by simp [hlexical e he],
    List.filter_eq_nil_iff.2 fun e he => by simp [hsyntactic e he],
    List.filter_eq_self.2 fun e he => by simp [hlexical e he],
    List.filter_eq_nil_iff.2 fun e he => by simp [hlow e he],
    List.filter_eq_self.2 fun e he => by simp [hsyntactic e he]] at hsplit
  rw [List.nil_append, List.append_nil, List.nil_append, hmoved] at hsplit
  unfold sorted
  rw [List.map_append, hsplit, respan_list, List.map_mergeSort]
  · rfl
  · intro a ha b hb
    have hiff : startsBefore a b ↔ startsBefore (respan m.span a) (respan m.span b) := by
      rw [startsBefore_iff, startsBefore_iff, hstart a ha, hstart b hb, Nat.add_le_add_iff_right]
    exact Bool.eq_iff_iff.2 hiff

end SourceError

end SolidityFrontend
