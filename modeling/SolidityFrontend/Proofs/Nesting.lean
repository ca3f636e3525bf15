import Mathlib.Data.List.Basic
import Mathlib.Data.Nat.Basic
import Mathlib.Order.Basic
import SolidityFrontend.Tree.Node

/-!
# Nested trees

In a nested tree the children of every node stand inside the node and one behind the other. Then
they are in the order of the source already, and a walk meets the nodes by their starts.
-/

namespace SolidityFrontend.Node

mutual

/-- The children stand inside the node one behind the other, and so on below. -/
def Nested : Node → Prop
  | ⟨_, span, _, children⟩ => NestedIn span.start.offset span.stop.offset children

/-- Nodes that stand between two offsets one behind the other, each of them nested. -/
def NestedIn (lo hi : Nat) : List (String × Node) → Prop
  | [] => lo ≤ hi
  | (_, n) :: rest => lo ≤ n.span.start.offset ∧ n.span.start.offset ≤ n.span.stop.offset
      ∧ n.Nested ∧ NestedIn n.span.stop.offset hi rest

end

theorem nested_iff {n : Node} :
    n.Nested ↔ NestedIn n.span.start.offset n.span.stop.offset n.children := by
  obtain ⟨kind, span, value, children⟩ := n
  rw [Nested]

variable {lo mid hi : Nat} {xs ys : List (String × Node)} {n : Node}

theorem NestedIn.le (h : NestedIn lo hi xs) : lo ≤ hi := by
  induction xs generalizing lo with
  | nil => simpa [NestedIn] using h
  | cons x xs ih =>
    obtain ⟨field, n⟩ := x
    rw [NestedIn] at h
    obtain ⟨hlo, hle, -, hrest⟩ := h
    have hstop := ih hrest
    omega

theorem NestedIn.append (h : NestedIn lo mid xs) (h' : NestedIn mid hi ys) :
    NestedIn lo hi (xs ++ ys) := by
  induction xs generalizing lo with
  | nil =>
    rw [NestedIn] at h
    rw [List.nil_append]
    cases ys with
    | nil =>
      rw [NestedIn] at h' ⊢
      omega
    | cons y ys =>
      obtain ⟨field, n⟩ := y
      rw [NestedIn] at h' ⊢
      exact ⟨h.trans h'.1, h'.2⟩
  | cons x xs ih =>
    obtain ⟨field, n⟩ := x
    rw [NestedIn] at h
    rw [List.cons_append, NestedIn]
    exact ⟨h.1, h.2.1, h.2.2.1, ih h.2.2.2⟩

theorem NestedIn.mono_stop (h : NestedIn lo mid xs) (hle : mid ≤ hi) : NestedIn lo hi xs := by
  have hnil : NestedIn mid hi [] := by rwa [NestedIn]
  have happend := h.append hnil
  rwa [List.append_nil] at happend

/-- The bounds and the order of nested nodes. -/
theorem NestedIn.bounds (h : NestedIn lo hi xs) :
    (∀ c ∈ xs.map Prod.snd, lo ≤ c.span.start.offset
        ∧ c.span.start.offset ≤ c.span.stop.offset ∧ c.span.stop.offset ≤ hi)
      ∧ (xs.map Prod.snd).Pairwise fun a b => a.span.stop.offset ≤ b.span.start.offset := by
  induction xs generalizing lo with
  | nil => exact ⟨by simp, .nil⟩
  | cons x xs ih =>
    obtain ⟨field, n⟩ := x
    rw [NestedIn] at h
    obtain ⟨hlo, hle, -, hrest⟩ := h
    have hhi := hrest.le
    obtain ⟨hbounds, hpairwise⟩ := ih hrest
    constructor
    · intro c hc
      rcases List.mem_cons.1 hc with rfl | hc
      · exact ⟨hlo, hle, hhi⟩
      · obtain ⟨hstart, hle', hstop⟩ := hbounds c hc
        exact ⟨by omega, hle', hstop⟩
    · exact List.pairwise_cons.2 ⟨fun c hc => (hbounds c hc).1, hpairwise⟩

/-- The children of a nested node are in the order of the source. -/
theorem Nested.sortedChildren_eq (h : n.Nested) : n.sortedChildren = n.children.map Prod.snd := by
  obtain ⟨hbounds, hpairwise⟩ := (nested_iff.1 h).bounds
  refine List.mergeSort_of_pairwise ?_
  refine hpairwise.imp_of_mem fun {a b} ha hb hab => ?_
  have ha := (hbounds a ha).2.1
  have hb := (hbounds b hb).2.1
  simp only [startsBefore, Bool.or_eq_true, decide_eq_true_eq, Bool.and_eq_true, beq_iff_eq]
  omega

/-! ### Walking -/

mutual

theorem Nested.of_mem_walk : ∀ {n m : Node}, n.Nested → m ∈ n.walk → m.Nested
  | ⟨kind, span, value, children⟩, m, h, hm => by
      rw [walk, List.mem_cons] at hm
      rcases hm with rfl | hm
      · exact h
      · exact NestedIn.of_mem_walk (nested_iff.1 h) hm

theorem NestedIn.of_mem_walk : ∀ {xs : List (String × Node)} {lo hi : Nat} {m : Node},
    NestedIn lo hi xs → m ∈ walkChildren xs → m.Nested
  | [], _, _, m, _, hm => by simp [walkChildren] at hm
  | (_, n) :: rest, _, _, m, h, hm => by
      rw [NestedIn] at h
      rw [walkChildren, List.mem_append] at hm
      rcases hm with hm | hm
      · exact Nested.of_mem_walk h.2.2.1 hm
      · exact NestedIn.of_mem_walk h.2.2.2 hm

end

mutual

/-- A walk of a nested node meets nodes that stand inside it, by their starts. -/
theorem Nested.walk_ordered : ∀ {n : Node}, n.Nested →
    (∀ m ∈ n.walk, n.span.start.offset ≤ m.span.start.offset
        ∧ m.span.start.offset ≤ n.span.stop.offset)
      ∧ n.walk.Pairwise fun a b => a.span.start.offset ≤ b.span.start.offset
  | ⟨kind, span, value, children⟩, h => by
      have hchildren := nested_iff.1 h
      obtain ⟨hbounds, hpairwise⟩ := NestedIn.walk_ordered hchildren
      rw [walk]
      refine ⟨fun m hm => ?_, List.pairwise_cons.2 ⟨fun m hm => (hbounds m hm).1, hpairwise⟩⟩
      rcases List.mem_cons.1 hm with rfl | hm
      · exact ⟨le_rfl, hchildren.le⟩
      · exact hbounds m hm

theorem NestedIn.walk_ordered : ∀ {xs : List (String × Node)} {lo hi : Nat}, NestedIn lo hi xs →
    (∀ m ∈ walkChildren xs, lo ≤ m.span.start.offset ∧ m.span.start.offset ≤ hi)
      ∧ (walkChildren xs).Pairwise fun a b => a.span.start.offset ≤ b.span.start.offset
  | [], _, _, _ => by simp [walkChildren]
  | (_, n) :: rest, _, _, h => by
      rw [NestedIn] at h
      obtain ⟨hlo, hle, hn, hrest⟩ := h
      have hhi := hrest.le
      obtain ⟨hbounds, hpairwise⟩ := Nested.walk_ordered hn
      obtain ⟨hbounds', hpairwise'⟩ := NestedIn.walk_ordered hrest
      rw [walkChildren]
      refine ⟨fun m hm => ?_, List.pairwise_append.2 ⟨hpairwise, hpairwise', ?_⟩⟩
      · rcases List.mem_append.1 hm with hm | hm
        · have hm := hbounds m hm
          omega
        · have hm := hbounds' m hm
          omega
      · intro a ha b hb
        have ha := hbounds a ha
        have hb := hbounds' b hb
        omega

end

end SolidityFrontend.Node
