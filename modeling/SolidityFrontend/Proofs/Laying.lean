import SolidityFrontend.Tree.OfSyntax
import SolidityFrontend.Proofs.Coverage
import SolidityFrontend.Proofs.Nesting

/-!
# Where the nodes of a phrase stand

A phrase lays nodes if, wherever its tokens stand between two offsets, so do the nodes, nested and
one behind the other. Each kind of syntax lays the node that it becomes: its children are laid by
the parts of its phrase, and its span covers the tokens of all of them.
-/

namespace SolidityFrontend

open Phrase

/-- Tokens in order between two offsets. -/
def Between (lo hi : Nat) (ts : List Lexeme) : Prop :=
  lo ≤ hi ∧ InOrder ts ∧ ∀ t ∈ ts, lo ≤ t.span.start.offset ∧ t.span.stop.offset ≤ hi

/-- Tokens side by side stand on two sides of an offset. -/
theorem Between.split {lo hi : Nat} {ts us : List Lexeme} (h : Between lo hi (ts ++ us)) :
    ∃ mid, Between lo mid ts ∧ Between mid hi us := by
  obtain ⟨hle, hin, hbounds⟩ := h
  rcases us with _ | ⟨u, us⟩
  · exact ⟨hi, ⟨hle, hin.left, fun t ht => hbounds t (by simp [ht])⟩, le_rfl, .nil, by simp⟩
  · refine ⟨u.span.start.offset, ⟨(hbounds u (by simp)).1, hin.left, fun t ht => ?_⟩, ?_, hin.right,
      fun t ht => ?_⟩
    · exact ⟨(hbounds t (by simp [ht])).1, hin.stop_le_start ht List.mem_cons_self⟩
    · have hpos := hin.1 u (by simp)
      have hstop := (hbounds u (by simp)).2
      omega
    · exact ⟨hin.right.head_start_le ht, (hbounds t (by simp [ht])).2⟩

/-- A span that covers tokens stands between the same offsets, and the tokens between its ends. -/
theorem Covers.between {span : Span} {lo hi : Nat} {ts : List Lexeme} (h : Covers span ts)
    (hts : Between lo hi ts) : lo ≤ span.start.offset ∧ span.stop.offset ≤ hi
      ∧ Between span.start.offset span.stop.offset ts := by
  have hin := hts.2.1
  have hcontains : ∀ t ∈ ts, span.start.offset ≤ t.span.start.offset
      ∧ t.span.stop.offset ≤ span.stop.offset :=
    fun t ht => Span.contains_iff.1 (h.contains hin ht)
  obtain ⟨first, last, hfirst, hlast, rfl⟩ := h
  have hfirst := List.mem_of_head? hfirst
  have hlast := List.mem_of_getLast? hlast
  have hstart := (hts.2.2 first hfirst).1
  have hstop := (hts.2.2 last hlast).2
  have hpos := hin.1 first hfirst
  have hle := (hcontains first hfirst).2
  refine ⟨hstart, hstop, ?_, hin, hcontains⟩
  simp only [Span.through] at hle ⊢
  omega

namespace Phrase

variable {L M : Phrase} {xs ys : List (String × Node)} {n : Node}

/-- Wherever the tokens of the phrase stand, some nodes stand there nested, one behind the other. -/
def Lays (L : Phrase) (xs : List (String × Node)) : Prop :=
  ∀ ts es rest lo hi, L ts es rest → Between lo hi ts → Node.NestedIn lo hi xs

theorem lays_nil (L : Phrase) : L.Lays [] := fun _ _ _ _ _ _ h => h.1

theorem Lays.mono (h : M.Lays xs) (hL : L ≤ M) : L.Lays xs :=
  fun ts es rest lo hi hts => h ts es rest lo hi (hL _ _ _ hts)

theorem Lays.mul (h : L.Lays xs) (h' : M.Lays ys) : (L * M).Lays (xs ++ ys) := by
  rintro ts es rest lo hi ⟨a, b, d, e, rfl, rfl, hL, hM⟩ hts
  obtain ⟨mid, ha, hb⟩ := hts.split
  exact (h _ _ _ _ _ hL ha).append (h' _ _ _ _ _ hM hb)

theorem Lays.left (h : L.Lays xs) : (L * M).Lays xs := by
  have hmul := h.mul (lays_nil M)
  rwa [List.append_nil] at hmul

theorem Lays.right (h : M.Lays xs) : (L * M).Lays xs := (lays_nil L).mul h

theorem Lays.such {p : Prop} (h : p → L.Lays xs) : (such p L).Lays xs :=
  fun _ _ _ _ _ hts => h hts.1 _ _ _ _ _ hts.2

theorem Lays.covered {span : Span} (h : L.Lays xs) : (covered span L).Lays xs := h.mono covered_le

theorem Lays.sup (h : L.Lays xs) (h' : M.Lays xs) : (L ⊔ M).Lays xs := by
  rintro ts es rest lo hi (hts | hts) hb
  · exact h _ _ _ _ _ hts hb
  · exact h' _ _ _ _ _ hts hb

/-- The phrase lays one node, in whatever field. -/
def Draws (L : Phrase) (n : Node) : Prop := ∀ field, L.Lays (Node.one field n)

/-- A node whose span covers a phrase and whose children stand between the ends of the span. -/
theorem draws_of_nestedIn {kind : String} {span : Span} {value : Option String}
    (hspan : L ≤ Phrase.covered span ⊤) (h : ∀ ts es rest, L ts es rest →
      Between span.start.offset span.stop.offset ts →
        Node.NestedIn span.start.offset span.stop.offset xs) :
    L.Draws ⟨kind, span, value, xs⟩ := by
  intro field ts es rest lo hi hts hb
  obtain ⟨hlo, hhi, hbetween⟩ := (hspan _ _ _ hts).1.between hb
  rw [Node.one, Node.NestedIn, Node.nested_iff, Node.NestedIn]
  exact ⟨hlo, hbetween.1, h _ _ _ hts hbetween, hhi⟩

/-- A node whose span covers the phrase that lays its children. -/
theorem Lays.draws {kind : String} {span : Span} {value : Option String}
    (hspan : L ≤ Phrase.covered span ⊤) (h : L.Lays xs) : L.Draws ⟨kind, span, value, xs⟩ :=
  draws_of_nestedIn hspan fun ts es rest => h ts es rest _ _

theorem draws_covered {kind : String} {span : Span} {value : Option String} (h : L.Lays xs) :
    (covered span L).Draws ⟨kind, span, value, xs⟩ := Lays.draws (covered_mono le_top) h.covered

theorem draws_leaf {kind : String} {span : Span} {value : Option String}
    (hspan : L ≤ Phrase.covered span ⊤) : L.Draws (Node.leaf kind span value) :=
  Lays.draws hspan (lays_nil L)

theorem Draws.such {p : Prop} (h : p → L.Draws n) : (such p L).Draws n :=
  fun field => Lays.such fun hp => h hp field

section

variable {α : Type} {f : α → Phrase} {g : α → Node} {as : List α}

theorem lays_maybe (field : String) {o : Option α} (h : ∀ x ∈ o, (f x).Draws (g x)) :
    (perhaps (o.map f)).Lays (Node.maybe field (o.map g)) := by
  cases o with
  | none => exact lays_nil _
  | some x => exact h x rfl field

theorem lays_prod (field : String) (h : ∀ x ∈ as, (f x).Draws (g x)) :
    (as.map f).prod.Lays (Node.several field (as.map g)) := by
  induction as with
  | nil => exact lays_nil _
  | cons x as ih =>
    rw [List.map_cons, List.prod_cons]
    exact Lays.mul (h x List.mem_cons_self field) (ih fun y hy => h y (List.mem_cons_of_mem x hy))

theorem Draws.right (h : M.Draws n) : (L * M).Draws n := fun field => Lays.right (h field)

theorem Draws.left (h : L.Draws n) : (L * M).Draws n := fun field => Lays.left (h field)

theorem lays_separated (field : String) (h : ∀ x ∈ as, (f x).Draws (g x)) :
    (separated (as.map f)).Lays (Node.several field (as.map g)) := by
  rcases as with _ | ⟨x, as⟩
  · exact lays_nil _
  · rw [List.map_cons, separated, List.map_map]
    refine Lays.mul (h x List.mem_cons_self field) (lays_prod field fun y hy => ?_)
    exact Draws.right (h y (List.mem_cons_of_mem x hy))

theorem lays_trailed (field : String) (h : ∀ x ∈ as, (f x).Draws (g x)) :
    (trailed (as.map f)).Lays (Node.several field (as.map g)) := by
  induction as with
  | nil => exact lays_nil _
  | cons x as ih =>
    have hx := h x List.mem_cons_self field
    have has := ih fun y hy => h y (List.mem_cons_of_mem x hy)
    rcases as with _ | ⟨y, as⟩
    · exact Lays.left hx
    · exact Lays.mul (Lays.left hx) has

theorem lays_parenthesized (field : String) (h : ∀ x ∈ as, (f x).Draws (g x)) :
    (parenthesized (as.map f)).Lays (Node.several field (as.map g)) :=
  Lays.left (Lays.right (lays_separated field h))

theorem lays_returned (field : String) (h : ∀ x ∈ as, (f x).Draws (g x)) :
    (returned (as.map f)).Lays (Node.several field (as.map g)) := by
  refine Lays.sup (Lays.such fun hnil => ?_) (Lays.right (lays_parenthesized field h))
  rw [List.map_eq_nil_iff.1 hnil]
  exact lays_nil _

/-- What stands in a place of which the tokens are known: its node, or an empty one where the places
before it end. -/
theorem place_fits {o : Option α} (h : ∀ x ∈ o, (f x).Draws (g x)) {here : Location} {lo hi : Nat}
    {ts rest : List Lexeme} {es : List SyntaxError} (hts : perhaps (o.map f) ts es rest)
    (hb : Between lo hi ts) (hhere : here.offset ≤ lo) :
    let n := (o.map g).getD (Node.leaf "empty" (.point here) none)
    here.offset ≤ n.span.start.offset ∧ n.span.start.offset ≤ n.span.stop.offset ∧ n.Nested
      ∧ n.span.stop.offset ≤ hi := by
  cases o with
  | none =>
    refine ⟨le_rfl, le_rfl, ?_, hhere.trans hb.1⟩
    rw [Node.nested_iff]
    exact le_rfl
  | some x =>
    have hx := h x rfl "" _ _ _ _ _ hts hb
    rw [Node.one, Node.NestedIn, Node.NestedIn] at hx
    exact ⟨hhere.trans hx.1, hx.2⟩

theorem nestedIn_places {field : String} {os : List (Option α)}
    (h : ∀ o ∈ os, ∀ x ∈ o, (f x).Draws (g x)) {here : Location} {lo hi : Nat}
    {ts rest : List Lexeme} {es : List SyntaxError}
    (hts : (os.map fun o => symbol .comma * perhaps (o.map f)).prod ts es rest)
    (hb : Between lo hi ts) (hhere : here.offset ≤ lo) :
    Node.NestedIn here.offset hi
      (Node.several field (Node.places (.point here) (os.map (·.map g)))) := by
  induction os generalizing here lo ts es with
  | nil => exact hhere.trans hb.1
  | cons o os ih =>
    rw [List.map_cons, List.prod_cons] at hts
    obtain ⟨_, bs, _, e, rfl, rfl, ⟨cs, as, c, d, rfl, rfl, -, ho⟩, hos⟩ := hts
    obtain ⟨mid, hcas, hbs⟩ := hb.split
    obtain ⟨mid', hcs, has⟩ := hcas.split
    have hfits := place_fits (h o List.mem_cons_self) ho has (hhere.trans hcs.1)
    rw [List.map_cons, Node.places]
    refine ⟨hfits.1, hfits.2.1, hfits.2.2.1, ?_⟩
    exact ih (fun o' ho' => h o' (List.mem_cons_of_mem o ho')) hos hbs hfits.2.2.2

/-- A node with a field whose places may be vacant. -/
theorem draws_slots {kind field : String} {value : Option String} {span : Span}
    {os : List (Option α)} (h : ∀ o ∈ os, ∀ x ∈ o, (f x).Draws (g x)) :
    (covered span (L * parenthesized (os.map fun o => perhaps (o.map f)))).Draws
      ⟨kind, span, value, Node.slots field span (os.map (·.map g))⟩ := by
  refine draws_of_nestedIn (covered_mono le_top) fun ts es rest hts hb => ?_
  obtain ⟨-, _, _, _, _, rfl, rfl, -, _, _, _, _, rfl, rfl, ⟨_, _, _, _, rfl, rfl, -, hplaces⟩, -⟩ :=
    hts
  obtain ⟨mid₀, hbefore, hb⟩ := hb.split
  obtain ⟨mid, hb, hclosing⟩ := hb.split
  obtain ⟨mid', hopening, hb⟩ := hb.split
  have hstart : span.start.offset ≤ mid' := hbefore.1.trans hopening.1
  have hfits : Node.NestedIn span.start.offset mid (Node.slots field span (os.map (·.map g))) := by
    rcases os with _ | ⟨o, os⟩
    · exact hstart.trans hb.1
    · obtain ⟨_, _, _, _, rfl, rfl, ho, hos⟩ := hplaces
      rw [List.map_map] at hos
      obtain ⟨mid'', hfirst, hrest⟩ := hb.split
      have hfits := place_fits (h o List.mem_cons_self) ho hfirst hstart
      refine ⟨hfits.1, hfits.2.1, hfits.2.2.1, ?_⟩
      exact nestedIn_places (fun o' ho' => h o' (List.mem_cons_of_mem o ho')) hos hrest
        hfits.2.2.2
  exact hfits.mono_stop hclosing.1

/-- The parts of a body lay their nodes up to the end of the part that the body ends. -/
theorem nestedIn_body {m : α → Phrase} {field : String} {around : Span}
    (h : ∀ x ∈ as, (f x).Draws (g x))
    (hm : ∀ x ∈ as, ∀ ts es rest, m x ts es rest → (g x).span = around.after ∧ (g x).Nested)
    {lo : Nat} {ts rest : List Lexeme} {es : List SyntaxError}
    (hts : body (as.map fun x => (f x, m x)) ts es rest)
    (hb : Between lo around.stop.offset ts) :
    Node.NestedIn lo around.stop.offset (Node.several field (as.map g)) := by
  induction as generalizing lo ts es with
  | nil => exact hb.1
  | cons x as ih =>
    rw [List.map_cons, body] at hts
    rcases hts with ⟨_, _, _, _, rfl, rfl, hx, hxs⟩ | ⟨hnil, hmissed⟩
    · obtain ⟨mid, ha, hrest⟩ := hb.split
      have hfirst := h x List.mem_cons_self field _ _ _ _ _ hx ha
      refine hfirst.append (ih (fun y hy => h y (List.mem_cons_of_mem x hy)) ?_ hxs hrest)
      exact fun y hy => hm y (List.mem_cons_of_mem x hy)
    · obtain ⟨hspan, hnested⟩ := hm x List.mem_cons_self _ _ _ hmissed
      obtain rfl : as = [] := List.map_eq_nil_iff.1 hnil
      rw [List.map_singleton, Node.several, List.map_singleton, Node.NestedIn, Node.NestedIn, hspan]
      exact ⟨hb.1, le_rfl, hnested, le_rfl⟩

/-- A node that ends with a body. -/
theorem draws_braced {m : α → Phrase} {kind field : String} {value : Option String} {span : Span}
    (hL : L.Lays xs) (h : ∀ x ∈ as, (f x).Draws (g x))
    (hm : ∀ x ∈ as, ∀ ts es rest, m x ts es rest → (g x).span = span.after ∧ (g x).Nested) :
    (covered span (L * (symbol .leftBrace * body (as.map fun x => (f x, m x))))).Draws
      ⟨kind, span, value, xs ++ Node.several field (as.map g)⟩ := by
  refine draws_of_nestedIn (covered_mono le_top) fun ts es rest hts hb => ?_
  obtain ⟨-, _, _, _, _, rfl, rfl, hhead, _, _, _, _, rfl, rfl, -, hbody⟩ := hts
  obtain ⟨mid, hheader, hb⟩ := hb.split
  obtain ⟨mid', hopening, hb⟩ := hb.split
  have hxs := hL _ _ _ _ _ hhead hheader
  exact (hxs.mono_stop hopening.1).append (nestedIn_body h hm hbody hb)

end

end Phrase

end SolidityFrontend
