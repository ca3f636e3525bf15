import SolidityFrontend.Proofs.ReadingBackType
import SolidityFrontend.Proofs.Refusing

/-!
# Type names that nest too deep

Where a type tree nests deeper than there are levels left, it is refused: the types of parameters and
the values of mappings are read one level deeper, and so are the sizes of arrays, which are
expressions.
-/

namespace SolidityFrontend

open SolidityFrontend.Parser SolidityFrontend.Grammar

/-! ### Lists -/

section

variable {α : Type} {c : Context} {item : Parser α} {tokens : α → List Token} {k : List Token}

/-- One of the items behind commas is refused, and those in front of it are read. -/
theorem refuses_manyOver : ∀ (xs : List α) (clock : List Lexeme), xs.length ≤ clock.length →
    (∀ x ∈ xs, (∀ k, Refuses c item (tokens x ++ k))
      ∨ ∀ us, Accepts c item (tokens x) (.symbol .comma :: us) fun _ => True) →
    (∃ x ∈ xs, ∀ k, Refuses c item (tokens x ++ k)) →
    Refuses c (manyOver (do if ← accept (.symbol .comma) then return some (← item) else return none)
      clock) (xs.flatMap (fun x => .symbol .comma :: tokens x) ++ k)
  | [], _, _, _, hdeep => by simp at hdeep
  | x :: xs, [], hle, _, _ => by simp at hle
  | x :: xs, next :: rest, hle, h, hdeep => by
      rw [List.flatMap_cons, List.append_assoc, List.cons_append]
      rcases h x List.mem_cons_self with hx | hx
      · exact (refuses_accept (hx _).bind).bind
      obtain ⟨y, hy, hdeep⟩ := hdeep
      rcases List.mem_cons.1 hy with rfl | hy
      · exact (refuses_accept (hdeep _).bind).bind
      have hrest := refuses_manyOver xs rest (Nat.le_of_succ_le_succ hle)
        (fun z hz => h z (List.mem_cons_of_mem _ hz)) ⟨y, hy, hdeep⟩
      obtain ⟨z, zs, rfl⟩ := List.exists_cons_of_ne_nil (List.ne_nil_of_mem hy)
      have hround : Accepts c (do if ← accept (.symbol .comma) then return some (← item) else return none)
          (.symbol .comma :: tokens x) ((z :: zs).flatMap (fun x => .symbol .comma :: tokens x) ++ k)
          fun o => ∃ y, o = some y := by
        have hitem := hx (tokens z ++ (zs.flatMap (fun x => .symbol .comma :: tokens x) ++ k))
        refine accepts_accept (Accepts.bind_last (P := fun _ => True) ?_ fun y _ => accepts_pure ⟨y, rfl⟩)
        simpa using hitem
      refine hround.refuses ?_
      rintro _ ⟨y, rfl⟩
      exact hrest.bind

theorem length_le_flatMap_comma (tokens : α → List Token) (xs : List α) :
    xs.length ≤ (xs.flatMap fun x => .symbol .comma :: tokens x).length := by
  induction xs with
  | nil => exact Nat.zero_le _
  | cons x xs ih =>
    rw [List.flatMap_cons, List.length_append, List.length_cons, List.length_cons]
    omega

/-- One of the items between commas is refused. -/
theorem refuses_separated {xs : List α}
    (h : ∀ x ∈ xs, (∀ k, Refuses c item (tokens x ++ k))
      ∨ ∀ us, Accepts c item (tokens x) (.symbol .comma :: us) fun _ => True)
    (hdeep : ∃ x ∈ xs, ∀ k, Refuses c item (tokens x ++ k)) :
    Refuses c (separated item) (commas (xs.map tokens) ++ k) := by
  obtain ⟨y, hy, hdeep⟩ := hdeep
  obtain ⟨x, xs, rfl⟩ := List.exists_cons_of_ne_nil (List.ne_nil_of_mem hy)
  rw [commas_map_cons, List.append_assoc]
  rcases h x List.mem_cons_self with hx | hx
  · exact (hx _).bind
  rcases List.mem_cons.1 hy with rfl | hy
  · exact (hdeep _).bind
  obtain ⟨z, zs, rfl⟩ := List.exists_cons_of_ne_nil (List.ne_nil_of_mem hy)
  refine Accepts.refuses (hx _) fun x _ => Refuses.bind fun s hs => ?_
  have hlength : (z :: zs).length ≤ s.rest.length := by
    have htokens := congrArg List.length hs
    have hle := length_le_flatMap_comma tokens (z :: zs)
    rw [State.tokens, List.length_map, List.length_append] at htokens
    omega
  exact refuses_manyOver (z :: zs) s.rest hlength (fun x hx => h x (List.mem_cons_of_mem _ hx))
    ⟨y, hy, hdeep⟩ s hs

end

/-! ### Types -/

/-- Wherever there are not enough levels left for a type name, it is refused. -/
def TypeName.Limited (t : TypeName) : Prop :=
  ∀ n c, n < t.nesting → ∀ k, Refuses c (typeName (.ofDepth n)) (t.tokens ++ k)

theorem TypeName.Limited.nested {t : TypeName} (h : t.Limited) (c : Context) (k : List Token) :
    ∀ {n}, n < t.nesting + 1 → Refuses c (Nested.ofDepth n).typeName (t.tokens ++ k)
  | 0, _ => refuses_tooDeep
  | n + 1, hn => h n c (Nat.lt_of_succ_lt_succ hn) k

section

variable {n : Nat} {c : Context} {k : List Token} {span : Span}

theorem refused_mapping {key value : TypeName} (hkey : TypeTree key) (hisKey : key.isKey)
    (h : value.Limited) (hn : n < value.nesting + 1) :
    Refuses c (typeName (.ofDepth n)) ((TypeName.mapping key value span).tokens ++ k) := by
  refine Refuses.bind (sees_next.refuses ?_)
  have htokens : (TypeName.mapping key value span).tokens ++ k = .keyword .mapping
      :: .symbol .leftParen :: (key.tokens ++ .symbol .arrow :: (value.tokens ++ .symbol .rightParen :: k)) := by
    simp [TypeName.tokens, inParens, commas]
  rw [htokens]
  refine (accepts_keyword : Accepts c (keyword .mapping) [_] _ _).refuses fun start _ => ?_
  refine refuses_symbol fun _ => (accepts_mappingKey hkey hisKey (by simp) (by simp)).refuses
    fun key' _ => refuses_symbol fun _ => ?_
  exact (h.nested c _ hn).bind

theorem refused_array {base : TypeName} {size : Option Expr} (hbase : TypeTree base) (h : base.Limited)
    (hsize : ∀ e ∈ size, OperatorTree e) (hn : n < max base.nesting (optionNesting size)) :
    Refuses c (typeName (.ofDepth n)) ((TypeName.array base size span).tokens ++ k) := by
  simp only [TypeName.tokens, List.append_assoc, List.cons_append]
  by_cases hdeep : n < base.nesting
  · exact h n c hdeep _
  refine (hbase.grows n c (Nat.le_of_not_lt hdeep) _ (.cons rfl)).refuses (by simp) fun x _ => ?_
  have hn := (lt_max_iff.1 hn).resolve_left hdeep
  cases size with
  | none => exact absurd hn (Nat.not_lt_zero n)
  | some e =>
    rw [optionTokens]
    refine refuses_accept (refuses_nextIs_ne ((hsize e rfl).begins.head_ne (by decide)) ?_)
    exact (((hsize e rfl).limited.nested _ hn).bind).bind

theorem Parameter.nesting_eq (p : Parameter) : p.nesting = p.type.nesting + 1 := by
  obtain ⟨type, location, name, span⟩ := p
  rfl

theorem refuses_parameter {p : Parameter} (h : p.type.Limited) (hn : n < p.nesting) (k : List Token) :
    Refuses c (parameter (.ofDepth n)) (p.tokens ++ k) := by
  obtain ⟨type, location, name, span⟩ := p
  rw [Parameter.tokens, List.append_assoc, List.append_assoc]
  exact looks_here.refuses fun start => (h.nested c _ hn).bind

theorem refuses_parameters {ps : List Parameter} (h : ∀ p ∈ ps, TypeTree p.type ∧ p.type.Limited)
    (hnames : ∀ p ∈ ps, ∀ i ∈ p.name, i.IsPlain) (hn : n < parameterNesting ps) :
    Refuses c (parameters (.ofDepth n)) (inParens (parameterTokens ps) ++ k) := by
  have hitems : ∀ p ∈ ps, (∀ k, Refuses c (parameter (.ofDepth n)) (p.tokens ++ k))
      ∨ ∀ us, Accepts c (parameter (.ofDepth n)) p.tokens (.symbol .comma :: us) fun _ => True := by
    intro p hp
    by_cases hdeep : n < p.nesting
    · exact .inl (refuses_parameter (h p hp).2 hdeep)
    · rw [p.nesting_eq] at hdeep
      obtain ⟨m, rfl, hm⟩ := exists_level (Nat.le_of_not_lt hdeep)
      have hread : ReadsBack (.ofDepth (m + 1)) c p.type := Grows.readsBack ((h p hp).1.grows m c hm)
      exact .inr fun us => (accepts_parameter hread (hnames p hp) (.cons rfl) (by simp) (by simp)).mono
        fun _ _ => trivial
  obtain ⟨p, hp, hdeep⟩ := exists_of_lt_deepest parameterNesting.eq_1 parameterNesting.eq_2 hn
  rw [inParens, parameterTokens_eq, List.append_assoc, List.cons_append]
  refine refuses_symbol fun _ => refuses_without ?_ (refuses_separated hitems
    ⟨p, hp, refuses_parameter (h p hp).2 hdeep⟩).bind
  obtain ⟨q, qs, rfl⟩ := List.exists_cons_of_ne_nil (List.ne_nil_of_mem hp)
  obtain ⟨a, ts, hts, ha⟩ := (h q List.mem_cons_self).1.head
  obtain ⟨type, location, name, span⟩ := q
  rw [commas_map_cons, Parameter.tokens, hts]
  simp only [List.cons_append]
  intro heq
  obtain rfl := Option.some.inj heq
  exact absurd ha (by decide)

theorem refused_function {ps returns : List Parameter} {attributes : List FunctionTypeAttribute}
    (hps : ∀ p ∈ ps, TypeTree p.type ∧ p.type.Limited) (hnames : ∀ p ∈ ps, ∀ i ∈ p.name, i.IsPlain)
    (hattributes : ∀ a ∈ attributes, a.IsProper)
    (hreturns : ∀ p ∈ returns, TypeTree p.type ∧ p.type.Limited)
    (hnames' : ∀ p ∈ returns, ∀ i ∈ p.name, i.IsPlain)
    (hn : n < max (parameterNesting ps) (parameterNesting returns)) :
    Refuses c (typeName (.ofDepth n)) ((TypeName.function ps attributes returns span).tokens ++ k) := by
  refine Refuses.bind (sees_next.refuses ?_)
  simp only [TypeName.tokens, List.cons_append, List.head?_cons, List.append_assoc]
  refine (accepts_keyword : Accepts c (keyword .function) [_] _ _).refuses fun start _ => ?_
  by_cases hdeep : n < parameterNesting ps
  · exact (refuses_parameters hps hnames hdeep).bind
  have hread : ∀ p ∈ ps, ReadsBack (.ofDepth n) c p.type := by
    intro p hp
    obtain ⟨m, rfl, hm⟩ :=
      exists_level ((nesting_lt_parameterNesting hp).trans (Nat.le_of_not_lt hdeep))
    exact Grows.readsBack ((hps p hp).1.grows m c hm)
  have hn := (lt_max_iff.1 hn).resolve_left hdeep
  have hnonempty : returns.isEmpty = false := by
    cases returns with
    | nil => exact absurd hn (Nat.not_lt_zero n)
    | cons => rfl
  rw [hnonempty, if_neg Bool.false_ne_true]
  refine (accepts_parameters (fun p hp => (hps p hp).1) hread hnames).refuses fun ps' _ => ?_
  refine (accepts_functionTypeAttributes hattributes (.inr rfl)).refuses fun attributes' _ => ?_
  exact (refuses_accept (refuses_parameters hreturns hnames' hn)).bind

end

/-- Where a type tree nests deeper than there are levels left, it is refused. -/
theorem TypeTree.limited {t : TypeName} (h : TypeTree t) : t.Limited := by
  induction h with
  | elementary | userDefined => exact fun n c hn => absurd hn (Nat.not_lt_zero n)
  | mapping hkey hisKey _ _ ih => exact fun n c hn k => refused_mapping hkey hisKey ih hn
  | array hbase hsize ih => exact fun n c hn k => refused_array hbase ih hsize hn
  | function hparameters hnames hattributes hreturns hnames' ih ih' =>
    exact fun n c hn k => refused_function (fun p hp => ⟨hparameters p hp, ih p hp⟩) hnames hattributes
      (fun p hp => ⟨hreturns p hp, ih' p hp⟩) hnames' hn

end SolidityFrontend
