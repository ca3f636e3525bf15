import SolidityFrontend.Proofs.Lines
import SolidityFrontend.Proofs.RefusingType

/-!
# The limit of nesting

A session reads an operator tree or a type tree if it nests at most 127 levels deep, and refuses it if
it nests deeper. Of a tower, in which each part nests in the next one in the same way, the levels are
counted: parentheses, operators in front, powers, conditionals, assignments, indices, calls and
mappings all count one for each (`Session.nesting_limit`). What hangs on the left of an operator, a
member or brackets does not nest, so chains of these may have any length.
-/

namespace SolidityFrontend

open SolidityFrontend.Parser SolidityFrontend.Grammar

/-! ### Towers and chains -/

/-- An expression that nests nothing, such as a name, a number, and members of names. -/
structure Expr.IsFlat (e : Expr) : Prop where
  tree : OperatorTree e
  tier : e.tier = 13
  nesting : e.nesting = 0

/-- The ways in which expressions nest in a tower. -/
inductive Family
  | parentheses
  | operands
  | powers
  | branches
  | assignments
  | indices
  | arguments

/-- The tier that an expression of a family has at least. -/
def Family.tier : Family → Nat
  | .parentheses | .indices | .arguments => 13
  | .operands => 12
  | .powers => 11
  | .branches | .assignments => 0

/-- A flat expression with `n` expressions around it, one in the other. -/
inductive Tower : Family → Nat → Expr → Prop
  | flat {f : Family} {e : Expr} (h : e.IsFlat) : Tower f 0 e
  | parenthesized {n : Nat} {e : Expr} {span : Span} (h : Tower .parentheses n e) :
      Tower .parentheses (n + 1) (.parenthesized e span)
  | unary {n : Nat} {op : UnaryOp} {e : Expr} {span : Span} (h : Tower .operands n e) :
      Tower .operands (n + 1) (.unary op e span)
  | update {n : Nat} {op : UpdateOp} {e : Expr} {span : Span} (h : Tower .operands n e) :
      Tower .operands (n + 1) (.update op .before e span)
  | power {n : Nat} {base e : Expr} {span : Span} (hbase : base.IsFlat) (h : Tower .powers n e) :
      Tower .powers (n + 1) (.binary base .pow e span)
  | branch {n : Nat} {condition ifTrue e : Expr} {span : Span} (hcondition : condition.IsFlat)
      (htrue : ifTrue.IsFlat) (h : Tower .branches n e) :
      Tower .branches (n + 1) (.ternary condition ifTrue e span)
  | assignment {n : Nat} {left e : Expr} {op : AssignOp} {span : Span} (hleft : left.IsFlat)
      (hassignable : left.isAssignable) (h : Tower .assignments n e) :
      Tower .assignments (n + 1) (.assignment left op e span)
  | index {n : Nat} {base e : Expr} {span : Span} (hbase : base.IsFlat) (h : Tower .indices n e) :
      Tower .indices (n + 1) (.index base (some e) span)
  | call {n : Nat} {callee e : Expr} {inner span : Span} (hcallee : callee.IsFlat)
      (h : Tower .arguments n e) :
      Tower .arguments (n + 1) (.call callee (.positional [e] inner) span)

/-- `n` binary operators of one tier with flat operands, the first one innermost. -/
inductive OperatorChain (tier : Nat) : Nat → Expr → Prop
  | flat {e : Expr} (h : e.IsFlat) : OperatorChain tier 0 e
  | binary {n : Nat} {left right : Expr} {op : BinaryOp} {span : Span}
      (h : OperatorChain tier n left) (hop : op.tier = tier) (hright : right.IsFlat) :
      OperatorChain tier (n + 1) (.binary left op right span)

/-- `n` members behind a flat expression. -/
inductive MemberChain : Nat → Expr → Prop
  | flat {e : Expr} (h : e.IsFlat) : MemberChain 0 e
  | member {n : Nat} {object : Expr} {name : Identifier} {span : Span} (h : MemberChain n object)
      (hlexes : (Token.identifier name.name).Lexes) : MemberChain (n + 1) (.member object name span)

/-- A type that nests nothing as the value of `n` mappings, one in the other. -/
inductive MappingTower : Nat → TypeName → Prop
  | flat {t : TypeName} (h : TypeTree t) (hn : t.nesting = 0) : MappingTower 0 t
  | mapping {n : Nat} {key value : TypeName} {span : Span} (hkey : TypeTree key) (hisKey : key.isKey)
      (h : MappingTower n value) : MappingTower (n + 1) (.mapping key value span)

/-- A tower is an operator tree that nests as deep as it is high. -/
theorem Tower.tree {f : Family} {n : Nat} {e : Expr} (h : Tower f n e) :
    OperatorTree e ∧ f.tier ≤ e.tier ∧ e.nesting = n := by
  induction h with
  | @flat f e h => exact ⟨h.tree, h.tier ▸ (by cases f <;> decide), h.nesting⟩
  | parenthesized _ ih =>
    obtain ⟨htree, -, hn⟩ := ih
    exact ⟨.parenthesized htree, le_rfl, congrArg (· + 1) hn⟩
  | unary _ ih =>
    obtain ⟨htree, htier, hn⟩ := ih
    exact ⟨.unary htree htier, le_rfl, congrArg (· + 1) hn⟩
  | update _ ih =>
    obtain ⟨htree, htier, hn⟩ := ih
    exact ⟨.update htree htier, le_rfl, congrArg (· + 1) hn⟩
  | power hbase _ ih =>
    obtain ⟨htree, htier, hn⟩ := ih
    refine ⟨.binary hbase.tree htree ⟨hbase.tier ▸ (by decide), htier⟩, le_rfl, ?_⟩
    rw [Expr.nesting, hbase.nesting, hn, Nat.zero_max]
  | branch hcondition htrue _ ih =>
    obtain ⟨htree, -, hn⟩ := ih
    refine ⟨.ternary hcondition.tree htrue.tree htree ?_, le_rfl, ?_⟩
    · rw [Expr.Tiered, hcondition.tier]
      decide
    · rw [Expr.nesting, hcondition.nesting, htrue.nesting, hn, Nat.zero_max, Nat.zero_max]
  | assignment hleft hassignable _ ih =>
    obtain ⟨htree, -, hn⟩ := ih
    refine ⟨.assignment hleft.tree htree hassignable ?_, le_rfl, ?_⟩
    · rw [Expr.Tiered, hleft.tier]
      decide
    · rw [Expr.nesting, hleft.nesting, hn, Nat.zero_max]
  | index hbase _ ih =>
    obtain ⟨htree, -, hn⟩ := ih
    refine ⟨.index hbase.tree (by simpa using htree) hbase.tier, le_rfl, ?_⟩
    rw [Expr.nesting, optionNesting, hbase.nesting, hn, Nat.zero_max]
  | call hcallee _ ih =>
    obtain ⟨htree, -, hn⟩ := ih
    refine ⟨.call hcallee.tree (by simpa using htree) hcallee.tier, le_rfl, ?_⟩
    rw [Expr.nesting, Arguments.nesting, exprNesting, exprNesting, hcallee.nesting, hn, Nat.zero_max,
      Nat.max_zero]

/-- A chain of operators does not nest. -/
theorem OperatorChain.tree {tier n : Nat} {e : Expr} (h : OperatorChain tier n e) (htier : tier ≤ 10) :
    OperatorTree e ∧ tier ≤ e.tier ∧ e.nesting = 0 := by
  induction h with
  | flat h => exact ⟨h.tree, h.tier ▸ (by omega), h.nesting⟩
  | @binary n left right op span _ hop hright ih =>
    obtain ⟨htree, hleft, hn⟩ := ih
    subst hop
    have htier' : op.tier + 1 ≤ right.tier := hright.tier ▸ (by omega)
    have hnesting : (Expr.binary left op right span).nesting = max left.nesting right.nesting := by
      cases op <;> first | rfl | exact absurd htier (by decide)
    refine ⟨.binary htree hright.tree (Expr.tiered_binary htier hleft htier'), le_rfl, ?_⟩
    rw [hnesting, hn, hright.nesting, Nat.zero_max]

theorem MemberChain.isFlat {n : Nat} {e : Expr} (h : MemberChain n e) : e.IsFlat := by
  induction h with
  | flat h => exact h
  | member _ hlexes ih => exact ⟨.member ih.tree hlexes ih.tier, rfl, ih.nesting⟩

theorem MappingTower.tree {n : Nat} {t : TypeName} (h : MappingTower n t) :
    TypeTree t ∧ t.nesting = n := by
  induction h with
  | flat h hn => exact ⟨h, hn⟩
  | mapping hkey hisKey _ ih => exact ⟨.mapping hkey hisKey ih.1, congrArg (· + 1) ih.2⟩

/-! ### Sessions -/

namespace Session

/-- The answer is a tree, up to spans, and there are no errors. -/
def Reads {α : Type} [Placed α] (x : α) (answer : Except SyntaxError α × Session) : Prop :=
  ∃ y next, answer = (.ok y, next) ∧ erase y = erase x ∧ next.errors = []

/-- The answer is that the source is nested too deep, and there are no other errors. -/
def NestsTooDeep {α : Type} (answer : Except SyntaxError α × Session) : Prop :=
  ∃ span next, answer = (.error ⟨.violation .nestingTooDeep, span⟩, next) ∧ next.errors = []

theorem nestsTooDeep_of_refuses {α : Type} {p : Parser α} {source : String} {ts : List Token}
    (hlexes : (tokenize source).errors = []) (htokens : tokensOf source = ts)
    (h : Refuses (ofSource source).context p ts) : NestsTooDeep ((ofSource source).run (whole p)) := by
  obtain ⟨span, t, hrun, herrors⟩ := h (ofSource source).state htokens
  have hwhole : whole p (ofSource source).context (ofSource source).state
      = (.error ⟨.violation .nestingTooDeep, span⟩, t) := bind_error hrun
  refine ⟨span, { ofSource source with state := t }, ?_, ?_⟩
  · rw [run, hwhole]
  · rw [errors, herrors]
    simp [ofSource, State.start, hlexes, SourceError.sorted]

/-- An operator tree is read if it nests at most 127 levels deep. -/
theorem expression_nesting {e : Expr} {source : String} (h : OperatorTree e)
    (htokens : tokensOf source = e.tokens) (hlexes : (tokenize source).errors = []) :
    (e.nesting ≤ 127 → Reads e (ofSource source).expression)
      ∧ (128 ≤ e.nesting → NestsTooDeep (ofSource source).expression) := by
  constructor
  · intro hn
    have hread := (h.readBack 127 (ofSource source).context hn).nested .nil
    rw [← htokens] at hread
    exact run_whole hlexes hread
  · intro hn
    refine nestsTooDeep_of_refuses hlexes htokens ?_
    have hrefuses := h.limited.nested (c := (ofSource source).context) [] (Nat.lt_succ_of_le hn)
    rwa [List.append_nil] at hrefuses

/-- A type tree is read if it nests at most 127 levels deep. -/
theorem typeName_nesting {t : TypeName} {source : String} (h : TypeTree t)
    (htokens : tokensOf source = t.tokens) (hlexes : (tokenize source).errors = []) :
    (t.nesting ≤ 127 → Reads t (ofSource source).typeName)
      ∧ (128 ≤ t.nesting → NestsTooDeep (ofSource source).typeName) := by
  constructor
  · intro hn
    have hread := Grows.readsBack (h.grows 127 (ofSource source).context hn) [] .nil (by simp)
    rw [← htokens] at hread
    exact run_whole hlexes hread
  · intro hn
    refine nestsTooDeep_of_refuses hlexes htokens ?_
    have hrefuses := h.limited.nested (ofSource source).context [] (Nat.lt_succ_of_le hn)
    rwa [List.append_nil] at hrefuses

/-- Towers of at most 127 levels are read and higher ones are refused, in each family of expressions
and for mappings, and chains of operators, members and brackets are read however long they are. -/
theorem nesting_limit {source : String} (hlexes : (tokenize source).errors = []) :
    (∀ f n e, Tower f n e → tokensOf source = e.tokens →
        (n ≤ 127 → Reads e (ofSource source).expression)
          ∧ (128 ≤ n → NestsTooDeep (ofSource source).expression))
      ∧ (∀ n t, MappingTower n t → tokensOf source = t.tokens →
        (n ≤ 127 → Reads t (ofSource source).typeName)
          ∧ (128 ≤ n → NestsTooDeep (ofSource source).typeName))
      ∧ (∀ n e, (∃ tier ≤ 10, OperatorChain tier n e) ∨ MemberChain n e → tokensOf source = e.tokens →
        Reads e (ofSource source).expression)
      ∧ ∀ base sizes, TypeTree base → base.nesting ≤ 127 →
        (∀ size ∈ sizes, (∀ e ∈ size, OperatorTree e) ∧ optionNesting size ≤ 127) →
        tokensOf source = (base.withBrackets sizes).tokens →
          Reads (base.withBrackets sizes) (ofSource source).typeName := by
  refine ⟨fun f n e h htokens => ?_, fun n t h htokens => ?_, fun n e h htokens => ?_,
    fun base sizes h hn hsizes htokens => ?_⟩
  · obtain ⟨htree, -, rfl⟩ := h.tree
    exact expression_nesting htree htokens hlexes
  · obtain ⟨htree, rfl⟩ := h.tree
    exact typeName_nesting htree htokens hlexes
  · obtain ⟨htree, hn⟩ : OperatorTree e ∧ e.nesting = 0 := by
      rcases h with ⟨tier, htier, h⟩ | h
      · exact ⟨(h.tree htier).1, (h.tree htier).2.2⟩
      · exact ⟨h.isFlat.tree, h.isFlat.nesting⟩
    exact (expression_nesting htree htokens hlexes).1 (hn ▸ Nat.zero_le _)
  · refine (typeName_nesting (h.withBrackets fun size hsize => (hsizes size hsize).1) htokens hlexes).1 ?_
    exact TypeName.nesting_withBrackets hn fun size hsize => (hsizes size hsize).2

/-- Around `1`, 127 parentheses are read and 128 are refused. -/
theorem nesting_limit_parentheses :
    let one : Expr := .literal (.number ⟨"1", .decimal, none, .origin⟩)
    let nested (n : Nat) : Expr := n.repeat (fun e => .parenthesized e .origin) one
    let source (n : Nat) : String := spaced (nested n).tokens
    (tokenize (source 127)).errors = [] ∧ (tokenize (source 128)).errors = []
      ∧ Tower .parentheses 127 (nested 127) ∧ Tower .parentheses 128 (nested 128)
      ∧ Reads (nested 127) (ofSource (source 127)).expression
      ∧ NestsTooDeep (ofSource (source 128)).expression := by
  intro one nested source
  have hone : one.IsFlat := by
    refine ⟨.number ?_, rfl, rfl⟩
    rw [Token.lexes_iff]
    decide
  have htower (n : Nat) : Tower .parentheses n (nested n) := by
    induction n with
    | zero => exact .flat hone
    | succ n ih => exact .parenthesized ih
  have hsource (n : Nat) := tokenize_spaced (htower n).tree.1.written
  have hlimit (n : Nat) := (nesting_limit (hsource n).2).1 _ _ _ (htower n) (hsource n).1
  exact ⟨(hsource 127).2, (hsource 128).2, htower 127, htower 128, (hlimit 127).1 le_rfl,
    (hlimit 128).2 le_rfl⟩

end Session

end SolidityFrontend
