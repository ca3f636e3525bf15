import SolidityFrontend.Proofs.Drawing
import SolidityFrontend.Proofs.Yielding

/-!
# How steep trees are

The limit on nesting counts the levels of the grammar. A loop of the grammar builds a tree as high as
its rounds are many without a deeper level: each round puts a node around what the rounds before it
have built. Apart from those steps every path from the root of a tree down is short
(`parse_steepness_le`), whatever the source is.
-/

namespace SolidityFrontend

open Node SolidityFrontend.Parser

namespace Node

/-! ### Steepness -/

/-- The kinds of nodes that loops of the grammar build, each with the field of what the rounds before
have built. -/
def loops : List (String × String) :=
  [("binary_expression", "left"), ("update_expression", "operand"), ("call_expression", "function"),
   ("member_expression", "object"), ("array_access", "base"), ("slice_access", "base"),
   ("struct_expression", "type"), ("array_type", "base")]

/-- The values of nodes of these kinds that no loop builds. -/
def loopless : List (Option String) := [some "**", some "prefix ++", some "prefix --"]

/-- What a step from a node to a child counts. -/
def step (kind : String) (value : Option String) (field : String) : Nat :=
  if loops.contains (kind, field) && !loopless.contains value then 0 else 1

mutual

/-- The most steps on a path from the root down that are no steps to what a loop has built. -/
def steepness : Node → Nat
  | ⟨kind, _, value, children⟩ => steepnessOver kind value children

def steepnessOver (kind : String) (value : Option String) : List (String × Node) → Nat
  | [] => 0
  | (field, n) :: rest =>
    max (n.steepness + step kind value field) (steepnessOver kind value rest)

end

variable {n : Node} {k : Nat} {kind field : String} {span : Span} {value : Option String}
  {children : List (String × Node)}

theorem steepness_le_iff : steepness ⟨kind, span, value, children⟩ ≤ k ↔
    Over (fun field n => n.steepness + step kind value field ≤ k) children := by
  rw [steepness]
  induction children with
  | nil => simp [steepnessOver]
  | cons c rest ih => rw [steepnessOver, max_le_iff, ih, over_cons]

theorem step_le_one : step kind value field ≤ 1 := by
  unfold step
  split <;> omega

/-- A node stands at most one step above its children. -/
theorem steepness_le_of_lt (h : Over (fun _ n => n.steepness < k) children) :
    steepness ⟨kind, span, value, children⟩ ≤ k :=
  steepness_le_iff.2 fun c hc => (Nat.add_le_add_left step_le_one _).trans (h c hc)

theorem step_of_mem (h : (kind, field) ∈ loops) (hvalue : value ∉ loopless) :
    step kind value field = 0 := by
  simp [step, h, hvalue]

@[simp] theorem steepness_leaf : (leaf kind span value).steepness = 0 := rfl

end Node

/-! ### Names, types and expressions -/

theorem Identifier.steepness_eq (i : Identifier) : i.toNode.steepness = 0 := rfl

theorem Path.steepness_le (p : Path) : p.toNode.steepness ≤ 1 := by
  refine steepness_le_of_lt ?_
  simp [Identifier.steepness_eq]

theorem ElementaryTypeName.steepness_eq (t : ElementaryTypeName) : t.toNode.steepness = 0 := rfl

theorem Literal.steepness_eq (l : Literal) : l.toNode.steepness = 0 := by
  cases l <;> rfl

theorem FunctionTypeAttribute.steepness_eq (a : FunctionTypeAttribute) :
    a.toNode.steepness = 0 := by
  cases a <;> rfl

theorem TypeName.isSimple.steepness_le {t : TypeName} (h : t.isSimple) :
    t.toNode.steepness ≤ 2 := by
  cases t with
  | elementary t => simp [TypeName.toNode, ElementaryTypeName.steepness_eq]
  | userDefined p =>
    rw [TypeName.toNode]
    refine steepness_le_of_lt ?_
    simpa using Nat.lt_succ_of_le p.steepness_le
  | _ => exact h.elim

theorem Parameter.steepness_le {p : Parameter} {k : Nat} (h : p.type.toNode.steepness ≤ k) :
    p.toNode.steepness ≤ k + 1 := by
  obtain ⟨type, location, name, span⟩ := p
  rw [Parameter.toNode]
  refine steepness_le_of_lt ?_
  simpa [Identifier.steepness_eq] using Nat.lt_succ_of_le h

theorem NamedArgument.steepness_le {a : NamedArgument} {k : Nat}
    (h : a.value.toNode.steepness ≤ k) : a.toNode.steepness ≤ k + 1 := by
  obtain ⟨name, value, span⟩ := a
  rw [NamedArgument.toNode]
  refine steepness_le_of_lt ?_
  simpa [Identifier.steepness_eq] using Nat.lt_succ_of_le h

theorem Arguments.All.steepness_le {a : Arguments} {k : Nat}
    (h : a.All fun e => e.toNode.steepness ≤ k) : a.toNode.steepness ≤ k + 2 := by
  cases a with
  | positional es span =>
    rw [Arguments.toNode, exprNodes_eq]
    refine steepness_le_of_lt ?_
    simp only [over_several, List.forall_mem_map]
    exact fun e he => Nat.lt_add_right 1 (Nat.lt_succ_of_le (h e he))
  | named as span =>
    rw [Arguments.toNode, namedNodes_eq]
    refine steepness_le_of_lt ?_
    simp only [over_several, List.forall_mem_map]
    exact fun a ha => Nat.lt_succ_of_le (NamedArgument.steepness_le (h a ha))

theorem optionNode_mem {o : Option Expr} {P : Node → Prop} :
    (∀ n ∈ optionNode o, P n) ↔ ∀ e ∈ o, P e.toNode := by
  cases o <;> simp [optionNode]

/-- How steep what the parsers of a level yield may be. -/
def steepnessTrait (n : Nat) : Trait where
  suffixed e := e.toNode.steepness ≤ 16 * n - 13
  operand e := e.toNode.steepness ≤ 16 * n - 13
  tier k e := e.toNode.steepness ≤ 16 * n - 12 + k
  conditional e := e.toNode.steepness ≤ 16 * n - 1
  expression e := e.toNode.steepness ≤ 16 * n
  typeName t := t.toNode.steepness ≤ 16 * n

theorem steepnessTrait_extends (n : Nat) : (steepnessTrait n).Extends (steepnessTrait (n + 1)) where
  literal {l} _ := by simp [steepnessTrait, Expr.toNode, l.steepness_eq]
  identifier i := by simp [steepnessTrait, Expr.toNode, i.steepness_eq]
  elementary t := by simp [steepnessTrait, Expr.toNode, t.steepness_eq]
  cast {e} t span he := by
    simp only [steepnessTrait, Expr.toNode] at he ⊢
    refine steepness_le_of_lt ?_
    simp [t.steepness_eq]
    omega
  payable span ha := by
    simp only [steepnessTrait, Expr.toNode] at ha ⊢
    have hle := ha.steepness_le
    refine steepness_le_of_lt ?_
    simp
    omega
  metaType span ht := by
    simp only [steepnessTrait, Expr.toNode] at ht ⊢
    refine steepness_le_of_lt ?_
    simp
    omega
  new span ht := by
    simp only [steepnessTrait, Expr.toNode] at ht ⊢
    refine steepness_le_of_lt ?_
    simp
    omega
  parenthesized span he := by
    simp only [steepnessTrait, Expr.toNode] at he ⊢
    refine steepness_le_of_lt ?_
    simp
    omega
  tuple {es} span hes := by
    simp only [steepnessTrait, Expr.toNode, placeNodes_eq] at hes ⊢
    refine steepness_le_of_lt ?_
    refine over_slots (fun _ => by rw [steepness_leaf]; omega) ?_
    simp only [List.forall_mem_map, Option.mem_def, Option.map_eq_some_iff]
    rintro o ho _ ⟨e, he, rfl⟩
    have := hes o ho e he
    omega
  inlineArray {es} span hes := by
    simp only [steepnessTrait, Expr.toNode, exprNodes_eq] at hes ⊢
    refine steepness_le_of_lt ?_
    simp only [over_several, List.forall_mem_map]
    intro e he
    have := hes e he
    omega
  index {b i} span hb hi := by
    simp only [steepnessTrait, Expr.toNode] at hb hi ⊢
    rw [steepness_le_iff, over_append, over_one, over_maybe, optionNode_mem]
    refine ⟨by rwa [step_of_mem (by decide) (by decide)], fun e he => ?_⟩
    have := hi e he
    have := @step_le_one "array_access" "index" none
    omega
  slice {b l u} span hb hl hu := by
    simp only [steepnessTrait, Expr.toNode] at hb hl hu ⊢
    rw [steepness_le_iff, over_append, over_append, over_one,
      over_maybe, over_maybe, optionNode_mem, optionNode_mem]
    refine ⟨⟨by rwa [step_of_mem (by decide) (by decide)], fun e he => ?_⟩, fun e he => ?_⟩
    · have := hl e he
      have := @step_le_one "slice_access" "from" none
      omega
    · have := hu e he
      have := @step_le_one "slice_access" "to" none
      omega
  member {e} i span he := by
    simp only [steepnessTrait, Expr.toNode] at he ⊢
    rw [steepness_le_iff, over_append, over_one, over_one, i.steepness_eq]
    refine ⟨by rwa [step_of_mem (by decide) (by decide)], ?_⟩
    have := @step_le_one "member_expression" "property" none
    omega
  call {e a} span he ha := by
    simp only [steepnessTrait, Expr.toNode] at he ha ⊢
    have hle := ha.steepness_le
    rw [steepness_le_iff, over_append, over_one, over_one]
    refine ⟨by rwa [step_of_mem (by decide) (by decide)], ?_⟩
    have := @step_le_one "call_expression" "arguments" none
    omega
  struct {e fields} span he hfields := by
    simp only [steepnessTrait, Expr.toNode, namedNodes_eq] at he hfields ⊢
    rw [steepness_le_iff, over_append, over_one, over_several,
      List.forall_mem_map]
    refine ⟨by rwa [step_of_mem (by decide) (by decide)], fun a ha => ?_⟩
    have := NamedArgument.steepness_le (hfields a ha)
    have := @step_le_one "struct_expression" "fields" none
    omega
  updateAfter {e} op span he := by
    simp only [steepnessTrait, Expr.toNode] at he ⊢
    rw [steepness_le_iff, over_one]
    rwa [step_of_mem (by decide) (by cases op <;> decide)]
  operand he := he
  unary {e} op span he := by
    simp only [steepnessTrait, Expr.toNode] at he ⊢
    refine steepness_le_of_lt ?_
    simp
    omega
  updateBefore {e} op span he := by
    simp only [steepnessTrait, Expr.toNode] at he ⊢
    refine steepness_le_of_lt ?_
    simp
    omega
  power {e} he := by
    simp only [steepnessTrait] at he ⊢
    omega
  powerOf {e e'} span he he' := by
    simp only [steepnessTrait, Expr.toNode] at he he' ⊢
    refine steepness_le_of_lt ?_
    simp
    omega
  tier {k e} he := by
    simp only [steepnessTrait] at he ⊢
    omega
  binary {k l r op} span hop hl hr := by
    simp only [steepnessTrait, Expr.toNode] at hl hr ⊢
    rw [steepness_le_iff, over_append, over_one, over_one]
    refine ⟨by rwa [step_of_mem (by decide) (by revert hop; cases op <;> decide)], ?_⟩
    have := @step_le_one "binary_expression" "right" (some op.text)
    omega
  conditional {e} he := by
    simp only [steepnessTrait, BinaryOp.tiers, List.length_cons, List.length_nil] at he ⊢
    omega
  ternary {c a b} span hc ha hb := by
    simp only [steepnessTrait, BinaryOp.tiers, List.length_cons, List.length_nil,
      Expr.toNode] at hc ha hb ⊢
    refine steepness_le_of_lt ?_
    simp
    omega
  expression {e} he := by
    simp only [steepnessTrait] at he ⊢
    omega
  assignment {e e'} op span he he' := by
    simp only [steepnessTrait, Expr.toNode] at he he' ⊢
    refine steepness_le_of_lt ?_
    simp
    omega
  elementaryType t := by simp [steepnessTrait, TypeName.toNode, t.steepness_eq]
  userDefined p := by
    have := TypeName.isSimple.steepness_le (t := .userDefined p) trivial
    simp only [steepnessTrait]
    omega
  mapping {key v} span hkey hv := by
    have := hkey.steepness_le
    simp only [steepnessTrait, TypeName.toNode] at hv ⊢
    refine steepness_le_of_lt ?_
    simp
    omega
  array {t size} span ht hsize := by
    simp only [steepnessTrait, TypeName.toNode] at ht hsize ⊢
    rw [steepness_le_iff, over_append, over_one, over_maybe, optionNode_mem]
    refine ⟨by rwa [step_of_mem (by decide) (by decide)], fun e he => ?_⟩
    have := hsize e he
    have := @step_le_one "array_type" "size" none
    omega
  function {ps rs} as span hps hrs := by
    simp only [steepnessTrait, TypeName.toNode, parameterNodes_eq] at hps hrs ⊢
    refine steepness_le_of_lt ?_
    simp only [over_append, over_several, List.forall_mem_map,
      FunctionTypeAttribute.steepness_eq]
    refine ⟨⟨fun p hp => ?_, fun a _ => by omega⟩, fun p hp => ?_⟩
    · have := Parameter.steepness_le (hps p hp)
      omega
    · have := Parameter.steepness_le (hrs p hp)
      omega

theorem Nested.yields_steepness (n : Nat) : (ofDepth n).Yields (steepnessTrait n) :=
  yields_ofDepth steepnessTrait_extends n

/-! ### Statements -/

theorem Nested.onward_statement (n : Nat) : Onward (ofDepth n).statement :=
  ((agreed_ofDepth n).statement_agreed (.whole (.upTo 0) []) 0).onward

namespace Grammar

variable {d : Nested} {n : Nat} (hd : d.Yields (steepnessTrait n))
include hd

theorem yields_variableDeclaration :
    Yields (variableDeclaration d) fun x => x.toNode.steepness ≤ 16 * n + 1 := by
  refine yields_here fun _ => hd.typeName.bind fun type htype => ?_
  refine onward_storageLocation?.bind_yields fun _ => onward_identifier.bind_yields fun name => ?_
  refine yields_spanFrom fun _ => yields_pure (steepness_le_of_lt ?_)
  simpa [name.steepness_eq] using Nat.lt_succ_of_le htype

theorem yields_declarator : Yields (declarator d) fun x => x.toNode.steepness ≤ 16 * n + 2 := by
  have hvariable := yields_variableDeclaration hd
  have hplace : Yields (tuplePlace (variableDeclaration d))
      fun o => ∀ x ∈ o, x.toNode.steepness ≤ 16 * n + 1 :=
    yields_if_nextIs yields_none (yields_if_nextIs yields_none hvariable.some)
  refine yields_if_nextIs ?_ (hvariable.bind fun x hx => yields_pure (Nat.le_succ_of_le hx))
  refine (onward_symbol _).bind_yields fun _ => (yields_separated hplace).bind fun os hos =>
    (onward_symbol _).bind_yields fun _ => yields_spanFrom fun _ => ?_
  refine (yields_violation _ _).ite (yields_pure (steepness_le_of_lt ?_))
  refine over_slots (by simp) ?_
  simp only [List.forall_mem_map, Option.mem_def, Option.map_eq_some_iff]
  rintro o ho _ ⟨x, hx, rfl⟩
  exact Nat.lt_succ_of_le (hos o ho x hx)

theorem yields_declarationEnd {v : Declarator} (hv : v.toNode.steepness ≤ 16 * n + 2)
    (start : Span) :
    Yields (declarationEnd d v start) fun s => s.toNode.steepness ≤ 16 * n + 3 := by
  have hend (value : Option Expr) (hvalue : ∀ e ∈ value, e.toNode.steepness ≤ 16 * n) :
      Yields (if value.isNone && !needsNoValue v then
          spanFrom start >>= fun span => violation .tupleWithoutValue span
        else symbol .semicolon >>= fun _ => spanFrom start >>= fun span =>
          pure (Stmt.variables v value span)) fun s => s.toNode.steepness ≤ 16 * n + 3 := by
    refine (yields_spanFrom fun _ => yields_violation _ _).ite ((onward_symbol _).bind_yields
      fun _ => yields_spanFrom fun _ => yields_pure ?_)
    rw [Stmt.toNode]
    refine steepness_le_of_lt ?_
    simp only [over_append, over_one, over_maybe, Option.mem_def, Option.map_eq_some_iff]
    refine ⟨Nat.lt_succ_of_le hv, ?_⟩
    rintro _ ⟨e, he, rfl⟩
    have := hvalue e he
    omega
  exact yields_if_accept ((hd.expression.map fun e he x hx => Option.some.inj hx ▸ he).bind hend)
    (yields_none.bind hend)

theorem yields_expressionStatement :
    Yields (expressionStatement d) fun s => s.toNode.steepness ≤ 16 * n + 3 := by
  refine hd.expression.bind fun e he => (onward_symbol _).bind_yields fun _ =>
    yields_spanFrom fun _ => yields_pure ?_
  rw [Stmt.toNode]
  refine steepness_le_of_lt ?_
  rw [over_one]
  change e.toNode.steepness ≤ 16 * n at he
  omega

theorem yields_simpleStatement :
    Yields (simpleStatement d) fun s => s.toNode.steepness ≤ 16 * n + 3 := by
  have hname : Yields varPlace fun _ => True := by
    refine yields_next fun o _ => ?_
    split
    · exact yields_pure trivial
    · exact yields_pure trivial
    · exact onward_identifier.bind_yields fun _ => yields_pure trivial
  have hvar : Yields (varTupleDeclaration d) fun s => s.toNode.steepness ≤ 16 * n + 3 := by
    refine yields_here fun _ => onward_advance.bind_yields fun _ =>
      (onward_symbol _).bind_yields fun _ => (yields_separated hname).bind fun names _ =>
        (onward_symbol _).bind_yields fun _ => yields_spanFrom fun _ =>
          yields_declarationEnd hd (steepness_le_of_lt (over_slots (by simp) ?_)) _
    simp only [List.forall_mem_map, Option.mem_def, Option.map_eq_some_iff]
    rintro o - _ ⟨i, -, rfl⟩
    rw [i.steepness_eq]
    omega
  have hchoice : Yields (declarationOrExpression d) fun s => s.toNode.steepness ≤ 16 * n + 3 := by
    refine yields_here fun start => Yields.bind (P := Sum.elim
      (fun v => v.toNode.steepness ≤ 16 * n + 2) fun s => s.toNode.steepness ≤ 16 * n + 3) ?_ ?_
    · exact yields_either ((yields_declarator hd).map fun _ hv => hv)
        ((yields_expressionStatement hd).map fun _ hs => hs)
    · rintro (v | s) h
      · exact yields_declarationEnd hd h start
      · exact yields_pure h
  exact peeks_varTupleBegins.looks.onward.bind_yields fun _ => hvar.ite (yields_next fun _ _ =>
    hchoice.ite (yields_expressionStatement hd))

theorem yields_condition : Yields (condition d) fun e => e.toNode.steepness ≤ 16 * n :=
  (onward_symbol _).bind_yields fun _ => hd.expression.bind fun _ he =>
    (onward_symbol _).bind_yields fun _ => yields_pure he

theorem yields_optional (stop : Symbol) :
    Yields (optional d stop) fun o => ∀ e ∈ o, e.toNode.steepness ≤ 16 * n :=
  yields_if_nextIs yields_none hd.expression.some

omit hd in
theorem yields_keywordStatement (k : Keyword) {make : Span → Stmt}
    (h : ∀ span, (make span).toNode.steepness = 0) :
    Yields (keywordStatement k make) fun s => s.toNode.steepness ≤ 16 * n + 4 :=
  (onward_take _ _).bind_yields fun _ => (onward_symbol _).bind_yields fun _ =>
    yields_spanFrom fun span => yields_pure (by rw [h span]; omega)

theorem yields_returnStatement :
    Yields (returnStatement d) fun s => s.toNode.steepness ≤ 16 * n + 4 := by
  refine (onward_take _ _).bind_yields fun _ => (yields_optional hd _).bind fun value hvalue =>
    (onward_symbol _).bind_yields fun _ => yields_spanFrom fun _ => yields_pure ?_
  rw [Stmt.toNode]
  refine steepness_le_of_lt ?_
  simp only [over_maybe, Option.mem_def, Option.map_eq_some_iff]
  rintro _ ⟨e, he, rfl⟩
  have := hvalue e he
  omega

theorem yields_emitStatement : Yields (emitStatement d) fun s => s.toNode.steepness ≤ 16 * n + 4 := by
  refine (onward_take _ _).bind_yields fun _ => onward_path.bind_yields fun event =>
    (yields_callArguments hd).bind fun a ha => (onward_symbol _).bind_yields fun _ =>
      yields_spanFrom fun _ => yields_pure ?_
  have hevent := event.steepness_le
  have harguments := Arguments.All.steepness_le ha
  rw [Stmt.toNode]
  refine steepness_le_of_lt ?_
  rw [over_append, over_one, over_one]
  omega

omit hd in
theorem yields_assemblyStatement :
    Yields assemblyStatement fun s => s.toNode.steepness ≤ 16 * n + 4 := by
  have hend (start opening : Span) (dialect : Option String) :
      Yields (spanFrom opening >>= fun body => spanFrom start >>= fun span =>
        pure (Stmt.assembly dialect body span)) fun s => s.toNode.steepness ≤ 16 * n + 4 := by
    refine yields_spanFrom fun _ => yields_spanFrom fun _ => yields_pure ?_
    rw [Stmt.toNode]
    refine steepness_le_of_lt ?_
    simp
  have hopen (start : Span) (dialect : Option String) :
      Yields (symbol .leftBrace >>= fun opening => closeBrace >>= fun _ =>
        spanFrom opening >>= fun body => spanFrom start >>= fun span =>
          pure (Stmt.assembly dialect body span)) fun s => s.toNode.steepness ≤ 16 * n + 4 :=
    (onward_symbol _).bind_yields fun opening => onward_closeBrace.bind_yields fun _ =>
      hend start opening dialect
  have htext : Onward stringText := by
    refine looks_here.onward.bind fun _ => onward_next fun o => ?_
    split
    · exact onward_advance.bind fun _ => onward_pure _
    · exact onward_unexpected _
  refine (onward_take _ _).bind_yields fun start => yields_next fun o _ => ?_
  split
  · exact ((htext.bind fun _ => onward_pure _).bind fun _ => onward_pure _).bind_yields fun _ =>
      hopen start _
  · exact (onward_pure _).bind_yields fun _ => hopen start _

variable (hs : d.statement.Yields fun s => s.toNode.steepness ≤ 16 * n)
include hs

theorem yields_ifStatement : Yields (ifStatement d) fun s => s.toNode.steepness ≤ 16 * n + 4 := by
  refine (onward_take _ _).bind_yields fun start => (yields_condition hd).bind fun test htest =>
    hs.bind fun a ha => ?_
  have hend (b : Option Stmt) (hb : ∀ s ∈ b, s.toNode.steepness ≤ 16 * n) :
      Yields (spanFrom start >>= fun span => pure (Stmt.ifElse test a b span))
        fun s => s.toNode.steepness ≤ 16 * n + 4 := by
    refine yields_spanFrom fun _ => yields_pure ?_
    rw [Stmt.toNode]
    refine steepness_le_of_lt ?_
    cases b with
    | none =>
      simp [optionStmtNode]
      omega
    | some b =>
      have := hb b rfl
      simp [optionStmtNode]
      omega
  exact yields_if_accept ((hs.map fun s hs x hx => Option.some.inj hx ▸ hs).bind hend)
    (yields_none.bind hend)

theorem yields_forStatement : Yields (forStatement d) fun s => s.toNode.steepness ≤ 16 * n + 4 := by
  refine (onward_take _ _).bind_yields fun start => (onward_symbol _).bind_yields fun _ => ?_
  have hend (init : Option Stmt) (hinit : ∀ s ∈ init, s.toNode.steepness ≤ 16 * n + 3) :
      Yields (optional d .semicolon >>= fun test => symbol .semicolon >>= fun _ =>
        optional d .rightParen >>= fun update => symbol .rightParen >>= fun _ =>
          d.statement >>= fun inner => spanFrom start >>= fun span =>
            pure (Stmt.forLoop init test update inner span))
        fun s => s.toNode.steepness ≤ 16 * n + 4 := by
    refine (yields_optional hd _).bind fun test htest => (onward_symbol _).bind_yields fun _ =>
      (yields_optional hd _).bind fun update hupdate => (onward_symbol _).bind_yields fun _ =>
        hs.bind fun inner hinner => yields_spanFrom fun _ => yields_pure ?_
    rw [Stmt.toNode]
    refine steepness_le_of_lt ?_
    simp only [over_append, over_one, over_maybe, Option.mem_def, Option.map_eq_some_iff]
    refine ⟨⟨⟨?_, ?_⟩, ?_⟩, by omega⟩
    · cases init with
      | none => simp [optionStmtNode]
      | some s =>
        rintro _ ⟨⟩
        have := hinit s rfl
        omega
    · rintro _ ⟨e, he, rfl⟩
      have := htest e he
      omega
    · rintro _ ⟨e, he, rfl⟩
      have := hupdate e he
      omega
  exact yields_if_accept (yields_none.bind hend)
    (((yields_simpleStatement hd).map fun s hs x hx => Option.some.inj hx ▸ hs).bind hend)

theorem yields_whileStatement :
    Yields (whileStatement d) fun s => s.toNode.steepness ≤ 16 * n + 4 := by
  refine (onward_take _ _).bind_yields fun _ => (yields_condition hd).bind fun test htest =>
    hs.bind fun inner hinner => yields_spanFrom fun _ => yields_pure ?_
  rw [Stmt.toNode]
  refine steepness_le_of_lt ?_
  rw [over_append, over_one, over_one]
  omega

theorem yields_doWhileStatement :
    Yields (doWhileStatement d) fun s => s.toNode.steepness ≤ 16 * n + 4 := by
  refine (onward_take _ _).bind_yields fun _ => hs.bind fun inner hinner =>
    (onward_take _ _).bind_yields fun _ => (yields_condition hd).bind fun test htest =>
      (onward_symbol _).bind_yields fun _ => yields_spanFrom fun _ => yields_pure ?_
  rw [Stmt.toNode]
  refine steepness_le_of_lt ?_
  rw [over_append, over_one, over_one]
  omega

variable (ho : Onward d.statement)
include ho

omit hd in
theorem yields_block : Yields (block d) fun b => b.toNode.steepness ≤ 16 * n + 1 := by
  refine (onward_symbol _).bind_yields fun _ => (yields_body ho hs fun m => ?_).bind
    fun statements hstatements => yields_spanFrom fun _ => yields_pure ?_
  · exact Nat.zero_le _
  · rw [Block.toNode, stmtNodes_eq]
    refine steepness_le_of_lt ?_
    simpa using fun s h => Nat.lt_succ_of_le (hstatements s h)

theorem yields_tryStatement : Yields (tryStatement d) fun s => s.toNode.steepness ≤ 16 * n + 4 := by
  have hblock := yields_block hs ho
  have hparameters := yields_parameters hd
  have hclause : Yields (catchClause d) fun x => x.toNode.steepness ≤ 16 * n + 2 := by
    refine (onward_take _ _).bind_yields fun start => onward_identifier?.bind_yields fun name => ?_
    have hend (ps : Option (List Parameter))
        (hps : ∀ x ∈ ps, ∀ p ∈ x, p.type.toNode.steepness ≤ 16 * n) :
        Yields (block d >>= fun inner => spanFrom start >>= fun span =>
          pure (CatchClause.mk name ps inner span)) fun x => x.toNode.steepness ≤ 16 * n + 2 := by
      refine hblock.bind fun inner hinner => yields_spanFrom fun _ => yields_pure ?_
      rw [CatchClause.toNode]
      refine steepness_le_of_lt ?_
      simp only [over_append, over_one, over_maybe, over_several, List.forall_mem_map,
        Option.mem_def, Option.map_eq_some_iff]
      refine ⟨⟨?_, fun p hp => ?_⟩, by omega⟩
      · rintro _ ⟨i, -, rfl⟩
        rw [i.steepness_eq]
        omega
      · cases ps with
        | none => simp at hp
        | some ps =>
          have := Parameter.steepness_le (hps ps rfl p hp)
          omega
    exact yields_if_nextIs ((hparameters.map fun ps hps x hx => Option.some.inj hx ▸ hps).bind hend)
      (yields_none.bind hend)
  refine (onward_take _ _).bind_yields fun _ => hd.expression.structLiterals.bind fun call hcall =>
    (yields_returnParameters hd).bind fun returns hreturns => hblock.bind fun inner hinner =>
      (yields_many (yields_if_nextIs hclause.some yields_none)).bind fun clauses hclauses => ?_
  refine (yields_spanFrom fun _ => yields_violation _ _).ite (yields_spanFrom fun _ =>
    yields_pure ?_)
  rw [Stmt.toNode, clauseNodes_eq]
  refine steepness_le_of_lt ?_
  simp only [over_append, over_one, over_several, List.forall_mem_map]
  refine ⟨⟨⟨Nat.lt_add_right 3 (Nat.lt_succ_of_le hcall), fun p hp => ?_⟩, by omega⟩, fun x hx => ?_⟩
  · have := Parameter.steepness_le (hreturns p hp)
    omega
  · have := hclauses x hx
    omega

theorem yields_statement : Yields (statement d) fun s => s.toNode.steepness ≤ 16 * (n + 1) := by
  have hle (s : Stmt) (h : s.toNode.steepness ≤ 16 * n + 4) :
      s.toNode.steepness ≤ 16 * (n + 1) := by omega
  refine yields_next fun o _ => ?_
  split
  · exact (yields_block hs ho).bind fun b hb => yields_pure (by rw [Stmt.toNode]; omega)
  · exact (yields_ifStatement hd hs).mono hle
  · exact (yields_forStatement hd hs).mono hle
  · exact (yields_whileStatement hd hs).mono hle
  · exact (yields_doWhileStatement hd hs).mono hle
  · exact (yields_keywordStatement _ fun _ => rfl).mono hle
  · exact (yields_keywordStatement _ fun _ => rfl).mono hle
  · exact (yields_keywordStatement _ fun _ => rfl).mono hle
  · exact (yields_returnStatement hd).mono hle
  · exact (yields_emitStatement hd).mono hle
  · exact (yields_tryStatement hd hs ho).mono hle
  · exact yields_assemblyStatement.mono hle
  · exact (yields_simpleStatement hd).mono fun s h => by omega

end Grammar

theorem Nested.yields_statement : ∀ n, (ofDepth n).statement.Yields
    fun s => s.toNode.steepness ≤ 16 * n
  | 0 => yields_tooDeep
  | n + 1 => Grammar.yields_statement (yields_steepness n) (yields_statement n) (onward_statement n)

/-! ### Declarations -/

theorem OverrideSpecifier.steepness_le (o : OverrideSpecifier) : o.toNode.steepness ≤ 2 := by
  refine steepness_le_of_lt ?_
  simpa using fun p _ => Nat.lt_succ_of_le p.steepness_le

theorem VariableAttribute.steepness_le (a : VariableAttribute) : a.toNode.steepness ≤ 2 := by
  cases a with
  | override o => exact o.steepness_le
  | _ => exact Nat.zero_le _

theorem ImportClause.steepness_le (x : ImportClause) : x.toNode.steepness ≤ 2 := by
  cases x with
  | single symbol renamed span =>
    refine steepness_le_of_lt ?_
    cases symbol <;> simp [ImportSymbol.toNode, wildcardNode, Identifier.steepness_eq]
  | multiple symbols span =>
    refine steepness_le_of_lt ?_
    simp only [over_several, List.forall_mem_map]
    intro a _
    have hle : a.toNode.steepness ≤ 1 := steepness_le_of_lt (by simp [Identifier.steepness_eq])
    omega

theorem ImportDirective.steepness_le (x : ImportDirective) : x.toNode.steepness ≤ 3 := by
  refine steepness_le_of_lt ?_
  simp only [over_append, over_one, over_maybe, Option.mem_def, Option.map_eq_some_iff,
    steepness_leaf]
  refine ⟨⟨?_, by omega⟩, ?_⟩
  · rintro _ ⟨a, -, rfl⟩
    exact Nat.lt_succ_of_le a.steepness_le
  · rintro _ ⟨i, -, rfl⟩
    rw [i.steepness_eq]
    omega

theorem PragmaDirective.steepness_le (x : PragmaDirective) : x.toNode.steepness ≤ 3 := by
  have hvalue (v : PragmaValue) : v.toNode.steepness ≤ 2 := by
    cases v with
    | raw text span => exact Nat.zero_le _
    | version requirement =>
      refine steepness_le_of_lt ?_
      simp only [over_several, List.mem_filterMap]
      rintro n ⟨ks, -, hn⟩
      unfold alternativeNode? at hn
      split at hn
      · obtain rfl := Option.some.inj hn
        refine Nat.lt_succ_of_le (steepness_le_of_lt ?_)
        simp [VersionConstraint.toNode]
      · simp at hn
  refine steepness_le_of_lt ?_
  simpa [x.name.steepness_eq] using Nat.lt_succ_of_le (hvalue x.value)

namespace Grammar

variable {d : Nested} {n : Nat} (hd : d.Yields (steepnessTrait n))

/-- A passage over a whole text, for rules that hold of every passage. -/
abbrev anyPassage : Passage := .whole (.upTo 0) []

theorem onward_overrideSpecifier : Onward overrideSpecifier :=
  (agrees_overrideSpecifier (H := anyPassage) (n := 0)).onward

theorem onward_variableAttributes : Onward variableAttributes :=
  (agrees_variableAttributes (H := anyPassage) (n := 0)).onward

theorem onward_importDirective : Onward importDirective :=
  (follows_importDirective (H := anyPassage) (n := 0)).onward

theorem onward_enumDeclaration : Onward enumDeclaration :=
  (follows_enumDeclaration (H := anyPassage) (n := 0)).onward

theorem onward_member (n : Nat) : Onward (member (.ofDepth n)) :=
  (follows_member (Nested.agreed_ofDepth n) (H := anyPassage) (n := 0)).onward

theorem onward_sourceUnit : Onward (sourceUnit .full) :=
  (follows_otherUnit (H := anyPassage)).onward

theorem yields_variableAttributes :
    Yields variableAttributes fun as => ∀ a ∈ as, a.toNode.steepness ≤ 2 :=
  onward_variableAttributes.yields.mono fun _ _ a _ => a.steepness_le

include hd

theorem yields_callArguments? :
    Yields (callArguments? d) fun o => ∀ a ∈ o, a.toNode.steepness ≤ 16 * n + 2 :=
  yields_if_nextIs ((yields_callArguments hd).mono fun _ => Arguments.All.steepness_le).some
    yields_none

theorem yields_modifierInvocation :
    Yields (modifierInvocation d) fun x => x.toNode.steepness ≤ 16 * n + 3 := by
  refine onward_path.bind_yields fun p => (yields_callArguments? hd).bind fun a ha =>
    yields_spanFrom fun span => yields_pure (steepness_le_of_lt ?_)
  have := p.steepness_le
  simp only [over_append, over_one, over_maybe, Option.mem_def, Option.map_eq_some_iff]
  refine ⟨by omega, ?_⟩
  rintro _ ⟨x, hx, rfl⟩
  exact Nat.lt_succ_of_le (ha x hx)

theorem yields_functionAttributes :
    Yields (functionAttributes d) fun as => ∀ a ∈ as, a.toNode.steepness ≤ 16 * n + 3 := by
  refine yields_many (yields_here fun span => peeks_nextWord.looks.onward.bind_yields fun o => ?_)
  split
  · exact yields_none
  · split
    · rename_i a ha
      refine onward_advance.bind_yields fun _ => yields_pure fun x hx => ?_
      obtain rfl := Option.some.inj hx
      unfold functionAttribute? at ha
      split at ha
      · exact Option.some.inj ha ▸ Nat.zero_le _
      · exact Option.some.inj ha ▸ Nat.zero_le _
      · split at ha
        · exact Option.some.inj ha ▸ Nat.zero_le _
        · simp at ha
    · refine Yields.ite (onward_overrideSpecifier.bind_yields fun o => yields_pure fun x hx => ?_)
        ((yields_modifierInvocation hd).bind fun m hm => yields_pure fun x hx => ?_)
      · exact Option.some.inj hx ▸ o.steepness_le.trans (by omega)
      · exact Option.some.inj hx ▸ hm

omit hd in
theorem yields_functionBody (hs : d.statement.Yields fun s => s.toNode.steepness ≤ 16 * n)
    (ho : Onward d.statement) :
    Yields (functionBody d) fun o => ∀ b ∈ o, b.toNode.steepness ≤ 16 * n + 1 :=
  yields_if_accept yields_none (yields_block hs ho).some

omit hd in
/-- The children that functions of all kinds share. -/
theorem over_signature {ps : List Parameter} {as : List FunctionAttribute} {body : Option Block}
    (hps : ∀ p ∈ ps, p.type.toNode.steepness ≤ 16 * n)
    (has : ∀ a ∈ as, a.toNode.steepness ≤ 16 * n + 3)
    (hbody : ∀ b ∈ body, b.toNode.steepness ≤ 16 * n + 1) :
    Over (fun _ m => m.steepness < 16 * n + 4) (signatureNodes ps as)
      ∧ Over (fun _ m => m.steepness < 16 * n + 4) (maybe "body" (body.map Block.toNode)) := by
  simp only [signatureNodes, over_append, over_several, over_maybe, List.forall_mem_map,
    Option.mem_def, Option.map_eq_some_iff]
  refine ⟨⟨fun p hp => ?_, fun a ha => Nat.lt_succ_of_le (has a ha)⟩, ?_⟩
  · have := Parameter.steepness_le (hps p hp)
    omega
  · rintro _ ⟨b, hb, rfl⟩
    have := hbody b hb
    omega

section

variable (hs : d.statement.Yields fun s => s.toNode.steepness ≤ 16 * n) (ho : Onward d.statement)
include hs ho

theorem yields_functionDefinition :
    Yields (functionDefinition d) fun x => x.toNode.steepness ≤ 16 * n + 4 := by
  refine (onward_take _ _).bind_yields fun _ => onward_identifier.bind_yields fun name =>
    (yields_parameters hd).bind fun ps hps => (yields_functionAttributes hd).bind fun as has =>
      (yields_returnParameters hd).bind fun rs hrs => (yields_functionBody hs ho).bind
        fun inner hinner => yields_spanFrom fun span => yields_pure (steepness_le_of_lt ?_)
  obtain ⟨hsignature, hbody⟩ := over_signature hps has hinner
  simp only [over_append, over_one, over_several, List.forall_mem_map, name.steepness_eq]
  refine ⟨⟨⟨by omega, hsignature⟩, fun p hp => ?_⟩, hbody⟩
  have := Parameter.steepness_le (hrs p hp)
  omega

theorem yields_modifierDefinition :
    Yields (modifierDefinition d) fun x => x.toNode.steepness ≤ 16 * n + 4 := by
  refine (onward_take _ _).bind_yields fun start => onward_identifier.bind_yields fun name => ?_
  have hend (ps : List Parameter) (hps : ∀ p ∈ ps, p.type.toNode.steepness ≤ 16 * n) :
      Yields (functionAttributes d >>= fun as => functionBody d >>= fun inner =>
        spanFrom start >>= fun span => pure (ModifierDefinition.mk name ps as inner span))
        fun x => x.toNode.steepness ≤ 16 * n + 4 := by
    refine (yields_functionAttributes hd).bind fun as has => (yields_functionBody hs ho).bind
      fun inner hinner => yields_spanFrom fun span => yields_pure (steepness_le_of_lt ?_)
    obtain ⟨hsignature, hbody⟩ := over_signature hps has hinner
    simp only [over_append, over_one, name.steepness_eq]
    exact ⟨⟨by omega, hsignature⟩, hbody⟩
  exact yields_if_nextIs ((yields_parameters hd).bind hend)
    ((yields_pure (P := fun ps => ∀ p ∈ ps, _) (by simp)).bind hend)

theorem yields_constructorDefinition :
    Yields (constructorDefinition d) fun x => x.toNode.steepness ≤ 16 * n + 4 := by
  refine (onward_take _ _).bind_yields fun _ => (yields_parameters hd).bind fun ps hps =>
    (yields_functionAttributes hd).bind fun as has => (yields_functionBody hs ho).bind
      fun inner hinner => yields_spanFrom fun span => yields_pure (steepness_le_of_lt ?_)
  exact over_append.2 (over_signature hps has hinner)

theorem yields_fallbackRest (kind : FallbackKind) (start : Span) :
    Yields (fallbackRest d kind start) fun x => x.toNode.steepness ≤ 16 * n + 4 := by
  refine (yields_parameters hd).bind fun ps hps => (yields_functionAttributes hd).bind
    fun as has => (yields_functionBody hs ho).bind fun inner hinner => yields_spanFrom fun span =>
      yields_pure (steepness_le_of_lt ?_)
  exact over_append.2 (over_signature hps has hinner)

end

theorem yields_stateVariable :
    Yields (stateVariable d) fun x => x.toNode.steepness ≤ 16 * n + 4 := by
  refine yields_here fun start => hd.typeName.bind fun type htype =>
    yields_variableAttributes.bind fun as has => onward_identifier.bind_yields fun name => ?_
  have hend (value : Option Expr) (hvalue : ∀ e ∈ value, e.toNode.steepness ≤ 16 * n) :
      Yields (symbol .semicolon >>= fun _ => spanFrom start >>= fun span =>
        pure (StateVariable.mk type as name value span))
        fun x => x.toNode.steepness ≤ 16 * n + 4 := by
    refine (onward_symbol _).bind_yields fun _ => yields_spanFrom fun span =>
      yields_pure (steepness_le_of_lt ?_)
    change type.toNode.steepness ≤ 16 * n at htype
    simp only [over_append, over_one, over_several, over_maybe, List.forall_mem_map,
      Option.mem_def, Option.map_eq_some_iff, name.steepness_eq]
    refine ⟨⟨⟨by omega, fun a ha => ?_⟩, by omega⟩, ?_⟩
    · have := has a ha
      omega
    · rintro _ ⟨e, he, rfl⟩
      have := hvalue e he
      omega
  exact yields_if_accept ((hd.expression.map fun e he x hx => Option.some.inj hx ▸ he).bind hend)
    (yields_none.bind hend)

theorem yields_constantDeclaration :
    Yields (constantDeclaration d) fun x => x.toNode.steepness ≤ 16 * n + 4 := by
  refine yields_here fun start => hd.typeName.bind fun type htype =>
    (onward_take _ _).bind_yields fun _ => onward_identifier.bind_yields fun name =>
      (onward_symbol _).bind_yields fun _ => hd.expression.bind fun value hvalue =>
        (onward_symbol _).bind_yields fun _ => yields_spanFrom fun span =>
          yields_pure (steepness_le_of_lt ?_)
  change type.toNode.steepness ≤ 16 * n at htype
  change value.toNode.steepness ≤ 16 * n at hvalue
  simp only [over_append, over_one, name.steepness_eq]
  omega

theorem yields_structDeclaration :
    Yields (structDeclaration d) fun x => x.toNode.steepness ≤ 16 * n + 4 := by
  have hmember : Yields (structMember d) fun x => x.toNode.steepness ≤ 16 * n + 1 := by
    refine yields_here fun start => hd.typeName.bind fun type htype =>
      onward_identifier.bind_yields fun name => (onward_symbol _).bind_yields fun _ =>
        yields_spanFrom fun span => yields_pure (steepness_le_of_lt ?_)
    change type.toNode.steepness ≤ 16 * n at htype
    simp only [over_append, over_one, name.steepness_eq]
    omega
  refine (onward_take _ _).bind_yields fun start => onward_identifier.bind_yields fun name =>
    (onward_symbol _).bind_yields fun _ => (yields_itemsUntil hmember (onward_pure true)).bind
      fun members hmembers => (onward_symbol _).bind_yields fun _ => yields_spanFrom fun span => ?_
  have hend : Yields (pure (StructDeclaration.mk name members span))
      fun x => x.toNode.steepness ≤ 16 * n + 4 := by
    refine yields_pure (steepness_le_of_lt ?_)
    simp only [over_append, over_one, over_several, List.forall_mem_map, name.steepness_eq]
    refine ⟨by omega, fun m hm => ?_⟩
    have := hmembers m hm
    omega
  exact ((onward_record _).bind_yields fun _ => hend).ite hend

omit hd in
theorem yields_enumDeclaration : Yields enumDeclaration fun x => x.toNode.steepness ≤ 1 := by
  refine onward_enumDeclaration.yields.mono fun x _ => steepness_le_of_lt ?_
  simp [Identifier.steepness_eq]

theorem yields_eventDefinition :
    Yields (eventDefinition d) fun x => x.toNode.steepness ≤ 16 * n + 4 := by
  have hparameter : Yields (eventParameter d) fun x => x.toNode.steepness ≤ 16 * n + 1 := by
    refine yields_here fun start => hd.typeName.bind fun type htype =>
      (onward_accept _).bind_yields fun _ => onward_identifier?.bind_yields fun name =>
        yields_spanFrom fun span => yields_pure (steepness_le_of_lt ?_)
    change type.toNode.steepness ≤ 16 * n at htype
    simp [Identifier.steepness_eq]
    omega
  refine (onward_take _ _).bind_yields fun start => onward_identifier.bind_yields fun name =>
    (onward_symbol _).bind_yields fun _ => ?_
  have hend (ps : List EventParameter) (hps : ∀ p ∈ ps, p.toNode.steepness ≤ 16 * n + 1) :
      Yields (symbol .rightParen >>= fun _ => acceptWord "anonymous" >>= fun isAnonymous =>
        symbol .semicolon >>= fun _ => spanFrom start >>= fun span =>
          pure (EventDefinition.mk name ps isAnonymous span))
        fun x => x.toNode.steepness ≤ 16 * n + 4 := by
    refine (onward_symbol _).bind_yields fun _ => (onward_accept _).bind_yields fun _ =>
      (onward_symbol _).bind_yields fun _ => yields_spanFrom fun span =>
        yields_pure (steepness_le_of_lt ?_)
    simp only [over_append, over_one, over_several, List.forall_mem_map, name.steepness_eq]
    refine ⟨by omega, fun p hp => ?_⟩
    have := hps p hp
    omega
  exact yields_if_nextIs ((yields_pure (P := fun ps => ∀ p ∈ ps, _) (by simp)).bind hend)
    ((yields_separated hparameter).bind hend)

theorem yields_usingDirective :
    Yields (usingDirective d) fun x => x.toNode.steepness ≤ 16 * n + 4 := by
  have htarget : Yields (usingTarget d) fun x => x.toNode.steepness ≤ 16 * n :=
    yields_here fun span => yields_if_accept (yields_pure (Nat.zero_le _))
      (hd.typeName.bind fun type htype => yields_pure htype)
  refine (onward_take _ _).bind_yields fun start => onward_path.bind_yields fun library =>
    (onward_take _ _).bind_yields fun _ => htarget.bind fun target htarget =>
      (onward_symbol _).bind_yields fun _ => yields_spanFrom fun span =>
        yields_pure (steepness_le_of_lt ?_)
  have := library.steepness_le
  simp only [over_append, over_one]
  omega

theorem yields_inheritanceSpecifier :
    Yields (inheritanceSpecifier d) fun x => x.toNode.steepness ≤ 16 * n + 3 := by
  refine onward_path.bind_yields fun p => (yields_callArguments? hd).bind fun a ha =>
    yields_spanFrom fun span => yields_pure (steepness_le_of_lt ?_)
  have := p.steepness_le
  simp only [over_append, over_one, over_maybe, Option.mem_def, Option.map_eq_some_iff]
  refine ⟨by omega, ?_⟩
  rintro _ ⟨x, hx, rfl⟩
  exact Nat.lt_succ_of_le (ha x hx)

theorem yields_inheritance (kind : ContractKind) : Yields (inheritance d kind)
    fun bases => ∀ b ∈ bases, b.toNode.steepness ≤ 16 * n + 3 :=
  yields_if_nextIs (Yields.ite (yields_here fun _ => yields_violation _ _)
    (onward_advance.bind_yields fun _ => yields_separated (yields_inheritanceSpecifier hd)))
    (yields_pure (by simp))

variable (hs : d.statement.Yields fun s => s.toNode.steepness ≤ 16 * n) (ho : Onward d.statement)
include hs ho

theorem yields_member : Yields (member d) fun x => x.toNode.steepness ≤ 16 * n + 4 := by
  have hvariable : Yields (stateVariable d >>= fun x => pure (Member.stateVariable x))
      fun x => x.toNode.steepness ≤ 16 * n + 4 :=
    (yields_stateVariable hd).bind fun x hx => yields_pure hx
  refine yields_next fun o _ => ?_
  split
  · refine (peeks_peek 1).looks.onward.bind_yields fun _ => Yields.ite (yields_either
      ((yields_stateVariable hd).map fun x hx => hx) ?_)
      ((yields_functionDefinition hd hs ho).bind fun x hx => yields_pure hx)
    exact Yields.map ((onward_take _ _).bind_yields fun start =>
      yields_fallbackRest hd hs ho _ start) fun x hx => hx
  · exact (yields_modifierDefinition hd hs ho).bind fun x hx => yields_pure hx
  · exact (yields_constructorDefinition hd hs ho).bind fun x hx => yields_pure hx
  · exact (yields_eventDefinition hd).bind fun x hx => yields_pure hx
  · exact (yields_structDeclaration hd).bind fun x hx => yields_pure hx
  · exact yields_enumDeclaration.bind fun x hx => yields_pure (hx.trans (by omega))
  · exact (yields_usingDirective hd).bind fun x hx => yields_pure hx
  · refine (peeks_peek 1).looks.onward.bind_yields fun _ => ?_
    split
    · exact Yields.bind ((onward_take _ _).bind_yields fun start =>
        yields_fallbackRest hd hs ho _ start) fun x hx => yields_pure hx
    · exact hvariable
  · exact hvariable
  · exact hvariable
  · exact yields_unexpected _

theorem yields_contractDeclaration (hmember : Onward (member d)) :
    Yields (contractDeclaration d) fun x => x.toNode.steepness ≤ 16 * n + 5 := by
  have hkind (isAbstract : Bool) : Onward (contractKind isAbstract) := by
    refine onward_next fun o => ?_
    split
    · exact onward_unexpected _
    · exact .ite (fun _ => looks_here.onward.bind fun _ => onward_fail _)
        fun _ => onward_advance.bind fun _ => onward_pure _
  refine yields_here fun start => (onward_accept _).bind_yields fun isAbstract =>
    (hkind isAbstract).bind_yields fun kind => onward_identifier.bind_yields fun name =>
      (yields_inheritance hd kind).bind fun bases hbases => (onward_symbol _).bind_yields fun _ =>
        (yields_body hmember (yields_member hd hs ho) fun m => Nat.zero_le _).bind
          fun members hmembers => yields_spanFrom fun span =>
            yields_pure (steepness_le_of_lt ?_)
  simp only [over_append, over_one, over_several, List.forall_mem_map, name.steepness_eq]
  refine ⟨⟨by omega, fun b hb => ?_⟩, fun m hm => Nat.lt_succ_of_le (hmembers m hm)⟩
  have := hbases b hb
  omega

theorem yields_sourceUnit (hmember : Onward (member d)) :
    Yields (sourceUnit d) fun x => x.toNode.steepness ≤ 16 * n + 5 := by
  have hcontract : Yields (contractDeclaration d >>= fun x => pure (SourceUnit.contract x))
      fun x => x.toNode.steepness ≤ 16 * n + 5 :=
    (yields_contractDeclaration hd hs ho hmember).bind fun x hx => yields_pure hx
  have hconstant : Yields (constantDeclaration d >>= fun x => pure (SourceUnit.constant x))
      fun x => x.toNode.steepness ≤ 16 * n + 5 :=
    (yields_constantDeclaration hd).bind fun x hx => yields_pure (Nat.le_succ_of_le hx)
  refine yields_next fun o _ => ?_
  split
  · exact onward_pragmaDirective.bind_yields fun x => yields_pure (x.steepness_le.trans (by omega))
  · exact onward_importDirective.bind_yields fun x => yields_pure (x.steepness_le.trans (by omega))
  · exact hcontract
  · exact hcontract
  · exact hcontract
  · exact hcontract
  · exact (yields_structDeclaration hd).bind fun x hx => yields_pure (Nat.le_succ_of_le hx)
  · exact yields_enumDeclaration.bind fun x hx => yields_pure (hx.trans (by omega))
  · exact (yields_functionDefinition hd hs ho).bind fun x hx => yields_pure (Nat.le_succ_of_le hx)
  · exact hconstant
  · exact hconstant
  · exact hconstant
  · exact yields_unexpected _

end Grammar

open Grammar in
theorem yields_sourceFile : Yields (sourceFile .full)
    fun f => f.toNode.steepness ≤ 16 * nestingLimit + 6 := by
  have hunit : Yields (recovering SourceUnit.error (sourceUnit .full))
      fun x => x.toNode.steepness ≤ 16 * nestingLimit + 5 := yields_recovering onward_sourceUnit
    (yields_sourceUnit (Nested.yields_steepness nestingLimit) (Nested.yields_statement nestingLimit)
      (Nested.onward_statement nestingLimit) (onward_member nestingLimit)) fun m => Nat.zero_le _
  refine Yields.bind (yields_many (peeks_atEnd.looks.onward.bind_yields fun _ =>
    yields_none.ite hunit.some)) fun items hitems => looks_context.onward.bind_yields fun _ =>
      yields_pure (steepness_le_of_lt ?_)
  simp only [over_several, List.forall_mem_map]
  exact fun x hx => Nat.lt_succ_of_le (hitems x hx)

/-- Apart from the steps to what loops have built, the tree of a source is no deeper than the limit
on nesting allows. -/
theorem parse_steepness_le :
    ∃ bound, ∀ source, (parse source).file.toNode.steepness ≤ bound := by
  refine ⟨16 * nestingLimit + 6, fun source => ?_⟩
  have hanswer : (Grammar.sourceFile .full (Session.ofSource source).context
      (Session.ofSource source).state).1 = .ok (parse source).file :=
    congrArg Prod.fst (Session.ofSource source).run_sourceFile
  have hspelt : (Session.ofSource source).state.Spelt := tokenize_spelt source
  exact (yields_sourceFile _ _ _ _ hspelt (Prod.ext hanswer rfl)).1

end SolidityFrontend
