import SolidityFrontend.Proofs.Composing
import SolidityFrontend.Proofs.ReadingBack
import SolidityFrontend.Proofs.Steepness

/-!
# How high trees are

A sum of many names is read at one level of nesting, and its tree is as high as the names are many. So
the limit on nesting does not limit the height of trees (`exists_higher`); what it does limit is how
steep they are (`parse_steepness_le`).
-/

namespace SolidityFrontend

open SolidityFrontend.Parser SolidityFrontend.Grammar

namespace Node

mutual

/-- The number of nodes on a longest path from the root down. -/
def height : Node → Nat
  | ⟨_, _, _, children⟩ => heightOver children + 1

def heightOver : List (String × Node) → Nat
  | [] => 0
  | (_, n) :: rest => max n.height (heightOver rest)

end

end Node

namespace Expr

/-- A name to which itself is added a number of times. -/
def sumOf : Nat → Expr
  | 0 => .identifier ⟨"x", .origin⟩
  | n + 1 => .binary (sumOf n) .add (.identifier ⟨"x", .origin⟩) .origin

theorem operatorTree_sumOf (n : Nat) : OperatorTree (sumOf n) := by
  have hname : OperatorTree (.identifier ⟨"x", .origin⟩) := by
    have hlexes : (Token.identifier "x").Lexes := by
      rw [Token.lexes_iff]
      decide
    exact .identifier hlexes (by decide) (by decide)
  induction n with
  | zero => exact hname
  | succ n ih =>
    refine .binary ih hname ?_
    have hloose : BinaryOp.add.tier ≤ (sumOf n).tier := by
      cases n with
      | zero => decide
      | succ n => exact le_rfl
    exact ⟨hloose, by decide⟩

theorem nesting_sumOf (n : Nat) : (sumOf n).nesting = 0 := by
  induction n with
  | zero => rw [sumOf, nesting]
  | succ n ih => simp [sumOf, nesting, ih]

/-- A sum is as high as it is long, wherever its tokens stand. -/
theorem le_height_of_erase_eq {n : Nat} {x : Expr} (h : erase x = erase (sumOf n)) :
    n ≤ x.toNode.height := by
  induction n generalizing x with
  | zero => exact Nat.zero_le _
  | succ n ih =>
    cases x with
    | binary left op right span =>
      simp only [sumOf, erase, respan_binary, Expr.binary.injEq] at h
      have hleft := ih h.1
      simp only [toNode, Node.height, Node.one, List.singleton_append, Node.heightOver]
      omega
    | _ => simp [sumOf, erase] at h

end Expr

/-! ### Constants -/

variable {c : Context} {ts : List Token} {P : Expr → Prop}

/-- A name before a word is a type. -/
theorem accepts_typeName (d : Nested) (name w : String) (k : List Token) :
    Accepts c (typeName d) [.identifier name] (.identifier w :: k) fun _ => True := by
  intro s hs
  obtain ⟨previous, rest, errors⟩ := s
  obtain ⟨⟨_, typed⟩, rest, rfl, rfl, h₁⟩ := List.map_eq_cons_iff.1 hs
  obtain ⟨⟨_, span⟩, rest, rfl, rfl, h₂⟩ := List.map_eq_cons_iff.1 h₁
  exact ⟨_, ⟨some ⟨.identifier name, typed⟩, ⟨.identifier w, span⟩ :: rest, errors⟩, rfl, trivial,
    h₁, rfl⟩

theorem accepts_word {w : String} : Accepts c (word w) [.identifier w] ts fun _ => True := by
  refine looks_here.accepts fun span => accepts_accept ?_
  exact accepts_pure trivial

theorem accepts_constantDeclaration
    (h : Accepts c Nested.full.expression ts [.symbol .semicolon] P) :
    Accepts c (constantDeclaration .full) (.identifier "A" :: .identifier "constant"
      :: .identifier "c" :: .symbol .assign :: (ts ++ [Token.symbol .semicolon])) []
      fun d => P d.value := by
  refine looks_here.accepts fun start => ?_
  refine Accepts.bind_cons (accepts_typeName _ "A" "constant" _) fun type _ => ?_
  refine Accepts.bind_cons accepts_word fun _ _ => accepts_identifier fun name _ => ?_
  refine accepts_symbol fun _ => h.bind fun value hvalue => accepts_symbol fun _ => ?_
  exact accepts_spanFrom fun span => accepts_pure hvalue

/-- A source that is one constant whose value is read. -/
theorem parse_of_constant {source : String}
    (hsource : (tokenize source).tokens.map Lexeme.token = .identifier "A" :: .identifier "constant"
      :: .identifier "c" :: .symbol .assign :: (ts ++ [Token.symbol .semicolon]))
    (h : Accepts (Session.ofSource source).context Nested.full.expression ts [.symbol .semicolon] P) :
    ∃ d : ConstantDeclaration, (parse source).file.items = [.constant d] ∧ P d.value := by
  obtain ⟨d, t, hd, hP, ht, -⟩ := accepts_constantDeclaration h (Session.ofSource source).state
    (by rw [List.append_nil]; exact hsource)
  have hunit : sourceUnit .full (Session.ofSource source).context (Session.ofSource source).state
      = (.ok (.constant d), t) := by
    have hhead : (Session.ofSource source).state.tokens.head? = some (.identifier "A") :=
      congrArg List.head? hsource
    rw [sourceUnit, next_bind, hhead]
    exact bind_ok hd
  have hitems : Items (Session.ofSource source).context (Session.ofSource source).state
      [.constant d] t := by
    refine .cons ?_ ((recovering_ok (by rw [hunit])).trans hunit) (.nil t)
    intro hnil
    have hrest : (tokenize source).tokens = [] := hnil
    simp [hrest] at hsource
  exact ⟨d, (parse_of_items hitems (List.map_eq_nil_iff.1 ht)).1, hP⟩

/-- A constant whose value is a sum. -/
def sumSource (n : Nat) : String :=
  spaced (.identifier "A" :: .identifier "constant" :: .identifier "c" :: .symbol .assign
    :: ((Expr.sumOf n).tokens ++ [Token.symbol .semicolon]))

theorem tokenize_sumSource (n : Nat) : (tokenize (sumSource n)).tokens.map Lexeme.token
    = .identifier "A" :: .identifier "constant" :: .identifier "c" :: .symbol .assign
      :: ((Expr.sumOf n).tokens ++ [Token.symbol .semicolon]) := by
  have hname : ∀ w ∈ ["A", "constant", "c"], (Token.identifier w).Written := by
    simp only [Token.Written, Token.lexes_iff]
    decide
  refine (tokenize_spaced ?_).1
  simp only [List.forall_mem_cons, List.forall_mem_append] at hname ⊢
  exact ⟨hname.1, hname.2.1, hname.2.2.1, Token.written_symbol _,
    (Expr.operatorTree_sumOf n).written, Token.written_symbol _, by simp⟩

/-- The trees of sources are of any height. -/
theorem exists_higher (n : Nat) : n ≤ (parse (sumSource n)).file.toNode.height := by
  have hread := ((Expr.operatorTree_sumOf n).readBack 127 (Session.ofSource (sumSource n)).context
    (by rw [Expr.nesting_sumOf]; omega)).nested (k := [.symbol .semicolon]) (.cons (by decide))
  obtain ⟨d, hitems, hvalue⟩ := parse_of_constant (tokenize_sumSource n) hread
  have hheight := Expr.le_height_of_erase_eq hvalue
  simp only [SourceFile.toNode, hitems, List.map_cons, List.map_nil, SourceUnit.toNode,
    ConstantDeclaration.toNode, Node.several, Node.one, Node.height, Node.heightOver,
    List.nil_append, List.cons_append]
  omega

/-- No number bounds the height of the trees of all sources. -/
theorem not_exists_height_bound :
    ¬ ∃ bound, ∀ source, (parse source).file.toNode.height ≤ bound := by
  rintro ⟨bound, h⟩
  have hhigher := exists_higher (bound + 1)
  have hbound := h (sumSource (bound + 1))
  omega

end SolidityFrontend
