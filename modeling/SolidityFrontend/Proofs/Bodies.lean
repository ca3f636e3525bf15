import SolidityFrontend.Proofs.Lines
import SolidityFrontend.Proofs.Pieces

/-!
# Bodies are plain sequences

Members that are read alone are read in the same way one behind the other in a contract, in any order,
and so are statements in a function.
-/

namespace SolidityFrontend

open SolidityFrontend.Parser SolidityFrontend.Grammar

variable {c : Context} {s t u : State}

/-! ### Members and statements end by themselves -/

theorem selfContained_member : SelfContained (member .full) fun _ => True where
  onward := (echoes_member (H := .whole []) (I := anywhere) (k := 0) (Setting.mirror_whole [])).onward
  ends := ends_member
  takes h := by
    have hle := (echoes_member (H := .whole []) (I := anywhere) (k := 0)
      (Setting.mirror_whole [])).steps _ _ _ _ trivial h
    omega
  not_brace h hbrace := by
    rw [member, next_bind, hbrace] at h
    exact unexpected_ne_ok _ _ _ _ _ h
  opens _ := trivial
  brace := trivial
  echoes hH _ := echoes_member hH

/-- No statement begins with a token that opens neither a statement nor an expression. -/
theorem Nested.statement_of_unopened {a : Token} (ha : a.opensExpression = false)
    (hdeclare : mayDeclare a = false)
    (hstatement : ∀ (d : Nested) (c : Context) (s : State), s.tokens.head? = some a →
      Grammar.statement d c s = simpleStatement d c s) :
    ∀ (n : Nat) {c : Context} {s t : State} {x : Stmt}, s.tokens.head? = some a →
      (ofDepth n).statement c s ≠ (.ok x, t)
  | 0, _, _, _, _, _ => tooDeep_ne_ok
  | n + 1, c, s, t, x, hhead => by
    intro h
    have hrun : Grammar.statement (ofDepth n) c s = (.ok x, t) := h
    rw [hstatement _ c s hhead] at hrun
    exact simpleStatement_of_unopened hhead ha hdeclare hrun

/-- No further branch of a statement. -/
def noBranch (o : Option Token) : Prop := o ≠ some (.keyword .else_) ∧ o ≠ some (.keyword .catch_)

theorem selfContained_statement : SelfContained Nested.full.statement noBranch where
  onward := ((Nested.echoedWhole_full (H := .whole [])).statement 1 Setting.closed_succ).onward
  ends := Nested.ends_statement nestingLimit
  takes h := by
    have hle := ((Nested.echoedWhole_full (H := .whole [])).statement 1
      Setting.closed_succ).steps _ _ _ _ trivial h
    omega
  not_brace h hbrace := by
    refine Nested.statement_of_unopened (a := .symbol .rightBrace) rfl rfl ?_ nestingLimit hbrace h
    intro d c s hhead
    rw [Grammar.statement, next_bind, hhead]
  opens h := by
    constructor
    all_goals
      intro hhead
      refine Nested.statement_of_unopened rfl rfl ?_ nestingLimit hhead h
      intro d c s hhead
      rw [Grammar.statement, next_bind, hhead]
  brace := ⟨by simp, by simp⟩
  echoes {H _} _ hbefore := by
    refine (Nested.echoedWhole_full (H := H)).statement 0 ⟨fun _ h => ?_, fun _ h => ?_⟩
    · exact absurd h hbefore.1
    · exact absurd h hbefore.2

/-! ### Headers -/

/-- A contract behind the brace that opens its body. -/
theorem contractDeclaration_of_tokens {name : String} {ts : List Token} (c : Context)
    (h : s.tokens = .keyword .contract :: .identifier name :: .symbol .leftBrace :: ts) :
    ∃ (i : Identifier) (start : Span) (u : State), u.tokens = ts ∧ u.errors = s.errors
      ∧ ∀ d, contractDeclaration d c s = (body Member.error (member d) >>= fun members =>
        spanFrom start >>= fun span => pure ⟨.contract, false, i, [], members, span⟩) c u := by
  obtain ⟨previous, rest, errors⟩ := s
  obtain ⟨⟨_, start⟩, rest, rfl, rfl, h₁⟩ := List.map_eq_cons_iff.1 h
  obtain ⟨⟨_, span⟩, rest, rfl, rfl, h₂⟩ := List.map_eq_cons_iff.1 h₁
  obtain ⟨⟨_, opening⟩, rest, rfl, rfl, h₃⟩ := List.map_eq_cons_iff.1 h₂
  exact ⟨⟨name, span⟩, start, ⟨some ⟨.symbol .leftBrace, opening⟩, rest, errors⟩, h₃, rfl,
    fun _ => rfl⟩

theorem functionAttributes_public (d : Nested) (c : Context) (previous : Option Lexeme)
    (span opening : Span) (rest : List Lexeme) (errors : Array SyntaxError) :
    functionAttributes d c ⟨previous, ⟨.identifier "public", span⟩ :: ⟨.symbol .leftBrace, opening⟩
        :: rest, errors⟩
      = (.ok [.visibility .public_ span], ⟨some ⟨.identifier "public", span⟩,
          ⟨.symbol .leftBrace, opening⟩ :: rest, errors⟩) := by
  have hstep : functionAttributeStep d c ⟨previous, ⟨.identifier "public", span⟩
        :: ⟨.symbol .leftBrace, opening⟩ :: rest, errors⟩
      = (.ok (some (.visibility .public_ span)), ⟨some ⟨.identifier "public", span⟩,
          ⟨.symbol .leftBrace, opening⟩ :: rest, errors⟩) := by
    refine functionAttributeStep_of_attribute (show _ = some "public" from rfl) ?_
    simp [functionAttribute?, Visibility.ofWord?, ofSpelling?, Visibility.all, Visibility.text]
    rfl
  rw [functionAttributes_eq, many, state_bind, manyOver, bind_ok hstep]
  dsimp only
  rw [bind_ok (manyOver_of_idle (functionAttributeStep_of_nameless (nameless_of_symbol rfl)) _)]
  rfl

/-- A public function without parameters behind the brace that opens its body. -/
theorem functionDefinition_of_tokens {name : String} {ts : List Token} (c : Context)
    (h : s.tokens = .keyword .function :: .identifier name :: .symbol .leftParen
      :: .symbol .rightParen :: .identifier "public" :: .symbol .leftBrace :: ts) :
    ∃ u : State, u.tokens = ts ∧ u.errors = s.errors ∧ ∀ {d : Nested} {statements t},
      body Stmt.error d.statement c u = (.ok statements, t) →
        ∃ f inner, functionDefinition d c s = (.ok f, t) ∧ f.body = some ⟨statements, inner⟩ := by
  obtain ⟨previous, rest, errors⟩ := s
  obtain ⟨⟨_, start⟩, rest, rfl, rfl, h₁⟩ := List.map_eq_cons_iff.1 h
  obtain ⟨⟨_, named⟩, rest, rfl, rfl, h₂⟩ := List.map_eq_cons_iff.1 h₁
  obtain ⟨⟨_, opened⟩, rest, rfl, rfl, h₃⟩ := List.map_eq_cons_iff.1 h₂
  obtain ⟨⟨_, closed⟩, rest, rfl, rfl, h₄⟩ := List.map_eq_cons_iff.1 h₃
  obtain ⟨⟨_, span⟩, rest, rfl, rfl, h₅⟩ := List.map_eq_cons_iff.1 h₄
  obtain ⟨⟨_, opening⟩, rest, rfl, rfl, h₆⟩ := List.map_eq_cons_iff.1 h₅
  refine ⟨⟨some ⟨.symbol .leftBrace, opening⟩, rest, errors⟩, h₆, rfl, fun {d statements t} hbody => ?_⟩
  have hparameters : parameters d c ⟨some ⟨.identifier name, named⟩, ⟨.symbol .leftParen, opened⟩
        :: ⟨.symbol .rightParen, closed⟩ :: ⟨.identifier "public", span⟩
        :: ⟨.symbol .leftBrace, opening⟩ :: rest, errors⟩
      = (.ok [], ⟨some ⟨.symbol .rightParen, closed⟩, ⟨.identifier "public", span⟩
          :: ⟨.symbol .leftBrace, opening⟩ :: rest, errors⟩) := rfl
  have hhead : functionDefinition d c ⟨previous, ⟨.keyword .function, start⟩
        :: ⟨.identifier name, named⟩ :: ⟨.symbol .leftParen, opened⟩ :: ⟨.symbol .rightParen, closed⟩
        :: ⟨.identifier "public", span⟩ :: ⟨.symbol .leftBrace, opening⟩ :: rest, errors⟩
      = (parameters d >>= fun ps => functionAttributes d >>= fun attributes =>
          returnParameters d >>= fun returns => functionBody d >>= fun inner =>
            spanFrom start >>= fun whole =>
              pure ⟨⟨name, named⟩, ps, attributes, returns, inner, whole⟩) c
        ⟨some ⟨.identifier name, named⟩, ⟨.symbol .leftParen, opened⟩
          :: ⟨.symbol .rightParen, closed⟩ :: ⟨.identifier "public", span⟩
          :: ⟨.symbol .leftBrace, opening⟩ :: rest, errors⟩ := rfl
  have hreturns : returnParameters d c ⟨some ⟨.identifier "public", span⟩,
        ⟨.symbol .leftBrace, opening⟩ :: rest, errors⟩
      = (.ok [], ⟨some ⟨.identifier "public", span⟩, ⟨.symbol .leftBrace, opening⟩ :: rest, errors⟩) :=
    rfl
  have hblock : functionBody d c ⟨some ⟨.identifier "public", span⟩,
        ⟨.symbol .leftBrace, opening⟩ :: rest, errors⟩
      = ((body Stmt.error d.statement >>= fun statements => spanFrom opening >>= fun inner =>
          pure (Block.mk statements inner)) >>= fun b => pure (some b)) c
        ⟨some ⟨.symbol .leftBrace, opening⟩, rest, errors⟩ := rfl
  rw [bind_ok (bind_ok hbody)] at hblock
  rw [hhead, bind_ok hparameters, bind_ok (functionAttributes_public d c _ span opening rest errors),
    bind_ok hreturns, bind_ok hblock]
  exact ⟨_, _, rfl, rfl⟩

/-! ### Contracts -/

/-- The source is read without errors as one contract with the given members. -/
def ReadsMembers (source : String) (members : List Member) : Prop :=
  (parse source).errors = [] ∧ ∃ d, (parse source).file.items = [.contract d] ∧ d.members = members

/-- The members of a file that is one contract. -/
def soleMembers : List SourceUnit → List Member
  | [.contract d] => d.members
  | _ => []

theorem sourceUnit_of_contract {d : Nested} (h : s.tokens.head? = some (.keyword .contract)) :
    sourceUnit d c s = (contractDeclaration d >>= fun x => pure (.contract x)) c s := by
  rw [sourceUnit, next_bind, h]

/-- The members of a contract that is read without errors are a row. -/
theorem row_of_readsMembers {source : String} {members : List Member} {name : String}
    {ts : List Token} (h : ReadsMembers source members)
    (hsource : tokensOf source = .keyword .contract :: .identifier name :: .symbol .leftBrace
      :: ts ++ [Token.symbol .rightBrace]) :
    Row (member .full) (fun _ => True) ts members := by
  obtain ⟨hclean, d, hitems, rfl⟩ := h
  obtain ⟨-, hrecorded⟩ := errors_eq_nil_iff.1 hclean
  obtain ⟨t, hread, hend, herrors⟩ := exists_items_parse source
  rw [hitems] at hread
  rw [hrecorded, Array.toList_eq_nil_iff] at herrors
  cases hread with
  | cons hne hx hxs =>
    cases hxs with
    | nil =>
      set c := (Session.ofSource source).context
      set s := (Session.ofSource source).state
      have hs : s.tokens = .keyword .contract :: .identifier name :: .symbol .leftBrace
          :: (ts ++ [Token.symbol .rightBrace]) := hsource
      obtain ⟨i, start, u, hu, hus, hdeclaration⟩ := contractDeclaration_of_tokens c hs
      have hunit : sourceUnit .full c s = (.ok (.contract d), t) := by
        rcases hr : sourceUnit .full c s with ⟨e | x, v⟩
        · rw [recovering, state_bind, attempt_bind, hr] at hx
          exact absurd (Except.ok.inj (congrArg Prod.fst hx)) (by simp)
        · rw [recovering_ok (by rw [hr]), hr] at hx
          exact hx
      rw [sourceUnit_of_contract (by rw [hs]; rfl)] at hunit
      obtain ⟨d', v, hd, hpure⟩ := bind_eq_ok hunit
      obtain ⟨hd', rfl⟩ := pure_eq_ok (c := c) hpure
      obtain rfl := SourceUnit.contract.inj hd'
      rw [hdeclaration] at hd
      obtain ⟨members, v, hbody, hspan⟩ := bind_eq_ok hd
      rw [bind_ok (looks_spanFrom start c v)] at hspan
      obtain ⟨rfl, rfl⟩ := pure_eq_ok hspan
      obtain ⟨w, hchain, hhead, hw₀, rfl⟩ :=
        chain_of_body selfContained_member.onward hbody herrors
      obtain ⟨us, hus', hrow⟩ := hchain.row selfContained_member rfl hw₀
      have hw : w.tokens = [.symbol .rightBrace] := by
        have hlength := length_advance w
        rw [hend, List.length_nil, ← length_tokens] at hlength
        rcases htokens : w.tokens with _ | ⟨a, rest⟩
        · simp [htokens] at hhead
        · rw [htokens] at hhead hlength
          obtain rfl : rest = [] := List.eq_nil_of_length_eq_zero (by simpa using hlength.symm)
          exact congrArg (· :: []) (Option.some.inj hhead)
      rw [hw, hu] at hus'
      rwa [List.append_cancel_right hus']

/-- A source that goes on with a body behind the header of a contract. -/
theorem readsMembers_of_body {source : String} {name : String} {ts : List Token}
    {P : List Member → Prop} (hclean : (tokenize source).errors = [])
    (hsource : tokensOf source = .keyword .contract :: .identifier name :: .symbol .leftBrace :: ts)
    (h : ∀ (c : Context) (s : State), c.structLiterals = true → s.tokens = ts →
      ∃ members t, body Member.error (member .full) c s = (.ok members, t) ∧ P members
        ∧ t.tokens = [] ∧ t.errors = s.errors) :
    ∃ members, ReadsMembers source members ∧ P members := by
  let c := (Session.ofSource source).context
  let s := (Session.ofSource source).state
  have hs : s.tokens = .keyword .contract :: .identifier name :: .symbol .leftBrace :: ts := hsource
  obtain ⟨i, start, u, hu, hus, hdeclaration⟩ := contractDeclaration_of_tokens c hs
  obtain ⟨members, t, hbody, hP, ht, herrors⟩ := h c u rfl hu
  have hend : t.rest = [] := List.map_eq_nil_iff.1 ht
  obtain ⟨span, hspan⟩ : ∃ span, spanFrom start c t = (.ok span, t) := ⟨_, looks_spanFrom start c t⟩
  let d : ContractDeclaration := ⟨.contract, false, i, [], members, span⟩
  have hd : contractDeclaration .full c s = (.ok d, t) := by
    rw [hdeclaration, bind_ok hbody, bind_ok hspan]
    rfl
  have hunit : sourceUnit .full c s = (.ok (.contract d), t) := by
    rw [sourceUnit_of_contract (by rw [hs]; rfl), bind_ok hd]
    rfl
  have hitems : Items c s [.contract d] t := by
    refine .cons ?_ ((recovering_ok (by rw [hunit])).trans hunit) (.nil t)
    intro hnil
    rw [State.tokens, hnil] at hs
    simp at hs
  obtain ⟨hfile, hrecorded⟩ := parse_of_items hitems hend
  refine ⟨members, ⟨errors_eq_nil_iff.2 ⟨hclean, ?_⟩, d, hfile, rfl⟩, hP⟩
  rw [hrecorded, herrors, hus]
  rfl

/-! ### Members and statements in lines -/

/-- A contract with lines of text for its body. -/
def contractText (body : List String) : String :=
  lines ("contract C \x7b" :: body ++ ["\x7d"])

/-- A contract with one function, and lines of text for the body of that. -/
def functionText (body : List String) : String :=
  contractText ("function f() public \x7b" :: body ++ ["\x7d"])

theorem tokenize_contractHeader : (tokenize "contract C \x7b").errors = []
    ∧ tokensOf "contract C \x7b" = [.keyword .contract, .identifier "C", .symbol .leftBrace] := by
  rw [tokensOf, tokenize_ofList]
  decide

theorem tokenize_rightBrace :
    (tokenize "\x7d").errors = [] ∧ tokensOf "\x7d" = [.symbol .rightBrace] := by
  rw [tokensOf, tokenize_ofList]
  decide

theorem tokenize_contractText (texts : List String)
    (h : ∀ text ∈ texts, (tokenize text).errors = []) :
    tokensOf (contractText texts) = .keyword .contract :: .identifier "C" :: .symbol .leftBrace
        :: (texts.flatMap tokensOf ++ [Token.symbol .rightBrace])
      ∧ (tokenize (contractText texts)).errors = [] := by
  obtain ⟨hheader, hheader'⟩ := tokenize_contractHeader
  obtain ⟨hbrace, hbrace'⟩ := tokenize_rightBrace
  obtain ⟨htokens, herrors⟩ := tokenize_lines ("contract C \x7b" :: texts ++ ["\x7d"]) (by
    intro text htext
    rcases List.mem_append.1 htext with htext | htext
    · rcases List.mem_cons.1 htext with rfl | htext
      · exact hheader
      · exact h text htext
    · rw [List.mem_singleton.1 htext]
      exact hbrace)
  refine ⟨?_, herrors⟩
  rw [contractText, htokens, List.flatMap_append, List.flatMap_cons, hheader', List.flatMap_singleton,
    hbrace']
  rfl

theorem errors_of_contractText {text : String}
    (h : (tokenize (contractText [text])).errors = []) : (tokenize text).errors = [] := by
  have hlines : contractText [text]
      = "contract C \x7b" ++ "\n" ++ (text ++ "\n" ++ "\x7d") := by
    rw [contractText, List.cons_append, lines_cons (by simp), List.singleton_append,
      lines_cons (by simp)]
    rfl
  have hbrace : ∀ d ∈ "\x7d".toList, closesText d = false := by simp [closesText]
  rw [hlines, tokenize_below tokenize_contractHeader.1] at h
  exact errors_of_newline hbrace (List.map_eq_nil_iff.1 h)

/-- Members that are read alone are a row. -/
theorem row_of_members {texts : List String} {members : List Member}
    (h : List.Forall₂ (fun text m => ReadsMembers (contractText [text]) [m]) texts members) :
    (∀ text ∈ texts, (tokenize text).errors = [])
      ∧ Row (member .full) (fun _ => True) (texts.flatMap tokensOf) members := by
  induction h with
  | nil => exact ⟨by simp, .nil⟩
  | @cons text m texts members hm _ ih =>
    have hclean := errors_of_contractText (errors_eq_nil_iff.1 hm.1).1
    obtain ⟨htokens, -⟩ := tokenize_contractText [text] (by simpa using hclean)
    refine ⟨List.forall_mem_cons.2 ⟨hclean, ih.1⟩, ?_⟩
    have hrow := row_of_readsMembers hm htokens
    rw [List.flatMap_singleton] at hrow
    exact hrow.append ih.2

/-- The text is read without errors as a statement. -/
def ReadsStatement (text : String) (x : Stmt) : Prop :=
  ∃ next, (Session.ofSource text).statement = (.ok x, next) ∧ next.errors = []

theorem piece_of_statement {text : String} {x : Stmt} (h : ReadsStatement text x) :
    (tokenize text).errors = [] ∧ Piece Nested.full.statement noBranch (tokensOf text) x := by
  obtain ⟨next, hx, herrors⟩ := h
  obtain ⟨hread, hend, htokenized⟩ := Session.run_whole_eq_ok hx
  obtain ⟨hlex, hstate⟩ := Session.errors_eq_nil_iff.1 herrors
  refine ⟨htokenized ▸ hlex, selfContained_statement.piece rfl hread hstate ?_⟩
  rw [State.tokens, State.tokens, hend, List.map_nil, List.append_nil]
  rfl

theorem row_of_statements {texts : List String} {xs : List Stmt}
    (h : List.Forall₂ ReadsStatement texts xs) :
    (∀ text ∈ texts, (tokenize text).errors = [])
      ∧ Row Nested.full.statement noBranch (texts.flatMap tokensOf) xs := by
  induction h with
  | nil => exact ⟨by simp, .nil⟩
  | @cons text x texts xs hx _ ih =>
    obtain ⟨hclean, hpiece⟩ := piece_of_statement hx
    exact ⟨List.forall_mem_cons.2 ⟨hclean, ih.1⟩, .cons hpiece ih.2⟩

/-- Members that are each read alone in a contract are read in the same way one below the other, in the
order in which they stand; and so are statements in the body of a function. -/
theorem bodies_in_order :
    (∀ (texts : List String) (members : List Member),
        List.Forall₂ (fun text m => ReadsMembers (contractText [text]) [m]) texts members →
          ∃ members', ReadsMembers (contractText texts) members' ∧ erase members' = erase members)
      ∧ ∀ (texts : List String) (xs : List Stmt), List.Forall₂ ReadsStatement texts xs →
          ∃ f b, ReadsMembers (functionText texts) [.function f] ∧ f.body = some b
            ∧ erase b.statements = erase xs := by
  constructor
  · intro texts members h
    obtain ⟨hclean, hrow⟩ := row_of_members h
    obtain ⟨htokens, herrors⟩ := tokenize_contractText texts hclean
    exact readsMembers_of_body (P := fun members' => Alike members members') herrors htokens
      fun c s hc hs => hrow.body selfContained_member Member.error hc hs
  · intro texts xs h
    obtain ⟨hclean, hrow⟩ := row_of_statements h
    obtain ⟨hheader, hheader'⟩ : (tokenize "function f() public \x7b").errors = []
        ∧ tokensOf "function f() public \x7b" = [.keyword .function, .identifier "f",
          .symbol .leftParen, .symbol .rightParen, .identifier "public", .symbol .leftBrace] := by
      rw [tokensOf, tokenize_ofList]
      decide
    obtain ⟨hbrace, hbrace'⟩ := tokenize_rightBrace
    obtain ⟨htokens, herrors⟩ :=
      tokenize_contractText ("function f() public \x7b" :: texts ++ ["\x7d"]) (by
        intro text htext
        rcases List.mem_append.1 htext with htext | htext
        · rcases List.mem_cons.1 htext with rfl | htext
          · exact hheader
          · exact hclean text htext
        · rw [List.mem_singleton.1 htext]
          exact hbrace)
    rw [List.flatMap_append, List.flatMap_cons, hheader', List.flatMap_singleton, hbrace',
      List.append_assoc] at htokens
    have hread : ∃ members, ReadsMembers (functionText texts) members ∧ ∃ f b,
        members = [.function f] ∧ f.body = some b ∧ Alike xs b.statements := by
      refine readsMembers_of_body herrors htokens fun c s hc hs => ?_
      obtain ⟨u, hu, hus, hfunction⟩ := functionDefinition_of_tokens c hs
      have hu' : u.tokens = texts.flatMap tokensOf
          ++ Token.symbol .rightBrace :: [.symbol .rightBrace] := hu
      obtain ⟨statements, t, hbody, halike, ht, herrors'⟩ :=
        hrow.body selfContained_statement Stmt.error hc hu'
      obtain ⟨f, inner, hf, hfbody⟩ := hfunction hbody
      have hmember : member .full c s = (.ok (.function f), t) := by
        rw [member, next_bind, hs]
        change (peek? 1 >>= _) c s = _
        rw [bind_ok (sees_peek 1 c s), hs]
        exact bind_ok hf
      refine ⟨[.function f], t.advance, body_of_part ?_ (by simp [hs]) hmember (by rw [ht]; rfl),
        ⟨f, ⟨statements, inner⟩, rfl, hfbody, halike⟩, ?_, ?_⟩
      · rintro hnil
        simp [State.tokens, hnil] at hs
      · rw [tokens_advance, ht]
        rfl
      · rw [errors_advance, herrors', hus]
    obtain ⟨members, hmembers, f, b, rfl, hbody, halike⟩ := hread
    exact ⟨f, b, hmembers, hbody, halike⟩

/-- A function above a variable, and an assignment above a loop. -/
theorem bodies_in_order_pair :
    (∃ members, List.Forall₂ (fun text m => ReadsMembers (contractText [text]) [m])
        ["function g() \x7b\x7d", "uint x; // a"] members
      ∧ ∃ members', ReadsMembers (contractText ["function g() \x7b\x7d", "uint x; // a"]) members'
        ∧ erase members' = erase members)
    ∧ ∃ xs, List.Forall₂ ReadsStatement ["a = 1;", "while (b) \x7b\x7d"] xs
      ∧ ∃ f b, ReadsMembers (functionText ["a = 1;", "while (b) \x7b\x7d"]) [.function f]
        ∧ f.body = some b ∧ erase b.statements = erase xs := by
  have hmember (text : String) (h : (parse (contractText [text])).hasErrors = false
      ∧ (soleMembers (parse (contractText [text])).file.items).length = 1) :
      ∃ m, ReadsMembers (contractText [text]) [m] := by
    obtain ⟨hclean, hitems⟩ := h
    obtain ⟨m, hm⟩ := List.length_eq_one_iff.1 hitems
    unfold soleMembers at hm
    split at hm
    · rename_i d hd
      exact ⟨m, by simpa [ParseOutput.hasErrors] using hclean, d, hd, hm⟩
    · exact absurd hm (by simp)
  have hstatement (text : String) (h : (Session.ofSource text).statement.1.toBool
      ∧ (Session.ofSource text).statement.2.tokenized.errors.isEmpty
      ∧ (Session.ofSource text).statement.2.state.errors.isEmpty) : ∃ x, ReadsStatement text x := by
    obtain ⟨hok, hlex, hstate⟩ := h
    rcases hread : (Session.ofSource text).statement with ⟨e | x, next⟩
    · rw [hread] at hok
      simp [Except.toBool] at hok
    · rw [hread] at hlex hstate
      exact ⟨x, next, hread, Session.errors_eq_nil_iff.2
        ⟨List.isEmpty_iff.1 hlex, Array.isEmpty_iff.1 hstate⟩⟩
  obtain ⟨m, hm⟩ := hmember "function g() \x7b\x7d" (by
    rw [contractText, lines_eq, parse_ofList]
    decide +kernel)
  obtain ⟨m', hm'⟩ := hmember "uint x; // a" (by
    rw [contractText, lines_eq, parse_ofList]
    decide +kernel)
  obtain ⟨x, hx⟩ := hstatement "a = 1;" (by
    rw [Session.ofSource_ofList]
    decide +kernel)
  obtain ⟨x', hx'⟩ := hstatement "while (b) \x7b\x7d" (by
    rw [Session.ofSource_ofList]
    decide +kernel)
  exact ⟨⟨[m, m'], .cons hm (.cons hm' .nil), bodies_in_order.1 _ _ (.cons hm (.cons hm' .nil))⟩,
    [x, x'], .cons hx (.cons hx' .nil), bodies_in_order.2 _ _ (.cons hx (.cons hx' .nil))⟩

end SolidityFrontend
