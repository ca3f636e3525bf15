import SolidityFrontend.Proofs.Choosing

/-!
# Variables of a function type and fallbacks

A member that begins with `function (` may be both: in `function () internal f;` the word `f` names a
variable or a modifier. The attributes of a fallback take every word, so the words that a variable
takes lie on their way (`OnWay`), and where both readings succeed they end at the same semicolon.
-/

namespace SolidityFrontend

open SolidityFrontend.Parser

/-- Two states behind tokens of the same one, with as many left, are the same. -/
theorem State.eq_of_took {s t t' : State} {ts ts' : List Lexeme} {es es' : List SyntaxError}
    (h : s.Took ts es t) (h' : s.Took ts' es' t') (hlength : t.rest.length = t'.rest.length)
    (herrors : t.errors = t'.errors) : t = t' := by
  have hrest : ts ++ t.rest = ts' ++ t'.rest := h.1.symm.trans h'.1
  obtain ⟨rfl, hrest⟩ := List.append_inj' hrest hlength
  have hprevious : t.previous = t'.previous := h.2.1.trans h'.2.1.symm
  cases t
  cases t'
  simp_all

/-- What each round of a loop keeps, the whole loop keeps. -/
theorem Parser.many_keeps {α : Type} {more : Parser (Option α)} {c : Context} {P : State → Prop}
    (h : ∀ s o t, P s → more c s = (.ok o, t) → P t) {s t : State} {xs : List α} (hs : P s)
    (hrun : many more c s = (.ok xs, t)) : P t := by
  have hover (clock : List Lexeme) : ∀ {s : State} {xs : List α},
      P s → manyOver more clock c s = (.ok xs, t) → P t := by
    induction clock with
    | nil =>
      intro s xs hs hrun
      obtain ⟨-, rfl⟩ := pure_eq_ok hrun
      exact hs
    | cons l clock ih =>
      intro s xs hs hrun
      rw [manyOver] at hrun
      obtain ⟨o, u, ho, hrest⟩ := bind_eq_ok hrun
      have hu := h s o u hs ho
      cases o with
      | none =>
        obtain ⟨-, rfl⟩ := pure_eq_ok hrest
        exact hu
      | some x =>
        obtain ⟨ys, v, hys, hpure⟩ := bind_eq_ok hrest
        obtain ⟨-, rfl⟩ := pure_eq_ok hpure
        exact ih hu hys
  exact hover s.rest hs hrun

namespace Grammar

variable {d d' : Nested} {H : Setting} {c : Context} {s t u v a : State}

/-! ### The way of a fallback -/

/-- One attribute of a function. -/
def functionAttributeStep (deeper : Nested) : Parser (Option FunctionAttribute) := do
  let span ← here
  match ← nextWord? with
  | none => return none
  | some w =>
    match functionAttribute? w span with
    | some a =>
      advance
      return some a
    | none =>
      if w = "override" then return some (.override (← overrideSpecifier))
      else return some (.modifier (← modifierInvocation deeper))

theorem functionAttributes_eq (d : Nested) : functionAttributes d = many (functionAttributeStep d) :=
  rfl

/-- Whether the body of a function, or the semicolon in its place, is next. -/
def endsAttributes (ts : List Token) : Prop :=
  ts.head? = some (.symbol .semicolon) ∨ ts.head? = some (.symbol .leftBrace)

/-- The attributes of a function that are read from here end at `a`, before its body. -/
def OnWay (d : Nested) (c : Context) (a s : State) : Prop :=
  endsAttributes a.tokens ∧ ∃ clock attributes, s.rest.length ≤ clock.length
    ∧ manyOver (functionAttributeStep d) clock c s = (.ok attributes, a)

section

variable {name : String} (hname : s.tokens.head?.bind Token.identifier? = some name)

theorem functionAttributeStep_of_nameless (h : nameless s.tokens) :
    functionAttributeStep d c s = (.ok none, s) := by
  rw [functionAttributeStep, bind_ok (looks_here c s), bind_ok (nextWord_eq c s), h]
  rfl

include hname

theorem functionAttributeStep_of_attribute {b : FunctionAttribute}
    (h : functionAttribute? name (s.nextSpan c.stop) = some b) :
    functionAttributeStep d c s = (.ok (some b), s.advance) := by
  rw [functionAttributeStep, bind_ok (looks_here c s), bind_ok (nextWord_eq c s), hname]
  simp only [h]
  rfl

theorem functionAttributeStep_of_override
    (h : functionAttribute? name (s.nextSpan c.stop) = none) (hw : name = "override") :
    functionAttributeStep d c s
      = (overrideSpecifier >>= fun o => pure (some (.override o))) c s := by
  rw [functionAttributeStep, bind_ok (looks_here c s), bind_ok (nextWord_eq c s), hname]
  simp only [h, if_pos hw]

theorem functionAttributeStep_of_modifier
    (h : functionAttribute? name (s.nextSpan c.stop) = none) (hw : name ≠ "override") :
    functionAttributeStep d c s
      = (modifierInvocation d >>= fun m => pure (some (.modifier m))) c s := by
  rw [functionAttributeStep, bind_ok (looks_here c s), bind_ok (nextWord_eq c s), hname]
  simp only [h, if_neg hw]

/-- A word begins an attribute. -/
theorem functionAttributeStep_ne_none : functionAttributeStep d c s ≠ (.ok none, t) := by
  intro hstep
  rcases h : functionAttribute? name (s.nextSpan c.stop) with _ | b
  · by_cases hw : name = "override"
    · rw [functionAttributeStep_of_override hname h hw] at hstep
      obtain ⟨_, _, -, hpure⟩ := bind_eq_ok hstep
      exact absurd (pure_eq_ok hpure).1 (by simp)
    · rw [functionAttributeStep_of_modifier hname h hw] at hstep
      obtain ⟨_, _, -, hpure⟩ := bind_eq_ok hstep
      exact absurd (pure_eq_ok hpure).1 (by simp)
  · rw [functionAttributeStep_of_attribute hname h] at hstep
    simp at hstep

end

/-- Where no word is next the way ends. -/
theorem OnWay.eq_of_nameless (h : OnWay d c a s) (hs : nameless s.tokens) : a = s := by
  obtain ⟨-, clock, attributes, -, hrun⟩ := h
  rw [manyOver_of_idle (functionAttributeStep_of_nameless hs)] at hrun
  exact (Prod.mk.inj hrun).2.symm

section

variable {name : String} (hname : s.tokens.head?.bind Token.identifier? = some name)
include hname

/-- Where a word is next the way goes on behind an attribute. -/
theorem OnWay.step (h : OnWay d c a s) : ∃ x t, functionAttributeStep d c s = (.ok (some x), t)
    ∧ (t.rest.length < s.rest.length → OnWay d c a t) := by
  obtain ⟨hends, clock, attributes, hclock, hrun⟩ := h
  rcases clock with _ | ⟨l, clock⟩
  · rw [State.tokens, List.eq_nil_of_length_eq_zero (Nat.le_zero.1 hclock)] at hname
    simp at hname
  rw [manyOver] at hrun
  obtain ⟨o, t, hstep, hrest⟩ := bind_eq_ok hrun
  rcases o with _ | x
  · exact absurd hstep (functionAttributeStep_ne_none hname)
  · obtain ⟨xs, t', hxs, hpure⟩ := bind_eq_ok hrest
    obtain ⟨-, rfl⟩ := pure_eq_ok hpure
    rw [List.length_cons] at hclock
    exact ⟨x, t, hstep, fun hlt => ⟨hends, clock, xs, by omega, hxs⟩⟩

theorem length_advance_lt_of_word : s.advance.rest.length < s.rest.length := by
  obtain ⟨w, hw, -⟩ := Option.bind_eq_some_iff.1 hname
  exact length_advance_lt hw

/-- A word that is an attribute lies on the way. -/
theorem OnWay.advance_attribute (h : OnWay d c a s)
    (hattribute : (functionAttribute? name (s.nextSpan c.stop)).isSome) :
    OnWay d c a s.advance := by
  obtain ⟨x, t, hstep, hway⟩ := h.step hname
  obtain ⟨b, hb⟩ := Option.isSome_iff_exists.1 hattribute
  rw [functionAttributeStep_of_attribute hname hb] at hstep
  obtain ⟨-, rfl⟩ := Prod.mk.inj hstep
  exact hway (length_advance_lt_of_word hname)

/-- So does what an override replaces. -/
theorem OnWay.override (h : OnWay d c a s) (hw : name = "override") {o : OverrideSpecifier}
    (ho : overrideSpecifier c s = (.ok o, t)) (hlt : t.rest.length < s.rest.length) :
    OnWay d c a t := by
  obtain ⟨x, t', hstep, hway⟩ := h.step hname
  rw [functionAttributeStep_of_override hname (by rw [hw]; rfl) hw, bind_ok ho] at hstep
  obtain ⟨-, rfl⟩ := pure_eq_ok hstep
  exact hway hlt

/-- A word with neither a point nor a parenthesis behind it lies on the way. -/
theorem OnWay.advance (h : OnWay d c a s)
    (hdot : s.advance.tokens.head? ≠ some (.symbol .dot))
    (hparen : s.advance.tokens.head? ≠ some (.symbol .leftParen)) : OnWay d c a s.advance := by
  have hlt := length_advance_lt_of_word hname
  obtain ⟨x, t, hstep, hway⟩ := h.step hname
  rcases hattribute : functionAttribute? name (s.nextSpan c.stop) with _ | b
  · by_cases hw : name = "override"
    · have hword : s.tokens.head? = some (.identifier "override") := by
        obtain ⟨t, ht, hidentifier⟩ := Option.bind_eq_some_iff.1 hname
        cases t with
        | identifier w =>
          obtain rfl := Option.some.inj hidentifier
          rw [ht, hw]
        | _ => simp [Token.identifier?] at hidentifier
      have ho : ∃ o, overrideSpecifier c s = (.ok o, s.advance) := by
        have htake : word "override" c s = (.ok (s.nextSpan c.stop), s.advance) := by
          rw [word, take, bind_ok (looks_here c s), bind_ok (accept_eq_true hword)]
          rfl
        rw [overrideSpecifier, bind_ok htake, bind_ok (accept_eq_false hparen)]
        exact ⟨_, rfl⟩
      obtain ⟨o, ho⟩ := ho
      exact h.override hname hw ho hlt
    · have hm : ∃ m, modifierInvocation d c s = (.ok m, s.advance) := by
        obtain ⟨span, hidentifier⟩ := identifier_of_head (c := c) hname
        have hmany : many pathSegment? c s.advance = (.ok [], s.advance) :=
          manyOver_of_idle (by rw [pathSegment?_eq, pathAhead_eq_false hdot]; rfl) _
        have hpath : ∃ p, path c s = (.ok p, s.advance) := by
          rw [path, bind_ok hidentifier, bind_ok hmany]
          exact ⟨_, rfl⟩
        obtain ⟨p, hpath⟩ := hpath
        have hnone : callArguments? d c s.advance = (.ok none, s.advance) := by
          rw [callArguments?, bind_ok (sees_nextIs _ c _), run_ite, if_neg (by simpa using hparen)]
          rfl
        rw [modifierInvocation, bind_ok hpath, bind_ok hnone]
        exact ⟨_, rfl⟩
      obtain ⟨m, hm⟩ := hm
      rw [functionAttributeStep_of_modifier hname hattribute hw, bind_ok hm] at hstep
      obtain ⟨-, rfl⟩ := pure_eq_ok hstep
      exact hway hlt
  · exact h.advance_attribute hname (by rw [hattribute]; rfl)

end

/-! ### The way of a variable -/

theorem isSome_functionAttribute?_of_type {name : String} {span span' : Span}
    (h : (functionTypeAttribute? name span).isSome) : (functionAttribute? name span').isSome := by
  unfold functionTypeAttribute? at h
  unfold functionAttribute?
  cases hv : Visibility.ofWord? name with
  | some v => rfl
  | none =>
    rw [hv] at h
    simp only [Option.isSome_map] at h
    obtain ⟨m, hm⟩ := Option.isSome_iff_exists.1 h
    rw [hm]
    rfl

/-- The attributes of a function type lie on the way. -/
theorem OnWay.functionTypeAttributes {attributes : List FunctionTypeAttribute}
    (h : OnWay d c a s) (hrun : functionTypeAttributes c s = (.ok attributes, t)) :
    OnWay d c a t := by
  refine many_keeps (P := OnWay d c a) (fun s o t h hstep => ?_) h hrun
  rw [bind_ok (looks_here c s), bind_ok (nextWord_eq c s)] at hstep
  rcases hb : (s.tokens.head?.bind Token.identifier?).bind
    (functionTypeAttribute? · (s.nextSpan c.stop)) with _ | b <;> rw [hb] at hstep
  · obtain ⟨-, rfl⟩ := pure_eq_ok hstep
    exact h
  · obtain ⟨-, rfl⟩ : _ ∧ t = s.advance := pure_eq_ok hstep
    obtain ⟨name, hname, hb⟩ := Option.bind_eq_some_iff.1 hb
    exact h.advance_attribute hname (isSome_functionAttribute?_of_type (by rw [hb]; rfl))

/-- The attributes of a variable lie on the way, or else no name is next behind them. -/
theorem OnWay.variableAttributes {attributes : List VariableAttribute}
    (h : OnWay d c a s) (hrun : variableAttributes c s = (.ok attributes, t)) :
    OnWay d c a t ∨ nameless t.tokens := by
  refine many_keeps (P := fun s => OnWay d c a s ∨ nameless s.tokens) (fun s o t h hstep => ?_)
    (.inl h) hrun
  rw [bind_ok (looks_here c s), bind_ok (nextWord_eq c s)] at hstep
  rcases hname : s.tokens.head?.bind Token.identifier? with _ | name <;> rw [hname] at hstep
  · obtain ⟨-, rfl⟩ := pure_eq_ok hstep
    exact .inr hname
  have h := h.resolve_right fun hnameless => by rw [nameless, hname] at hnameless; simp at hnameless
  dsimp only at hstep
  rcases hb : variableAttribute? name (s.nextSpan c.stop) with _ | b <;> rw [hb] at hstep
  · dsimp only at hstep
    rw [run_ite] at hstep
    split at hstep
    · rename_i hw
      obtain ⟨o', v, ho, hpure⟩ := bind_eq_ok hstep
      obtain ⟨-, rfl⟩ := pure_eq_ok hpure
      have hlt := (echoes_overrideSpecifier (H := .alone s) (I := anywhere) (k := 0)
        Setting.lacks_alone).steps c s o' t trivial ho
      exact .inl (h.override hname hw ho (by omega))
    · obtain ⟨-, rfl⟩ := pure_eq_ok hstep
      exact .inl h
  · obtain ⟨-, rfl⟩ : _ ∧ t = s.advance := pure_eq_ok hstep
    -- `immutable` is the name of a modifier to a fallback, which may go on behind it.
    by_cases hdot : s.advance.tokens.head? = some (.symbol .dot)
    · exact .inr (nameless_of_symbol hdot)
    by_cases hparen : s.advance.tokens.head? = some (.symbol .leftParen)
    · exact .inr (nameless_of_symbol hparen)
    exact .inl (h.advance hname hdot hparen)

/-! ### Both readings -/

/-- The attributes of a fallback are its way. -/
theorem onWay_of_fallbackRest {kind : FallbackKind} {start : Span} {y : FallbackDefinition}
    (h : fallbackRest d kind start c s = (.ok y, t)) : ∃ ps v a, parameters d c s = (.ok ps, v)
      ∧ OnWay d c a v ∧ (a.tokens.head? = some (.symbol .semicolon) → t = a.advance) := by
  obtain ⟨ps, v, hps, h⟩ := bind_eq_ok h
  obtain ⟨attributes, a, hattributes, h⟩ := bind_eq_ok h
  obtain ⟨inner, w, hinner, h⟩ := bind_eq_ok h
  rw [bind_ok (looks_spanFrom _ c w)] at h
  obtain ⟨-, rfl⟩ := pure_eq_ok h
  have hends : endsAttributes a.tokens := by
    by_cases hsemicolon : a.tokens.head? = some (.symbol .semicolon)
    · exact .inl hsemicolon
    · rw [functionBody, bind_ok (accept_eq_false hsemicolon), run_ite,
        if_neg Bool.false_ne_true] at hinner
      obtain ⟨b, w', hb, -⟩ := bind_eq_ok hinner
      exact .inr (head_of_symbol hb)
  refine ⟨ps, v, a, hps, ⟨hends, v.rest, attributes, le_rfl, hattributes⟩, fun hsemicolon => ?_⟩
  rw [functionBody, bind_ok (accept_eq_true hsemicolon), run_ite, if_pos rfl] at hinner
  exact (pure_eq_ok hinner).2

/-- Parameters end at the same place whatever else may nest in them. -/
theorem parameters_eq {n : Nat} {ps ps' : List Parameter} (hc : c.structLiterals = true)
    (h : parameters (.ofDepth n) c s = (.ok ps, u))
    (h' : parameters (.ofDepth (n + 1)) c s = (.ok ps', v)) : u = v := by
  have hechoes := echoes_parameters (I := anywhere) (k := 0)
    (Nested.echoed_ofDepth (H := .alone s) (Nat.le_succ n))
  have hsilent (n : Nat) := silent_parameters (Nested.silent_ofDepth n)
  obtain ⟨qs, w, hrun, -, htokens⟩ := hechoes.run_alone (hsilent n) hc h trivial
  obtain rfl := (Prod.mk.inj (hrun.symm.trans h')).2
  obtain ⟨ts, es, htook⟩ := hechoes.onward c s
  obtain ⟨ts', es', htook'⟩ := (echoes_parameters (I := anywhere) (k := 0)
    (Nested.echoed_ofDepth (H := .alone s) (le_refl (n + 1)))).onward c s
  rw [h] at htook
  rw [h'] at htook'
  exact State.eq_of_took htook htook' (length_eq_of_tokens htokens).symm
    (((hsilent n).eq h).trans ((hsilent (n + 1)).eq h').symm)

/-- The type of a variable ends on the way of a fallback that begins like it. -/
theorem onWay_of_functionType {n : Nat} {T : TypeName} {ps : List Parameter}
    (hc : c.structLiterals = true) (hfunction : s.tokens.head? = some (.keyword .function))
    (hT : typeName (.ofDepth n) c s = (.ok T, t))
    (hps : parameters (.ofDepth (n + 1)) c s.advance = (.ok ps, v))
    (hway : OnWay d c a v) : OnWay d c a t := by
  obtain ⟨T₀, r, hbase, hsuffixes⟩ := bind_eq_ok hT
  rw [baseType, next_bind, hfunction] at hbase
  change functionType (.ofDepth n) c s = _ at hbase
  have hkeyword : keyword .function c s = (.ok (s.nextSpan c.stop), s.advance) := by
    rw [keyword, take, bind_ok (looks_here c s), bind_ok (accept_eq_true hfunction)]
    rfl
  rw [functionType, bind_ok hkeyword] at hbase
  obtain ⟨ps₀, v₀, hps₀, hbase⟩ := bind_eq_ok hbase
  obtain rfl := parameters_eq hc hps₀ hps
  obtain ⟨attributes, r₀, hattributes, hbase⟩ := bind_eq_ok hbase
  have hr := hway.functionTypeAttributes hattributes
  have hhead {x : Token} (hx : x ≠ .symbol .semicolon) (hx' : x ≠ .symbol .leftBrace)
      (hname : x.identifier? = none) : r₀.tokens.head? ≠ some x := by
    intro hhead
    obtain rfl := hr.eq_of_nameless (by rw [nameless, hhead]; exact hname)
    rcases hway.1 with h | h
    · exact hx (Option.some.inj (hhead.symm.trans h))
    · exact hx' (Option.some.inj (hhead.symm.trans h))
  have hreturns : returnParameters (.ofDepth n) c r₀ = (.ok [], r₀) := by
    rw [returnParameters, bind_ok (accept_eq_false (hhead (by simp) (by simp) rfl))]
    rfl
  rw [bind_ok hreturns, bind_ok (looks_spanFrom _ c r₀)] at hbase
  obtain ⟨-, rfl⟩ := pure_eq_ok hbase
  have hidle := iterateOver_of_idle (arraySuffix?_of_ne (d := .ofDepth n) (c := c) (T := T₀)
    (hhead (x := .symbol .leftBracket) (by simp) (by simp) rfl)) r.rest
  obtain ⟨-, rfl⟩ := Prod.mk.inj (hsuffixes.symm.trans hidle)
  exact hr

/-- Where the same tokens are a variable and a fallback, they are so up to the same semicolon. -/
theorem stateVariable_eq_namelessFallback : ∀ {n : Nat} {x : StateVariable} {y : FallbackDefinition},
    c.structLiterals = true → stateVariable (.ofDepth n) c s = (.ok x, u) →
    namelessFallback (.ofDepth n) c s = (.ok y, t) → u = t := by
  intro n x y hc hx hy
  cases n with
  | zero =>
    rw [stateVariable, bind_ok (looks_here c s)] at hx
    obtain ⟨T, r, hT, -⟩ := bind_eq_ok hx
    exact absurd hT Nested.tooDeep_ne_ok
  | succ n =>
    obtain ⟨start, v₀, hkeyword, hrest⟩ := bind_eq_ok hy
    obtain ⟨hfunction, rfl⟩ := take_eq_ok hkeyword
    obtain ⟨ps, v, a, hps, hway, hend⟩ := onWay_of_fallbackRest hrest
    rw [stateVariable, bind_ok (looks_here c s)] at hx
    obtain ⟨T, r, hT, hx⟩ := bind_eq_ok hx
    have hr : OnWay (.ofDepth (n + 1)) c a r := onWay_of_functionType hc hfunction hT hps hway
    obtain ⟨attributes, q, hattributes, hx⟩ := bind_eq_ok hx
    obtain ⟨name, q', hidentifier, hx⟩ := bind_eq_ok hx
    obtain ⟨hname, rfl⟩ := identifier_eq_ok hidentifier
    have hq : OnWay (.ofDepth (n + 1)) c a q :=
      (hr.variableAttributes hattributes).resolve_right fun h => by
        rw [nameless, hname] at h
        simp at h
    -- Behind the name stands the semicolon, or else a value, which no fallback has.
    have hadvance {b : Symbol} (hb : q.advance.tokens.head? = some (.symbol b)) (hdot : b ≠ .dot)
        (hparen : b ≠ .leftParen) : a = q.advance :=
      (hq.advance hname (by simpa [hb] using hdot) (by simpa [hb] using hparen)).eq_of_nameless
        (nameless_of_symbol hb)
    by_cases hassign : q.advance.tokens.head? = some (.symbol .assign)
    · obtain rfl := hadvance hassign (by decide) (by decide)
      rcases hway.1 with h | h
      · simp [hassign] at h
      · simp [hassign] at h
    · rw [bind_ok (accept_eq_false hassign), run_ite, if_neg Bool.false_ne_true] at hx
      have hnone : (pure none : Parser (Option Expr)) c q.advance = (.ok none, q.advance) := rfl
      rw [bind_ok hnone] at hx
      obtain ⟨_, w, hsymbol, hx⟩ := bind_eq_ok hx
      obtain ⟨hsemicolon, rfl⟩ := symbol_eq_ok hsymbol
      rw [bind_ok (looks_spanFrom _ c _)] at hx
      obtain ⟨-, rfl⟩ := pure_eq_ok hx
      obtain rfl := hadvance hsemicolon (by decide) (by decide)
      exact (hend hsemicolon).symm

end Grammar

end SolidityFrontend
