import SolidityFrontend.Proofs.AgreeingExpr
import SolidityFrontend.Proofs.EchoingType

/-!
# Expressions in an echo

The parsers for expressions echo each other, if those of the level below do. Where named fields are
not allowed an expression may end before some only if it goes on to read them and gives them back;
such ends are left out, unless they are the end of the passage (`uncut`).
-/

namespace SolidityFrontend

open SolidityFrontend.Parser

namespace Parser

variable {α β : Type} [Placed α] [Placed β] {H : Setting} {j k : Nat} {p p' q q' : Parser α}
  {P : Proviso α} {I : List Lexeme → Prop} {c : Context} {t u : State}

/-- A choice by the token behind the next one: where it is there, both are taken. -/
theorem echoes_peek_one {a : Token} (htrue : Echoes H P I (k + 2) k p p')
    (hfalse : Echoes H P I (k + 1) k q q') (hbars : H.Bars k a) :
    Echoes H P I (k + 1) k (peek? 1 >>= fun o => if o = some a then p else q)
      (peek? 1 >>= fun o => if o = some a then p' else q') where
  onward := (peeks_peek 1).looks.onward.bind fun _ =>
    .ite (fun _ => htrue.onward) fun _ => hfalse.onward
  steps c s x t hs hx := by
    rw [bind_ok (sees_peek 1 c s), run_ite] at hx
    split at hx
    · exact (htrue.lower (Nat.le_succ _)).steps c s x t hs hx
    · exact hfalse.steps c s x t hs hx
  run {c c'} hc w s s' hs hI x t hx hk hP := by
    rw [bind_ok (sees_peek 1 c s), run_ite] at hx
    rw [bind_ok (sees_peek 1 c' s'), run_ite]
    dsimp only at hx ⊢
    have htwo (hw : 1 < w.length) : s'.tokens[1]? = s.tokens[1]? := by
      rw [hs.tokens₁, hs.tokens₂, List.getElem?_append_left (by simpa using hw),
        List.getElem?_append_left (by simpa using hw)]
    have hlength := hs.length₁
    have hkept := hk.2
    split at hx
    · rename_i ha
      have hle := htrue.steps c s x t hI hx
      rw [if_pos ((htwo (by omega)).trans ha)]
      exact htrue.run hc hs hI hx hk hP
    · rename_i ha
      have hle := hfalse.steps c s x t hI hx
      have ha' : s'.tokens[1]? ≠ some a := by
        by_cases hw : 1 < w.length
        · rwa [htwo hw]
        · obtain ⟨l, rfl⟩ := List.length_eq_one_iff.1 (show w.length = 1 by omega)
          rw [List.length_singleton] at hlength
          rw [hs.tokens₁] at ha
          rw [hs.tokens₂]
          change ¬(H.next₁.map Lexeme.token)[0]? = some a at ha
          change (H.next₂.map Lexeme.token)[0]? ≠ some a
          rw [← List.head?_eq_getElem?, List.head?_map] at ha ⊢
          exact mt (hbars (by omega)) ha
      rw [if_neg ha']
      exact hfalse.run hc hs hI hx hk hP

theorem Sees.echoes_same {γ : Type} {g : List Token → γ} {look : Parser γ} (h : Sees look g)
    (hp : Echoes H P I j k p p') : Echoes H P I j k (look >>= fun _ => p) (look >>= fun _ => p') where
  onward := fun c s => by
    rw [bind_ok (h c s)]
    exact hp.onward c s
  steps c s x t hs hx := by
    rw [bind_ok (h c s)] at hx
    exact hp.steps c s x t hs hx
  run {c c'} hc _ s s' hs hI _ _ hx := by
    rw [bind_ok (h c s)] at hx
    rw [bind_ok (h c' s')]
    exact hp.run hc hs hI hx

theorem fieldsAhead_eq_false {ts : List Token} (h : ts.head? ≠ some (.symbol .leftBrace)) :
    fieldsAhead ts = false := by
  rw [fieldsAhead, ← List.head?_eq_getElem?, beq_eq_false_iff_ne.2 h, Bool.false_and,
    Bool.false_and]

theorem uncut_of_head (h : t.tokens.head? ≠ some (.symbol .leftBrace)) : uncut H c t :=
  .inr (.inl (fieldsAhead_eq_false h))

omit [Placed β] in
/-- Behind something that takes nothing before a brace. -/
theorem uncut_of_idle {f : Parser β} {y : β} (hy : f c t = (.ok y, u)) (hu : uncut H c u)
    (hidle : t.tokens.head? = some (.symbol .leftBrace) → ∃ y', f c t = (.ok y', t)) :
    uncut H c t := by
  by_cases hbrace : t.tokens.head? = some (.symbol .leftBrace)
  · obtain ⟨y', hy'⟩ := hidle hbrace
    obtain rfl := (Prod.mk.inj (hy'.symm.trans hy)).2
    exact hu
  · exact uncut_of_head hbrace

omit [Placed α] in
/-- A loop of which no round begins before a brace. -/
theorem suffices_uncut {more : α → Parser (Option α)}
    (h : ∀ x c t, t.tokens.head? = some (.symbol .leftBrace) → more x c t = (.ok none, t)) :
    Suffices (uncut H) (fun _ => uncut H) more where
  last _ _ := id
  amid x c t _ hrest := by
    by_cases hbrace : t.tokens.head? = some (.symbol .leftBrace)
    · exact hrest (h x c t hbrace)
    · exact uncut_of_head hbrace

end Parser

namespace Grammar

variable {H : Setting} {k : Nat} {I : List Lexeme → Prop}

/-! ### Arguments -/

theorem echoes_argumentsContinue : Echoes H always I (k + 1) (k + 1) argumentsContinue
    argumentsContinue := by
  refine echoes_if_nextIs_inside (echoes_pure rfl) ?_
  exact ((echoes_symbol _).bind fun _ _ _ => echoes_pure rfl).perhaps

/-- A place of a tuple, which stands before other tokens of the passage. -/
theorem echoes_tuplePlace {α : Type} [Placed α] {item item' : Parser α}
    (h : Echoes H always anywhere (k + 2) (k + 1) item item') :
    Echoes H always I (k + 1) (k + 1) (tuplePlace item) (tuplePlace item') := by
  refine echoes_if_nextIs_inside (echoes_pure rfl) ?_
  refine echoes_if_nextIs_inside (echoes_pure rfl) ?_
  exact (h.at.bind fun x x' hx => echoes_pure (congrArg some hx)).perhaps

section

variable {d d' : Nested} (hd : d.Echoed H d')
include hd

theorem echoes_inside (hk : H.Calm k) : Echoes H always I (k + 1) k (inside d) (inside d') :=
  (hd.expression k hk).at.structLiterals (fun _ _ _ _ => .inl rfl) fun _ => rfl

/-- A named argument stands before other tokens of the passage. -/
theorem echoes_namedArgument : Echoes H (givenContext fun c => c.structLiterals = true) I (k + 2)
    (k + 1) (namedArgument d) (namedArgument d') := by
  refine echoes_identifier.bind fun name name' hname => ?_
  refine (echoes_symbol (k := k + 1) _).perhaps.bind fun _ _ _ => ?_
  refine (hd.expression (k + 1) Setting.calm_succ).perhaps.bind_if
    (fun value value' hvalue => ?_) fun _ _ _ _ _ _ h => .inl h
  exact echoes_spanFrom fun _ _ => echoes_pure (by simp [Alike, hname, hvalue])

theorem echoes_namedArguments :
    Echoes H always I (k + 2) k (namedArguments d) (namedArguments d') := by
  have hinner : Echoes H (givenContext fun c => c.structLiterals = true) I (k + 2) k
      (symbol .leftBrace >>= fun _ => commaItems .rightBrace (namedArgument d) >>= fun arguments =>
        symbol .rightBrace >>= fun _ => pure arguments)
      (symbol .leftBrace >>= fun _ => commaItems .rightBrace (namedArgument d') >>= fun arguments =>
        symbol .rightBrace >>= fun _ => pure arguments) := by
    refine (echoes_symbol (k := k + 1) _).bind fun _ _ _ => ?_
    refine (echoes_commaItems (k := k + 1) (echoes_namedArgument hd)).bind_if
      (fun arguments arguments' h => ?_) fun _ _ _ _ _ _ h => h
    exact (echoes_symbol _).bind fun _ _ _ => echoes_pure h
  exact hinner.structLiterals (fun _ _ _ _ => rfl) fun _ => rfl

theorem echoes_callArguments :
    Echoes H always I (k + 2) k (callArguments d) (callArguments d') := by
  refine (echoes_symbol (k := k + 1) _).bind fun start start' _ => ?_
  refine echoes_if_nextIs_inside ?_ ?_
  · refine ((echoes_namedArguments (k := k + 1) hd).lower (by omega)).bind
      fun arguments arguments' h => ?_
    refine (echoes_symbol _).bind fun _ _ _ => ?_
    exact echoes_spanFrom fun _ _ => echoes_pure (by simp [Alike, h])
  · refine (echoes_itemsUntil (R := fun _ => True) (echoes_inside hd Setting.calm_succ)
      echoes_argumentsContinue).bind fun arguments arguments' h => ?_
    refine (echoes_symbol _).bind fun _ _ _ => ?_
    exact echoes_spanFrom fun _ _ => echoes_pure (by simp [Alike, h])

theorem echoes_callArguments? (hk : H.Lacks k (.symbol .leftParen)) :
    Echoes H always I k k (callArguments? d) (callArguments? d') := by
  refine echoes_if_nextIs (Echoes.lower ?_ (Nat.le_succ _)) (echoes_pure rfl) hk.bars
  exact (echoes_callArguments hd).bind fun arguments arguments' h => echoes_pure (congrArg some h)

/-! ### Primary expressions -/

theorem echoes_elementaryExpr (hk : H.Calm k) :
    Echoes H always I (k + 1) k (elementaryExpr d) (elementaryExpr d') := by
  refine (echoes_elementaryTypeName (hk.lacks (by decide)) false).bind fun type type' htype => ?_
  refine echoes_if_accept ?_ (echoes_pure (by simp [Alike, htype])) (hk.bars rfl)
  refine (echoes_inside (k := k + 1) hd Setting.calm_succ).perhaps.lower (by omega) |>.bind
    fun argument argument' h => ?_
  refine (echoes_symbol _).bind fun _ _ _ => ?_
  exact echoes_spanFrom fun _ _ => echoes_pure (by simp [Alike, htype, h])

theorem echoes_payableExpr :
    Echoes H always I (k + 2) k (payableExpr d) (payableExpr d') := by
  refine (echoes_word (k := k + 2) _).perhaps.bind fun start start' _ => ?_
  refine (echoes_callArguments hd).bind fun arguments arguments' h => ?_
  exact echoes_spanFrom fun _ _ => echoes_pure (by simp [Alike, h])

theorem echoes_metaTypeExpr :
    Echoes H always I (k + 2) k (metaTypeExpr d) (metaTypeExpr d') := by
  refine (echoes_word (k := k + 1) _).bind fun start start' _ => ?_
  refine (echoes_symbol (k := k + 1) _).perhaps.bind fun _ _ _ => ?_
  refine (hd.typeName _ Setting.mild_succ).perhaps.bind fun type type' h => ?_
  refine (echoes_symbol _).bind fun _ _ _ => ?_
  exact echoes_spanFrom fun _ _ => echoes_pure (by simp [Alike, h])

theorem echoes_newExpr (hk : H.Calm k) :
    Echoes H always I (k + 1) k (newExpr d) (newExpr d') := by
  refine (echoes_keyword (k := k + 1) _).perhaps.bind fun start start' _ => ?_
  refine (hd.typeName k hk.mild).bind fun type type' h => ?_
  exact echoes_spanFrom fun _ _ => echoes_pure (by simp [Alike, h])

theorem echoes_parenthesizedOrTuple :
    Echoes H always I (k + 1) k (parenthesizedOrTuple d) (parenthesizedOrTuple d') := by
  refine (echoes_symbol (k := k + 1) _).perhaps.bind fun start start' _ => ?_
  refine echoes_if_accept_inside (m := k) ?_ ?_
  · exact echoes_spanFrom fun _ _ => echoes_pure (by simp [Alike])
  have hplace := echoes_tuplePlace (I := anywhere) (echoes_inside (k := k + 1) hd Setting.calm_succ)
  refine (echoes_separated hplace Setting.bars_succ).bind fun elements elements' h => ?_
  refine (echoes_symbol _).bind fun _ _ _ => echoes_spanFrom fun span span' => ?_
  rcases elements with _ | ⟨_ | e, _ | ⟨b, elements⟩⟩ <;>
    rcases elements' with _ | ⟨_ | e', _ | ⟨b', elements'⟩⟩ <;>
    simp [Alike] at h <;> exact echoes_pure (by simp [Alike, h])

theorem echoes_inlineArray :
    Echoes H always I (k + 1) k (inlineArray d) (inlineArray d') := by
  refine (echoes_symbol (k := k + 1) _).perhaps.bind fun start start' _ => ?_
  refine (echoes_commaItems (R := fun _ => True) (echoes_inside hd Setting.calm_succ)).bind
    fun elements elements' h => ?_
  refine (echoes_symbol _).bind fun _ _ _ => ?_
  exact echoes_spanFrom fun _ _ => echoes_pure (by simp [Alike, h])

omit hd in
theorem identifierExpr_of_ne {name : String} (h : name ≠ "payable") (h' : name ≠ "type") :
    identifierExpr d name
      = peek? 1 >>= fun _ => identifier >>= fun i => pure (Expr.identifier i) := by
  unfold identifierExpr
  simp only [h, h', if_false, ite_self]

theorem echoes_identifierExpr (hk : H.Calm k) (name : String) :
    Echoes H always I (k + 1) k (identifierExpr d name) (identifierExpr d' name) := by
  have hname : Echoes H always I (k + 1) k (identifier >>= fun i => pure (Expr.identifier i))
      (identifier >>= fun i => pure (Expr.identifier i)) :=
    echoes_identifier.bind fun i i' hi => echoes_pure (by simp [Alike, hi])
  by_cases hpayable : name = "payable"
  · subst hpayable
    exact echoes_peek_one (echoes_payableExpr hd) hname (hk.bars rfl)
  · by_cases htype : name = "type"
    · subst htype
      exact echoes_peek_one (echoes_metaTypeExpr hd) hname (hk.bars rfl)
    · rw [identifierExpr_of_ne hpayable htype, identifierExpr_of_ne hpayable htype]
      exact (sees_peek 1).echoes_same hname

theorem echoes_primaryExpr (hk : H.Calm k) :
    Echoes H always I (k + 1) k (primaryExpr d) (primaryExpr d') := by
  refine echoes_next fun next => ?_
  rcases next with _ | t
  · exact echoes_unexpected _
  dsimp only
  cases hp : literal? t with
  | some p =>
    exact ((echoes_literal hk hp).weaken fun _ h => ⟨trivial, h.2⟩).bind
      fun l l' hl => echoes_pure (by simp [Alike, hl])
  | none =>
    cases t with
    | identifier name => exact echoes_identifierExpr hd hk name
    | elementaryType word => exact echoes_elementaryExpr hd hk
    | keyword word =>
      cases word with
      | new => exact echoes_newExpr hd hk
      | _ => exact echoes_unexpected _
    | symbol b =>
      cases b with
      | leftParen => exact echoes_parenthesizedOrTuple hd
      | leftBracket => exact echoes_inlineArray hd
      | _ => exact echoes_unexpected _
    | _ => exact echoes_unexpected _

/-! ### What follows a primary expression -/

/-- A bound of a slice stands before other tokens of the passage. -/
theorem echoes_bound? (stop : Symbol) :
    Echoes H always I (k + 1) (k + 1) (bound? d stop) (bound? d' stop) := by
  refine echoes_if_nextIs_inside (echoes_pure rfl) ?_
  refine ((echoes_inside hd Setting.calm_succ).perhaps).bind fun e e' h => ?_
  exact echoes_pure (congrArg some h)

theorem echoes_indexOrSlice {base base' : Expr} (hbase : Alike base base') :
    Echoes H always I (k + 1) k (indexOrSlice d base) (indexOrSlice d' base') := by
  refine (echoes_symbol (k := k + 1) _).perhaps.bind fun _ _ _ => ?_
  refine echoes_if_accept_inside (m := k) ?_ ?_
  · exact echoes_spanFrom fun _ _ => echoes_pure (by simp [Alike, hbase])
  refine (echoes_bound? hd .colon).bind fun lower lower' hlower => ?_
  refine echoes_if_accept_inside (m := k + 1) ?_ ?_
  · refine (echoes_bound? hd .rightBracket).bind fun upper upper' hupper => ?_
    refine (echoes_symbol _).bind fun _ _ _ => ?_
    exact echoes_spanFrom fun _ _ => echoes_pure (by simp [Alike, hbase, hlower, hupper])
  · refine (echoes_symbol _).bind fun _ _ _ => ?_
    exact echoes_spanFrom fun _ _ => echoes_pure (by simp [Alike, hbase, hlower])

omit hd in
theorem sees_fieldsBegin : Sees fieldsBegin fieldsAhead := by
  intro c s
  have hget (n : Nat) : s.rest[n]?.map Lexeme.token = s.tokens[n]? := List.getElem?_map.symm
  rw [peeks_fieldsBegin c s]
  dsimp only
  rw [hget, hget, hget, fieldsAhead]

/-- What the next token makes of an expression, if it is not a brace. -/
def plainSuffix? (deeper : Nested) (e : Expr) : Option Token → Parser (Option Expr)
  | some (.symbol .leftBracket) => do return some (← indexOrSlice deeper e)
  | some (.symbol .dot) => do
    advance
    let name ← identifier
    return some (.member e name (← spanFrom e.span))
  | some (.symbol .leftParen) => do
    let arguments ← callArguments deeper
    return some (.call e arguments (← spanFrom e.span))
  | some (.symbol .plusPlus) => do
    advance
    return some (.update .increment .after e (← spanFrom e.span))
  | some (.symbol .minusMinus) => do
    advance
    return some (.update .decrement .after e (← spanFrom e.span))
  | _ => return none

/-- The tokens with which an expression goes on, apart from a brace. -/
def startsSuffix : Option Token → Bool
  | some (.symbol b) =>
    b ∈ [Symbol.leftBracket, .dot, .leftParen, .plusPlus, .minusMinus]
  | _ => false

omit hd in
theorem plainSuffix?_of_not {e : Expr} {o : Option Token} (h : startsSuffix o ≠ true) :
    plainSuffix? d e o = pure none := by
  unfold plainSuffix?
  split <;> first | rfl | exact absurd rfl h

omit hd in
theorem suffix?_eq (e : Expr) (c : Context) (s : State) : suffix? d e c s
    = if fieldsAhead s.tokens then structFields? d e c s else (next? >>= plainSuffix? d e) c s := by
  rw [suffix?, next_bind, next_bind]
  by_cases hbrace : s.tokens.head? = some (.symbol .leftBrace)
  · rw [hbrace]
    dsimp only
    rw [bind_ok (sees_fieldsBegin c s), run_ite]
    rfl
  · rw [fieldsAhead_eq_false hbrace, if_neg Bool.false_ne_true]
    generalize s.tokens.head? = o at hbrace ⊢
    rcases o with _ | t
    · rfl
    cases t with
    | symbol b => cases b <;> first | rfl | exact absurd rfl hbrace
    | _ => rfl

theorem rounds_plainSuffix? (hk : H.Calm k) {e e' : Expr} (he : Alike e e')
    {S : Proviso (Option Expr)} :
    Rounds H S k (next? >>= plainSuffix? d e) (next? >>= plainSuffix? d' e') := by
  refine rounds_next (T := fun o => startsSuffix o) (fun o ho => ?_)
    (fun o ho => ⟨plainSuffix?_of_not ho, plainSuffix?_of_not ho⟩) (by simp [startsSuffix]) ?_
  · rcases o with _ | t
    · simp [startsSuffix] at ho
    have hupdate (op : UpdateOp) : Echoes H S (facing anywhere (some t)) (k + 1) k
        (advance >>= fun _ => spanFrom e.span >>= fun span =>
          pure (some (Expr.update op .after e span)))
        (advance >>= fun _ => spanFrom e'.span >>= fun span =>
          pure (some (Expr.update op .after e' span))) := by
      refine echoes_advance_seen.bind fun _ _ _ => ?_
      exact echoes_spanFrom fun _ _ => echoes_pure (by simp [Alike, he])
    cases t with
    | symbol b =>
      cases b with
      | leftBracket =>
        exact (echoes_indexOrSlice hd he).bind fun e e' h => echoes_pure (congrArg some h)
      | dot =>
        refine (echoes_advance_seen (k := k + 1)).perhaps.bind fun _ _ _ => ?_
        refine echoes_identifier.bind fun name name' hname => ?_
        exact echoes_spanFrom fun _ _ => echoes_pure (by simp [Alike, he, hname])
      | leftParen =>
        refine ((echoes_callArguments hd).lower (Nat.le_succ _)).bind fun args args' hargs => ?_
        exact echoes_spanFrom fun _ _ => echoes_pure (by simp [Alike, he, hargs])
      | plusPlus => exact hupdate .increment
      | minusMinus => exact hupdate .decrement
      | _ => exact absurd ho (by decide)
    | _ => simp [startsSuffix] at ho
  · intro hk₀ ho
    rcases hhead : H.head₂ with _ | t
    · simp [hhead, startsSuffix] at ho
    · have hcalm := hk hk₀ t hhead
      cases t with
      | symbol b =>
        cases b with
        | rightBrace | rightBracket | rightParen | semicolon => simp [hhead, startsSuffix] at ho
        | _ => simp [Token.isCalm, isClosing] at hcalm
      | _ => simp [hhead, startsSuffix] at ho

omit hd in
theorem onward_structFields? {e : Expr} (h : Onward (namedArguments d)) :
    Onward (structFields? d e) := by
  intro c s
  obtain ⟨ts, es, ht⟩ := h c s
  rw [structFields?_eq]
  rcases hfields : namedArguments d c s with ⟨error | fields, t⟩ <;> rw [hfields] at ht
  · exact ⟨ts, es, ht⟩
  · dsimp only
    split
    · obtain ⟨us, ds, hu⟩ := ((onward_spanFrom e.span).bind fun span =>
        onward_pure (some (Expr.struct e fields span))) c t
      exact ⟨ts ++ us, es ++ ds, ht.trans hu⟩
    · exact ⟨[], [], .refl s⟩

omit hd in
/-- Named fields begin with three tokens. -/
theorem cons_of_fieldsAhead {s : State} (h : fieldsAhead s.tokens) :
    ∃ l₁ l₂ l₃ rest, s.rest = l₁ :: l₂ :: l₃ :: rest ∧ l₂.token.identifier?.isSome := by
  rw [fieldsAhead, State.tokens, Bool.and_eq_true, Bool.and_eq_true] at h
  rcases hrest : s.rest with _ | ⟨l₁, _ | ⟨l₂, _ | ⟨l₃, rest⟩⟩⟩ <;> rw [hrest] at h
  · simp at h
  · simp at h
  · simp at h
  · exact ⟨l₁, l₂, l₃, rest, rfl, h.1.2⟩

/-- Where named fields begin there is more than a name between the braces. -/
theorem length_namedArguments {c : Context} {s t : State} {fields : List NamedArgument}
    (h : namedArguments d c s = (.ok fields, t)) (hs : fieldsAhead s.tokens) :
    t.rest.length + 3 ≤ s.rest.length := by
  have honward : Onward (commaItems .rightBrace (namedArgument d)) :=
    (echoes_commaItems (I := anywhere) (k := 1) (echoes_namedArgument hd)).onward
  obtain ⟨_, s₁, hopen, h₁⟩ := bind_eq_ok h
  obtain ⟨arguments, s₂, hitems, h₂⟩ := bind_eq_ok h₁
  obtain ⟨_, s₃, hclose, h₃⟩ := bind_eq_ok h₂
  obtain ⟨-, rfl⟩ := pure_eq_ok h₃
  obtain ⟨-, rfl⟩ := symbol_eq_ok hopen
  obtain ⟨hbrace, rfl⟩ := symbol_eq_ok hclose
  obtain ⟨l₁, l₂, l₃, rest, hrest, hname⟩ := cons_of_fieldsAhead hs
  obtain ⟨ts, es, htook⟩ := honward { c with structLiterals := true } s.advance
  rw [hitems] at htook
  have hadvance : s.advance.rest = l₂ :: l₃ :: rest := by rw [State.advance, hrest]
  have htake := htook.1
  dsimp only at htake
  rw [hadvance] at htake
  -- The closing brace is not the name.
  have hts : ts ≠ [] := by
    rintro rfl
    rw [State.tokens, ← List.nil_append s₂.rest, ← htake] at hbrace
    rw [Option.some.inj hbrace] at hname
    simp [Token.identifier?] at hname
  obtain ⟨l, rest₂, hrest₂⟩ : ∃ l rest₂, s₂.rest = l :: rest₂ := by
    rcases hnil : s₂.rest with _ | ⟨l, rest₂⟩
    · rw [State.tokens, hnil] at hbrace
      simp at hbrace
    · exact ⟨l, rest₂, rfl⟩
  have hlength := congrArg List.length htake
  have hpos := List.length_pos_of_ne_nil hts
  rw [List.length_append, hrest₂] at hlength
  rw [State.advance, hrest₂, hrest]
  simp only [List.length_cons] at hlength ⊢
  omega

omit hd in
/-- Where named fields are not read, none are allowed. -/
theorem structFields?_none {e : Expr} {c : Context} {s t : State}
    (h : structFields? d e c s = (.ok none, t)) : t = s ∧ c.structLiterals = false := by
  rw [structFields?_eq] at h
  split at h
  · simp at h
  · split at h
    · obtain ⟨span, u, -, hu⟩ := bind_eq_ok h
      simpa using (pure_eq_ok hu).1
    · rename_i hallowed
      rw [Bool.or_eq_true, not_or, Bool.not_eq_true] at hallowed
      exact ⟨(Prod.mk.inj h).2.symm, hallowed.1⟩

theorem length_structFields? {e e₁ : Expr} {c : Context} {s t : State}
    (h : structFields? d e c s = (.ok (some e₁), t)) (hs : fieldsAhead s.tokens) :
    t.rest.length + 3 ≤ s.rest.length := by
  rw [structFields?_eq] at h
  rcases hfields : namedArguments d c s with ⟨error | fields, u⟩ <;> rw [hfields] at h
  · simp at h
  dsimp only at h
  split at h
  · have honward : Onward (spanFrom e.span >>= fun span =>
        pure (some (Expr.struct e fields span))) :=
      (onward_spanFrom e.span).bind fun _ => onward_pure _
    have hle := honward.length_le c u
    have hlength := length_namedArguments hd hfields hs
    rw [h] at hle
    exact (Nat.add_le_add_right hle 3).trans hlength
  · simp at h

/-- Named fields that were read are read again in an echo. -/
theorem run_structFields? {e e' e₁ : Expr} (he : Alike e e') {c c' : Context} {s s' t : State}
    {w : List Lexeme} (hc : Setting.Knows k c c') (hs : H.At w s s')
    (h : structFields? d e c s = (.ok (some e₁), t)) (hk : H.Kept k t) :
    ∃ o t' v, structFields? d' e' c' s' = (.ok o, t') ∧ Alike (some e₁) o ∧ H.At v t t' := by
  rw [structFields?_eq] at h
  rcases hfields : namedArguments d c s with ⟨error | fields, u⟩ <;> rw [hfields] at h
  · simp at h
  dsimp only at h
  split at h
  · rename_i hallowed
    have hlast (fields' : List NamedArgument) (hfields' : Alike fields fields') :
        Echoes H always anywhere k k
          (spanFrom e.span >>= fun span => pure (some (Expr.struct e fields span)))
          (spanFrom e'.span >>= fun span => pure (some (Expr.struct e' fields' span))) :=
      echoes_spanFrom fun _ _ => echoes_pure (by simp [Alike, he, hfields'])
    have hku : H.Kept k u := (hlast fields rfl).onward.kept (by rw [h]; exact hk)
    obtain ⟨fields', u', v, hfields', halike, hu⟩ :=
      (echoes_namedArguments (I := anywhere) hd).run hc hs trivial hfields hku trivial
    obtain ⟨o, t', v', ho, hsome, ht⟩ := (hlast fields' halike).run hc hu trivial h hk trivial
    refine ⟨o, t', v', ?_, hsome, ht⟩
    have hallowed' : (c'.structLiterals
        || u'.rest[0]?.map Lexeme.token == some (.symbol .leftParen)) = true := by
      rcases hflag : c'.structLiterals with _ | _
      · obtain ⟨k', rfl⟩ : ∃ k', k = k' + 1 := by
          refine Nat.exists_eq_succ_of_ne_zero fun hk₀ => ?_
          rw [hc.open_end hk₀] at hflag
          simp at hflag
        have hflag' : c.structLiterals = false := by
          rw [← Bool.not_eq_true]
          exact fun h => by simp [hc.structLiterals h] at hflag
        have hhead := hu.head_eq (hu.ne_nil hku)
        rw [State.tokens, State.tokens, List.head?_map, List.head?_map, List.head?_eq_getElem?,
          List.head?_eq_getElem?] at hhead
        rwa [hflag', ← hhead] at hallowed
      · rfl
    rw [structFields?_eq, hfields']
    dsimp only
    rw [if_pos hallowed', ho]
  · simp at h

omit hd in
theorem plainSuffix?_of_ahead {e : Expr} {c : Context} {s : State} (h : fieldsAhead s.tokens) :
    (next? >>= plainSuffix? d e) c s = (.ok none, s) := by
  have hhead : s.tokens.head? = some (.symbol .leftBrace) := by
    by_contra hne
    rw [fieldsAhead_eq_false hne] at h
    simp at h
  rw [next_bind, hhead]
  rfl

theorem onward_suffix? (e : Expr) : Onward (suffix? d e) := by
  have hplain := (rounds_plainSuffix? (S := always) (k := 1) hd Setting.calm_succ
    (rfl : Alike e e)).echoes.onward
  have hfields : Onward (structFields? d e) :=
    onward_structFields? (echoes_namedArguments (I := anywhere) (k := 0) hd).onward
  intro c s
  rw [suffix?_eq]
  split
  · exact hfields c s
  · exact hplain c s

omit hd in
/-- At the end of the passage no named fields begin in the second text. -/
theorem not_fieldsAhead_of_end (hk : H.Calm k) (hk₀ : k = 0) {s s' : State} (hs : H.At [] s s') :
    ¬fieldsAhead s'.tokens := by
  rw [fieldsAhead_eq_false]
  · exact Bool.false_ne_true
  · rw [hs.head_nil₂]
    intro hbrace
    exact absurd (hk hk₀ _ hbrace) (by decide)

theorem echoes_suffix? (hk : H.Calm k) {e e' : Expr} (he : Alike e e') :
    Echoes H (atLast (uncut H)) anywhere k k (suffix? d e) (suffix? d' e') where
  onward := onward_suffix? hd e
  steps c s o t _ ho := by
    have hle := (onward_suffix? hd e).length_le c s
    rw [ho] at hle
    exact Nat.add_le_add_right hle k
  run {c c'} hc w s s' hs _ o t ho hkept hR := by
    have hplain := (rounds_plainSuffix? (S := atLast (uncut H)) hd hk he).echoes
    have hroom := hkept.2
    have hlength := hs.length₁
    rw [suffix?_eq] at ho ⊢
    split at ho
    · rename_i hahead
      cases o with
      | none =>
        obtain ⟨rfl, hflag⟩ := structFields?_none ho
        -- Named fields that were given back stand behind the passage, which ends here.
        have hend : t.rest.length ≤ H.next₁.length := by
          simpa [uncut, hflag, hahead] using hR
        obtain rfl : w = [] := List.eq_nil_of_length_eq_zero (by omega)
        rw [List.length_nil] at hlength
        have hk₀ : k = 0 := by omega
        rw [if_neg (not_fieldsAhead_of_end hk hk₀ hs)]
        refine ⟨none, s', [], ?_, rfl, hs⟩
        exact (rounds_plainSuffix? (S := always) hd hk he).halts hk₀ c c' t s' hs
          (.inr ⟨t, plainSuffix?_of_ahead hahead, le_rfl⟩)
      | some e₁ =>
        have htake := length_structFields? hd ho hahead
        obtain ⟨l₁, l₂, l₃, w, rfl⟩ : ∃ l₁ l₂ l₃ w', w = l₁ :: l₂ :: l₃ :: w' := by
          rcases w with _ | ⟨l₁, _ | ⟨l₂, _ | ⟨l₃, w'⟩⟩⟩
          · rw [List.length_nil] at hlength
            omega
          · rw [List.length_singleton] at hlength
            omega
          · rw [List.length_cons, List.length_singleton] at hlength
            omega
          · exact ⟨l₁, l₂, l₃, w', rfl⟩
        have hahead' : fieldsAhead s'.tokens := by
          rw [hs.tokens₁] at hahead
          rw [hs.tokens₂]
          exact hahead
        rw [if_pos hahead']
        exact run_structFields? hd he hc hs ho hkept
    · rename_i hahead
      have hle := hplain.onward.length_le c s
      rw [ho] at hle
      dsimp only at hle
      have hahead' : ¬fieldsAhead s'.tokens := by
        by_cases hw : w = []
        · subst hw
          rw [List.length_nil] at hlength
          exact not_fieldsAhead_of_end hk (by omega) hs
        · rw [hs.tokens₁] at hahead
          rw [hs.tokens₂]
          exact mt (H.fields _ hs.suffix (by simpa using hw)) hahead
      rw [if_neg hahead']
      exact hplain.run hc hs trivial ho hkept hR

theorem rounds_suffix? (hk : H.Calm k) {e e' : Expr} (he : Alike e e') :
    Rounds H (atLast (uncut H)) k (suffix? d e) (suffix? d' e') where
  echoes := echoes_suffix? hd hk he
  strides c s x t hx := by
    rw [suffix?_eq] at hx
    split at hx
    · rename_i hahead
      have hlength := length_structFields? hd hx hahead
      omega
    · exact (rounds_plainSuffix? (S := always) hd hk he).strides c s x t hx
  halts hk₀ c c' s s' hs hend := by
    rw [suffix?_eq, if_neg (not_fieldsAhead_of_end hk hk₀ hs)]
    refine (rounds_plainSuffix? (S := always) hd hk he).halts hk₀ c c' s s' hs (hend.imp_right ?_)
    rintro ⟨t, ht, hle⟩
    by_cases hahead : fieldsAhead s.tokens
    · exact ⟨s, plainSuffix?_of_ahead hahead, le_rfl⟩
    · rw [suffix?_eq, if_neg hahead] at ht
      exact ⟨t, ht, hle⟩

theorem echoes_suffixedExpr (hk : H.Calm k) :
    Echoes H (fun _ => uncut H) I (k + 1) k (suffixedExpr d) (suffixedExpr d') :=
  (echoes_primaryExpr hd hk).bind fun _ _ he =>
    echoes_iterate (fun _ _ h => rounds_suffix? hd hk h) suffices_atLast he

/-! ### Operators -/

theorem echoes_unaryExpr (hk : H.Calm k) :
    Echoes H (fun _ => uncut H) I (k + 1) k (unaryExpr d) (unaryExpr d') := by
  refine echoes_here fun start start' => echoes_next fun next => ?_
  rcases next with _ | t
  · exact echoes_suffixedExpr hd hk
  dsimp only
  have hoperand (make : Expr → Span → Expr)
      (hmake : ∀ e e' span span', Alike e e' → Alike (make e span) (make e' span')) :
      Echoes H (fun _ => uncut H) (facing I (some t)) (k + 1) k
        (advance >>= fun _ => d.operand >>= fun e => spanFrom start >>= fun span =>
          pure (make e span))
        (advance >>= fun _ => d'.operand >>= fun e => spanFrom start' >>= fun span =>
          pure (make e span)) := by
    refine (echoes_advance_seen (k := k + 1)).perhaps.bind fun _ _ _ => ?_
    refine (hd.operand k hk).bind_if (fun e e' he => ?_) fun e c t y u hy hu => ?_
    · exact echoes_spanFrom fun _ _ => echoes_pure (hmake _ _ _ _ he)
    · exact uncut_of_idle hy hu fun _ => ⟨_, rfl⟩
  cases UnaryOp.ofToken? t with
  | some op => exact hoperand (.unary op) fun _ _ _ _ he => by simp [Alike, he]
  | none =>
    cases UpdateOp.ofToken? t with
    | some op => exact hoperand (.update op .before) fun _ _ _ _ he => by simp [Alike, he]
    | none => exact echoes_suffixedExpr hd hk

omit hd in
theorem alike_binary {left left' right right' : Expr} (op : BinaryOp) (hleft : Alike left left')
    (hright : Alike right right') : Alike (binary left op right) (binary left' op right') := by
  simp [Alike, binary, hleft, hright]

theorem echoes_powerExpr (hk : H.Calm k) :
    Echoes H (fun _ => uncut H) I (k + 1) k (powerExpr d) (powerExpr d') := by
  refine (echoes_unaryExpr hd hk).bind_if (fun base base' hbase => ?_)
    fun base c t y u hy hu => uncut_of_idle hy hu fun hbrace => ⟨base, ?_⟩
  · refine echoes_if_accept ?_ (echoes_pure hbase) (hk.bars rfl)
    refine (hd.exponent k hk).perhaps.bind_if (fun e e' he => echoes_pure ?_)
      fun e c t y u hy hu => uncut_of_idle hy hu fun _ => ⟨_, rfl⟩
    exact alike_binary .pow hbase he
  · rw [bind_ok (accept_eq_false (by simp [hbrace]))]
    rfl

/-- A round of a chain of operators: the operator it has read, and the operand behind it. -/
def chainStep (ops : List BinaryOp) (operand : Parser Expr) (left : Expr) (o : Option Token) :
    Parser (Option Expr) :=
  match o.bind (BinaryOp.ofToken? ops) with
  | some op => advance >>= fun _ => operand >>= fun right => pure (some (binary left op right))
  | none => pure none

omit hd in
theorem chainStep_of_brace {ops : List BinaryOp} {operand : Parser Expr} (left : Expr) (c : Context)
    (t : State) (hbrace : t.tokens.head? = some (.symbol .leftBrace)) :
    (next? >>= chainStep ops operand left) c t = (.ok none, t) := by
  rw [next_bind, hbrace]
  have hnone : BinaryOp.ofToken? ops (.symbol .leftBrace) = none := by
    rw [BinaryOp.ofToken?, List.find?_eq_none]
    intro op _
    cases op <;> decide
  simp only [chainStep, Option.bind_some, hnone]
  rfl

omit hd in
theorem rounds_chainStep {ops : List BinaryOp} {operand operand' : Parser Expr} (hk : H.Calm k)
    (h : Echoes H (fun _ => uncut H) anywhere (k + 1) k operand operand') {left left' : Expr}
    (hleft : Alike left left') : Rounds H (fun _ => uncut H) k
      (next? >>= chainStep ops operand left) (next? >>= chainStep ops operand' left') := by
  refine rounds_next (T := fun o => (o.bind (BinaryOp.ofToken? ops)).isSome) (fun o ho => ?_)
    (fun o ho => ?_) (by simp) fun hk₀ ho => ?_
  · obtain ⟨op, hop⟩ := Option.isSome_iff_exists.1 ho
    obtain ⟨t, rfl, -⟩ := Option.bind_eq_some_iff.1 hop
    simp only [chainStep, hop]
    refine (echoes_advance_seen (k := k + 1)).perhaps.bind fun _ _ _ => ?_
    refine h.bind_if (fun right right' hright => echoes_pure ?_) fun _ c t y u hy hu =>
      uncut_of_idle hy hu fun _ => ⟨_, rfl⟩
    exact congrArg some (alike_binary op hleft hright)
  · simp only [chainStep, Option.not_isSome_iff_eq_none.1 ho, and_self]
  · obtain ⟨op, hop⟩ := Option.isSome_iff_exists.1 ho
    obtain ⟨t, ht, hofToken⟩ := Option.bind_eq_some_iff.1 hop
    have hcalm := hk hk₀ t ht
    obtain ⟨rfl, -⟩ := BinaryOp.ofToken?_eq_some hofToken
    cases op <;> simp [Token.isCalm, isClosing, BinaryOp.symbol] at hcalm

omit hd in
theorem echoes_leftAssociative {ops : List BinaryOp} {operand operand' : Parser Expr}
    (hk : H.Calm k)
    (h : Echoes H (fun _ => uncut H) anywhere (k + 1) k operand operand') :
    Echoes H (fun _ => uncut H) I (k + 1) k (leftAssociative ops operand)
      (leftAssociative ops operand') := by
  refine h.at.bind_if (fun left left' hleft => ?_) fun left c t y u hy hu => ?_
  · exact echoes_iterate (fun _ _ => rounds_chainStep hk h) (suffices_uncut chainStep_of_brace) hleft
  · refine uncut_of_idle hy hu fun hbrace => ⟨left, ?_⟩
    exact iterateOver_of_idle (chainStep_of_brace left c t hbrace) t.rest

theorem echoes_binaryExpr (hk : H.Calm k) : ∀ tiers, Echoes H (fun _ => uncut H) anywhere (k + 1) k
    (binaryExpr d tiers) (binaryExpr d' tiers)
  | [] => echoes_powerExpr hd hk
  | _ :: tighter => echoes_leftAssociative hk (echoes_binaryExpr hk tighter)

theorem echoes_conditionalExpr (hk : H.Calm k) :
    Echoes H (fun _ => uncut H) I (k + 1) k (conditionalExpr d) (conditionalExpr d') := by
  refine (echoes_binaryExpr hd hk _).at.bind_if (fun condition condition' hcondition => ?_)
    fun condition c t y u hy hu => uncut_of_idle hy hu fun hbrace => ⟨condition, ?_⟩
  · refine echoes_if_accept ?_ (echoes_pure hcondition) (hk.bars rfl)
    refine (echoes_inside (k := k + 1) hd Setting.calm_succ).perhaps.lower (by omega) |>.bind
      fun ifTrue ifTrue' htrue => ?_
    refine (echoes_symbol _).bind fun _ _ _ => ?_
    refine (hd.expression k hk).perhaps.bind_if (fun ifFalse ifFalse' hfalse => echoes_pure ?_)
      fun e c t y u hy hu => uncut_of_idle hy hu fun _ => ⟨_, rfl⟩
    simp [Alike, hcondition, htrue, hfalse]
  · rw [bind_ok (accept_eq_false (by simp [hbrace]))]
    rfl

theorem echoes_expression (hk : H.Calm k) :
    Echoes H (fun _ => uncut H) I (k + 1) k (expression d) (expression d') := by
  refine (echoes_conditionalExpr hd hk).bind_if (fun left left' hleft => ?_)
    fun left c t y u hy hu => uncut_of_idle hy hu fun hbrace => ⟨left, ?_⟩
  · refine echoes_next_or (T := fun o => (o.bind AssignOp.ofToken?).isSome) (fun o ho => ?_)
      (fun o ho => ?_) (echoes_pure hleft) fun hk₀ ho => ?_
    · obtain ⟨op, hop⟩ := Option.isSome_iff_exists.1 ho
      obtain ⟨t, rfl, -⟩ := Option.bind_eq_some_iff.1 hop
      simp only [hop]
      refine (echoes_advance_seen (k := k + 1)).perhaps.bind fun _ _ _ => ?_
      have hassignable : left'.isAssignable = left.isAssignable := by
        rw [← isAssignable_respan left', hleft, isAssignable_respan]
      rw [hassignable]
      refine echoes_ite (fun _ => ?_) fun _ => echoes_violation _ _
      refine (hd.expression k hk).bind_if (fun right right' hright => echoes_pure ?_)
        fun e c t y u hy hu => uncut_of_idle hy hu fun _ => ⟨_, rfl⟩
      simp [Alike, hleft, hright]
    · simp only [Option.not_isSome_iff_eq_none.1 ho, and_self]
    · obtain ⟨op, hop⟩ := Option.isSome_iff_exists.1 ho
      obtain ⟨t, ht, hofToken⟩ := Option.bind_eq_some_iff.1 hop
      have hcalm := hk hk₀ t ht
      obtain rfl := AssignOp.ofToken?_eq_some hofToken
      cases op <;> simp [Token.isCalm, isClosing, AssignOp.symbol] at hcalm
  · rw [next_bind, hbrace]
    rfl

end

end Grammar

/-! ### Levels of nesting -/

namespace Nested

variable {H : Setting} {d d' : Nested}

theorem echoes_tooDeep {α : Type} [Placed α] {P : Proviso α} {I : List Lexeme → Prop} {j k : Nat}
    {p' : Parser α} : Echoes H P I j k tooDeep p' := by
  refine echoes_of_fails (looks_here.onward.bind fun _ => onward_fail _) fun c s x t _ h => ?_
  rw [tooDeep, bind_ok (looks_here c s)] at h
  simp [violation, fail] at h

theorem echoed_none : Echoed H none d' :=
  ⟨fun _ _ => echoes_tooDeep, fun _ _ => echoes_tooDeep, fun _ _ => echoes_tooDeep,
    fun _ _ => echoes_tooDeep⟩

theorem Echoed.above (hd : d.Echoed H d') : d.above.Echoed H d'.above where
  expression _ hk := Grammar.echoes_expression hd hk
  operand _ hk := Grammar.echoes_unaryExpr hd hk
  exponent _ hk := Grammar.echoes_powerExpr hd hk
  typeName _ hk := Grammar.echoes_typeName hd hk

/-- What may nest deeper echoes what may nest less. -/
theorem echoed_ofDepth : ∀ {m n : Nat}, m ≤ n → (ofDepth m).Echoed H (ofDepth n)
  | 0, _, _ => echoed_none
  | _ + 1, 0, h => absurd h (by simp)
  | _ + 1, _ + 1, h => (echoed_ofDepth (Nat.le_of_succ_le_succ h)).above

end Nested

end SolidityFrontend
