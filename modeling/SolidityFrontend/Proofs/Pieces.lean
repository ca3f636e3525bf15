import SolidityFrontend.Proofs.Ending

/-!
# Parts that are read alike everywhere

A `Piece` is a row of tokens that a parser reads as the same part whatever stands around it. The parts
of a body are pieces, since each of them ends by itself; and pieces in a row are a body.
-/

namespace SolidityFrontend

open SolidityFrontend.Parser

variable {α : Type} [Placed α] {c : Context} {s t u : State} {part : Parser α} {x : α}
  {ts us : List Token} {before : Option Token → Prop}

/-! ### Tokens behind the end of a part -/

theorem any_getLast?_suffix (h : ts.getLast?.any Token.endsPart) (hsuffix : us <:+ ts)
    (hne : us ≠ []) : us.getLast?.any Token.endsPart := by
  obtain ⟨vs, rfl⟩ := hsuffix
  rwa [List.getLast?_append_of_ne_nil _ hne] at h

/-- Named fields do not go on behind the end of a part. -/
theorem fieldsAhead_append (h : ts.getLast?.any Token.endsPart) (us : List Token) :
    fieldsAhead (ts ++ us) = fieldsAhead ts := by
  have hends {a : Token} (h : [a].getLast?.any Token.endsPart) :
      (some a == some (.symbol .leftBrace)) = false ∧ a.identifier?.isSome = false := by
    have ha : a.endsPart = true := by simpa using h
    cases a with
    | symbol b => cases b <;> first | exact ⟨by decide, rfl⟩ | cases ha
    | _ => cases ha
  match ts, h with
  | [], h => simp at h
  | [a], h => simp [fieldsAhead, (hends h).1]
  | [a, b], h =>
    have hb := (hends (any_getLast?_suffix h (List.suffix_cons a [b]) (by simp))).2
    simp only [Option.isSome_eq_false_iff, Option.isNone_iff_eq_none] at hb
    simp [fieldsAhead, hb]
  | _ :: _ :: _ :: _, _ => rfl

/-- A path does not go on behind the end of a part. -/
theorem pathAhead_append (h : ts.getLast?.any Token.endsPart) (us : List Token) :
    pathAhead (ts ++ us) = pathAhead ts := by
  match ts, h with
  | [], h => simp at h
  | [a], h =>
    have ha : a.endsPart = true := by simpa using h
    have hdot : (some a == some (.symbol .dot)) = false := by
      cases a with
      | symbol b => cases b <;> first | decide | cases ha
      | _ => rfl
    simp [pathAhead, hdot]
  | _ :: _ :: _, _ => rfl

/-- A passage that ends like a part. -/
def Setting.ofPart (ts : List Token) (h : ts.getLast?.any Token.endsPart) (next₁ next₂ : List Lexeme)
    (errors₁ errors₂ : Array SyntaxError) : Setting where
  tokens := ts
  next₁ := next₁
  next₂ := next₂
  errors₁ := errors₁
  errors₂ := errors₂
  fields us hsuffix hne hus := by
    have hlast := any_getLast?_suffix h hsuffix hne
    rw [fieldsAhead_append hlast] at hus
    rwa [fieldsAhead_append hlast]
  path us hsuffix hne hus := by
    have hlast := any_getLast?_suffix h hsuffix hne
    rw [pathAhead_append hlast] at hus
    rwa [pathAhead_append hlast]

theorem Setting.mirror_ofPart (h : ts.getLast?.any Token.endsPart) (next₁ next₂ : List Lexeme)
    (errors₁ errors₂ : Array SyntaxError) :
    (Setting.ofPart ts h next₁ next₂ errors₁ errors₂).Mirror
      (.ofPart ts h next₂ next₁ errors₂ errors₁) := ⟨rfl, rfl, rfl, rfl, rfl⟩

/-- What ends like a part and is read without errors is read again where the same tokens stand. -/
theorem Parser.Echoes.run_ofPart {P : Proviso α} {I : List Lexeme → Prop} {j : Nat}
    {p p' : Parser α} {c' : Context} {s' : State} {w w' next : List Lexeme}
    (hlast : (w.map Lexeme.token).getLast?.any Token.endsPart)
    (h : Echoes (.ofPart (w.map Lexeme.token) hlast t.rest next #[] s'.errors) P I j 0 p p')
    (hx : p c s = (.ok x, t)) (hP : P x c t) (hI : I s.rest) (hs : s.rest = w ++ t.rest)
    (hs₀ : s.errors = #[]) (ht₀ : t.errors = #[]) (hc' : c'.structLiterals = true)
    (hw : w'.map Lexeme.token = w.map Lexeme.token) (hs' : s'.rest = w' ++ next) :
    ∃ x' t', p' c' s' = (.ok x', t') ∧ Alike x x' ∧ t'.rest = next ∧ t'.errors = s'.errors := by
  have hat : (Setting.ofPart (w.map Lexeme.token) hlast t.rest next #[] s'.errors).At w s s' :=
    ⟨List.suffix_refl _, hs, ⟨w', hw, hs'⟩, hs₀, rfl⟩
  obtain ⟨x', t', v, hx', halike, ht⟩ := h.run ⟨fun _ => hc', fun _ => hc'⟩ hat hI hx
    ⟨by rw [ht₀]; exact le_rfl, le_rfl⟩ hP
  have hlength : t.rest.length = v.length + t.rest.length := ht.length₁
  obtain rfl : v = [] := List.eq_nil_of_length_eq_zero (by omega)
  obtain ⟨v', hv', hrest⟩ := ht.rest₂
  obtain rfl := List.map_eq_nil_iff.1 hv'
  exact ⟨x', t', hx', halike, hrest, ht.errors₂⟩

/-! ### Pieces -/

/-- A parser for parts that end by themselves, where they do not stand before tokens that go on with
them. -/
structure SelfContained (part : Parser α) (before : Option Token → Prop) : Prop where
  onward : Onward part
  ends : Ends part
  takes : ∀ {c s x t}, part c s = (.ok x, t) → t.rest.length < s.rest.length
  not_brace : ∀ {c s x t}, part c s = (.ok x, t) → s.tokens.head? ≠ some (.symbol .rightBrace)
  opens : ∀ {c s x t}, part c s = (.ok x, t) → before s.tokens.head?
  brace : before (some (.symbol .rightBrace))
  echoes : ∀ {H H' : Setting}, H.Mirror H' → before H.head₂ →
    Echoes H unrestricted anywhere 1 0 part part

/-- The tokens `ts` are read as the part `x`, up to its spans, unless tokens stand behind them that
would go on with it. -/
structure Piece (part : Parser α) (before : Option Token → Prop) (ts : List Token) (x : α) :
    Prop where
  nonempty : ts ≠ []
  not_brace : ts.head? ≠ some (.symbol .rightBrace)
  opens : before ts.head?
  run : ∀ c s us, c.structLiterals = true → s.tokens = ts ++ us → before us.head? →
    ∃ x' t, part c s = (.ok x', t) ∧ Alike x x' ∧ t.tokens = us ∧ t.errors = s.errors

/-- A part that is read without errors is a piece. -/
theorem SelfContained.piece (h : SelfContained part before) (hc : c.structLiterals = true)
    (hx : part c s = (.ok x, t)) (herrors : t.errors = #[]) (hs : s.tokens = ts ++ t.tokens) :
    Piece part before ts x := by
  have hs₀ := h.onward.errors_eq_empty hx herrors
  obtain ⟨w, es, htook⟩ := h.onward.took hx
  have hw : w.map Lexeme.token = ts := by
    rw [State.tokens, htook.1, List.map_append] at hs
    exact List.append_cancel_right hs
  have hne : w ≠ [] := by
    rintro rfl
    have hlt := h.takes hx
    rw [htook.1, List.nil_append] at hlt
    exact absurd hlt (lt_irrefl _)
  have hlast : ts.getLast?.any Token.endsPart := by
    have hboundary := h.ends c s x t hx herrors
    obtain ⟨l, hl⟩ := Option.isSome_iff_exists.1 (List.getLast?_isSome.2 hne)
    rw [State.atBoundary_eq, htook.2.1, hl] at hboundary
    rw [← hw, List.getLast?_map, hl]
    exact hboundary
  have hts : ts ≠ [] := by
    rintro rfl
    simp at hlast
  have hhead : s.tokens.head? = ts.head? := by rw [hs, List.head?_append_of_ne_nil _ hts]
  refine ⟨hts, hhead ▸ h.not_brace hx, hhead ▸ h.opens hx, fun c' s' us hc' hs' hbefore => ?_⟩
  have hdrop : (s'.rest.drop ts.length).map Lexeme.token = us := by
    rw [List.map_drop]
    change s'.tokens.drop ts.length = us
    rw [hs', List.drop_left]
  have htake : (s'.rest.take ts.length).map Lexeme.token = w.map Lexeme.token := by
    rw [List.map_take, hw]
    change s'.tokens.take ts.length = ts
    rw [hs', List.take_left]
  have hbefore₂ : before ((s'.rest.drop ts.length).head?.map Lexeme.token) := by
    rw [← List.head?_map]
    exact hdrop.symm ▸ hbefore
  obtain ⟨x', t', hx', halike, hrest, herrors⟩ := (h.echoes (Setting.mirror_ofPart _ _ _ _ _)
    hbefore₂).run_ofPart (hw ▸ hlast) hx hc trivial htook.1 hs₀ herrors hc' htake
      (List.take_append_drop _ _).symm
  exact ⟨x', t', hx', halike, by rw [State.tokens, hrest, hdrop], herrors⟩

/-! ### Bodies -/

omit [Placed α] in
/-- No part is read before a closing brace. -/
theorem partsOver_of_brace (h : s.tokens.head? = some (.symbol .rightBrace)) :
    ∀ clock, partsOver part clock c s = (.ok [], s)
  | [] => rfl
  | _ :: clock => by
    have hne : s.rest.isEmpty = false := by
      rw [List.isEmpty_eq_false_iff]
      rintro hnil
      simp [State.tokens, hnil] at h
    rw [partsOver, bind_ok (peeks_atEnd c s), run_ite, hne, if_neg Bool.false_ne_true,
      bind_ok (sees_nextIs _ c s), run_ite, if_pos (by simp [h])]
    rfl

omit [Placed α] in
theorem partsOver_of_ne_brace {clock : List Lexeme} {l : Lexeme} (hne : s.rest ≠ [])
    (hbrace : s.tokens.head? ≠ some (.symbol .rightBrace)) :
    partsOver part (l :: clock) c s
      = (part >>= fun x => partsOver part clock >>= fun xs => pure (x :: xs)) c s := by
  rw [partsOver, bind_ok (peeks_atEnd c s), run_ite, List.isEmpty_eq_false_iff.2 hne,
    if_neg Bool.false_ne_true, bind_ok (sees_nextIs _ c s), run_ite, if_neg (by simpa using hbrace)]

omit [Placed α] in
/-- Parts before a closing brace are a body. -/
theorem body_of_partsOver {mark : ErrorMark → α} {xs : List α}
    (h : partsOver (recovering mark part) s.rest c s = (.ok xs, t))
    (ht : t.tokens.head? = some (.symbol .rightBrace)) : body mark part c s = (.ok xs, t.advance) := by
  have hne : t.rest.isEmpty = false := by
    rw [List.isEmpty_eq_false_iff]
    rintro hnil
    simp [State.tokens, hnil] at ht
  obtain ⟨span, hbrace⟩ := symbol_of_head (c := c) (s := t) (b := .rightBrace) ht
  rw [body_eq, bind_ok h, bind_ok (peeks_atEnd c t), run_ite, hne, if_neg Bool.false_ne_true,
    bind_ok hbrace]
  rfl

omit [Placed α] in
/-- A single part before a closing brace. -/
theorem body_of_part {mark : ErrorMark → α} (hne : s.rest ≠ [])
    (hbrace : s.tokens.head? ≠ some (.symbol .rightBrace)) (hx : part c s = (.ok x, t))
    (ht : t.tokens.head? = some (.symbol .rightBrace)) : body mark part c s = (.ok [x], t.advance) := by
  refine body_of_partsOver ?_ ht
  obtain ⟨l, clock, hrest⟩ := List.exists_cons_of_ne_nil hne
  rw [hrest, partsOver_of_ne_brace hne hbrace, bind_ok ((recovering_ok (by rw [hx])).trans hx),
    bind_ok (partsOver_of_brace ht clock)]
  rfl

/-! ### Parts of a body -/

namespace Parser

variable {α : Type} {c : Context} {s t u : State} {part : Parser α} {xs ys : List α}

/-- Parts of a body that are read one behind the other. -/
inductive Parts (part : Parser α) (c : Context) : State → List α → State → Prop
  | nil (s : State) : Parts part c s [] s
  | cons {s t u : State} {x : α} {xs : List α}
      (hbrace : s.tokens.head? ≠ some (.symbol .rightBrace)) (hx : part c s = (.ok x, t))
      (hlt : t.rest.length < s.rest.length) (hxs : Parts part c t xs u) : Parts part c s (x :: xs) u

theorem Parts.append (h : Parts part c s xs t) (h' : Parts part c t ys u) :
    Parts part c s (xs ++ ys) u := by
  induction h with
  | nil => exact h'
  | cons hbrace hx hlt _ ih => exact .cons hbrace hx hlt (ih h')

/-- Parts before a closing brace are all that is read there. -/
theorem Parts.partsOver (h : Parts part c s xs t)
    (ht : t.tokens.head? = some (.symbol .rightBrace)) (clock : List Lexeme)
    (hclock : s.rest.length ≤ clock.length) : partsOver part clock c s = (.ok xs, t) := by
  induction h generalizing clock with
  | nil => exact partsOver_of_brace ht clock
  | @cons s v u x xs hbrace hx hlt hxs ih =>
    rcases clock with _ | ⟨l, clock⟩
    · rw [List.length_nil] at hclock
      omega
    · rw [List.length_cons] at hclock
      rw [partsOver_of_ne_brace (List.ne_nil_of_length_pos (by omega)) hbrace, bind_ok hx,
        bind_ok (ih ht clock (by omega))]
      rfl

theorem Parts.body {mark : ErrorMark → α} (h : Parts (recovering mark part) c s xs t)
    (ht : t.tokens.head? = some (.symbol .rightBrace)) :
    body mark part c s = (.ok xs, t.advance) := body_of_partsOver (h.partsOver ht s.rest le_rfl) ht

/-- The parts of a body without errors are read one behind the other. -/
theorem chain_of_partsOver {mark : ErrorMark → α} (ho : Onward part) (clock : List Lexeme)
    {s : State} {xs : List α} (h : Parser.partsOver (recovering mark part) clock c s = (.ok xs, t))
    (herrors : t.errors = #[]) : Chain part c s xs t := by
  induction clock generalizing s xs with
  | nil =>
    obtain ⟨rfl, rfl⟩ := pure_eq_ok h
    exact .nil t
  | cons l clock ih =>
    by_cases hend : s.rest = []
    · rw [Parser.partsOver, bind_ok (peeks_atEnd c s), run_ite, List.isEmpty_iff.2 hend,
        if_pos rfl] at h
      obtain ⟨rfl, rfl⟩ := pure_eq_ok h
      exact .nil t
    by_cases hbrace : s.tokens.head? = some (.symbol .rightBrace)
    · rw [partsOver_of_brace hbrace] at h
      obtain ⟨hxs, rfl⟩ := Prod.mk.inj h
      obtain rfl := Except.ok.inj hxs
      exact .nil s
    rw [partsOver_of_ne_brace hend hbrace] at h
    obtain ⟨x, u, hx, hrest⟩ := bind_eq_ok h
    obtain ⟨ys, v, hys, hpure⟩ := bind_eq_ok hrest
    obtain ⟨rfl, rfl⟩ := pure_eq_ok hpure
    have hu : u.errors = #[] :=
      (onward_partsOver (onward_recovering mark ho) clock).errors_eq_empty hys herrors
    rcases hread : part c s with ⟨e | y, u'⟩
    · have hlt := size_lt_recovering mark ho hread
      rw [hx, hu] at hlt
      simp at hlt
    · rw [recovering_ok (by rw [hread]), hread] at hx
      exact .cons (hread.trans hx) (ih hys)

/-- A body without errors has its parts one behind the other. -/
theorem chain_of_body {mark : ErrorMark → α} (ho : Onward part)
    (h : Parser.body mark part c s = (.ok xs, t)) (ht : t.errors = #[]) :
    ∃ v, Chain part c s xs v ∧ v.tokens.head? = some (.symbol .rightBrace) ∧ v.errors = #[]
      ∧ t = v.advance := by
  obtain ⟨v, span, hparts, -, hbrace⟩ := body_ok ho h (by rw [ht]; exact Nat.zero_le _)
  obtain ⟨hhead, rfl⟩ := symbol_eq_ok hbrace
  rw [errors_advance] at ht
  exact ⟨v, chain_of_partsOver ho _ hparts ht, hhead, ht, rfl⟩

end Parser

/-! ### Rows of pieces -/

/-- Pieces in a row. -/
inductive Row (part : Parser α) (before : Option Token → Prop) : List Token → List α → Prop
  | nil : Row part before [] []
  | cons {ts us : List Token} {x : α} {xs : List α} (hx : Piece part before ts x)
      (hxs : Row part before us xs) : Row part before (ts ++ us) (x :: xs)

theorem Row.head (h : Row part before ts xs) (hus : before us.head?) :
    before (ts ++ us).head? := by
  cases h with
  | nil => exact hus
  | cons hx _ =>
    rw [List.append_assoc, List.head?_append_of_ne_nil _ hx.nonempty]
    exact hx.opens

/-- A row of parts is read before what does not go on with the last one. -/
theorem Row.parts (mark : ErrorMark → α) (h : Row part before ts xs) (hc : c.structLiterals = true)
    {s : State} (hs : s.tokens = ts ++ us) (hus : before us.head?) :
    ∃ xs' t, Parts (recovering mark part) c s xs' t ∧ Alike xs xs' ∧ t.tokens = us
      ∧ t.errors = s.errors := by
  induction h generalizing s with
  | nil => exact ⟨[], s, .nil s, rfl, hs, rfl⟩
  | @cons ts vs x xs hx hxs ih =>
    rw [List.append_assoc] at hs
    obtain ⟨x', u, hx', halike, hu, herrors⟩ := hx.run c s _ hc hs (hxs.head hus)
    obtain ⟨xs', t, hxs', halikes, ht, herrors'⟩ := ih hu
    refine ⟨x' :: xs', t, .cons ?_ ((recovering_ok (by rw [hx'])).trans hx') ?_ hxs',
      congrArg₂ List.cons halike halikes, ht, herrors'.trans herrors⟩
    · rw [hs, List.head?_append_of_ne_nil _ hx.nonempty]
      exact hx.not_brace
    · have hpos := List.length_pos_of_ne_nil hx.nonempty
      rw [← length_tokens, ← length_tokens, hs, hu]
      simp only [List.length_append]
      omega

theorem Row.append {xs ys : List α} (h : Row part before ts xs) (h' : Row part before us ys) :
    Row part before (ts ++ us) (xs ++ ys) := by
  induction h with
  | nil => exact h'
  | cons hx _ ih =>
    rw [List.append_assoc]
    exact .cons hx ih

theorem Piece.row (h : Piece part before ts x) : Row part before ts [x] := by
  have hrow := Row.cons h .nil
  rwa [List.append_nil] at hrow

variable (hpart : SelfContained part before)
include hpart

/-- A row of parts and a closing brace are a body. -/
theorem Row.body (mark : ErrorMark → α) {xs : List α} (h : Row part before ts xs)
    (hc : c.structLiterals = true) {vs : List Token}
    (hs : s.tokens = ts ++ .symbol .rightBrace :: vs) :
    ∃ xs' t, Parser.body mark part c s = (.ok xs', t) ∧ Alike xs xs' ∧ t.tokens = vs
      ∧ t.errors = s.errors := by
  obtain ⟨xs', u, hparts, halike, hu, herrors⟩ := h.parts mark hc hs hpart.brace
  exact ⟨xs', u.advance, hparts.body (by rw [hu]; rfl), halike,
    by rw [tokens_advance, hu]; rfl, by rw [errors_advance, herrors]⟩

/-- Parts that are read one behind the other without errors are a row. -/
theorem Chain.row {xs : List α} {s : State} (h : Chain part c s xs t) (hc : c.structLiterals = true)
    (ht : t.errors = #[]) : ∃ ts, s.tokens = ts ++ t.tokens ∧ Row part before ts xs := by
  induction h with
  | nil s => exact ⟨[], rfl, .nil⟩
  | @cons s u t x xs hx hxs ih =>
    obtain ⟨us, hus, hrow⟩ := ih ht
    obtain ⟨_, _, htook⟩ := hxs.took hpart.onward
    obtain ⟨w, es, htook'⟩ := hpart.onward.took hx
    have hs : s.tokens = w.map Lexeme.token ++ u.tokens := by
      rw [State.tokens, htook'.1, List.map_append]
      rfl
    refine ⟨w.map Lexeme.token ++ us, by rw [hs, hus, List.append_assoc], ?_⟩
    exact .cons (hpart.piece hc hx (htook.errors_nil ht) hs) hrow

end SolidityFrontend
