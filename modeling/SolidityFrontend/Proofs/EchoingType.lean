import SolidityFrontend.Grammar.Level
import SolidityFrontend.Proofs.EchoingParts

/-!
# Type names and literals in an echo

The parsers for type names and literals echo each other, if those of the level below do. At the end of
the passage the token behind it in the second text has to be one with which no expression and no type
name goes on (`Calm`); behind a type name it may be any word that is none of a function type (`Mild`).
-/

namespace SolidityFrontend

open SolidityFrontend.Parser

/-- Whether a token ends every expression and type name before it. -/
def Token.isCalm : Token → Bool
  | .keyword k => k != .returns
  | .elementaryType _ => true
  | .identifier w => (NumberUnit.ofWord? w).isNone && (Visibility.ofWord? w).isNone
      && (Mutability.ofWord? w).isNone
  | .symbol b => isClosing b
  | _ => false

/-- Whether a word is an attribute of a function type. -/
def Grammar.isTypeAttribute (word : String) : Bool :=
  (functionTypeAttribute? word .origin).isSome

theorem Grammar.isTypeAttribute_of_none {word : String} (hvisibility : Visibility.ofWord? word = none)
    (hmutability : Mutability.ofWord? word = none) : isTypeAttribute word = false := by
  simp [isTypeAttribute, functionTypeAttribute?, hvisibility, hmutability]

/-- Whether a token ends every type name before it. -/
def Token.endsType : Token → Bool
  | .identifier w => !Grammar.isTypeAttribute w
  | t => t.isCalm

namespace Setting

/-- At the end of the passage an expression or a type name ends in the second text. -/
def Calm (H : Setting) (k : Nat) : Prop := k = 0 → ∀ t ∈ H.head₂, t.isCalm

/-- At the end of the passage a type name ends in the second text. -/
def Mild (H : Setting) (k : Nat) : Prop := k = 0 → ∀ t ∈ H.head₂, t.endsType

/-- At the end of the passage the second text does not go on with a token. -/
def Lacks (H : Setting) (k : Nat) (t : Token) : Prop := k = 0 → H.head₂ ≠ some t

variable {H : Setting} {k : Nat} {t : Token}

theorem calm_succ : H.Calm (k + 1) := fun h => absurd h (Nat.succ_ne_zero k)

theorem mild_succ : H.Mild (k + 1) := fun h => absurd h (Nat.succ_ne_zero k)

theorem lacks_succ : H.Lacks (k + 1) t := fun h => absurd h (Nat.succ_ne_zero k)

theorem bars_succ : H.Bars (k + 1) t := fun h => absurd h (Nat.succ_ne_zero k)

theorem Lacks.bars (h : H.Lacks k t) : H.Bars k t := fun hk hhead => absurd hhead (h hk)

theorem Calm.mild (h : H.Calm k) : H.Mild k := by
  intro hk t ht
  have hcalm := h hk t ht
  cases t with
  | identifier w =>
    simp only [Token.isCalm, Bool.and_eq_true, Option.isNone_iff_eq_none] at hcalm
    simp [Token.endsType, Grammar.isTypeAttribute_of_none hcalm.1.2 hcalm.2]
  | _ => exact hcalm

theorem Mild.lacks (h : H.Mild k) (ht : t.endsType = false) : H.Lacks k t := by
  intro hk hhead
  rw [h hk t hhead] at ht
  simp at ht

theorem Calm.lacks (h : H.Calm k) (ht : t.isCalm = false) : H.Lacks k t := by
  intro hk hhead
  rw [h hk t hhead] at ht
  simp at ht

theorem Calm.bars (h : H.Calm k) (ht : t.isCalm = false) : H.Bars k t := (h.lacks ht).bars

end Setting

/-- What is asked of the end of an expression that is not the end of the passage: where named fields
are not allowed, none begin. -/
def uncut (H : Setting) (c : Context) (t : State) : Prop :=
  c.structLiterals = true ∨ fieldsAhead t.tokens = false ∨ t.rest.length ≤ H.next₁.length

/-- The parsers for expressions and type names of a level of nesting are echoed by those of another
one. -/
structure Nested.Echoed (H : Setting) (deeper deeper' : Nested) : Prop where
  expression : ∀ k, H.Calm k → Echoes H (fun _ => uncut H) anywhere (k + 1) k deeper.expression
    deeper'.expression
  operand : ∀ k, H.Calm k → Echoes H (fun _ => uncut H) anywhere (k + 1) k deeper.operand
    deeper'.operand
  exponent : ∀ k, H.Calm k → Echoes H (fun _ => uncut H) anywhere (k + 1) k deeper.exponent
    deeper'.exponent
  typeName : ∀ k, H.Mild k → Echoes H always anywhere (k + 1) k deeper.typeName deeper'.typeName

namespace Parser

variable {α β : Type} [Placed α] [Placed β] {H : Setting} {j k n : Nat} {p p' : Parser α}
  {P : Proviso α} {S : Proviso (Option α)} {I : List Lexeme → Prop}

/-- Where nothing is asked, something may be. -/
theorem Echoes.any (h : Echoes H always I j k p p') : Echoes H P I j k p p' :=
  h.proviso fun _ _ _ _ => trivial

/-- Rounds that begin where some tokens ahead are as they should be. -/
theorem rounds_of_look {g : List Token → Bool} {more more' : Parser (Option α)}
    {q q' : Parser (Option α)}
    (hmore : ∀ c s, more c s = if g s.tokens then q c s else (.ok none, s))
    (hmore' : ∀ c s, more' c s = if g s.tokens then q' c s else (.ok none, s))
    (h : Echoes H always (fun rest => g (rest.map Lexeme.token)) (k + n) k q q') (hn : 0 < n)
    (hlocal : ∀ ts us us' : List Token, n ≤ ts.length → g (ts ++ us) = g (ts ++ us'))
    (hplain : ∀ ts : List Token, ts <:+ H.tokens → ts ≠ [] →
      g (ts ++ H.next₂.map Lexeme.token) → g (ts ++ H.next₁.map Lexeme.token))
    (hbars : k = 0 → g (H.next₂.map Lexeme.token) = false) : Rounds H S k more more' where
  echoes := by
    refine ⟨fun c s => ?_, fun c s x t _ hx => ?_, fun {c c'} hc w s s' hs _ x t hx hk hP => ?_⟩
    · rw [hmore]
      split
      · exact h.onward c s
      · exact ⟨[], [], .refl s⟩
    · rw [hmore] at hx
      split at hx
      · rename_i hg
        exact (h.lower (Nat.le_add_right k n)).steps c s x t hg hx
      · obtain ⟨-, rfl⟩ := Prod.mk.inj hx
        exact le_rfl
    · rw [hmore] at hx
      rw [hmore']
      split at hx
      · rename_i hg
        have hle := h.steps c s x t hg hx
        have hlength := hs.length₁
        have hkept := hk.2
        have hsame : g s'.tokens = g s.tokens := by
          rw [hs.tokens₁, hs.tokens₂]
          exact hlocal _ _ _ (by rw [List.length_map]; omega)
        rw [hsame, if_pos hg]
        exact h.run hc hs hg hx hk trivial
      · rename_i hg
        obtain ⟨rfl, rfl⟩ := pure_eq_ok (c := c) hx
        have hg' : ¬g s'.tokens = true := by
          intro hg'
          rw [hs.tokens₂] at hg'
          rw [hs.tokens₁] at hg
          rcases hw : w.map Lexeme.token with _ | ⟨a, ts⟩
          · have hk₀ : k = 0 := by
              have hkept := hk.2
              have hlength := hs.length₁
              rw [List.map_eq_nil_iff.1 hw, List.length_nil] at hlength
              omega
            rw [hw, List.nil_append, hbars hk₀] at hg'
            simp at hg'
          · exact hg (hplain _ hs.suffix (by simp [hw]) hg')
        rw [if_neg hg']
        exact ⟨none, s', w, rfl, rfl, hs⟩
  strides c s x t hx := by
    rw [hmore] at hx
    split at hx
    · rename_i hg
      have hle := h.steps c s (some x) t hg hx
      omega
    · simp at hx
  halts hk₀ c c' s s' hs _ := by
    rw [hmore', hs.tokens₂, List.map_nil, List.nil_append, hbars hk₀]
    rfl

omit [Placed α] in
/-- A symbol is taken only where it is next. -/
theorem symbol_eq_ok {b : Symbol} {c : Context} {s t : State} {span : Span}
    (h : symbol b c s = (.ok span, t)) :
    s.tokens.head? = some (.symbol b) ∧ t = s.advance := by
  by_cases hhead : s.tokens.head? = some (.symbol b)
  · rw [symbol, bind_ok (looks_here c s), bind_ok (accept_eq_true hhead), run_ite,
      if_pos rfl] at h
    exact ⟨hhead, (pure_eq_ok h).2⟩
  · rw [symbol, bind_ok (looks_here c s), bind_ok (accept_eq_false hhead), run_ite,
      if_neg Bool.false_ne_true, run_ite] at h
    split at h
    · rw [bind_ok (looks_previousSpan c s)] at h
      simp [fail] at h
    · exact absurd h (unexpected_ne_ok _ c s span t)

omit [Placed β] in
theorem head_of_symbol {b : Symbol} {f : Span → Parser β} {c : Context} {s t : State} {y : β}
    (h : (symbol b >>= f) c s = (.ok y, t)) : s.tokens.head? = some (.symbol b) := by
  obtain ⟨span, u, hb, -⟩ := bind_eq_ok h
  exact (symbol_eq_ok hb).1

omit [Placed β] in
theorem uncut_of_symbol {b : Symbol} {f : Span → Parser β} {c : Context} {s t : State} {y : β}
    (hb : b ≠ .leftBrace) (h : (symbol b >>= f) c s = (.ok y, t)) : uncut H c s := by
  refine .inr (.inl ?_)
  rw [fieldsAhead, ← List.head?_eq_getElem?, head_of_symbol h,
    beq_eq_false_iff_ne.2 (by simpa using hb), Bool.false_and, Bool.false_and]

end Parser

namespace Grammar

variable {H : Setting} {k : Nat} {I : List Lexeme → Prop}

/-! ### Type names -/

theorem echoes_elementaryTypeName (hk : H.Lacks k (.identifier "payable")) (allowPayable : Bool) :
    Echoes H always I (k + 1) k (elementaryTypeName allowPayable)
      (elementaryTypeName allowPayable) := by
  refine echoes_here fun start start' => echoes_next fun next => ?_
  rcases next with _ | t
  · exact echoes_unexpected _
  cases t with
  | elementaryType word =>
    dsimp only
    cases ElementaryType.ofWord? word with
    | none => exact echoes_violation _ start
    | some kind =>
      refine echoes_advance_seen.bind fun _ _ _ => echoes_ite (fun _ => ?_) fun _ => ?_
      · refine echoes_if_accept ?_ ?_ hk.bars
        · exact echoes_spanFrom fun _ _ => echoes_pure rfl
        · exact echoes_spanFrom fun _ _ => echoes_pure rfl
      · exact echoes_spanFrom fun _ _ => echoes_pure rfl
  | _ => exact echoes_unexpected _

theorem pathAhead_eq_false {ts : List Token} (h : ts.head? ≠ some (.symbol .dot)) :
    pathAhead ts = false := by
  rw [pathAhead, ← List.head?_eq_getElem?, beq_eq_false_iff_ne.2 h, Bool.false_and]

theorem pathSegment?_eq (c : Context) (s : State) : pathSegment? c s
    = if pathAhead s.tokens then (advance >>= fun _ => identifier >>= fun i => pure (some i)) c s
      else (.ok none, s) := by
  rw [pathSegment?, bind_ok (sees_nextIs _ c s), run_ite]
  by_cases hdot : s.tokens.head? = some (.symbol .dot)
  · rw [if_pos (by simpa using hdot), bind_ok (sees_peek 1 c s), run_ite]
    have hahead : pathAhead s.tokens = (s.tokens[1]?.bind Token.identifier?).isSome := by
      rw [pathAhead, ← List.head?_eq_getElem?, hdot, beq_self_eq_true, Bool.true_and]
    rw [hahead]
    rfl
  · rw [if_neg (by simpa using hdot), pathAhead_eq_false hdot]
    rfl

theorem rounds_pathSegment? (hk : H.Lacks k (.symbol .dot)) {S : Proviso (Option Identifier)} :
    Rounds H S k pathSegment? pathSegment? := by
  refine rounds_of_look (n := 2) pathSegment?_eq pathSegment?_eq ?_ Nat.two_pos ?_ H.path ?_
  · refine (echoes_advance (k := k + 1) ?_).bind fun _ _ _ => ?_
    · rintro _ hahead rfl
      simp [pathAhead] at hahead
    · exact echoes_identifier.bind fun i i' hi => echoes_pure (congrArg some hi)
  · intro ts us us' hlength
    obtain ⟨a, b, ts, rfl⟩ : ∃ a b us, ts = a :: b :: us := by
      rcases ts with _ | ⟨a, _ | ⟨b, ts⟩⟩
      · simp at hlength
      · simp at hlength
      · exact ⟨a, b, ts, rfl⟩
    rfl
  · intro hk₀
    refine pathAhead_eq_false fun hdot => ?_
    rw [List.head?_map] at hdot
    exact hk hk₀ hdot

theorem echoes_path (hk : H.Lacks k (.symbol .dot)) : Echoes H always I (k + 1) k path path := by
  refine echoes_identifier.bind fun first first' hfirst => ?_
  refine (rounds_pathSegment? hk).many.bind fun more more' hmore => ?_
  exact echoes_spanFrom fun _ _ => echoes_pure (by simp [Alike, hfirst, hmore])

theorem echoes_storageLocation? :
    Echoes H always I (k + 1) (k + 1) storageLocation? storageLocation? := by
  rw [storageLocation?, nextWord_bind]
  refine echoes_next fun next => ?_
  rcases next with _ | t
  · exact echoes_pure rfl
  dsimp only [Option.bind_some]
  cases t.identifier?.bind StorageLocation.ofWord? with
  | none => exact echoes_pure rfl
  | some location => exact (echoes_advance_seen.bind fun _ _ _ => echoes_pure rfl).perhaps

theorem alike_functionTypeAttribute? (word : String) (span span' : Span) :
    Alike (functionTypeAttribute? word span) (functionTypeAttribute? word span') := by
  unfold functionTypeAttribute?
  split
  · rfl
  · rfl
  · cases Mutability.ofWord? word <;> rfl

theorem isSome_functionTypeAttribute? (word : String) (span : Span) :
    (functionTypeAttribute? word span).isSome = isTypeAttribute word := by
  have hsome := congrArg Option.isSome (alike_functionTypeAttribute? word .origin span)
  rwa [isSome_respan, isSome_respan] at hsome

theorem isTypeAttribute_of_endsType {word : String} (h : Token.endsType (.identifier word)) :
    isTypeAttribute word = false := by
  simpa [Token.endsType] using h

theorem echoes_functionTypeAttributes (hk : H.Mild k) :
    Echoes H always I k k functionTypeAttributes functionTypeAttributes := by
  refine Rounds.many (Rounds.here fun span span' => ?_)
  rw [nextWord_bind, nextWord_bind]
  refine rounds_next (T := fun o => ∃ word, o.bind Token.identifier? = some word
    ∧ isTypeAttribute word) (fun o ⟨word, hword, hattribute⟩ => ?_) (fun o ho => ?_) (by simp) ?_
  · obtain ⟨t, rfl, ht⟩ := Option.bind_eq_some_iff.1 hword
    obtain ⟨a, ha⟩ := Option.isSome_iff_exists.1
      ((isSome_functionTypeAttribute? word span).trans hattribute)
    obtain ⟨a', ha'⟩ := Option.isSome_iff_exists.1
      ((isSome_functionTypeAttribute? word span').trans hattribute)
    have halike := (alike_functionTypeAttribute? word .origin span').trans
      (alike_functionTypeAttribute? word .origin span).symm
    rw [ha, ha'] at halike
    simp only [Option.bind_some, ht, ha, ha']
    exact echoes_advance_seen.bind fun _ _ _ => echoes_pure halike
  · have hnone (span : Span) : (o.bind Token.identifier?).bind (functionTypeAttribute? · span)
        = none := by
      rcases hword : o.bind Token.identifier? with _ | word
      · rfl
      · rw [Option.bind_some, ← Option.not_isSome_iff_eq_none, isSome_functionTypeAttribute?]
        exact fun hattribute => ho ⟨word, hword, hattribute⟩
    rw [hnone, hnone]
    exact ⟨rfl, rfl⟩
  · rintro hk₀ ⟨word, hword, hattribute⟩
    obtain ⟨t, ht, hidentifier⟩ := Option.bind_eq_some_iff.1 hword
    have hcalm := hk hk₀ t ht
    cases t with
    | identifier name =>
      obtain rfl := Option.some.inj hidentifier
      rw [isTypeAttribute_of_endsType hcalm] at hattribute
      simp at hattribute
    | _ => simp [Token.identifier?] at hidentifier

theorem echoes_mappingKey (hk : H.Mild k) : Echoes H always I (k + 1) k mappingKey mappingKey := by
  refine echoes_next fun next => ?_
  rcases next with _ | t
  · exact echoes_here fun _ _ => echoes_violation _ _
  cases t with
  | elementaryType word =>
    exact (echoes_elementaryTypeName (hk.lacks (by decide)) false).bind fun type type' htype =>
      echoes_pure (by simp [Alike, htype])
  | identifier name =>
    exact (echoes_path (hk.lacks (by decide))).bind fun p p' hp => echoes_pure (by simp [Alike, hp])
  | _ => exact echoes_here fun _ _ => echoes_violation _ _

section

variable {d d' : Nested} (hd : d.Echoed H d')
include hd

/-- A parameter stands before other tokens of the passage. -/
theorem echoes_parameter :
    Echoes H always I (k + 2) (k + 1) (parameter d) (parameter d') := by
  refine echoes_here fun start start' => ?_
  refine (hd.typeName _ Setting.mild_succ).at.bind fun type type' htype => ?_
  refine echoes_storageLocation?.bind fun location location' hlocation => ?_
  refine echoes_identifier?.bind fun name name' hname => ?_
  exact echoes_spanFrom fun _ _ => echoes_pure (by simp_all [Alike])

theorem echoes_parameters : Echoes H always I (k + 1) k (parameters d) (parameters d') := by
  refine (echoes_symbol (k := k + 1) _).lower (Nat.le_succ _) |>.bind fun _ _ _ => ?_
  refine echoes_if_accept_inside (m := k) (echoes_pure rfl) ?_
  refine ((echoes_separated (echoes_parameter hd) Setting.bars_succ).lower (Nat.le_succ _)).bind
    fun items items' hitems => ?_
  exact (echoes_symbol _).bind fun _ _ _ => echoes_pure hitems

theorem echoes_returnParameters (hk : H.Lacks k (.keyword .returns)) :
    Echoes H always I k k (returnParameters d) (returnParameters d') :=
  echoes_if_accept (echoes_parameters hd).perhaps (echoes_pure rfl) hk.bars

theorem echoes_mappingType : Echoes H always I (k + 1) k (mappingType d) (mappingType d') := by
  refine (echoes_keyword (k := k + 1) _).perhaps.bind fun start start' _ => ?_
  refine (echoes_symbol (k := k + 1) _).perhaps.bind fun _ _ _ => ?_
  refine (echoes_mappingKey Setting.mild_succ).perhaps.bind fun key key' hkey => ?_
  refine (echoes_symbol (k := k + 1) _).perhaps.bind fun _ _ _ => ?_
  refine (hd.typeName _ Setting.mild_succ).at.perhaps.bind fun value value' hvalue => ?_
  refine (echoes_symbol _).bind fun _ _ _ => ?_
  exact echoes_spanFrom fun _ _ => echoes_pure (by simp [Alike, hkey, hvalue])

theorem echoes_functionType (hk : H.Mild k) :
    Echoes H always I (k + 1) k (functionType d) (functionType d') := by
  refine (echoes_keyword _).bind fun start start' _ => ?_
  refine (echoes_parameters hd).perhaps.bind fun ps ps' hps => ?_
  refine (echoes_functionTypeAttributes hk).bind fun attributes attributes' hattributes => ?_
  refine (echoes_returnParameters hd (hk.lacks rfl)).bind fun returns returns' hreturns => ?_
  exact echoes_spanFrom fun _ _ => echoes_pure (by simp [Alike, hps, hattributes, hreturns])

/-- The brackets of an array. -/
theorem rounds_arraySuffix? (hk : H.Lacks k (.symbol .leftBracket)) {type type' : TypeName}
    (htype : Alike type type') :
    Rounds H (atLast fun _ _ => True) k (arraySuffix? d type) (arraySuffix? d' type') := by
  refine rounds_if_accept (Echoes.perhaps ?_) hk.bars
  have hclose (size size' : Option Expr) (hsize : Alike size size') : Echoes H
      (atLast fun _ _ => True) anywhere (k + 1) k (symbol .rightBracket >>= fun _ => spanFrom type.span >>= fun span =>
        pure (some (TypeName.array type size span)))
      (symbol .rightBracket >>= fun _ => spanFrom type'.span >>= fun span =>
        pure (some (TypeName.array type' size' span))) := by
    refine (echoes_symbol _).bind fun _ _ _ => ?_
    exact echoes_spanFrom fun _ _ => echoes_pure (by simp [Alike, htype, hsize])
  refine echoes_if_nextIs_inside ((echoes_pure rfl).bind hclose) ?_
  have hsize : Echoes H (fun _ => uncut H) anywhere (k + 1) (k + 1) (some <$> d.expression)
      (some <$> d'.expression) :=
    (hd.expression _ Setting.calm_succ).perhaps.map (fun _ _ h => congrArg some h)
      fun _ _ _ => id
  exact hsize.bind_if hclose fun _ _ _ _ _ h _ => uncut_of_symbol (by simp) h

/-- A base type is echoed where a function type is, if that may begin here. -/
theorem echoes_baseType_of (hpayable : H.Lacks k (.identifier "payable"))
    (hdot : H.Lacks k (.symbol .dot))
    (hfunction : Echoes H always (facing I (some (.keyword .function))) (k + 1) k (functionType d)
      (functionType d')) :
    Echoes H always I (k + 1) k (baseType d) (baseType d') := by
  refine echoes_next fun next => ?_
  rcases next with _ | t
  · exact echoes_unexpected _
  cases t with
  | elementaryType word =>
    exact (echoes_elementaryTypeName hpayable true).bind fun type type' htype =>
      echoes_pure (by simp [Alike, htype])
  | keyword word =>
    cases word with
    | mapping => exact echoes_mappingType hd
    | function => exact hfunction
    | _ => exact echoes_unexpected _
  | identifier name =>
    exact (echoes_path hdot).bind fun p p' hp => echoes_pure (by simp [Alike, hp])
  | _ => exact echoes_unexpected _

theorem echoes_baseType (hk : H.Mild k) :
    Echoes H always I (k + 1) k (baseType d) (baseType d') :=
  echoes_baseType_of hd (hk.lacks (by decide)) (hk.lacks rfl) (echoes_functionType hd hk)

theorem echoes_typeName (hk : H.Mild k) :
    Echoes H always I (k + 1) k (typeName d) (typeName d') :=
  (echoes_baseType hd hk).bind fun _ _ htype =>
    (echoes_iterate (fun _ _ h => rounds_arraySuffix? hd (hk.lacks rfl) h) suffices_atLast htype).any

end

theorem echoes_overrideSpecifier (hk : H.Lacks k (.symbol .leftParen)) :
    Echoes H always I (k + 1) k overrideSpecifier overrideSpecifier := by
  refine (echoes_word _).bind fun start start' _ => ?_
  have hend (paths paths' : List Path) (h : Alike paths paths') : Echoes H always anywhere k k
      (spanFrom start >>= fun span => pure (⟨paths, span⟩ : OverrideSpecifier))
      (spanFrom start' >>= fun span => pure ⟨paths', span⟩) :=
    echoes_spanFrom fun _ _ => echoes_pure (by simp [Alike, h])
  have hnone : Echoes H always anywhere k k (pure ([] : List Path)) (pure []) := echoes_pure rfl
  refine echoes_if_accept ?_ (hnone.bind hend) hk.bars
  refine (((echoes_separated (I := anywhere) (k := k + 1) (echoes_path Setting.lacks_succ)
    Setting.bars_succ)).lower (by omega)).bind fun paths paths' h => ?_
  refine (echoes_symbol _).bind fun _ _ _ => ?_
  exact (echoes_pure h).bind hend

/-! ### Literals -/

/-- The unit that a token is. -/
def unitOf (o : Option Token) : Option NumberUnit :=
  (o.bind Token.identifier?).bind NumberUnit.ofWord?

theorem unitOf_of_isCalm {o : Option Token} (h : ∀ t ∈ o, t.isCalm) : unitOf o = none := by
  rcases o with _ | t
  · rfl
  · have hcalm := h t rfl
    cases t with
    | identifier name =>
      simp only [Token.isCalm, Bool.and_eq_true, Option.isNone_iff_eq_none] at hcalm
      exact hcalm.1.1
    | _ => rfl

theorem echoes_numberLiteral (hk : H.Calm k) (value : String) (kind : NumberKind) {t : Token} :
    Echoes H always (facing I (some t)) (k + 1) k (numberLiteral value kind)
      (numberLiteral value kind) := by
  refine echoes_here fun start start' => echoes_advance_seen.bind fun _ _ _ => ?_
  have hend (unit : Option NumberUnit) : Echoes H always anywhere k k
      (spanFrom start >>= fun span => pure (Literal.number ⟨value, kind, unit, span⟩))
      (spanFrom start' >>= fun span => pure (Literal.number ⟨value, kind, unit, span⟩)) :=
    echoes_spanFrom fun _ _ => echoes_pure rfl
  rw [nextWord_bind, nextWord_bind]
  refine echoes_next_or (T := fun o => (unitOf o).isSome) (fun o ho => ?_) (fun o ho => ?_)
    (hend none) fun hk₀ ho => ?_
  · rcases o with _ | t
    · simp [unitOf] at ho
    · change Echoes H always _ _ _ (if (unitOf (some t)).isSome = true then _ else _)
        (if (unitOf (some t)).isSome = true then _ else _)
      rw [if_pos ho, if_pos ho]
      exact echoes_advance_seen.bind fun _ _ _ => hend _
  · change (if (unitOf o).isSome = true then _ else _) = _
      ∧ (if (unitOf o).isSome = true then _ else _) = _
    rw [if_neg ho, if_neg ho, ← unitOf, Option.not_isSome_iff_eq_none.1 ho]
    exact ⟨rfl, rfl⟩
  · rw [unitOf_of_isCalm (hk hk₀)] at ho
    simp at ho

section

variable {α : Type} [Placed α] {part? : Token → Option α}

theorem rounds_stringPart? (hk : H.Calm k) (hpart : ∀ t : Token, t.isCalm → part? t = none) :
    Rounds H (atLast fun _ _ => True) k (stringPart? part?) (stringPart? part?) := by
  refine Rounds.here fun span span' => ?_
  refine rounds_next (T := fun o => (o.bind part?).isSome) (fun o ho => ?_) (fun o ho => ?_)
    (by simp) ?_
  · obtain ⟨part, hbind⟩ := Option.isSome_iff_exists.1 ho
    obtain ⟨t, rfl, ht⟩ := Option.bind_eq_some_iff.1 hbind
    simp only [Option.bind_some, ht]
    exact echoes_advance_seen.bind fun _ _ _ => echoes_pure rfl
  · rw [Option.not_isSome_iff_eq_none.1 ho]
    exact ⟨rfl, rfl⟩
  · intro hk₀ ho
    obtain ⟨part, hbind⟩ := Option.isSome_iff_exists.1 ho
    obtain ⟨t, ht, hpart'⟩ := Option.bind_eq_some_iff.1 hbind
    rw [hpart t (hk hk₀ t ht)] at hpart'
    simp at hpart'

/-- Adjacent strings, the first of which was seen. -/
theorem echoes_stringParts (hk : H.Calm k) (hpart : ∀ t : Token, t.isCalm → part? t = none)
    {t : Token} {part : α} (ht : part? t = some part) :
    Echoes H always (facing I (some t)) (k + 1) k (many (stringPart? part?))
      (many (stringPart? part?)) := by
  refine (rounds_stringPart? hk hpart).many_cons fun c s hs => ⟨ne_nil_of_facing hs, ?_⟩
  have hhead : s.tokens.head? = some t := by
    rw [State.tokens, List.head?_map]
    exact hs.2
  refine ⟨(part, s.nextSpan c.stop), s.advance, ?_⟩
  rw [stringPart?, bind_ok (looks_here c s), next_bind, hhead]
  simp only [Option.bind_some, ht]
  rfl

end

theorem map_fst_of_alike {α : Type} [Placed α] (h : ∀ (f : Span → Span) (x : α), respan f x = x)
    {parts parts' : List (α × Span)} (hparts : Alike parts parts') :
    parts'.map Prod.fst = parts.map Prod.fst := by
  have hfst (parts : List (α × Span)) :
      (respan (fun _ => Span.origin) parts).map Prod.fst = parts.map Prod.fst := by
    rw [respan_list, List.map_map]
    exact List.map_congr_left fun p _ => h _ p.1
  rw [← hfst parts', hparts, hfst]

theorem map_snd_of_alike {α : Type} [Placed α] {parts parts' : List (α × Span)}
    (hparts : Alike parts parts') : Alike (parts.map Prod.snd) (parts'.map Prod.snd) := by
  have hsnd (parts : List (α × Span)) : respan (fun _ => Span.origin) (parts.map Prod.snd)
      = (respan (fun _ => Span.origin) parts).map Prod.snd := by
    rw [respan_list, respan_list, List.map_map, List.map_map]
    rfl
  rw [Alike, hsnd, hsnd, hparts]

theorem echoes_byteStrings (hk : H.Calm k) {part? : Token → Option (List UInt8)}
    (hpart : ∀ t : Token, t.isCalm → part? t = none) {t : Token} {bytes : List UInt8}
    (ht : part? t = some bytes) :
    Echoes H always (facing I (some t)) (k + 1) k (byteStrings part?) (byteStrings part?) := by
  refine echoes_here fun start start' => (echoes_stringParts hk hpart ht).bind
    fun parts parts' hparts => ?_
  have hbytes : parts'.flatMap Prod.fst = parts.flatMap Prod.fst := by
    rw [List.flatMap_def, List.flatMap_def, map_fst_of_alike (fun _ => respan_bytes) hparts]
  rw [hbytes]
  exact echoes_spanFrom fun _ _ => echoes_pure (by simp [Alike, map_snd_of_alike hparts])

theorem echoes_hexStrings (hk : H.Calm k) {t : Token} {digits : String}
    (ht : hexPart? t = some digits) :
    Echoes H always (facing I (some t)) (k + 1) k hexStrings hexStrings := by
  have hpart (t : Token) (h : t.isCalm) : hexPart? t = none := by
    cases t with
    | hexString digits => simp [Token.isCalm] at h
    | _ => rfl
  refine echoes_here fun start start' => (echoes_stringParts hk hpart ht).bind
    fun parts parts' hparts => ?_
  rw [map_fst_of_alike (fun _ _ => rfl) hparts]
  exact echoes_spanFrom fun _ _ => echoes_pure (by simp [Alike, map_snd_of_alike hparts])

/-- A literal whose first token was seen. -/
theorem echoes_literal (hk : H.Calm k) {t : Token} {p : Parser Literal} (h : literal? t = some p) :
    Echoes H always (facing I (some t)) (k + 1) k p p := by
  have hplain (t : Token) (h : t.isCalm) : plainPart? t = none := by
    cases t with
    | string bytes => simp [Token.isCalm] at h
    | _ => rfl
  have hunicode (t : Token) (h : t.isCalm) : unicodePart? t = none := by
    cases t with
    | unicodeString bytes => simp [Token.isCalm] at h
    | _ => rfl
  have hboolean (value : Bool) (t : Token) : Echoes H always (facing I (some t)) (k + 1) k
      (here >>= fun span => advance >>= fun _ => pure (Literal.boolean value span))
      (here >>= fun span => advance >>= fun _ => pure (Literal.boolean value span)) :=
    echoes_here fun _ _ => echoes_advance_seen.bind fun _ _ _ => echoes_pure rfl
  have hmade {make : StringLiteral → Literal} {p : Parser StringLiteral} {t : Token}
      (hp : Echoes H always (facing I (some t)) (k + 1) k p p)
      (hmake : ∀ l l', Alike l l' → Alike (make l) (make l')) :
      Echoes H always (facing I (some t)) (k + 1) k (make <$> p) (make <$> p) :=
    hp.map hmake fun _ _ _ _ => trivial
  unfold literal? at h
  split at h
  · obtain rfl := Option.some.inj h
    exact hboolean true _
  · obtain rfl := Option.some.inj h
    exact hboolean false _
  · obtain rfl := Option.some.inj h
    exact echoes_numberLiteral hk _ _
  · obtain rfl := Option.some.inj h
    exact echoes_numberLiteral hk _ _
  · obtain rfl := Option.some.inj h
    exact hmade (echoes_byteStrings hk hplain rfl) fun l l' hl => by simp [Alike, hl]
  · obtain rfl := Option.some.inj h
    exact hmade (echoes_hexStrings hk rfl) fun l l' hl => by simp [Alike, hl]
  · obtain rfl := Option.some.inj h
    exact hmade (echoes_byteStrings hk hunicode rfl) fun l l' hl => by simp [Alike, hl]
  · simp at h

end Grammar

end SolidityFrontend
