import SolidityFrontend.Proofs.Bodies
import SolidityFrontend.Proofs.Faultless
import SolidityFrontend.Proofs.ReadingBack

/-!
# Fragments before other tokens

A fragment that is read as a whole is read in the same way before tokens that do not go on with it, and
by the parsers of a higher level of nesting (`ReadBefore`): an expression before a semicolon, and a
type name before a word that is no attribute.
-/

namespace SolidityFrontend

open SolidityFrontend.Parser SolidityFrontend.Grammar SolidityFrontend.Session

/-! ### Texts of one token -/

theorem tokensOf_symbol (b : Symbol) : tokensOf b.text = [.symbol b] := (Token.written_symbol b).2

theorem faultless_of_symbol {text : String} {b : Symbol} (h : tokensOf text = [.symbol b]) :
    (tokenize text).errors = [] := by
  rw [tokenize_errors_eq_nil_iff, h]
  simp

/-- A text that is one word has no faults. -/
theorem faultless_of_word {x name : String} (h : tokensOf x = [.identifier name]) :
    (tokenize x).errors = [] := by
  rw [tokenize_errors_eq_nil_iff, h]
  simp

/-! ### Passages at the end of a text -/

/-- Neither named fields nor a path go on from a row of tokens to a token behind it. -/
def Parted (ts : List Token) (o : Option Token) : Prop :=
  o ≠ some (.symbol .colon) ∧ (o.bind Token.identifier? = none ∨ ∀ t ∈ ts.getLast?, t.closesName)

section

variable {ts us vs : List Token}

/-- A name does not stand behind a last token that goes on with one. -/
theorem Parted.not_identifier (h : Parted ts vs.head?) {a : Token} (hsuffix : [a] <:+ ts)
    (ha : a.closesName = false) : vs.head?.bind Token.identifier? = none := by
  refine h.2.resolve_right fun hlast => ?_
  obtain ⟨us, rfl⟩ := hsuffix
  have hcloses := hlast a (by simp)
  rw [ha] at hcloses
  simp at hcloses

theorem Parted.fieldsAhead (h : Parted ts vs.head?) (hsuffix : us <:+ ts) (hne : us ≠ [])
    (hus : fieldsAhead (us ++ vs)) : fieldsAhead us := by
  match us, hne with
  | [a], _ =>
    rw [SolidityFrontend.fieldsAhead, Bool.and_eq_true, Bool.and_eq_true] at hus
    obtain ⟨⟨hbrace, hname⟩, -⟩ := hus
    obtain rfl : a = .symbol .leftBrace := by simpa using hbrace
    have hnone := h.not_identifier hsuffix rfl
    rw [List.head?_eq_getElem?] at hnone
    simp [hnone] at hname
  | [a, b], _ =>
    rw [SolidityFrontend.fieldsAhead, Bool.and_eq_true] at hus
    have hcolon := h.1
    rw [List.head?_eq_getElem?] at hcolon
    exact absurd (beq_iff_eq.1 hus.2) hcolon
  | _ :: _ :: _ :: _, _ => exact hus

theorem Parted.pathAhead (h : Parted ts vs.head?) (hsuffix : us <:+ ts) (hne : us ≠ [])
    (hus : pathAhead (us ++ vs)) : pathAhead us := by
  match us, hne with
  | [a], _ =>
    rw [SolidityFrontend.pathAhead, Bool.and_eq_true] at hus
    obtain ⟨hdot, hname⟩ := hus
    obtain rfl : a = .symbol .dot := by simpa using hdot
    have hnone := h.not_identifier hsuffix rfl
    rw [List.head?_eq_getElem?] at hnone
    simp [hnone] at hname
  | _ :: _ :: _, _ => exact hus

end

/-- Tokens that are all of the first text, with others behind them in the second. -/
def Setting.leading (ts : List Token) (next : List Lexeme) (errors : Array SyntaxError)
    (h : Parted ts (next.map Lexeme.token).head?) : Setting where
  tokens := ts
  next₁ := []
  next₂ := next
  errors₁ := #[]
  errors₂ := errors
  fields _ hsuffix hne hus := by
    rw [List.map_nil, List.append_nil]
    exact h.fieldsAhead hsuffix hne hus
  path _ hsuffix hne hus := by
    rw [List.map_nil, List.append_nil]
    exact h.pathAhead hsuffix hne hus

/-! ### Fragments -/

/-- The tokens `ts` are read as `x`, up to its spans, before tokens that do not go on with it. -/
def ReadBefore {α : Type} [Placed α] (p : Parser α) (before : Option Token → Prop) (ts : List Token)
    (x : α) : Prop :=
  ∀ (c : Context) (us : List Token), c.structLiterals = true → before us.head? →
    Accepts c p ts us (Alike x)

section

variable {α : Type} [Placed α] {p p' : Parser α} {before : Option Token → Prop}
  {I : List Lexeme → Prop} {j : Nat} {c : Context} {s t : State} {x : α} {source : String}
  {next : Session}

omit [Placed α] in
/-- The tokens up to the end of one text stand in another one, with others behind them there. -/
theorem exists_leading {s s' : State} {us : List Token} (hs' : s'.tokens = s.tokens ++ us)
    (hparted : Parted s.tokens us.head?) (hs : s.errors = #[]) :
    ∃ H : Setting, H.next₁ = [] ∧ H.errors₁ = #[] ∧ H.next₂.map Lexeme.token = us
      ∧ H.At s.rest s s' := by
  have hdrop : (s'.rest.drop s.tokens.length).map Lexeme.token = us := by
    rw [List.map_drop]
    change s'.tokens.drop s.tokens.length = us
    rw [hs', List.drop_left]
  refine ⟨.leading s.tokens (s'.rest.drop s.tokens.length) s'.errors (hdrop.symm ▸ hparted), rfl, rfl,
    hdrop, List.suffix_refl _, (List.append_nil _).symm,
    ⟨s'.rest.take s.tokens.length, ?_, (List.take_append_drop _ _).symm⟩, hs, rfl⟩
  rw [List.map_take]
  change s'.tokens.take s.tokens.length = s.tokens
  rw [hs', List.take_left]

/-- What is read up to the end without errors is read before other tokens by each parser that echoes
the first one. -/
theorem readBefore_of_echoes (hc : c.structLiterals = true) (hx : p c s = (.ok x, t))
    (hend : t.rest = []) (hs : s.errors = #[]) (ht : t.errors = #[]) (hI : I s.rest)
    (hparted : ∀ o, before o → Parted s.tokens o)
    (hechoes : ∀ H : Setting, before H.head₂ → Echoes H unrestricted I j 0 p p') :
    ReadBefore p' before s.tokens x := by
  intro c' us hc' hbefore s' hs'
  obtain ⟨H, hnext₁, herrors₁, hnext₂, hat⟩ := exists_leading hs' (hparted _ hbefore) hs
  have hkept : H.Kept 0 t := ⟨by rw [ht]; exact Nat.zero_le _, by simp [hnext₁]⟩
  have hbefore₂ : before H.head₂ := by
    rw [Setting.head₂, ← List.head?_map]
    exact hnext₂.symm ▸ hbefore
  obtain ⟨x', t', v, hx', halike, ht'⟩ := (hechoes H hbefore₂).run ⟨fun _ => hc', fun _ => hc'⟩
    hat hI hx hkept hc
  have hv : v = [] := by
    have hlength := ht'.length₁
    rw [hend] at hlength
    exact List.eq_nil_of_length_eq_zero (Nat.eq_zero_of_add_eq_zero_right hlength.symm)
  subst hv
  exact ⟨x', t', hx', halike, by rw [ht'.tokens₂]; exact hnext₂, ht'.errors₂.trans hat.errors₂.symm⟩

theorem readBefore_of_whole (h : (ofSource source).run (whole p) = (.ok x, next))
    (herrors : next.state.errors = #[]) (hparted : ∀ o, before o → Parted (tokensOf source) o)
    (hechoes : ∀ H : Setting, before H.head₂ → Echoes H unrestricted anywhere j 0 p p') :
    ReadBefore p' before (tokensOf source) x := by
  obtain ⟨hread, hend, -⟩ := run_whole_eq_ok h
  exact readBefore_of_echoes rfl hread hend rfl herrors trivial hparted hechoes

omit [Placed α] in
theorem Parser.Silent.errors_of_whole (hp : Silent p)
    (h : (ofSource source).run (whole p) = (.ok x, next)) : next.state.errors = #[] := by
  obtain ⟨hread, -, -⟩ := run_whole_eq_ok h
  exact hp.eq hread

end

/-! ### Expressions and type names of bounded depth -/

/-- The source is read as a whole with at most `n` levels of nesting. -/
def NestsWithin {α : Type} (part : Nested → Parser α) (n : Nat) (source : String) : Prop :=
  ∃ x, ((ofSource source).run (whole (part (.ofDepth n)))).1 = .ok x

/-- The source is an expression with at most `n` levels of nesting. -/
structure IsExpression (n : Nat) (source : String) (e : Expr) : Prop where
  read : (ofSource source).expression.1 = .ok e
  within : NestsWithin Nested.expression n source

/-- The source is a type name with at most `n` levels of nesting. -/
structure IsTypeName (n : Nat) (source : String) (T : TypeName) : Prop where
  read : (ofSource source).typeName.1 = .ok T
  within : NestsWithin Nested.typeName n source

theorem exists_ok {α : Type} {r : Except SyntaxError α} (h : r.toBool) : ∃ x, r = .ok x := by
  rcases r with e | x
  · simp [Except.toBool] at h
  · exact ⟨x, rfl⟩

theorem exists_run_eq_ok {α β : Type} {r : Except SyntaxError α × β} {x : α} (h : r.1 = .ok x) :
    ∃ y, r = (.ok x, y) := ⟨r.2, Prod.ext h rfl⟩

theorem exists_isExpression {n : Nat} {E : String} (h : (ofSource E).expression.1.toBool
    ∧ ((ofSource E).run (whole (Nested.ofDepth n).expression)).1.toBool) :
    ∃ e, IsExpression n E e :=
  (exists_ok h.1).imp fun _ he => ⟨he, exists_ok h.2⟩

theorem exists_isTypeName {n : Nat} {A : String} (h : (ofSource A).typeName.1.toBool
    ∧ ((ofSource A).run (whole (Nested.ofDepth n).typeName)).1.toBool) :
    ∃ T, IsTypeName n A T :=
  (exists_ok h.1).imp fun _ hT => ⟨hT, exists_ok h.2⟩

section

variable {α : Type} [Placed α] {part : Nested → Parser α} {before : Option Token → Prop} {n m : Nat}
  {source : String} {x : α}

/-- What is read with few levels of nesting is read with more of them. -/
theorem readBefore_of_nestsWithin (hsilent : ∀ n, Silent (part (.ofDepth n)))
    (hechoes : ∀ (H : Setting) (m n : Nat), m ≤ n → H.head₂ = none ∨ before H.head₂ →
      Echoes H unrestricted anywhere 1 0 (part (.ofDepth m)) (part (.ofDepth n)))
    (hparted : ∀ o, before o → Parted (tokensOf source) o)
    (hread : ((ofSource source).run (whole (part .full))).1 = .ok x)
    (hwithin : NestsWithin part n source) (hn : n ≤ nestingLimit) (hm : n ≤ m) :
    ReadBefore (part (.ofDepth m)) before (tokensOf source) x := by
  obtain ⟨x₀, hx₀⟩ := hwithin
  obtain ⟨next₀, hrun₀⟩ : ∃ next, (ofSource source).run (whole (part (.ofDepth n))) = (.ok x₀, next) :=
    ⟨_, Prod.ext hx₀ rfl⟩
  have herrors := (hsilent n).errors_of_whole hrun₀
  -- With all levels the same tokens are read, so the value is the given one.
  have halike : Alike x₀ x := by
    obtain ⟨next, hrun⟩ : ∃ next, (ofSource source).run (whole (part .full)) = (.ok x, next) :=
      ⟨_, Prod.ext hread rfl⟩
    have hfull : ReadBefore (part .full) (· = none) (tokensOf source) x₀ :=
      readBefore_of_whole hrun₀ herrors (by rintro _ rfl; exact ⟨by simp, .inl rfl⟩)
        fun H hH => hechoes H n nestingLimit hn (.inl hH)
    obtain ⟨x', t, hx', halike, -⟩ := hfull (ofSource source).context [] rfl rfl
      (ofSource source).state (List.append_nil _).symm
    obtain ⟨hx, -, -⟩ := run_whole_eq_ok hrun
    obtain rfl := Except.ok.inj (congrArg Prod.fst (hx'.symm.trans hx))
    exact halike
  have hread := readBefore_of_whole hrun₀ herrors hparted fun H hH => hechoes H n m hm (.inr hH)
  exact fun c us hc hus => (hread c us hc hus).mono fun _ halike' => halike'.trans halike.symm

end

namespace IsExpression

variable {n m : Nat} {source : String} {e : Expr}

theorem faultless (h : IsExpression n source e) : (tokenize source).errors = [] := by
  obtain ⟨next, hrun⟩ : ∃ next, (ofSource source).run (whole Nested.full.expression) = (.ok e, next) :=
    exists_run_eq_ok h.read
  exact faultless_of_whole hrun (Nested.sound_full.expression False) e.phrase_le_sane

/-- An expression is read before a symbol that closes what it stands in. -/
theorem readBefore_closing (h : IsExpression n source e) (hn : n ≤ nestingLimit) (hm : n ≤ m) :
    ReadBefore (Nested.ofDepth m).expression (fun o => ∃ b, isClosing b ∧ o = some (.symbol b))
      (tokensOf source) e := by
  refine readBefore_of_nestsWithin (fun n => (Nested.silent_ofDepth n).expression)
    (fun H m n hmn hH => ?_) ?_ h.read h.within hn hm
  · refine ((Nested.echoed_ofDepth hmn).expression 0 fun _ t ht => ?_).proviso fun _ _ _ => .inl
    rcases hH with hnone | ⟨b, hb, hclosing⟩
    · simp [hnone] at ht
    · obtain rfl : t = .symbol b := by simpa [hclosing] using ht.symm
      exact hb
  · rintro _ ⟨b, hb, rfl⟩
    refine ⟨?_, .inl rfl⟩
    rintro heq
    obtain rfl : b = .colon := by simpa using heq
    exact absurd hb (by decide)

/-- An expression is read before a semicolon. -/
theorem readBefore (h : IsExpression n source e) (hn : n ≤ nestingLimit) (hm : n ≤ m) :
    ReadBefore (Nested.ofDepth m).expression (· = some (.symbol .semicolon)) (tokensOf source) e :=
  fun c us hc hus => h.readBefore_closing hn hm c us hc ⟨.semicolon, rfl, hus⟩

end IsExpression

/-- A word with which no type name goes on. -/
def wordEndsType (o : Option Token) : Prop := ∃ w, o = some (.identifier w) ∧ Token.endsType (.identifier w)

namespace IsTypeName

variable {n m : Nat} {source : String} {T : TypeName}

theorem faultless (h : IsTypeName n source T) : (tokenize source).errors = [] := by
  obtain ⟨next, hrun⟩ : ∃ next, (ofSource source).run (whole Nested.full.typeName) = (.ok T, next) :=
    exists_run_eq_ok h.read
  exact faultless_of_whole hrun (Nested.sound_full.typeName False) T.phrase_le_sane

/-- A type name is read before a word that is no attribute. -/
theorem readBefore (h : IsTypeName n source T) (hn : n ≤ nestingLimit) (hm : n ≤ m) :
    ReadBefore (Nested.ofDepth m).typeName wordEndsType (tokensOf source) T := by
  refine readBefore_of_nestsWithin (fun n => (Nested.silent_ofDepth n).typeName)
    (fun H m n hmn hH => ?_) ?_ h.read h.within hn hm
  · refine ((Nested.echoed_ofDepth hmn).typeName 0 fun _ t ht => ?_).any
    rcases hH with hnone | ⟨w, hw, hends⟩
    · simp [hnone] at ht
    · obtain rfl : t = .identifier w := by simpa [hw] using ht.symm
      exact hends
  · rintro _ ⟨w, rfl, -⟩
    refine ⟨by simp, .inr ?_⟩
    exact closesName_of_whole (Prod.ext h.read rfl) (Nested.sound_full.typeName False) T.closes_phrase

end IsTypeName

end SolidityFrontend
