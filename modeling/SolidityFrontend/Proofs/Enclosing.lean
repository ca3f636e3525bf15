import SolidityFrontend.Proofs.Attributing
import SolidityFrontend.Proofs.Continuing

/-!
# What stands around a body

The body of a function, a modifier, a constructor or a fallback stands in that definition, and the
definition in a file, or in a contract of it. A parser that `Encloses` such bodies reads what stands
around one of them as before where a semicolon is omitted in it, if the body itself is read again.
-/

namespace SolidityFrontend

open SolidityFrontend.Parser SolidityFrontend.Grammar

/-! ### Syntax around a block -/

def FunctionDefinition.withBody (d : FunctionDefinition) (b : Block) : FunctionDefinition :=
  { d with body := some b }

def ModifierDefinition.withBody (d : ModifierDefinition) (b : Block) : ModifierDefinition :=
  { d with body := some b }

def ConstructorDefinition.withBody (d : ConstructorDefinition) (b : Block) : ConstructorDefinition :=
  { d with body := some b }

def FallbackDefinition.withBody (d : FallbackDefinition) (b : Block) : FallbackDefinition :=
  { d with body := some b }

/-- The members with a body, without it. -/
inductive Member.Around : (Block → Member) → Prop
  | function (d : FunctionDefinition) : Around fun b => .function (d.withBody b)
  | modifier (d : ModifierDefinition) : Around fun b => .modifier (d.withBody b)
  | constructor (d : ConstructorDefinition) : Around fun b => .constructor (d.withBody b)
  | fallback (d : FallbackDefinition) : Around fun b => .fallback (d.withBody b)

/-- The contracts with a member that has a body, without that body. -/
inductive ContractDeclaration.Around : (Block → ContractDeclaration) → Prop
  | member (d : ContractDeclaration) (before behind : List Member) {F : Block → Member}
      (hF : Member.Around F) : Around fun b => { d with members := before ++ F b :: behind }

/-- The items of a file with a body in them, without it. -/
inductive SourceUnit.Around : (Block → SourceUnit) → Prop
  | function (d : FunctionDefinition) : Around fun b => .function (d.withBody b)
  | contract {F : Block → ContractDeclaration} (hF : ContractDeclaration.Around F) :
    Around fun b => .contract (F b)

/-! ### Bodies that are open -/

namespace Parser

variable {α β : Type} {c : Context} {s t u v : State} {ts : List Lexeme} {es : List SyntaxError}
  {xs ys : List α} {x : α} {part : Parser α}

/-- Between two states the braces of a block stand open: its statements are read behind one token at
least, and nothing is wrong up to its closing brace. -/
structure Opens (c : Context) (s u : State) (xs : List Stmt) (v t : State) : Prop where
  took : ∃ ts es, s.Took ts es u
  lt : u.rest.length < s.rest.length
  statements : Chain Nested.full.statement c u xs v
  brace : v.tokens.head? = some (.symbol .rightBrace)
  errors : v.errors = #[]
  le : t.rest.length ≤ v.rest.length

theorem Opens.of_took {xs : List Stmt} {s' : State} (h : Opens c s' u xs v t)
    (hs : s.Took ts es s') : Opens c s u xs v t where
  took := by
    obtain ⟨us, ds, htook⟩ := h.took
    exact ⟨_, _, hs.trans htook⟩
  lt := h.lt.trans_le hs.length_le
  statements := h.statements
  brace := h.brace
  errors := h.errors
  le := h.le

theorem Opens.before {xs : List Stmt} {t' : State} (h : Opens c s u xs v t)
    (hle : t'.rest.length ≤ t.rest.length) : Opens c s u xs v t' :=
  { h with le := hle.trans h.le }

theorem part_of_body {mark : ErrorMark → α} (ho : Onward part)
    (h : body mark part c s = (.ok (xs ++ x :: ys), t)) (ht : t.errors = #[]) :
    ∃ u w v, Chain part c s xs u ∧ part c u = (.ok x, w) ∧ Chain part c w ys v
      ∧ v.tokens.head? = some (.symbol .rightBrace) ∧ v.errors = #[] ∧ t = v.advance := by
  obtain ⟨v, hchain, hend⟩ := chain_of_body ho h ht
  obtain ⟨u, hxs, hrest⟩ := hchain.of_append
  cases hrest with
  | cons hx hys => exact ⟨u, _, v, hxs, hx, hys, hend⟩

end Parser

/-! ### Parsers around a body -/

/-- The value around a block, with other statements in the block. -/
def Enclosed {β : Type} [Placed β] (Ctx : (Block → β) → Prop) (F : Block → β)
    (Q : List Stmt → Prop) (y : β) : Prop :=
  ∃ G xs span, y = G ⟨xs, span⟩ ∧ Ctx G ∧ (∀ b, Alike (F b) (G b)) ∧ Q xs

/-- A body that is open between two states, with the omission in it, is read again. -/
structure Omission.Inside (O : Omission) (c' : Context) (Q : List Stmt → Prop) (u v : State) :
    Prop where
  before : O.Before u
  behind : v.rest.length ≤ O.behind.length
  rereads : O.Rereads c' (body Stmt.error Nested.full.statement) Q u v.advance

namespace Parser

/-- The value of the first parser has a body in it. Where that body is read again, so is what stands
around it. -/
structure Encloses {β : Type} [Placed β] (Ctx : (Block → β) → Prop) (p p' : Parser β) : Prop where
  opens : ∀ {c s t F b}, c.structLiterals = true → Ctx F → p c s = (.ok (F b), t) →
    t.errors = #[] → ∃ u v, Opens c s u b.statements v t
  run : ∀ {c c' s t F b O Q}, c.structLiterals = true → c'.structLiterals = true → Ctx F →
    p c s = (.ok (F b), t) → t.errors = #[] →
      (∀ u v, Opens c s u b.statements v t → Omission.Inside O c' Q u v) →
      O.Rereads c' p' (Enclosed Ctx F Q) s t

variable {α β γ : Type} [Placed α] [Placed β] [Placed γ] {Ctx : (Block → β) → Prop}
  {Ctx' : (Block → γ) → Prop} {p p' q q' : Parser β} {r : Parser α} {f f' : α → Parser β} {j : Nat}

/-- A parser whose values have no body in them. -/
theorem encloses_of_not (h : ∀ c s F b t, Ctx F → p c s ≠ (.ok (F b), t)) : Encloses Ctx p p' :=
  ⟨fun _ hF hy _ => absurd hy (h _ _ _ _ _ hF), fun _ _ hF hy _ _ => absurd hy (h _ _ _ _ _ hF)⟩

omit [Placed α] in
theorem encloses_pure_of_not {make : α → β} (h : ∀ x F b, Ctx F → make x ≠ F b) :
    Encloses Ctx (r >>= fun x => pure (make x)) p' := by
  refine encloses_of_not fun c s F b t hF hy => ?_
  obtain ⟨x, u, -, hpure⟩ := bind_eq_ok hy
  exact h x F b hF (pure_eq_ok hpure).1.symm

/-- Behind a part that both texts have in common. -/
theorem Encloses.bind (h : ∀ H : Setting, Echoes H always anywhere j 1 r r)
    (hf : ∀ x x', Alike x x' → Encloses Ctx (f x) (f' x')) :
    Encloses Ctx (r >>= f) (r >>= f') where
  opens {c s t F b} hc hF hy ht := by
    obtain ⟨x, u, hx, hy⟩ := bind_eq_ok hy
    obtain ⟨ts, es, htook⟩ := (h (.alone s)).onward.took hx
    obtain ⟨v, w, hopens⟩ := (hf x x rfl).opens hc hF hy ht
    exact ⟨v, w, hopens.of_took htook⟩
  run {c c' s t F b O Q} hc hc' hF hy ht hin := by
    obtain ⟨x, u, hx, hy⟩ := bind_eq_ok hy
    obtain ⟨ts, es, htook⟩ := (h O.setting).onward.took hx
    obtain ⟨v, w, hopens⟩ := (hf x x rfl).opens hc hF hy ht
    obtain ⟨_, _, htook'⟩ := hopens.took
    have hu := (hin v w (hopens.of_took htook)).before.of_took htook'
    exact Omission.Rereads.bind (h O.setting) hc' hx trivial hu fun x' hx' =>
      (hf x x' hx').run hc hc' hF hy ht fun v w hopens => hin v w (hopens.of_took htook)

omit [Placed α] in
/-- Behind a look at the places, which may be any. -/
theorem Looks.encloses {g : Context → State → α} (hr : Looks r g)
    (h : ∀ x x', Encloses Ctx (f x) (f' x')) : Encloses Ctx (r >>= f) (r >>= f') where
  opens {c s t F b} hc hF hy ht := by
    rw [bind_ok (hr c s)] at hy
    exact (h _ (g c s)).opens hc hF hy ht
  run {c c' s t F b O Q} hc hc' hF hy ht hin w s' hs := by
    rw [bind_ok (hr c s)] at hy
    rw [bind_ok (hr c' s')]
    exact (h _ _).run hc hc' hF hy ht hin hs

omit [Placed α] in
/-- Behind a look that is the same in both texts before two tokens that they have in common. -/
theorem Sees.encloses {g : List Token → α} (hr : Sees r g)
    (hsame : ∀ {O : Omission} {w s s'}, O.At w s s' → w ≠ [] → g s'.tokens = g s.tokens)
    (h : ∀ x, Encloses Ctx (f x) (f' x)) : Encloses Ctx (r >>= f) (r >>= f') where
  opens {c s t F b} hc hF hy ht := by
    rw [bind_ok (hr c s)] at hy
    exact (h _).opens hc hF hy ht
  run {c c' s t F b O Q} hc hc' hF hy ht hin w s' hs := by
    rw [bind_ok (hr c s)] at hy
    obtain ⟨u, v, hopens⟩ := (h _).opens hc hF hy ht
    have hw : w ≠ [] := by
      rintro rfl
      have hlength := congrArg List.length hs.rest
      have hlt := hopens.lt
      have hle := (hin u v hopens).before.1
      simp only [List.nil_append, List.length_cons] at hlength
      omega
    rw [bind_ok (hr c' s'), hsame hs hw]
    exact (h _).run hc hc' hF hy ht hin hs

theorem encloses_next {l l' : Option Token → Parser β} (h : ∀ o, Encloses Ctx (l o) (l' o)) :
    Encloses Ctx (next? >>= l) (next? >>= l') := sees_next.encloses (fun hs _ => hs.head?_eq) h

theorem encloses_peek {l l' : Option Token → Parser β} (h : ∀ o, Encloses Ctx (l o) (l' o)) :
    Encloses Ctx (peek? 1 >>= l) (peek? 1 >>= l') := by
  refine (sees_peek 1).encloses (fun {O w s s'} hs hw => ?_) h
  obtain ⟨l, w, rfl⟩ := List.exists_cons_of_ne_nil hw
  rw [State.tokens, State.tokens, hs.rest, hs.rest']
  cases w <;> rfl

theorem encloses_ite {b : Prop} [Decidable b] (h : b → Encloses Ctx p p')
    (h' : ¬b → Encloses Ctx q q') :
    Encloses Ctx (if b then p else q) (if b then p' else q') := by
  split
  · exact h ‹_›
  · exact h' ‹_›

theorem encloses_if_nextIs {t : Token} (h : Encloses Ctx p p') (h' : Encloses Ctx q q') :
    Encloses Ctx (nextIs t >>= fun b => if b = true then p else q)
      (nextIs t >>= fun b => if b = true then p' else q') := by
  refine (sees_nextIs t).encloses (fun hs _ => by rw [hs.head?_eq]) fun b => ?_
  exact encloses_ite (fun _ => h) fun _ => h'

/-- What stands around the value stands around the body in it. -/
theorem Encloses.map {make : β → γ} (h : Encloses Ctx p p')
    (hin : ∀ {F b x}, Ctx' F → F b = make x → ∃ G, Ctx G ∧ x = G b ∧ F = make ∘ G)
    (hout : ∀ {G}, Ctx G → Ctx' (make ∘ G))
    (halike : ∀ x x', Alike x x' → Alike (make x) (make x')) :
    Encloses Ctx' (p >>= fun x => pure (make x)) (p' >>= fun x => pure (make x)) where
  opens hc hF hy ht := by
    obtain ⟨x, u, hx, hpure⟩ := bind_eq_ok hy
    obtain ⟨heq, rfl⟩ := pure_eq_ok hpure
    obtain ⟨G, hG, rfl, -⟩ := hin hF heq
    exact h.opens hc hG hx ht
  run {c c' s t F b O Q} hc hc' hF hy ht hinside := by
    obtain ⟨x, u, hx, hpure⟩ := bind_eq_ok hy
    obtain ⟨heq, rfl⟩ := pure_eq_ok hpure
    obtain ⟨G, hG, rfl, rfl⟩ := hin hF heq
    refine (h.run hc hc' hG hx ht hinside).map ?_
    rintro _ ⟨G', xs, span, rfl, hG', hsame, hQ⟩
    exact ⟨make ∘ G', xs, span, rfl, hout hG', fun b => halike _ _ (hsame b), hQ⟩

/-- What stands around the value, with the places of the whole. -/
theorem Encloses.spanned {make make' : β → Span → γ} (h : Encloses Ctx p p') (start start' : Span)
    (hin : ∀ {F b x span}, Ctx' F → F b = make x span →
      ∃ G, Ctx G ∧ x = G b ∧ F = fun b => make (G b) span)
    (hout : ∀ {G}, Ctx G → ∀ span, Ctx' fun b => make' (G b) span)
    (halike : ∀ x x' span span', Alike x x' → Alike (make x span) (make' x' span')) :
    Encloses Ctx' (p >>= fun x => spanFrom start >>= fun span => pure (make x span))
      (p' >>= fun x => spanFrom start' >>= fun span => pure (make' x span)) where
  opens {c s t F b} hc hF hy ht := by
    obtain ⟨x, u, hx, hspan⟩ := bind_eq_ok hy
    rw [bind_ok (looks_spanFrom start c u)] at hspan
    obtain ⟨heq, rfl⟩ := pure_eq_ok hspan
    obtain ⟨G, hG, rfl, -⟩ := hin hF heq
    exact h.opens hc hG hx ht
  run {c c' s t F b O Q} hc hc' hF hy ht hinside := by
    obtain ⟨x, u, hx, hspan⟩ := bind_eq_ok hy
    rw [bind_ok (looks_spanFrom start c u)] at hspan
    obtain ⟨heq, rfl⟩ := pure_eq_ok hspan
    obtain ⟨G, hG, rfl, rfl⟩ := hin hF heq
    refine (h.run hc hc' hG hx ht hinside).spanned start' ?_
    rintro _ span' ⟨G', xs, inner, rfl, hG', hsame, hQ⟩
    exact ⟨fun b => make' (G' b) span', xs, inner, rfl, hout hG' span',
      fun b => halike _ _ _ span' (hsame b), hQ⟩

end Parser

namespace Grammar

variable {c c' : Context} {s t : State} {O : Omission} {Q : List Stmt → Prop} {b : Block}

/-! ### Bodies of functions -/

theorem functionBody_eq_ok (h : functionBody .full c s = (.ok (some b), t)) :
    accept (.symbol .semicolon) c s = (.ok false, s)
      ∧ s.tokens.head? = some (.symbol .leftBrace)
      ∧ body Stmt.error Nested.full.statement c s.advance = (.ok b.statements, t) := by
  obtain ⟨isEnd, u, hend, hrest⟩ := bind_eq_ok h
  by_cases hsemicolon : s.tokens.head? = some (.symbol .semicolon)
  · rw [accept_eq_true hsemicolon] at hend
    obtain ⟨heq, -⟩ := Prod.mk.inj hend
    obtain rfl := Except.ok.inj heq
    exact absurd (pure_eq_ok hrest).1 (by simp)
  · rw [accept_eq_false hsemicolon] at hend
    obtain ⟨heq, rfl⟩ := Prod.mk.inj hend
    obtain rfl := Except.ok.inj heq
    refine ⟨accept_eq_false hsemicolon, ?_⟩
    obtain ⟨b', v, hblock, hpure⟩ := bind_eq_ok hrest
    obtain ⟨heq, rfl⟩ := pure_eq_ok hpure
    obtain rfl := Option.some.inj heq
    obtain ⟨start, u, hstart, hbody⟩ := bind_eq_ok hblock
    obtain ⟨hhead, rfl⟩ := symbol_eq_ok hstart
    obtain ⟨xs, v, hxs, hspan⟩ := bind_eq_ok hbody
    rw [bind_ok (looks_spanFrom start c v)] at hspan
    obtain ⟨rfl, rfl⟩ := pure_eq_ok hspan
    exact ⟨hhead, hxs⟩

theorem functionBody_opens (h : functionBody .full c s = (.ok (some b), t)) (ht : t.errors = #[]) :
    ∃ v, Opens c s s.advance b.statements v t ∧ t = v.advance := by
  obtain ⟨-, hhead, hbody⟩ := functionBody_eq_ok h
  obtain ⟨v, hxs, hbrace, hv, rfl⟩ := chain_of_body selfContained_statement.onward hbody ht
  exact ⟨v, ⟨onward_advance c s, length_advance_lt hhead, hxs, hbrace, hv, length_advance_le v⟩, rfl⟩

/-- A block is itself what stands around it. -/
theorem encloses_functionBody :
    Encloses (fun F => F = some) (functionBody .full) (functionBody .full) where
  opens {c s t F b} _ hF hy ht := by
    subst hF
    obtain ⟨v, hopens, -⟩ := functionBody_opens hy ht
    exact ⟨_, v, hopens⟩
  run {c c' s t F b O Q} _ hc' hF hy ht hin := by
    subst hF
    obtain ⟨v, hopens, rfl⟩ := functionBody_opens hy ht
    obtain ⟨haccept, hhead, -⟩ := functionBody_eq_ok hy
    have hinside := hin _ _ hopens
    obtain ⟨ts, es, htook⟩ := hopens.took
    refine Omission.Rereads.bind (echoes_accept (k := 0) _) hc' haccept trivial
      (hinside.before.of_took htook) fun isEnd hend => ?_
    obtain rfl : isEnd = false := hend
    obtain ⟨start, hstart⟩ := symbol_of_head (c := c) hhead
    have hblock : O.Rereads c' (block .full) (fun b => Q b.statements) s v.advance := by
      refine Omission.Rereads.bind (P := always) (echoes_symbol (k := 1) _) hc' hstart trivial
        hinside.before fun start' _ => ?_
      exact hinside.rereads.spanned start' fun xs span => id
    exact hblock.map fun ⟨xs, span⟩ hb => ⟨some, xs, span, rfl, rfl, fun _ => rfl, hb⟩

/-! ### Definitions -/

/-- What is read everywhere outside all nesting. -/
theorem echoedWhole_full (H : Setting) : Nested.full.EchoedWhole H .full :=
  Nested.echoedWhole_ofDepth le_rfl

theorem encloses_functionDefinition :
    Encloses (fun F => ∃ d : FunctionDefinition, F = d.withBody) (functionDefinition .full)
      (functionDefinition .full) := by
  refine Encloses.bind (fun _ => echoes_keyword (k := 1) _) fun start start' _ => ?_
  refine Encloses.bind (fun _ => echoes_identifier (k := 1)) fun name name' hname => ?_
  refine Encloses.bind (fun H => echoes_parameters (k := 1) (echoedWhole_full H).toEchoed)
    fun ps ps' hps => ?_
  refine Encloses.bind (fun H => echoes_functionAttributes (k := 0) (echoedWhole_full H).toEchoed)
    fun attributes attributes' h => ?_
  refine Encloses.bind (fun H => echoes_returnParameters (k := 1) (echoedWhole_full H).toEchoed
    Setting.lacks_succ) fun returns returns' hr => ?_
  refine encloses_functionBody.spanned start start' ?_ ?_ ?_
  · rintro _ b inner span ⟨d, rfl⟩ heq
    obtain ⟨rfl, rfl, rfl, rfl, rfl, rfl⟩ := FunctionDefinition.mk.inj heq
    exact ⟨some, rfl, rfl, rfl⟩
  · exact fun hG span => ⟨⟨name', ps', attributes', returns', none, span⟩, by rw [hG]; rfl⟩
  · exact fun x x' span span' hx => by simp [Alike, hname, hps, h, hr, hx]

theorem encloses_modifierDefinition :
    Encloses (fun F => ∃ d : ModifierDefinition, F = d.withBody) (modifierDefinition .full)
      (modifierDefinition .full) := by
  refine Encloses.bind (fun _ => echoes_keyword (k := 1) _) fun start start' _ => ?_
  refine Encloses.bind (fun _ => echoes_identifier (k := 1)) fun name name' hname => ?_
  have hend (ps ps' : List Parameter) (hps : Alike ps ps') :
      Encloses (fun F => ∃ d : ModifierDefinition, F = d.withBody)
        (functionAttributes .full >>= fun attributes => functionBody .full >>= fun inner =>
          spanFrom start >>= fun span =>
            pure (⟨name, ps, attributes, inner, span⟩ : ModifierDefinition))
        (functionAttributes .full >>= fun attributes => functionBody .full >>= fun inner =>
          spanFrom start' >>= fun span => pure ⟨name', ps', attributes, inner, span⟩) := by
    refine Encloses.bind (fun H => echoes_functionAttributes (k := 0) (echoedWhole_full H).toEchoed)
      fun attributes attributes' h => ?_
    refine encloses_functionBody.spanned start start' ?_ ?_ ?_
    · rintro _ b inner span ⟨d, rfl⟩ heq
      obtain ⟨rfl, rfl, rfl, rfl, rfl⟩ := ModifierDefinition.mk.inj heq
      exact ⟨some, rfl, rfl, rfl⟩
    · exact fun hG span => ⟨⟨name', ps', attributes', none, span⟩, by rw [hG]; rfl⟩
    · exact fun x x' span span' hx => by simp [Alike, hname, hps, h, hx]
  refine encloses_if_nextIs ?_ ?_
  · exact Encloses.bind (fun H => echoes_parameters (k := 1) (echoedWhole_full H).toEchoed) hend
  · exact Encloses.bind (j := 1) (fun _ => echoes_pure rfl) hend

theorem encloses_constructorDefinition :
    Encloses (fun F => ∃ d : ConstructorDefinition, F = d.withBody) (constructorDefinition .full)
      (constructorDefinition .full) := by
  refine Encloses.bind (fun _ => echoes_keyword (k := 1) _) fun start start' _ => ?_
  refine Encloses.bind (fun H => echoes_parameters (k := 1) (echoedWhole_full H).toEchoed)
    fun ps ps' hps => ?_
  refine Encloses.bind (fun H => echoes_functionAttributes (k := 0) (echoedWhole_full H).toEchoed)
    fun attributes attributes' h => ?_
  refine encloses_functionBody.spanned start start' ?_ ?_ ?_
  · rintro _ b inner span ⟨d, rfl⟩ heq
    obtain ⟨rfl, rfl, rfl, rfl⟩ := ConstructorDefinition.mk.inj heq
    exact ⟨some, rfl, rfl, rfl⟩
  · exact fun hG span => ⟨⟨ps', attributes', none, span⟩, by rw [hG]; rfl⟩
  · exact fun x x' span span' hx => by simp [Alike, hps, h, hx]

theorem encloses_fallbackRest (kind : FallbackKind) (start start' : Span) :
    Encloses (fun F => ∃ d : FallbackDefinition, F = d.withBody) (fallbackRest .full kind start)
      (fallbackRest .full kind start') := by
  refine Encloses.bind (fun H => echoes_parameters (k := 1) (echoedWhole_full H).toEchoed)
    fun ps ps' hps => ?_
  refine Encloses.bind (fun H => echoes_functionAttributes (k := 0) (echoedWhole_full H).toEchoed)
    fun attributes attributes' h => ?_
  refine encloses_functionBody.spanned start start' ?_ ?_ ?_
  · rintro _ b inner span ⟨d, rfl⟩ heq
    obtain ⟨rfl, rfl, rfl, rfl, rfl⟩ := FallbackDefinition.mk.inj heq
    exact ⟨some, rfl, rfl, rfl⟩
  · exact fun hG span => ⟨⟨kind, ps', attributes', none, span⟩, by rw [hG]; rfl⟩
  · exact fun x x' span span' hx => by simp [Alike, hps, h, hx]

theorem encloses_namelessFallback :
    Encloses (fun F => ∃ d : FallbackDefinition, F = d.withBody) (namelessFallback .full)
      (namelessFallback .full) :=
  Encloses.bind (fun _ => echoes_keyword (k := 1) _) fun start start' _ =>
    encloses_fallbackRest _ start start'

theorem encloses_fallbackDefinition (kind : FallbackKind) :
    Encloses (fun F => ∃ d : FallbackDefinition, F = d.withBody) (fallbackDefinition .full kind)
      (fallbackDefinition .full kind) :=
  Encloses.bind (fun _ => echoes_word (k := 1) _) fun start start' _ =>
    encloses_fallbackRest kind start start'

/-! ### Members -/

/-- The members that are definitions with bodies. -/
theorem encloses_functionMember {p : Parser FunctionDefinition}
    (h : Encloses (fun F => ∃ d : FunctionDefinition, F = d.withBody) p p) :
    Encloses Member.Around (p >>= fun x => pure (Member.function x))
      (p >>= fun x => pure (.function x)) := by
  refine h.map ?_ ?_ fun x x' h => by simp [Alike, h]
  · rintro _ b x (d | _ | _ | _) heq <;> cases heq
    exact ⟨_, ⟨d, rfl⟩, rfl, rfl⟩
  · rintro _ ⟨d, rfl⟩
    exact .function d

theorem encloses_fallbackMember {p : Parser FallbackDefinition}
    (h : Encloses (fun F => ∃ d : FallbackDefinition, F = d.withBody) p p) :
    Encloses Member.Around (p >>= fun x => pure (Member.fallback x))
      (p >>= fun x => pure (.fallback x)) := by
  refine h.map ?_ ?_ fun x x' h => by simp [Alike, h]
  · rintro _ b x (_ | _ | _ | d) heq <;> cases heq
    exact ⟨_, ⟨d, rfl⟩, rfl, rfl⟩
  · rintro _ ⟨d, rfl⟩
    exact .fallback d

theorem silent_stateVariable {d : Nested} (hd : d.Silent) : Silent (stateVariable d) := by
  have hend (type : TypeName) (attributes : List VariableAttribute) (name : Identifier)
      (start : Span) (value : Option Expr) :
      Silent (symbol .semicolon >>= fun _ => spanFrom start >>= fun span =>
        pure (⟨type, attributes, name, value, span⟩ : StateVariable)) :=
    (silent_symbol _).bind fun _ => silent_spanFrom fun _ => silent_pure _
  refine silent_here fun start => hd.typeName.bind fun type => ?_
  refine (silent_many silent_variableAttributeStep).bind fun attributes => ?_
  refine silent_identifier.bind fun name => silent_if_accept ?_ ?_
  · exact (hd.expression.bind fun e => silent_pure (some e)).bind (hend type attributes name start)
  · exact (silent_pure none).bind (hend type attributes name start)

/-- What is read as a fallback, since it is no variable, is no variable without the semicolon. -/
theorem encloses_variableOrFallback :
    Encloses Member.Around (variableOrFallback .full) (variableOrFallback .full) := by
  have hfallback := encloses_fallbackMember encloses_namelessFallback
  have hsecond {c : Context} {s t : State} {F : Block → Member} {b : Block} (hF : Member.Around F)
      (hy : variableOrFallback .full c s = (.ok (F b), t)) :
      (namelessFallback .full >>= fun x => pure (Member.fallback x)) c s = (.ok (F b), t) := by
    refine (either_eq_ok hy).resolve_left fun hfirst => ?_
    obtain ⟨x, u, -, hpure⟩ := bind_eq_ok hfirst
    obtain ⟨heq, -⟩ := pure_eq_ok (c := c) hpure
    cases hF <;> cases heq
  refine ⟨fun hc hF hy ht => hfallback.opens hc hF (hsecond hF hy) ht, ?_⟩
  intro c c' s t F b O Q hc hc' hF hy ht hinside w s' hs
  obtain ⟨y, t', hy', hQ, htokens, herrors⟩ := hfallback.run hc hc' hF (hsecond hF hy) ht hinside hs
  refine ⟨y, t', ?_, hQ, htokens, herrors⟩
  rcases hvariable : (Member.stateVariable <$> stateVariable .full) c' s' with ⟨e | x, u⟩
  · rw [variableOrFallback, either_eq, hvariable]
    dsimp only
    rw [show (Member.fallback <$> namelessFallback .full) c' s' = (.ok y, t') from hy']
  · obtain ⟨V, r, hV, hr⟩ := bind_eq_ok hvariable
    obtain ⟨f, r', hf, hr'⟩ := bind_eq_ok hy'
    obtain ⟨-, rfl⟩ := pure_eq_ok (c := c') hr
    obtain ⟨-, rfl⟩ := pure_eq_ok (c := c') hr'
    obtain rfl := stateVariable_eq_namelessFallback hc' hV hf
    have hnone := silent_stateVariable (Nested.silent_ofDepth nestingLimit) c' s'
    rw [show stateVariable (.ofDepth nestingLimit) c' s' = (.ok V, _) from hV, hs.errors', herrors]
      at hnone
    exact absurd (congrArg Array.size hnone) (by simp)

theorem encloses_member : Encloses Member.Around (member .full) (member .full) := by
  have hnot {α : Type} {p : Parser α} {make : α → Member}
      (h : ∀ x F b, Member.Around F → make x ≠ F b) :
      Encloses Member.Around (p >>= fun x => pure (make x)) (p >>= fun x => pure (make x)) :=
    encloses_pure_of_not h
  refine encloses_next fun next => ?_
  split
  · refine encloses_peek fun second => encloses_ite (fun _ => encloses_variableOrFallback) fun _ => ?_
    exact encloses_functionMember encloses_functionDefinition
  · refine encloses_modifierDefinition.map ?_ ?_ fun x x' h => by simp [Alike, h]
    · rintro _ b x (_ | d | _ | _) heq <;> cases heq
      exact ⟨_, ⟨d, rfl⟩, rfl, rfl⟩
    · rintro _ ⟨d, rfl⟩
      exact .modifier d
  · refine encloses_constructorDefinition.map ?_ ?_ fun x x' h => by simp [Alike, h]
    · rintro _ b x (_ | _ | d | _) heq <;> cases heq
      exact ⟨_, ⟨d, rfl⟩, rfl, rfl⟩
    · rintro _ ⟨d, rfl⟩
      exact .constructor d
  iterate 4 exact hnot (by rintro x _ b (_ | _ | _ | _) heq <;> cases heq)
  · refine encloses_peek fun second => ?_
    split
    · exact encloses_fallbackMember (encloses_fallbackDefinition _)
    · exact hnot (by rintro x _ b (_ | _ | _ | _) heq <;> cases heq)
  iterate 2 exact hnot (by rintro x _ b (_ | _ | _ | _) heq <;> cases heq)
  · exact encloses_of_not fun c s F b t _ hy => unexpected_ne_ok _ c s _ t hy

/-! ### Contracts and files -/

/-- The members around a body. -/
def MembersAround (F : Block → List Member) : Prop :=
  ∃ before behind G, Member.Around G ∧ F = fun b => before ++ G b :: behind

theorem encloses_members : Encloses MembersAround (body Member.error (member .full))
    (body Member.error (member .full)) where
  opens {c s t F b} hc hF hy ht := by
    obtain ⟨before, behind, G, hG, rfl⟩ := hF
    obtain ⟨u, w, v, hbefore, hm, hbehind, -, hv, rfl⟩ :=
      part_of_body selfContained_member.onward hy ht
    obtain ⟨_, _, htook⟩ := hbefore.took selfContained_member.onward
    obtain ⟨_, _, htook'⟩ := hbehind.took selfContained_member.onward
    obtain ⟨u', v', hopens⟩ := encloses_member.opens hc hG hm (htook'.errors_nil hv)
    exact ⟨u', v', (hopens.of_took htook).before ((length_advance_le v).trans htook'.length_le)⟩
  run {c c' s t F b O Q} hc hc' hF hy ht hinside := by
    obtain ⟨before, behind, G, hG, rfl⟩ := hF
    obtain ⟨u, w, v, hbefore, hm, hbehind, hbrace, hv, rfl⟩ :=
      part_of_body selfContained_member.onward hy ht
    obtain ⟨_, _, htook⟩ := hbefore.took selfContained_member.onward
    obtain ⟨_, _, htook'⟩ := hbehind.took selfContained_member.onward
    have hw := htook'.errors_nil hv
    have hin (u' v' : State) (h : Opens c u u' b.statements v' w) : O.Inside c' Q u' v' :=
      hinside u' v' ((h.of_took htook).before ((length_advance_le v).trans htook'.length_le))
    obtain ⟨u', v', hopens⟩ := encloses_member.opens hc hG hm hw
    obtain ⟨_, _, htook''⟩ := hopens.took
    have hmember := encloses_member.run hc hc' hG hm hw hin
    refine (Omission.Rereads.body selfContained_member hc hc' hbefore hm hbehind hbrace hv
      ((hin u' v' hopens).before.of_took htook'') (hopens.le.trans (hin u' v' hopens).behind)
      hmember.recovering).mono ?_
    rintro _ ⟨before', _, behind', rfl, hsame, ⟨G', xs, span, rfl, hG', hsame', hQ⟩, hsame''⟩
    refine ⟨fun b => before' ++ G' b :: behind', xs, span, rfl, ⟨before', behind', G', hG', rfl⟩,
      fun b => ?_, hQ⟩
    have hb : Alike (G b) (G' b) := hsame' b
    simp [Alike, hsame, hb, hsame'']

theorem encloses_contractDeclaration :
    Encloses ContractDeclaration.Around (contractDeclaration .full) (contractDeclaration .full) := by
  refine looks_here.encloses fun start start' => ?_
  refine Encloses.bind (fun _ => echoes_accept (k := 0) _) fun _ isAbstract habstract => ?_
  obtain rfl : isAbstract = _ := habstract
  refine Encloses.bind (fun _ => echoes_contractKind (k := 1) _) fun _ kind hkind => ?_
  obtain rfl : kind = _ := hkind
  refine Encloses.bind (fun _ => echoes_identifier (k := 1)) fun name name' hname => ?_
  refine Encloses.bind (fun H => echoes_inheritance (k := 0) (echoedWhole_full H).toEchoed kind)
    fun bases bases' hbases => ?_
  refine Encloses.bind (fun _ => echoes_symbol (k := 1) _) fun _ _ _ => ?_
  refine encloses_members.spanned start start' ?_ ?_ ?_
  · rintro _ b members span ⟨d, before, behind, hG⟩ heq
    obtain ⟨rfl, rfl, rfl, rfl, rfl, rfl⟩ := ContractDeclaration.mk.inj heq
    exact ⟨_, ⟨before, behind, _, hG, rfl⟩, rfl, rfl⟩
  · rintro _ ⟨before, behind, G, hG, rfl⟩ span
    exact .member ⟨kind, isAbstract, name', bases', [], span⟩ before behind hG
  · exact fun x x' span span' hx => by simp [Alike, hname, hbases, hx]

theorem encloses_sourceUnit :
    Encloses SourceUnit.Around (sourceUnit .full) (sourceUnit .full) := by
  have hnot {α : Type} {p : Parser α} {make : α → SourceUnit}
      (h : ∀ x F b, SourceUnit.Around F → make x ≠ F b) :
      Encloses SourceUnit.Around (p >>= fun x => pure (make x)) (p >>= fun x => pure (make x)) :=
    encloses_pure_of_not h
  refine encloses_next fun next => ?_
  split
  iterate 2 exact hnot (by rintro x _ b (_ | _) heq <;> cases heq)
  iterate 4
    · refine encloses_contractDeclaration.map ?_ ?_ fun x x' h => by simp [Alike, h]
      · rintro _ b x (_ | hF) heq <;> cases heq
        exact ⟨_, hF, rfl, rfl⟩
      · exact fun hF => .contract hF
  iterate 2 exact hnot (by rintro x _ b (_ | _) heq <;> cases heq)
  · refine encloses_functionDefinition.map ?_ ?_ fun x x' h => by simp [Alike, h]
    · rintro _ b x (d | _) heq <;> cases heq
      exact ⟨_, ⟨d, rfl⟩, rfl, rfl⟩
    · rintro _ ⟨d, rfl⟩
      exact .function d
  iterate 3 exact hnot (by rintro x _ b (_ | _) heq <;> cases heq)
  · exact encloses_of_not fun c s F b t _ hy => unexpected_ne_ok _ c s _ t hy

end Grammar

end SolidityFrontend
