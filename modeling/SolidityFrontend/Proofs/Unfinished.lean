import SolidityFrontend.Proofs.Alone
import SolidityFrontend.Proofs.Bodies

/-!
# Texts that break off

Of a text without errors that breaks off behind a token, what is complete is read as in the whole
text: the items that end there or before, and of a contract whose body is open there the members that
do. The header of that contract has the same tokens in both texts, but other ones behind it, so it is
echoed; what stands behind the last complete member may be read in any way.
-/

namespace SolidityFrontend

open SolidityFrontend.Parser SolidityFrontend.Grammar Phrase

variable {c c' : Context} {s s' t t' u : State} {n : Nat} {ts us vs ws : List Lexeme}

/-! ### Parts that end up to an offset -/

/-- Tokens that stand before others, the last of them up to a cut, stand before the cut. -/
theorem exists_eq_append_of_getLast {l : Lexeme} (h : vs ++ ws = ts ++ us)
    (hlast : vs.getLast? = some l) (hl : l ∉ us) : ∃ rest, ts = vs ++ rest ∧ ws = rest ++ us := by
  rcases List.append_eq_append_iff.1 h with ⟨rest, hts, hws⟩ | ⟨rest, hvs, hus⟩
  · exact ⟨rest, hts, hws⟩
  · by_cases hnil : rest = []
    · subst hnil
      exact ⟨[], by simpa using hvs.symm, hus.symm⟩
    · rw [hvs, List.getLast?_append_of_ne_nil _ hnil] at hlast
      exact absurd (hus ▸ List.mem_append_left ws (List.mem_of_getLast? hlast)) hl

namespace Chain

variable {α : Type} {part : Parser α} {L : α → Phrase} {span : α → Span} {xs ys zs : List α}

theorem of_append (h : Chain part c s (xs ++ ys) u) :
    ∃ t, Chain part c s xs t ∧ Chain part c t ys u := by
  induction xs generalizing s with
  | nil => exact ⟨s, .nil s, h⟩
  | cons x xs ih =>
    cases h with
    | cons hx hxs =>
      obtain ⟨t, ht, hu⟩ := ih hxs
      exact ⟨t, .cons hx ht, hu⟩

variable (hread : Reads False part L)
include hread

/-- Parts that are read one behind the other are written so. -/
theorem phrase (h : Chain part c s zs t) (hs : s.Ordered) :
    ∃ ts es, s.Took ts es t ∧ (zs.map L).prod ts es t.rest := by
  induction h with
  | nil s => exact ⟨[], [], .refl s, rfl, rfl⟩
  | cons hx _ ih =>
    obtain ⟨ts, es, htook, hphrase, -⟩ := hread.effect_ok hs hx
    obtain ⟨us, ds, htook', hphrases⟩ := ih (hs.of_took htook)
    refine ⟨ts ++ us, es ++ ds, htook.trans htook', ?_⟩
    rw [List.map_cons, List.prod_cons]
    refine mul_intro ?_ hphrases
    rwa [htook'.1] at hphrase

variable (hL : ∀ x, L x ≤ covered (span x) ⊤)
include hL

/-- Each of the parts ends with a token. -/
theorem exists_stop (h : Chain part c s zs t) (hs : s.Ordered) :
    ∀ x ∈ zs, ∃ l ∈ s.rest, (span x).stop = l.span.stop := by
  obtain ⟨ts, es, htook, hphrase⟩ := h.phrase hread hs
  intro x hx
  obtain ⟨as, ⟨first, last, -, hlast, hspan⟩, hsubset⟩ := exists_covers hL hphrase x hx
  refine ⟨last, htook.1 ▸ List.mem_append_left _ (hsubset (List.mem_of_getLast? hlast)), ?_⟩
  rw [hspan]
  rfl

/-- Of tokens that are cut where some of them end, the parts up to there are the first ones. -/
theorem split (h : Chain part c s zs t) (hs : s.Ordered) (hrest : s.rest = ts ++ us)
    (hts : ∀ l ∈ ts, l.span.stop.offset ≤ n) (hus : ∀ l ∈ us, n < l.span.stop.offset) :
    ∃ xs ys v vs ws, zs = xs ++ ys ∧ Chain part c s xs v ∧ Chain part c v ys t
      ∧ ts = vs ++ ws ∧ v.rest = ws ++ us
      ∧ (∀ x ∈ xs, (span x).stop.offset ≤ n) ∧ ∀ y ∈ ys, n < (span y).stop.offset := by
  induction h generalizing ts with
  | nil s => exact ⟨[], [], s, [], ts, rfl, .nil s, .nil s, rfl, hrest, by simp, by simp⟩
  | @cons s v t x zs hx hzs ih =>
    obtain ⟨as, es, htook, hphrase, -⟩ := hread.effect_ok hs hx
    obtain ⟨first, last, -, hlast, hspan⟩ := (hL x _ _ _ hphrase).1
    have hstop : (span x).stop = last.span.stop := by rw [hspan]; rfl
    by_cases hn : last.span.stop.offset ≤ n
    · obtain ⟨ws, rfl, hv⟩ := exists_eq_append_of_getLast (htook.1.symm.trans hrest) hlast
        fun hmem => absurd hn (hus last hmem).not_ge
      obtain ⟨xs, ys, w, vs, ws', rfl, hxs, hys, rfl, hw, hle, hlt⟩ :=
        ih (hs.of_took htook) hv fun l hl => hts l (List.mem_append_right as hl)
      refine ⟨x :: xs, ys, w, as ++ vs, ws', rfl, .cons hx hxs, hys, by simp, hw, ?_, hlt⟩
      exact List.forall_mem_cons.2 ⟨hstop ▸ hn, hle⟩
    · refine ⟨[], x :: zs, s, [], ts, rfl, .nil s, .cons hx hzs, rfl, hrest, by simp, ?_⟩
      refine List.forall_mem_cons.2 ⟨by rw [hstop]; omega, fun y hy => ?_⟩
      -- What stands behind a token that ends farther on is behind the cut as well.
      obtain ⟨l, hl, hly⟩ := hzs.exists_stop hread hL (hs.of_took htook) y hy
      have hin : InOrder (as ++ v.rest) := by
        have hin := InOrder.right hs
        rwa [htook.1] at hin
      have hle := hin.stop_le_start (List.mem_of_getLast? hlast) hl
      have hlt := hin.1 l (List.mem_append_right as hl)
      rw [hly]
      omega

end Chain

theorem filter_eq_of_split {α : Type} {f : α → Nat} {xs ys : List α} (hxs : ∀ x ∈ xs, f x ≤ n)
    (hys : ∀ y ∈ ys, n < f y) : (xs ++ ys).filter (fun x => f x ≤ n) = xs := by
  rw [List.filter_append, List.filter_eq_self.2 (by simpa using hxs),
    List.filter_eq_nil_iff.2 (by simpa using hys), List.append_nil]

/-! ### Members wherever they stand -/

/-- A variable of a function type, or else a fallback: where the moved tokens are read as a member of
the same kind, they are read by the same parser. -/
theorem variableOrFallback_moved {m : Motion} {x x' : Member} {next : List Lexeme}
    (hc : Shares m c c') (hs : s.Ordered) (hx : variableOrFallback .full c s = (.ok x, t))
    (hs₀ : s.errors = #[]) (ht₀ : t.errors = #[]) (hts : s.rest = ts ++ t.rest)
    (hreaches : m.Reaches ts) (hrest : s'.rest = respan m.span ts ++ next) (hs₀' : s'.errors = #[])
    (hx' : variableOrFallback .full c' s' = (.ok x', t')) (halike : Alike x x') :
    x' = respan m.span x ∧ t'.rest = next ∧ t'.errors = #[] := by
  have hvariable {H : Passage} [H.Braced] : Follows H 0 (H.before 0)
      (Member.stateVariable <$> stateVariable .full) (Member.stateVariable <$> stateVariable .full)
      fun _ => H.behind 0 :=
    (follows_stateVariable Nested.agreed_full).bind_agrees (k := 0) fun _ => agrees_value rfl
  have hfallback {H : Passage} [H.Braced] : Follows H 0 (H.before 0)
      (Member.fallback <$> namelessFallback .full) (Member.fallback <$> namelessFallback .full)
      fun _ => H.behind 0 :=
    (follows_namelessFallback Nested.agreed_full).bind_agrees (k := 0) fun _ => agrees_value rfl
  have hsame {r : Except SyntaxError Member × State} (h : r = (.ok x', t')) :
      (∃ v, r = (.ok (respan m.span x), v) ∧ v.rest = next ∧ v.errors = #[]) →
        x' = respan m.span x ∧ t'.rest = next ∧ t'.errors = #[] := by
    rintro ⟨v, hv, hend⟩
    obtain ⟨hx, rfl⟩ := Prod.mk.inj (h.symm.trans hv)
    exact ⟨Except.ok.inj hx, hend⟩
  rcases either_eq_ok hx with hfirst | hsecond
  · have hmoved := item_moved hvariable (fun hin _ => hin) hc hs hfirst hs₀ ht₀ hts hreaches hrest hs₀'
    obtain ⟨v, hv, hend⟩ := hmoved
    rw [variableOrFallback, either_eq, hv] at hx'
    exact hsame hx' ⟨v, rfl, hend⟩
  · have hmoved := item_moved hfallback (fun hin _ => hin) hc hs hsecond hs₀ ht₀ hts hreaches hrest hs₀'
    rcases either_eq_ok hx' with hfirst' | hsecond'
    · obtain ⟨F, v, -, hF⟩ := bind_eq_ok hsecond
      obtain ⟨V, v', -, hV⟩ := bind_eq_ok hfirst'
      obtain ⟨rfl, -⟩ := pure_eq_ok (c := c) hF
      obtain ⟨rfl, -⟩ := pure_eq_ok (c := c') hV
      exact nomatch halike
    · exact hsame hsecond' hmoved

theorem member_of_namelessAhead {d : Nested} (h : namelessAhead s.tokens) :
    member d c s = variableOrFallback d c s := by
  rw [member, next_bind, List.head?_eq_getElem?, h.1]
  dsimp only
  rw [bind_ok (sees_peek 1 c s), run_ite, if_pos h.2]

/-- Before a member that does not begin with `function (`. -/
def named (H : Passage) : Stage := fun _ w =>
  H.inside 0 w ∧ ¬namelessAhead ((w ++ H.next₁).map Lexeme.token)

instance {H : Passage} : Within H 0 (named H) := ⟨And.left⟩

theorem follows_namedMember {H : Passage} [H.Braced] :
    Follows H 0 (named H) (member .full) (member .full) fun _ => H.behind 0 := by
  have hquiet : Reads False (variableOrFallback .full) Member.phrase :=
    reads_variableOrFallback Nested.sound_full
  refine follows_member_of Nested.agreed_full ⟨?_, fun _ => hquiet.takes Member.takes_phrase, ?_⟩
  · exact (follows_variableOrFallback (H := .whole (.upTo 0) []) (n := 0) Nested.agreed_full).onward
  · exact fun _ _ _ _ _ _ _ _ hw => absurd hw.2 hw.1.2

theorem portable_member : Portable (member .full) where
  onward := selfContained_member.onward
  takes _ _ _ _ _ hx := selfContained_member.takes hx
  moved {m c c' s s' t x ts next} hc hs hx hs₀ ht₀ hts hreaches hrest hs₀' := by
    by_cases hahead : namelessAhead s.tokens
    · have htokens : s.tokens = ts.map Lexeme.token ++ t.tokens := by
        rw [State.tokens, hts, List.map_append]
        rfl
      have hmoved : (respan m.span ts).map Lexeme.token = ts.map Lexeme.token := by
        rw [respan_list, List.map_map]
        rfl
      have htokens' : s'.tokens = ts.map Lexeme.token ++ next.map Lexeme.token := by
        rw [State.tokens, hrest, List.map_append, hmoved]
      obtain ⟨x', t', hx', halike, hend, -⟩ := (selfContained_member.piece hc.structLiterals hx ht₀
        htokens).run c' s' _ hc.structLiterals' htokens' trivial
      rw [member_of_namelessAhead hahead] at hx
      have htwo := (echoes_variableOrFallback (H := .whole []) (I := anywhere) (k := 0)
        (Setting.mirror_whole [])).steps c s x t trivial hx
      have hahead' : namelessAhead s'.tokens := by
        rw [hts, List.length_append] at htwo
        rw [htokens] at hahead
        rw [htokens']
        have hlt : 1 < (ts.map Lexeme.token).length := by
          rw [List.length_map]
          omega
        rw [namelessAhead, List.getElem?_append_left hlt, List.getElem?_append_left (by omega)] at hahead ⊢
        exact hahead
      rw [member_of_namelessAhead hahead'] at hx' ⊢
      obtain ⟨rfl, hend⟩ := variableOrFallback_moved hc hs hx hs₀ ht₀ hts hreaches hrest hs₀' hx' halike
      exact ⟨t', hx', hend⟩
    · exact item_moved follows_namedMember (fun hin hw => ⟨hin, by rwa [hw]⟩) hc hs hx hs₀ ht₀ hts
        hreaches hrest hs₀'

/-! ### The header of a contract -/

/-- A contract up to the brace that opens its body. -/
def contractHeader (deeper : Nested) :
    Parser (Bool × ContractKind × Identifier × List InheritanceSpecifier) := do
  let isAbstract ← accept (.keyword .abstract)
  let kind ← contractKind isAbstract
  let name ← identifier
  let bases ← inheritance deeper kind
  let _ ← symbol .leftBrace
  return (isAbstract, kind, name, bases)

variable {d : Nested} {x : ContractDeclaration}

theorem contractDeclaration_eq_ok (h : contractDeclaration d c s = (.ok x, t)) :
    ∃ u, contractHeader d c s = (.ok (x.isAbstract, x.kind, x.name, x.inheritance), u)
      ∧ body Member.error (member d) c u = (.ok x.members, t) := by
  rw [contractDeclaration, bind_ok (looks_here c s)] at h
  obtain ⟨isAbstract, s₁, hisAbstract, h⟩ := bind_eq_ok h
  obtain ⟨kind, s₂, hkind, h⟩ := bind_eq_ok h
  obtain ⟨name, s₃, hname, h⟩ := bind_eq_ok h
  obtain ⟨bases, s₄, hbases, h⟩ := bind_eq_ok h
  obtain ⟨brace, u, hbrace, h⟩ := bind_eq_ok h
  obtain ⟨members, v, hmembers, h⟩ := bind_eq_ok h
  rw [bind_ok (looks_spanFrom _ c v)] at h
  obtain ⟨rfl, rfl⟩ := pure_eq_ok h
  refine ⟨u, ?_, hmembers⟩
  rw [contractHeader, bind_ok hisAbstract, bind_ok hkind, bind_ok hname, bind_ok hbases, bind_ok hbrace]
  rfl

theorem contractDeclaration_of_header {isAbstract : Bool} {kind : ContractKind} {name : Identifier}
    {bases : List InheritanceSpecifier} {members : List Member}
    (h : contractHeader d c s = (.ok (isAbstract, kind, name, bases), u))
    (hmembers : body Member.error (member d) c u = (.ok members, t)) :
    ∃ span, contractDeclaration d c s = (.ok ⟨kind, isAbstract, name, bases, members, span⟩, t) := by
  obtain ⟨isAbstract, s₁, hisAbstract, h⟩ := bind_eq_ok h
  obtain ⟨kind, s₂, hkind, h⟩ := bind_eq_ok h
  obtain ⟨name, s₃, hname, h⟩ := bind_eq_ok h
  obtain ⟨bases, s₄, hbases, h⟩ := bind_eq_ok h
  obtain ⟨brace, v, hbrace, h⟩ := bind_eq_ok h
  obtain ⟨hsame, rfl⟩ := pure_eq_ok h
  cases hsame
  obtain ⟨span, hspan⟩ : ∃ span, spanFrom (s.nextSpan c.stop) c t = (.ok span, t) :=
    ⟨_, looks_spanFrom _ c t⟩
  refine ⟨span, ?_⟩
  rw [contractDeclaration, bind_ok (looks_here c s), bind_ok hisAbstract, bind_ok hkind, bind_ok hname,
    bind_ok hbases, bind_ok hbrace, bind_ok hmembers, bind_ok hspan]
  rfl

theorem echoes_contractHeader {H : Setting} {k : Nat} {I : List Lexeme → Prop} {d' : Nested}
    (hd : d.Echoed H d') : Echoes H always I (k + 1) k (contractHeader d) (contractHeader d') := by
  refine (echoes_accept (k := k) _).bind fun isAbstract isAbstract' habstract => ?_
  obtain rfl : isAbstract' = isAbstract := habstract
  refine (echoes_contractKind (k := k + 1) isAbstract').perhaps.bind fun kind kind' hkind => ?_
  obtain rfl : kind' = kind := hkind
  refine (echoes_identifier (k := k + 1)).perhaps.bind fun name name' hname => ?_
  refine (echoes_inheritance (k := k) hd kind').bind fun bases bases' hbases => ?_
  exact (echoes_symbol _).bind fun _ _ _ => echoes_pure (by simp [Alike, hname, hbases])

theorem contractKind_eq_ok {isAbstract : Bool} {kind : ContractKind}
    (h : contractKind isAbstract c s = (.ok kind, t)) : s.rest ≠ [] ∧ t = s.advance := by
  rw [contractKind, next_bind] at h
  rcases hkind : s.tokens.head?.bind ContractKind.ofToken? with _ | kind'
  · rw [hkind] at h
    exact absurd h (unexpected_ne_ok _ c s kind t)
  · rw [hkind] at h
    dsimp only at h
    rw [run_ite] at h
    split at h
    · rw [bind_ok (looks_here c s)] at h
      simp [violation, fail] at h
    · obtain ⟨_, v, hadvance, hpure⟩ := bind_eq_ok h
      obtain ⟨-, rfl⟩ := pure_eq_ok hpure
      refine ⟨?_, (Prod.mk.inj hadvance).2.symm⟩
      rintro hnil
      simp [State.tokens, hnil] at hkind

theorem rest_of_identifier {i : Identifier} (h : identifier c s = (.ok i, t)) :
    s.rest.head? = some ⟨.identifier i.name, i.span⟩ := by
  rw [identifier, bind_ok (looks_here c s), bind_ok (nextWord_eq c s)] at h
  rcases hrest : s.rest with _ | ⟨⟨a, span⟩, rest⟩
  · rw [State.tokens, hrest] at h
    exact absurd h (unexpected_ne_ok _ c s i t)
  · rw [State.tokens, hrest] at h
    cases a with
    | identifier name =>
      obtain ⟨rfl, -⟩ := pure_eq_ok (c := c) (s := s.advance) h
      simp [State.nextSpan, hrest]
    | _ => exact absurd h (unexpected_ne_ok _ c s i t)

theorem getElem?_advance (s : State) (i : Nat) (hne : s.rest ≠ []) :
    s.rest[i + 1]? = s.advance.rest[i]? := by
  obtain ⟨l, rest, hrest⟩ := List.exists_cons_of_ne_nil hne
  rw [State.advance, hrest, List.getElem?_cons_succ]

/-- The name of a contract is the token behind its kind. -/
theorem getElem?_of_contractHeader {isAbstract : Bool} {kind : ContractKind} {name : Identifier}
    {bases : List InheritanceSpecifier}
    (h : contractHeader d c s = (.ok (isAbstract, kind, name, bases), u)) :
    s.rest[if isAbstract then 2 else 1]? = some ⟨.identifier name.name, name.span⟩ := by
  obtain ⟨isAbstract', s₁, hisAbstract, h⟩ := bind_eq_ok h
  obtain ⟨kind', s₂, hkind, h⟩ := bind_eq_ok h
  obtain ⟨name', s₃, hname, h⟩ := bind_eq_ok h
  obtain ⟨bases', s₄, -, h⟩ := bind_eq_ok h
  obtain ⟨-, v, -, h⟩ := bind_eq_ok h
  obtain ⟨hsame, -⟩ := pure_eq_ok h
  obtain ⟨rfl, rfl, rfl, rfl⟩ : isAbstract = isAbstract' ∧ kind = kind' ∧ name = name'
    ∧ bases = bases' := by simpa using hsame
  obtain ⟨hne, rfl⟩ := contractKind_eq_ok hkind
  have hsecond : s₁.rest[1]? = some ⟨.identifier name.name, name.span⟩ := by
    rw [getElem?_advance s₁ 0 hne, ← List.head?_eq_getElem?]
    exact rest_of_identifier hname
  by_cases habstract : s.tokens.head? = some (.keyword .abstract)
  · obtain ⟨htrue, rfl⟩ := Prod.mk.inj (hisAbstract.symm.trans (accept_eq_true habstract))
    obtain rfl := Except.ok.inj htrue
    rw [if_pos rfl, getElem?_advance s 1, hsecond]
    rintro hnil
    simp [State.tokens, hnil] at habstract
  · obtain ⟨hfalse, rfl⟩ := Prod.mk.inj (hisAbstract.symm.trans (accept_eq_false habstract))
    obtain rfl := Except.ok.inj hfalse
    exact hsecond

/-- A header ends with a brace. -/
theorem took_of_contractHeader {r : Bool × ContractKind × Identifier × List InheritanceSpecifier}
    (h : contractHeader .full c s = (.ok r, u)) :
    ∃ (header : List Lexeme) (opening : Lexeme) (es : List SyntaxError),
      s.Took (header ++ [opening]) es u ∧ opening.token = .symbol .leftBrace := by
  have hechoed : Nested.full.Echoed (.whole []) .full := Nested.echoed_ofDepth le_rfl
  obtain ⟨isAbstract, s₁, hisAbstract, h⟩ := bind_eq_ok h
  obtain ⟨kind, s₂, hkind, h⟩ := bind_eq_ok h
  obtain ⟨name, s₃, hname, h⟩ := bind_eq_ok h
  obtain ⟨bases, s₄, hbases, h⟩ := bind_eq_ok h
  obtain ⟨brace, v, hbrace, h⟩ := bind_eq_ok h
  obtain ⟨-, rfl⟩ := pure_eq_ok h
  obtain ⟨hhead, rfl⟩ := symbol_eq_ok hbrace
  obtain ⟨as, ds, has⟩ := (onward_accept _).took hisAbstract
  obtain ⟨bs, es, hbs⟩ := (echoes_contractKind (H := .whole []) (I := anywhere) (k := 0)
    isAbstract).onward.took hkind
  obtain ⟨cs, fs, hcs⟩ := onward_identifier.took hname
  obtain ⟨ds', gs, hds⟩ := (echoes_inheritance (I := anywhere) (k := 0) hechoed kind).onward.took hbases
  rcases hrest : s₄.rest with _ | ⟨opening, rest⟩
  · simp [State.tokens, hrest] at hhead
  · rw [State.tokens, hrest] at hhead
    exact ⟨_, opening, _, (((has.trans hbs).trans hcs).trans hds).trans (.advance hrest),
      Option.some.inj hhead⟩

/-- The header of a contract is read alike where the text breaks off behind it. -/
theorem contractHeader_ofPrefix {as : List Lexeme} (hc' : c'.structLiterals = true)
    (h : contractHeader .full c s = (.ok (x.isAbstract, x.kind, x.name, x.inheritance), u))
    (hs₀ : s.errors = #[]) (hu₀ : u.errors = #[]) (hs : s.rest = as ++ u.rest)
    (hu : u.rest = ws ++ us) (hs' : s'.rest = as ++ ws) (hs₀' : s'.errors = #[]) :
    ∃ bases t', contractHeader .full c' s' = (.ok (x.isAbstract, x.kind, x.name, bases), t')
      ∧ Alike x.inheritance bases ∧ t'.rest = ws ∧ t'.errors = #[] := by
  obtain ⟨⟨isAbstract, kind, name, bases⟩, t', ht', halike, hrest', herrors'⟩ :=
    (echoes_contractHeader (I := anywhere) (k := 0) (Nested.echoed_ofDepth le_rfl)).run_ofPrefix h
      trivial trivial (hs.trans (congrArg (as ++ ·) hu)) hu hs₀ hu₀ hc' rfl hs' hs₀'
  obtain ⟨rfl, rfl, -, hbases⟩ : isAbstract = x.isAbstract ∧ kind = x.kind
      ∧ Alike x.name name ∧ Alike x.inheritance bases := by simpa [Alike] using halike
  have hname := getElem?_of_contractHeader h
  have hname' := getElem?_of_contractHeader ht'
  have hwhole : s.rest = s'.rest ++ us := by rw [hs, hs', hu, List.append_assoc]
  rw [hwhole, List.getElem?_append_left (List.getElem?_eq_some_iff.1 hname').1, hname'] at hname
  obtain ⟨htext, hspan⟩ : name.name = x.name.name ∧ name.span = x.name.span := by simpa using hname
  have hsame : name = x.name := congrArg₂ Identifier.mk htext hspan
  exact ⟨bases, t', hsame ▸ ht', hbases, hrest', herrors'⟩

theorem contract_of_sourceUnit (h : sourceUnit d c s = (.ok (.contract x), t)) :
    contractDeclaration d c s = (.ok x, t) ∧ ∀ {c' : Context} {s' : State},
      s'.tokens.head? = s.tokens.head? →
        sourceUnit d c' s' = (contractDeclaration d >>= fun y => pure (SourceUnit.contract y)) c' s' := by
  have hother {α : Type} {p : Parser α} {make : α → SourceUnit} (hmake : ∀ y, make y ≠ .contract x)
      (h : (p >>= fun y => pure (make y)) c s = (.ok (.contract x), t)) : False := by
    obtain ⟨y, v, -, hpure⟩ := bind_eq_ok h
    exact hmake y (pure_eq_ok hpure).1.symm
  have hcontract (h : (contractDeclaration d >>= fun y => pure (SourceUnit.contract y)) c s
      = (.ok (.contract x), t)) : contractDeclaration d c s = (.ok x, t) := by
    obtain ⟨y, v, hy, hpure⟩ := bind_eq_ok h
    obtain ⟨hsame, rfl⟩ := pure_eq_ok hpure
    exact SourceUnit.contract.inj hsame ▸ hy
  rw [sourceUnit, next_bind] at h
  generalize hhead : s.tokens.head? = o at h
  split at h
  case h_3 | h_4 | h_5 | h_6 =>
    refine ⟨hcontract h, fun hsame => ?_⟩
    rw [sourceUnit, next_bind, hsame]
  all_goals first
    | exact absurd h (unexpected_ne_ok _ c s _ t)
    | exact (hother (fun y => by simp) h).elim

/-! ### Bodies that break off -/

/-- A body in which some members can be read begins with them. -/
theorem body_of_chain {xs : List Member} (h : Chain (member .full) c s xs t) (hs : s.Ordered) :
    ∃ ys u, body Member.error (member .full) c s = (.ok (xs ++ ys), u) := by
  have hparts (clock : List Lexeme) (hclock : s.rest.length ≤ clock.length) :
      ∃ ys u, partsOver (recovering Member.error (member .full)) clock c s = (.ok (xs ++ ys), u)
        ∧ endsBody u.rest := by
    induction h generalizing clock with
    | nil s =>
      obtain ⟨ys, u, -, -, hys, -, -, hend⟩ := finishes_partsOver
        (fun s hs hne => advances_member (c := c) Nested.sound_full hs hne) clock hs hclock
      exact ⟨ys, u, hys, hend⟩
    | @cons s v t x xs hx _ ih =>
      have hlt := selfContained_member.takes hx
      obtain ⟨ts, es, htook⟩ := selfContained_member.onward.took hx
      rcases clock with _ | ⟨l, clock⟩
      · rw [List.length_nil] at hclock
        omega
      · rw [List.length_cons] at hclock
        obtain ⟨ys, u, hys, hend⟩ := ih (hs.of_took htook) clock (by omega)
        refine ⟨ys, u, ?_, hend⟩
        rw [partsOver_of_ne_brace (List.ne_nil_of_length_pos (by omega)) (selfContained_member.not_brace hx),
          bind_ok ((recovering_ok (by rw [hx])).trans hx), bind_ok hys]
        rfl
  obtain ⟨ys, u, hys, hend⟩ := hparts s.rest le_rfl
  rw [body_eq, bind_ok hys, bind_ok (peeks_atEnd c u), run_ite]
  rcases hend with hend | hend
  · rw [if_pos (by simpa using hend)]
    obtain ⟨m, v, hm⟩ : ∃ m v, missingBrace c u = (.ok m, v) := ⟨_, _, rfl⟩
    refine ⟨ys ++ [Member.error m], v, ?_⟩
    rw [bind_ok hm, ← List.append_assoc]
    rfl
  · have hne : u.rest.isEmpty = false := by
      rw [List.isEmpty_eq_false_iff]
      rintro hnil
      simp [isNext, hnil] at hend
    obtain ⟨span, hspan⟩ := symbol_of_head (c := c) (s := u) (b := .rightBrace)
      (by rw [State.tokens, List.head?_map]; exact hend)
    refine ⟨ys, u.advance, ?_⟩
    rw [hne, if_neg Bool.false_ne_true, bind_ok hspan]
    rfl

/-! ### Texts up to a token -/

variable {source : String}

/-- A text that breaks off behind a token has the tokens up to there. -/
theorem exists_tokenize_upTo {l : Lexeme} (h : (tokenize source).tokens = ts ++ us)
    (hlast : ts.getLast? = some l) :
    ∃ x y, source.toList = x ++ y ∧ byteLength x = l.span.stop.offset
      ∧ Span.text ⟨.origin, l.span.stop⟩ source = String.ofList x
      ∧ (tokenize (String.ofList x)).tokens = ts := by
  obtain ⟨P, Q, hcut, hP, -, hend⟩ := Segment.exists_cut_behind h
  obtain ⟨x, y, hsource, hx, -⟩ := segments_eq_append hcut
  have hstop : l.span.stop = Location.origin.advanceBy x := by
    have hstop := congrArg (Option.map Span.stop) hend
    rw [hlast, ← hx, Option.map_map] at hstop
    have hlast := getLast?_segments .origin x
    change (Option.map (fun s => s.span.stop) (segments .origin x).getLast?).getD .origin = _ at hlast
    rw [← hlast]
    have hstop : (segments .origin x).getLast?.map (fun s => s.span.stop) = some l.span.stop := hstop
    rw [hstop]
    rfl
  refine ⟨x, y, hsource, ?_, ?_, ?_⟩
  · rw [hstop, Location.offset_advanceBy_origin]
  · rw [hstop]
    exact text_advanceBy [] x (z := y) (by simpa using hsource)
  · rw [tokenize, String.toList_ofList, hx, hP]

/-- The places of a text stay up to an offset, and are within reach up to a smaller one. -/
def Motion.within (far reach : Nat) (h : reach ≤ far) : Motion :=
  { Motion.upTo far with
    reach := reach
    along := fun a n cs hn => (Motion.upTo far).along a n cs (hn.trans h) }

/-- A contract of a source is filled by the members that are read between its braces. -/
theorem fills_of_contract {header : List Lexeme} {opening : Lexeme} {es : List SyntaxError} {v : State}
    (hunit : sourceUnit .full c s = (.ok (.contract x), v.advance)) (hs : s.Ordered)
    (htook : s.Took (header ++ [opening]) es u) (hopening : opening.token = .symbol .leftBrace)
    (hmembers : Chain (member .full) c u x.members v)
    (hbrace : v.tokens.head? = some (.symbol .rightBrace))
    (hrest : (tokenize source).tokens = vs ++ s.rest) :
    Fills (tokenize source).tokens opening x.span (x.members.map Member.span) := by
  obtain ⟨as, ds, hitem, hphrase, -⟩ := (reads_sourceUnit Nested.sound_full).effect_ok hs hunit
  obtain ⟨bs, fs, hinner, hparts⟩ :=
    hmembers.phrase (reads_member Nested.sound_full) (hs.of_took htook)
  obtain ⟨closing, after, hclosing⟩ : ∃ closing after, v.rest = closing :: after := by
    rcases hv : v.rest with _ | ⟨closing, after⟩
    · simp [State.tokens, hv] at hbrace
    · exact ⟨closing, after, rfl⟩
  have hafter : v.advance.rest = after := by rw [State.advance, hclosing]
  have hwhole : s.rest = (header ++ opening :: (bs ++ [closing])) ++ after := by
    rw [htook.1, hinner.1, hclosing]
    simp
  obtain rfl : as = header ++ opening :: (bs ++ [closing]) := by
    refine List.append_cancel_right (hitem.1.symm.trans ?_)
    rw [hwhole, hafter]
  have hcovers : Covers x.span (header ++ opening :: (bs ++ [closing])) :=
    (SourceUnit.phrase_le _ _ _ _ hphrase).1
  have hclosed : Phrase.symbol .rightBrace [closing] [] after := by
    rw [State.tokens, hclosing] at hbrace
    exact ⟨closing, rfl, rfl, Option.some.inj hbrace⟩
  have hbody : Phrase.body (x.members.map fun m => (m.phrase, m.missing x.span)) (bs ++ [closing])
      (fs ++ []) after := by
    refine prod_mul_rightBrace_le_body _ _ _ _ (mul_intro ?_ hclosed)
    rw [List.map_map]
    rw [hclosing] at hparts
    exact hparts
  have htokens : (tokenize source).tokens
      = vs ++ (header ++ opening :: (bs ++ [closing])) ++ after := by
    rw [hrest, hwhole, ← List.append_assoc]
  exact fills_of_body Member.phrase_le (fun m _ _ _ => m.of_missing) hbody hopening hcovers htokens
    (tokenize_inOrder source)

/-- A source without errors, and a text that breaks off behind the first ones of its tokens, with a
motion that leaves the places of the source as they are. -/
structure BreaksOff (source broken : String) (m : Motion) (ts us : List Lexeme) : Prop where
  clean : (parse source).errors = []
  tokens : (tokenize source).tokens = ts ++ us
  tokens_broken : (tokenize broken).tokens = ts
  before : ∀ l ∈ ts, l.span.stop.offset ≤ m.reach
  behind : ∀ l ∈ us, m.reach < l.span.stop.offset
  span_eq : m.span = (Motion.upTo (byteLength source.toList)).span
  shares : Shares m (Session.ofSource source).context (Session.ofSource broken).context

theorem exists_breaksOff {l : Lexeme} (h : (parse source).errors = [])
    (hl : l ∈ (tokenize source).tokens) : ∃ m ts us, m.reach = l.span.stop.offset
      ∧ BreaksOff source (Span.text ⟨.origin, l.span.stop⟩ source) m ts us := by
  obtain ⟨before, us, htokens⟩ := List.append_of_mem hl
  rw [List.append_cons] at htokens
  obtain ⟨x, y, hsource, hlength, htext, hbroken⟩ :=
    exists_tokenize_upTo htokens (List.getLast?_concat)
  have hle : l.span.stop.offset ≤ byteLength source.toList := by
    rw [hsource, byteLength_append, hlength]
    exact Nat.le_add_right _ _
  have hin : InOrder ((before ++ [l]) ++ us) := htokens ▸ tokenize_inOrder source
  refine ⟨.within _ _ hle, before ++ [l], us, rfl, h, htokens, htext ▸ hbroken, ?_, ?_, rfl, rfl, rfl,
    fun {a b} ha hb => ?_⟩
  · intro t ht
    rcases List.mem_append.1 ht with ht | ht
    · have hstart := hin.left.stop_le_start ht (List.mem_singleton_self l)
      have hlt := hin.1 l (by simp)
      exact hstart.trans hlt.le
    · rw [List.mem_singleton.1 ht]
      exact le_rfl
  · intro t ht
    have hstart := hin.stop_le_start (List.mem_append_right before (List.mem_singleton_self l)) ht
    have hlt := hin.1 t (List.mem_append_right _ ht)
    exact lt_of_le_of_lt hstart hlt
  · change sliceBytes ((Motion.upTo _).location a).offset ((Motion.upTo _).location b).offset _ = _
    rw [Motion.location_upTo (ha.trans hle), Motion.location_upTo (hb.trans hle), htext]
    change sliceBytes _ _ (String.ofList x).toList = sliceBytes _ _ source.toList
    rw [String.toList_ofList, hsource]
    exact (sliceBytes_append_right y (hlength ▸ hb)).symm

theorem chain_of_errors (h : (parse source).errors = []) : ∃ t, Chain (sourceUnit .full)
    (Session.ofSource source).context (Session.ofSource source).state (parse source).file.items t
      ∧ t.rest = [] ∧ t.errors = #[] := by
  obtain ⟨t, ht, hend, herrors⟩ := exists_items_parse source
  rw [recordedErrors_of_errors h, Array.toList_eq_nil_iff] at herrors
  exact ⟨t, ht.chain (Session.ordered_start source) herrors, hend, herrors⟩

/-- Items that can be read from a text are its first ones. -/
theorem prefix_of_items {xs : List SourceUnit} (h : Items (Session.ofSource source).context
    (Session.ofSource source).state xs t) : xs <+: (parse source).file.items := by
  obtain ⟨ts, es, htook⟩ := h.took (Session.ordered_start source)
  obtain ⟨ys, u, hys, hend⟩ := exists_items (c := (Session.ofSource source).context)
    ((Session.ordered_start source).of_took htook)
  exact ⟨ys, (parse_of_items (h.append hys) hend).1.symm⟩

namespace BreaksOff

variable {broken : String} {m : Motion} (h : BreaksOff source broken m ts us)
include h

theorem reaches : m.Reaches ts := fun l hl => by
  have hlt := (tokenize_inOrder source).1 l (h.tokens ▸ List.mem_append_left us hl)
  exact ⟨hlt.le.trans (h.before l hl), h.before l hl⟩

theorem move_eq (hvs : vs ⊆ ts) : respan m.span vs = vs := by
  rw [h.span_eq]
  refine Motion.Reaches.move_upTo fun l hl => reaches_tokens source l ?_
  exact h.tokens ▸ List.mem_append_left us (hvs hl)

/-- Nothing of the source is moved. -/
theorem respan_eq {x : SourceUnit} (hx : x ∈ (parse source).file.items) : respan m.span x = x := by
  have hall := (parse_upTo source).1
  rw [← h.span_eq, respan_list] at hall
  exact List.map_inj_left.1 (hall.trans (List.map_id _).symm) x hx

/-- Parts that lie before the end of the text are read there as in the source. -/
theorem moved {α : Type} [Placed α] {part : Parser α} (hpart : Portable part) {xs : List α} {v : State}
    (hxs : Chain part (Session.ofSource source).context s xs v) (hs : s.Ordered)
    (hv : v.errors = #[]) (hvs : vs ⊆ ts) (hrest : s.rest = vs ++ v.rest) (hrest' : s'.rest = vs ++ ws)
    (hs₀' : s'.errors = #[]) : ∃ v', Chain part (Session.ofSource broken).context s'
      (respan m.span xs) v' ∧ v'.rest = ws ∧ v'.errors = #[] :=
  hxs.moved hpart h.shares hs hv hrest (fun l hl => h.reaches l (hvs hl))
    (by rw [h.move_eq hvs, hrest']) hs₀'

/-- The items that lie before the end of the text are its first ones. -/
theorem items {xs : List SourceUnit} {v : State} (hxs : Chain (sourceUnit .full)
      (Session.ofSource source).context (Session.ofSource source).state xs v)
    (hmem : ∀ x ∈ xs, x ∈ (parse source).file.items) (hv : v.errors = #[]) (hts : ts = vs ++ ws)
    (hrest : v.rest = ws ++ us) : ∃ v', Items (Session.ofSource broken).context
      (Session.ofSource broken).state xs v' ∧ v'.rest = ws ∧ v'.errors = #[] := by
  have hfixed : respan m.span xs = xs := by
    rw [respan_list]
    exact (List.map_congr_left fun x hx => h.respan_eq (hmem x hx)).trans (List.map_id xs)
  have hstart : (Session.ofSource source).state.rest = vs ++ v.rest := by
    rw [hrest, ← List.append_assoc, ← hts]
    exact h.tokens
  have hstart' : (Session.ofSource broken).state.rest = vs ++ ws := h.tokens_broken.trans hts
  obtain ⟨v', hv', hend⟩ := h.moved portable_sourceUnit hxs (Session.ordered_start source) hv
    (hts ▸ List.subset_append_left vs ws) hstart hstart' rfl
  rw [hfixed] at hv'
  exact ⟨v', hv'.items (Session.ordered_start broken), hend⟩

/-- The body of a contract that is open where the text breaks off begins with the members that lie
before its end. -/
theorem body {members : List Member} {v u' : State}
    (hmembers : Chain (member .full) (Session.ofSource source).context u members v) (hu : u.Ordered)
    (hv : v.errors = #[]) (hrest : u.rest = ws ++ us) (hws : ws ⊆ ts)
    (hfixed : respan m.span members = members) (hu' : u'.Ordered) (hrest' : u'.rest = ws)
    (herrors' : u'.errors = #[]) : ∃ members' t',
      Parser.body Member.error (member .full) (Session.ofSource broken).context u'
        = (.ok members', t')
      ∧ members.filter (fun x => x.span.stop.offset ≤ m.reach) <+: members' := by
  obtain ⟨xs, ys, w, bs, cs, rfl, hxs, hys, rfl, hw, hxs', hys'⟩ :=
    hmembers.split (reads_member Nested.sound_full) Member.phrase_le hu hrest
      (fun l hl => h.before l (hws hl)) h.behind
  obtain ⟨_, _, htook⟩ := hys.took selfContained_member.onward
  have hbs : u.rest = bs ++ w.rest := by rw [hrest, hw, List.append_assoc]
  obtain ⟨w', hw', -, -⟩ := h.moved portable_member hxs hu (htook.errors_nil hv)
    (fun l hl => hws (List.mem_append_left cs hl)) hbs hrest' herrors'
  rw [respan_list, List.map_append] at hfixed
  have hsame : respan m.span xs = xs := (List.append_inj hfixed (List.length_map _)).1
  obtain ⟨more, t', hbody⟩ := body_of_chain hw' hu'
  rw [hsame] at hbody
  refine ⟨xs ++ more, t', hbody, ?_⟩
  rw [filter_eq_of_split hxs' hys']
  exact List.prefix_append xs more

/-- A contract whose body is open where the text breaks off has the same header, and its first members
are those that lie before the end of the text. -/
theorem contract {zs₁ zs₂ : List SourceUnit} {d : ContractDeclaration}
    (hitems : (parse source).file.items = zs₁ ++ .contract d :: zs₂) :
    ∃ opening, Fills (tokenize source).tokens opening d.span (d.members.map Member.span)
      ∧ (opening.span.stop.offset ≤ m.reach → ∃ d' : ContractDeclaration,
        zs₁ ++ [SourceUnit.contract d'] <+: (parse broken).file.items ∧ d'.kind = d.kind
          ∧ d'.isAbstract = d.isAbstract ∧ d'.name = d.name ∧ Alike d.inheritance d'.inheritance
          ∧ d.members.filter (fun x => x.span.stop.offset ≤ m.reach) <+: d'.members) := by
  obtain ⟨t, hchain, -, ht₀⟩ := chain_of_errors h.clean
  rw [hitems] at hchain
  obtain ⟨s, hzs₁, hzs⟩ := hchain.of_append
  cases hzs with
  | @cons _ s₂ _ _ _ hunit hzs₂ =>
  obtain ⟨vs, es, htook₁⟩ := hzs₁.took portable_sourceUnit.onward
  have hs := (Session.ordered_start source).of_took htook₁
  obtain ⟨as₂, es₂, htook₂⟩ := hzs₂.took portable_sourceUnit.onward
  have hs₂ := htook₂.errors_nil ht₀
  obtain ⟨hdeclaration, hhead⟩ := contract_of_sourceUnit hunit
  obtain ⟨u, hheader, hbody⟩ := contractDeclaration_eq_ok hdeclaration
  obtain ⟨header, opening, es', htook, hopening⟩ := took_of_contractHeader hheader
  obtain ⟨v, hmembers, hclosing, hv₀, rfl⟩ :=
    chain_of_body selfContained_member.onward hbody hs₂
  obtain ⟨_, _, htook'⟩ := hmembers.took selfContained_member.onward
  have hu₀ := htook'.errors_nil hv₀
  have htokens : (tokenize source).tokens = vs ++ s.rest := htook₁.1
  refine ⟨opening, fills_of_contract hunit hs htook hopening hmembers hclosing htokens, fun hle => ?_⟩
  -- The header lies before the end of the text.
  have hcut : (vs ++ (header ++ [opening])) ++ u.rest = ts ++ us := by
    rw [← h.tokens, htokens, htook.1, List.append_assoc]
  obtain ⟨ws, hts, hrest⟩ := exists_eq_append_of_getLast hcut (by simp)
    fun hmem => absurd hle (h.behind opening hmem).not_ge
  have hsplit : ts = vs ++ ((header ++ [opening]) ++ ws) := by rw [hts, List.append_assoc]
  have hwhole : s.rest = ((header ++ [opening]) ++ ws) ++ us := by
    rw [htook.1, hrest, ← List.append_assoc]
  obtain ⟨s', hs', hrest', herrors'⟩ := h.items hzs₁ (fun x hx => hitems ▸ List.mem_append_left _ hx)
    (htook.errors_nil hu₀) hsplit hwhole
  obtain ⟨bases, u', hheader', hbases, hu', hu₀'⟩ := contractHeader_ofPrefix
    h.shares.structLiterals' hheader (htook.errors_nil hu₀) hu₀ htook.1 hrest hrest' herrors'
  obtain ⟨_, _, htook₁'⟩ := hs'.took (Session.ordered_start broken)
  obtain ⟨_, _, _, htook', -⟩ := took_of_contractHeader hheader'
  have hordered := ((Session.ordered_start broken).of_took htook₁').of_took htook'
  have hfixed : respan m.span d.members = d.members := by
    have hd := h.respan_eq (hitems ▸ List.mem_append_right zs₁ List.mem_cons_self)
    exact congrArg ContractDeclaration.members (SourceUnit.contract.inj hd)
  obtain ⟨members', t', hbody', hprefix⟩ := h.body hmembers (hs.of_took htook) hv₀ hrest
    (hts ▸ List.subset_append_right _ ws) hfixed hordered hu' hu₀'
  obtain ⟨span', hd'⟩ := contractDeclaration_of_header hheader' hbody'
  have hhead' : s'.tokens.head? = s.tokens.head? := by
    rw [State.tokens, State.tokens, hrest', hwhole, List.append_assoc, List.map_append, List.map_append]
    cases header <;> rfl
  let d' : ContractDeclaration := ⟨d.kind, d.isAbstract, d.name, bases, members', span'⟩
  have hunit' : sourceUnit .full (Session.ofSource broken).context s' = (.ok (.contract d'), t') := by
    rw [hhead hhead', bind_ok hd']
    rfl
  refine ⟨d', prefix_of_items (hs'.append (.cons ?_ ?_ (.nil t'))), rfl, rfl, rfl, hbases, hprefix⟩
  · rw [hrest']
    simp
  · rw [recovering_ok (by rw [hunit']), hunit']

end BreaksOff

/-- What is complete where a text without errors breaks off behind a token is read as in the whole
text: each item that ends there or before is the same item of both, and a contract whose body is open
there has the same kind and name, the same bases up to their spans, and begins with the same members,
those that end there or before. -/
theorem parse_upTo_token {source : String} {l : Lexeme} (h : (parse source).errors = [])
    (hl : l ∈ (tokenize source).tokens) :
    (∀ (i : Nat) (x : SourceUnit), (parse source).file.items[i]? = some x →
        x.span.stop.offset ≤ l.span.stop.offset →
          (parse (Span.text ⟨.origin, l.span.stop⟩ source)).file.items[i]? = some x)
      ∧ ∀ (i : Nat) (d : ContractDeclaration), (parse source).file.items[i]? = some (.contract d) →
        ∃ opening, Fills (tokenize source).tokens opening d.span (d.members.map Member.span)
          ∧ (opening.span.stop.offset ≤ l.span.stop.offset → ∃ d',
            (parse (Span.text ⟨.origin, l.span.stop⟩ source)).file.items[i]? = some (.contract d')
              ∧ d'.kind = d.kind ∧ d'.isAbstract = d.isAbstract ∧ d'.name = d.name
              ∧ Alike d.inheritance d'.inheritance
              ∧ d.members.filter (fun x => x.span.stop.offset ≤ l.span.stop.offset)
                <+: d'.members) := by
  obtain ⟨m, ts, us, hreach, hbreaks⟩ := exists_breaksOff h hl
  rw [← hreach]
  refine ⟨fun i x hx hle => ?_, fun i d hd => ?_⟩
  · obtain ⟨t, hchain, -, ht₀⟩ := chain_of_errors h
    obtain ⟨xs, ys, v, vs, ws, hsplit, hxs, hys, hts, hrest, -, hlt⟩ :=
      hchain.split (reads_sourceUnit Nested.sound_full) SourceUnit.phrase_le
        (Session.ordered_start source) hbreaks.tokens hbreaks.before hbreaks.behind
    obtain ⟨_, _, htook⟩ := hys.took portable_sourceUnit.onward
    obtain ⟨v', hv', -⟩ := hbreaks.items hxs (fun y hy => hsplit ▸ List.mem_append_left ys hy)
      (htook.errors_nil ht₀) hts hrest
    have hi : i < xs.length := by
      by_contra hge
      rw [hsplit, List.getElem?_append_right (not_lt.1 hge)] at hx
      exact absurd hle (hlt x (List.mem_of_getElem? hx)).not_ge
    obtain ⟨more, hmore⟩ := prefix_of_items hv'
    rw [hsplit, List.getElem?_append_left hi] at hx
    rw [← hmore, List.getElem?_append_left hi, hx]
  · obtain ⟨zs₁, zs₂, hitems, rfl⟩ : ∃ zs₁ zs₂ : List SourceUnit,
        (parse source).file.items = zs₁ ++ .contract d :: zs₂ ∧ zs₁.length = i := by
      obtain ⟨hi, hget⟩ := List.getElem?_eq_some_iff.1 hd
      refine ⟨_, (parse source).file.items.drop (i + 1), ?_, List.length_take_of_le hi.le⟩
      rw [← hget, ← List.drop_eq_getElem_cons hi, List.take_append_drop]
    obtain ⟨opening, hfills, hopen⟩ := hbreaks.contract hitems
    refine ⟨opening, hfills, fun hle => ?_⟩
    obtain ⟨d', ⟨more, hmore⟩, hsame⟩ := hopen hle
    refine ⟨d', ?_, hsame⟩
    rw [← hmore, List.append_assoc, List.getElem?_append_right le_rfl, Nat.sub_self]
    rfl

example : (parse "contract C \x7b uint x; uint").file.items.length = 1 := by
  rw [parse_ofList]
  decide +kernel

/-- A pragma is kept, and so is the first member of the contract behind it. -/
theorem parse_upTo_token_member :
    ∃ l ∈ (tokenize "pragma a; contract C \x7b uint b; uint c; \x7d").tokens,
      l.span.stop.offset = 35
      ∧ (∀ (i : Nat) (x : SourceUnit),
        (parse "pragma a; contract C \x7b uint b; uint c; \x7d").file.items[i]? = some x →
          x.span.stop.offset ≤ l.span.stop.offset →
            (parse (Span.text ⟨.origin, l.span.stop⟩
              "pragma a; contract C \x7b uint b; uint c; \x7d")).file.items[i]? = some x) := by
  obtain ⟨hclean, htoken⟩ :
      (parse "pragma a; contract C \x7b uint b; uint c; \x7d").hasErrors = false
        ∧ (tokenize "pragma a; contract C \x7b uint b; uint c; \x7d").tokens.any
          (·.span.stop.offset == 35) := by
    rw [parse_ofList, tokenize_ofList]
    decide +kernel
  have hnil : (parse "pragma a; contract C \x7b uint b; uint c; \x7d").errors = [] := by
    simpa [ParseOutput.hasErrors] using hclean
  obtain ⟨l, hl, hstop⟩ := List.any_eq_true.1 htoken
  exact ⟨l, hl, by simpa using hstop, (parse_upTo_token hnil hl).1⟩

end SolidityFrontend
