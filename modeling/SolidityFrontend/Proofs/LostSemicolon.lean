import SolidityFrontend.Proofs.Enclosing
import SolidityFrontend.Proofs.Excerpts
import SolidityFrontend.Proofs.Omitting
import SolidityFrontend.Proofs.Retelling
import SolidityFrontend.Proofs.Trying

/-!
# A statement without its semicolon

Where the semicolon of a statement of one line is missing, in the body of a function of a file without
errors, that statement costs one error and is marked, and the rest of the file is as before
(`parse_without_semicolon`). What stands before the body and behind it is retold in the shorter text;
the body has the same statements around the one that is marked.
-/

namespace SolidityFrontend

open SolidityFrontend.Parser SolidityFrontend.Grammar

/-- Whether a token begins a statement, but does not go on with what stands before it: a keyword, an
elementary type, or a name that is no unit of a number and no attribute of a type. -/
def Token.beginsAnew : Token → Bool
  | .keyword _ | .elementaryType _ => true
  | .identifier word => (NumberUnit.ofWord? word).isNone && (Visibility.ofWord? word).isNone
      && (Mutability.ofWord? word).isNone
  | _ => false

namespace Grammar

variable {c : Context} {s t : State} {d : Nested}

/-- No expression begins with the word before what a function returns. -/
theorem expression_not_returns {e : Expr} (h : expression d c s = (.ok e, t)) :
    s.tokens.head? ≠ some (.keyword .returns) := by
  intro hhead
  obtain ⟨e₀, u, hunary⟩ := exists_unaryExpr h
  rw [unaryExpr, bind_ok (looks_here c s), next_bind, hhead] at hunary
  obtain ⟨e₁, v, hprimary, -⟩ := bind_eq_ok (show suffixedExpr d c s = (.ok e₀, u) from hunary)
  rw [primaryExpr, next_bind, hhead] at hprimary
  exact unexpected_ne_ok _ c s e₁ v hprimary

/-- No statement does, either. -/
theorem statement_not_returns {n : Nat} {x : Stmt}
    (h : statement (.ofDepth (n + 1)) c s = (.ok x, t)) :
    s.tokens.head? ≠ some (.keyword .returns) := by
  intro hhead
  rw [statement, next_bind, hhead] at h
  have hsimple : simpleStatement (.ofDepth (n + 1)) c s = (.ok x, t) := h
  have hvar : varTupleAhead s.tokens = false := by
    rw [varTupleAhead, ← List.head?_eq_getElem?, hhead]
    rfl
  rw [simpleStatement, bind_ok (sees_varTupleBegins c s)] at hsimple
  rw [hvar, run_ite, if_neg Bool.false_ne_true, next_bind, hhead] at hsimple
  rw [if_neg (by decide), expressionStatement] at hsimple
  obtain ⟨e, u, hexpression, -⟩ := bind_eq_ok hsimple
  have hdepth : (Nested.ofDepth (n + 1)).expression = expression (.ofDepth n) := rfl
  rw [hdepth] at hexpression
  exact expression_not_returns hexpression hhead

end Grammar

/-! ### Texts without a part of them -/

/-- A text without the part that a span covers. -/
def Span.without (span : Span) (source : String) : String :=
  Span.text ⟨.origin, span.start⟩ source
    ++ String.ofList ((dropBytes span.stop.offset source.toList).getD [])

theorem Span.without_eq {source : String} {span : Span} {x y z : List Char}
    (hsource : source.toList = x ++ (y ++ z))
    (hspan : span = ⟨Location.origin.advanceBy x, Location.origin.advanceBy (x ++ y)⟩) :
    span.without source = String.ofList (x ++ z) := by
  have hbefore : Span.text ⟨.origin, Location.origin.advanceBy x⟩ source = String.ofList x :=
    text_advanceBy [] x hsource
  have hbehind : dropBytes (byteLength (x ++ y)) source.toList = some z := by
    rw [hsource, ← List.append_assoc]
    exact dropBytes_byteLength (x ++ y) z
  subst hspan
  rw [Span.without, hbefore]
  dsimp only
  rw [Location.offset_advanceBy_origin, hbehind, Option.getD_some, String.ofList_append]

theorem InOrder.stop_lt_stop {us vs : List Lexeme} {l m : Lexeme} (hin : InOrder (us ++ l :: vs))
    (hm : m ∈ vs) : l.span.stop.offset < m.span.stop.offset := by
  have hle := (List.pairwise_cons.1 hin.right.2).1 m hm
  exact hle.trans_lt (hin.1 m (by simp [hm]))

/-- No two tokens end at the same place. -/
theorem InOrder.eq_of_stop {us us' vs vs' : List Lexeme} {l l' : Lexeme}
    (hin : InOrder (us ++ l :: vs)) (h : us ++ l :: vs = us' ++ l' :: vs')
    (hstop : l.span.stop = l'.span.stop) : us = us' ∧ l = l' ∧ vs = vs' := by
  rcases List.append_eq_append_iff.1 h with ⟨_ | ⟨m, ws⟩, rfl, hrest⟩ | ⟨_ | ⟨m, ws⟩, rfl, hrest⟩
  · obtain ⟨rfl, rfl⟩ := List.cons.inj hrest
    exact ⟨(List.append_nil us).symm, rfl, rfl⟩
  · obtain ⟨rfl, rfl⟩ := List.cons.inj hrest
    have hlt := hin.stop_lt_stop (m := l') (by simp)
    exact absurd hstop (by rintro heq; rw [heq] at hlt; exact absurd hlt (lt_irrefl _))
  · obtain ⟨rfl, rfl⟩ := List.cons.inj hrest
    exact ⟨List.append_nil us', rfl, rfl⟩
  · obtain ⟨rfl, rfl⟩ := List.cons.inj hrest
    have hlt := (h ▸ hin).stop_lt_stop (m := l) (by simp)
    exact absurd hstop (by rintro heq; rw [heq] at hlt; exact absurd hlt (lt_irrefl _))

/-! ### Where a statement stands -/

/-- A statement among those of a body, with its last two tokens. -/
structure Parser.Stands (c : Context) (u v : State) (xs : List Stmt) (x : Stmt) (ys : List Stmt)
    (w : List Lexeme) (last semi : Lexeme) (t t' : State) : Prop where
  before : Chain Nested.full.statement c u xs t
  reads : Nested.full.statement c t = (.ok x, t')
  behind : Chain Nested.full.statement c t' ys v
  rest : t.rest = w ++ last :: semi :: t'.rest
  ends : last.token.endsTerm
  semicolon : semi.token = .symbol .semicolon
  stop : semi.span.stop = x.span.stop

section

variable {c c' : Context} {s t t' u v : State} {xs ys : List Stmt} {x : Stmt} {w pre : List Lexeme}
  {last semi : Lexeme}

theorem Parser.Opens.stands (h : Opens c s u (xs ++ x :: ys) v t) (hs : s.Ordered) (hx : x.isPlain) :
    ∃ w last semi t t', Stands c u v xs x ys w last semi t t' := by
  obtain ⟨t, hbefore, hrest⟩ := h.statements.of_append
  cases hrest with
  | @cons _ t' _ _ _ hreads hbehind =>
  obtain ⟨_, _, htook⟩ := h.took
  obtain ⟨_, _, htook'⟩ := hbefore.took selfContained_statement.onward
  have ht := (hs.of_took htook).of_took htook'
  obtain ⟨ts, es, htook'', hphrase, -⟩ :=
    (reads_statement (Nested.sound_ofDepth 127)).effect_ok ht hreads
  obtain ⟨w, last, semi, rfl, hends, hsemi⟩ := Stmt.exists_last hx hphrase
  obtain ⟨⟨first, stop, -, hstop, hcovers⟩, -⟩ := x.phrase_le _ _ _ hphrase
  refine ⟨w, last, semi, t, t', hbefore, hreads, hbehind, ?_, hends, hsemi, ?_⟩
  · rw [htook''.1]
    simp
  · obtain rfl : semi = stop := by simpa using hstop
    rw [hcovers]
    rfl

theorem Parser.Stands.took (h : Stands c u v xs x ys w last semi t t') :
    ∃ ts es, u.Took ts es t := h.before.took selfContained_statement.onward

theorem Parser.Stands.length_le (h : Stands c u v xs x ys w last semi t t') :
    v.rest.length ≤ t'.rest.length := by
  obtain ⟨_, _, htook⟩ := h.behind.took selfContained_statement.onward
  exact htook.length_le

theorem Parser.Stands.errors (h : Stands c u v xs x ys w last semi t t') (hv : v.errors = #[]) :
    t.errors = #[] ∧ t'.errors = #[] := by
  obtain ⟨_, _, htook⟩ := h.behind.took selfContained_statement.onward
  obtain ⟨_, _, htook'⟩ := selfContained_statement.onward.took h.reads
  exact ⟨htook'.errors_nil (htook.errors_nil hv), htook.errors_nil hv⟩

/-- Behind the statement stands the closing brace, or the first token of another statement. -/
theorem Parser.Stands.calm (h : Stands c u v xs x ys w last semi t t')
    (hv : v.tokens.head? = some (.symbol .rightBrace)) :
    ∃ next behind, t'.rest = next :: behind
      ∧ ((ys ≠ [] → next.token.beginsAnew) →
        next.token.isCalm ∧ next.token ≠ .symbol .semicolon) := by
  cases h.behind with
  | nil =>
    obtain ⟨next, hnext, hbrace⟩ := Option.map_eq_some_iff.1 ((List.head?_map ..).symm.trans hv)
    obtain ⟨behind, hrest⟩ := List.head?_eq_some_iff.1 hnext
    exact ⟨next, behind, hrest, fun _ => by rw [hbrace]; exact ⟨rfl, by simp⟩⟩
  | @cons _ t₁ _ y ys hy _ =>
    have hlt := selfContained_statement.takes hy
    obtain ⟨next, behind, hrest⟩ := List.exists_cons_of_length_pos (Nat.zero_lt_of_lt hlt)
    refine ⟨next, behind, hrest, fun hnext => ?_⟩
    have hanew := hnext (by simp)
    have hreturns : next.token ≠ .keyword .returns := by
      have hne := statement_not_returns (n := 126) hy
      rw [State.tokens, hrest] at hne
      exact fun heq => hne (congrArg some heq)
    cases hnext : next.token with
    | keyword k =>
      rw [hnext] at hreturns
      exact ⟨by simpa [Token.isCalm] using hreturns, by simp⟩
    | elementaryType => exact ⟨rfl, by simp⟩
    | identifier word =>
      rw [hnext] at hanew
      exact ⟨hanew, by simp⟩
    | _ =>
      rw [hnext] at hanew
      cases hanew

end

/-! ### The shorter text -/

/-- The tokens of a source and of the text without one of its semicolons. -/
structure Omission.Lies (O : Omission) (source broken : String) : Prop where
  tokens : (tokenize source).tokens = O.before ++ O.last :: O.semi :: O.behind
  tokens' : (tokenize broken).tokens = O.before ++ O.last :: O.later
  before : Retold (Session.ofSource source).context (Session.ofSource broken).context O.before
    O.before
  behind : Retold (Session.ofSource source).context (Session.ofSource broken).context O.behind
    O.later

theorem eq_of_mem_zip {w : List Lexeme} {l l' : Lexeme} (h : (l, l') ∈ w.zip w) :
    l ∈ w ∧ l' = l := by
  have hsame : List.Forall₂ (fun a b : Lexeme => a ∈ w ∧ b = a) w w :=
    List.forall₂_same.2 fun a ha => ⟨ha, rfl⟩
  exact List.forall₂_zip hsame h

/-- Where the line ends behind the last token of a statement, the text without its semicolon has the
same tokens. -/
theorem exists_omission {source : String} {before behind : List Lexeme} {last semi next : Lexeme}
    (htokens : (tokenize source).tokens = before ++ last :: semi :: next :: behind)
    (hclean : (tokenize source).errors = []) (hends : last.token.endsTerm)
    (hsemi : semi.token = .symbol .semicolon)
    (hline : last.span.stop.position.line < next.span.start.position.line)
    (hcalm : next.token.isCalm) (hnext : next.token ≠ .symbol .semicolon) :
    ∃ O : Omission, O.before = before ∧ O.last = last ∧ O.semi = semi ∧ O.behind = next :: behind
      ∧ O.Lies source (semi.span.without source) := by
  have hlast : last.token ≠ .symbol .slash := by
    intro heq
    rw [heq] at hends
    exact absurd hends (by decide)
  obtain ⟨x, v, later, hsource, hspan, hbroken, hearlier⟩ :=
    tokenize_without htokens hclean hlast hsemi hline
  have hin : InOrder (before ++ last :: semi :: next :: behind) := htokens ▸ tokenize_inOrder source
  have hwithout : semi.span.without source = String.ofList (x ++ v) :=
    Span.without_eq (y := [';']) hsource hspan
  have hsame : later.map Lexeme.token = (next :: behind).map Lexeme.token := by
    rw [← List.forall₂_eq_eq_eq, List.forall₂_map_left_iff, List.forall₂_map_right_iff]
    exact hearlier.flip.imp fun _ _ h => h.token
  obtain ⟨next', later, rfl, hnext'⟩ : ∃ next' later', later = next' :: later'
      ∧ Lexeme.Earlier next next' := by
    cases hearlier with
    | cons h _ => exact ⟨_, _, rfl, h⟩
  have hhead {P : Lexeme → Prop} (h : P next') : ∀ l ∈ (next' :: later).head?, P l := by
    rintro l hl
    obtain rfl : next' = l := Option.some.inj hl
    exact h
  refine ⟨⟨before, last, semi, next :: behind, next' :: later, hsemi, hends, hsame,
    hhead (hnext'.token ▸ hnext), hhead (hnext'.token ▸ hcalm), hhead (hnext'.line ▸ hline)⟩, rfl, rfl,
    rfl, rfl, htokens, hwithout ▸ hbroken, ⟨rfl, ?_⟩, ⟨hsame, ?_⟩⟩
  · intro l l' m m' hl hm
    obtain ⟨-, rfl⟩ := eq_of_mem_zip hl
    obtain ⟨hm, rfl⟩ := eq_of_mem_zip hm
    have hstart := hin.1 m' (by simp [hm])
    have hstop := hin.stop_le_start hm (u := semi) (by simp)
    rw [hspan] at hstop
    dsimp only at hstop
    rw [Location.offset_advanceBy_origin] at hstop
    have hle : m'.span.start.offset ≤ byteLength x := hstart.le.trans hstop
    rw [Session.source_context_ofSource, Session.source_context_ofSource, hwithout,
      String.toList_ofList, hsource, sliceBytes_append_right v hle,
      sliceBytes_append_right (';' :: v) hle]
  · intro l l' m m' hl hm
    have hl' := List.forall₂_zip hearlier hl
    have hm' := List.forall₂_zip hearlier hm
    have hbehind {k : Lexeme} (hk : k ∈ next :: behind) :
        byteLength x + 1 ≤ k.span.start.offset ∧ k.span.start.offset < k.span.stop.offset := by
      have hle := (List.pairwise_cons.1 (List.pairwise_cons.1 hin.right.2).2).1 k hk
      rw [hspan] at hle
      dsimp only at hle
      rw [Location.offset_advanceBy_origin, byteLength_append] at hle
      exact ⟨hle, hin.1 k (List.mem_append_right _ (.tail _ (.tail _ hk)))⟩
    obtain ⟨hstart, hlt⟩ := hbehind (List.of_mem_zip hl).1
    obtain ⟨hstart', -⟩ := hbehind (List.of_mem_zip hm).1
    obtain ⟨a, ha⟩ := Nat.exists_eq_add_of_le' (hstart.trans hlt.le)
    obtain ⟨b, hb⟩ := Nat.exists_eq_add_of_le' hstart'
    have hstop : l'.span.stop.offset = a + byteLength x := by
      have hstop := (List.forall₂_zip hearlier hl).stop
      omega
    have hbegin : m'.span.start.offset = b + byteLength x := by
      have hbegin := (List.forall₂_zip hearlier hm).start
      omega
    have hlength : byteLength (x ++ [';']) = byteLength x + 1 := by
      rw [byteLength_append]
      rfl
    rw [Session.source_context_ofSource, Session.source_context_ofSource, hwithout,
      String.toList_ofList, hstop, hbegin, ha, hb, sliceBytes_append_left, hsource, List.append_cons,
      ← hlength, sliceBytes_append_left]

/-! ### The body -/

namespace Omission.Lies

variable {O : Omission} {source broken : String} (h : O.Lies source broken)
include h

/-- A body with the statement that lost its semicolon is read again, with a mark for it. -/
theorem inside {c c' : Context} {s u v t : State} {xs ys : List Stmt} {x : Stmt} {pre : List Lexeme}
    (hx : x.isPlain) (hstop : O.semi.span.stop = x.span.stop) (hc : c.structLiterals = true)
    (hc' : c'.structLiterals = true) (hs : s.Ordered)
    (hpre : (tokenize source).tokens = pre ++ s.rest)
    (hopens : Opens c s u (xs ++ x :: ys) v t) :
    O.Inside c' (Around xs ys (· = .error (O.error.mark ⟨x.span.start, O.last.span.stop⟩))) u v := by
  obtain ⟨w, last, semi, t₁, t₂, hstands⟩ := hopens.stands hs hx
  obtain ⟨ts, es, htook⟩ := hopens.took
  obtain ⟨us, ds, htook'⟩ := hstands.took
  -- No other token ends where the statement does, so its tokens are those around the semicolon.
  have hsplit : (O.before ++ [O.last]) ++ O.semi :: O.behind
      = (pre ++ ts ++ us ++ w ++ [last]) ++ semi :: t₂.rest := by
    have hwhole := h.tokens.symm.trans hpre
    rw [htook.1, htook'.1, hstands.rest] at hwhole
    simpa using hwhole
  have hin : InOrder ((O.before ++ [O.last]) ++ O.semi :: O.behind) := by
    rw [List.append_assoc]
    exact h.tokens ▸ tokenize_inOrder source
  obtain ⟨hbefore, hsemi, hbehind⟩ := hin.eq_of_stop hsplit (hstop.trans hstands.stop.symm)
  obtain ⟨-, hlast⟩ := List.append_inj' hbefore rfl
  have hrest : t₁.rest = w ++ O.last :: O.semi :: O.behind := by
    rw [List.singleton_inj.1 hlast, hsemi, hbehind]
    exact hstands.rest
  obtain ⟨ht₁, ht₂⟩ := hstands.errors hopens.errors
  have hopen : O.Before t₁ := by
    refine ⟨?_, ht₁⟩
    rw [hrest, List.length_append, List.length_cons, List.length_cons]
    omega
  refine ⟨hopen.of_took htook', hbehind ▸ hstands.length_le, ?_⟩
  refine Omission.Rereads.body selfContained_statement hc hc' hstands.before hstands.reads
    hstands.behind hopens.brace hopens.errors hopen
    (congrArg List.length hbehind.symm).le ?_
  intro w' s' hs'
  have hordered := (hs.of_took htook).of_took htook'
  have hread : statement (.ofDepth 127) c t₁ = (.ok x, t₂) := hstands.reads
  obtain ⟨t', ht', hrest', herrors'⟩ :=
    statement_mark hread hx hc hc' hordered hs' hbehind.symm ht₂
  refine ⟨_, t', ht', rfl, ?_, herrors'⟩
  rw [State.tokens, hrest', O.same, hbehind]
  rfl

omit h in
/-- An item of a file without errors, and what is read before it and behind it. -/
theorem unit_of_items {y : SourceUnit} {zs zs' : List SourceUnit}
    (hclean : (parse source).errors = []) (hitems : (parse source).file.items = zs ++ y :: zs') :
    ∃ s t u, Chain (sourceUnit .full) (Session.ofSource source).context
        (Session.ofSource source).state zs s
      ∧ sourceUnit .full (Session.ofSource source).context s = (.ok y, t)
      ∧ Chain (sourceUnit .full) (Session.ofSource source).context t zs' u
      ∧ u.rest = [] ∧ u.errors = #[] := by
  obtain ⟨u, hchain, hend, herrors⟩ := chain_of_errors hclean
  rw [hitems] at hchain
  obtain ⟨s, hzs, hrest⟩ := hchain.of_append
  cases hrest with
  | cons hunit hzs' => exact ⟨s, _, u, hzs, hunit, hzs', hend, herrors⟩

theorem tokenize_errors (hclean : (tokenize source).errors = []) : (tokenize broken).errors = [] := by
  rw [tokenize_errors_eq_nil_iff] at hclean ⊢
  refine fun herror => hclean ?_
  rw [tokensOf, h.tokens'] at herror
  rw [tokensOf, h.tokens]
  simp only [List.map_append, List.map_cons, O.same, List.mem_append, List.mem_cons] at herror ⊢
  tauto

/-- What is left of the source before the omission. -/
theorem exists_rest {s : State} {vs : List Lexeme} (hpre : (tokenize source).tokens = vs ++ s.rest)
    (hs : O.Before s) :
    ∃ w, O.before = vs ++ w ∧ s.rest = w ++ O.last :: O.semi :: O.behind := by
  rcases List.append_eq_append_iff.1 (h.tokens.symm.trans hpre) with ⟨as, hvs, has⟩ | ⟨w, hw, hrest⟩
  · have hle := hs.1
    have hlength := congrArg List.length has
    simp only [List.length_append, List.length_cons] at hlength
    obtain rfl : as = [] := List.eq_nil_of_length_eq_zero (by omega)
    exact ⟨[], by rw [hvs, List.append_nil, List.append_nil], has.symm⟩
  · exact ⟨w, hw, hrest⟩

/-- The shorter text has the same items around the one with the body, and one error. -/
theorem items {zs zs' : List SourceUnit} {F : Block → SourceUnit} {xs ys : List Stmt} {x : Stmt}
    {span : Span} (hclean : (parse source).errors = []) (hF : SourceUnit.Around F)
    (hitems : (parse source).file.items = zs ++ F ⟨xs ++ x :: ys, span⟩ :: zs') (hx : x.isPlain)
    (hstop : O.semi.span.stop = x.span.stop) :
    ∃ us us' G ws ws' inner, SourceUnit.Around G ∧ (∀ b, Alike (F b) (G b))
      ∧ Alike zs us ∧ Alike zs' us' ∧ Alike xs ws ∧ Alike ys ws'
      ∧ (parse broken).file.items = us ++ G ⟨ws ++ .error (O.error.mark
          ⟨x.span.start, O.last.span.stop⟩) :: ws', inner⟩ :: us'
      ∧ recordedErrors broken = [O.error] := by
  obtain ⟨s, t, v, hzs, hunit, hzs', hend, hv⟩ := unit_of_items hclean hitems
  obtain ⟨vs, es, htook⟩ := hzs.took portable_sourceUnit.onward
  obtain ⟨vs', es', htook'⟩ := hzs'.took portable_sourceUnit.onward
  have hs := (Session.ordered_start source).of_took htook
  have ht := htook'.errors_nil hv
  have hpre : (tokenize source).tokens = vs ++ s.rest := htook.1
  have hin (u₁ v₁ : State)
      (hopens : Opens (Session.ofSource source).context s u₁ (xs ++ x :: ys) v₁ t) :
      O.Inside (Session.ofSource broken).context (Around xs ys
        (· = .error (O.error.mark ⟨x.span.start, O.last.span.stop⟩))) u₁ v₁ :=
    h.inside hx hstop rfl rfl hs hpre hopens
  obtain ⟨u₁, v₁, hopens⟩ := encloses_sourceUnit.opens rfl hF hunit ht
  have hinside := hin u₁ v₁ hopens
  obtain ⟨_, _, htook₁⟩ := hopens.took
  obtain ⟨w, hbefore, hrest⟩ := h.exists_rest hpre (hinside.before.of_took htook₁)
  have hs₀ := htook₁.errors_nil hinside.before.2
  obtain ⟨us, s', hus, halike, hrest', herrors'⟩ : ∃ us s', Chain (sourceUnit .full)
      (Session.ofSource broken).context (Session.ofSource broken).state us s' ∧ Alike zs us
        ∧ s'.rest = w ++ O.last :: O.later ∧ s'.errors = #[] := by
    have hretold : Retold (Session.ofSource source).context (Session.ofSource broken).context vs
        vs := by
      have hsplit := h.before
      rw [hbefore] at hsplit
      exact hsplit.left rfl
    have hbroken : (Session.ofSource broken).state.rest = vs ++ (w ++ O.last :: O.later) := by
      refine (show (Session.ofSource broken).state.rest = _ from h.tokens').trans ?_
      rw [hbefore, List.append_assoc]
    exact hzs.retold rfl rfl (Session.ordered_start source) hs₀ htook.1 hbroken hretold
  have hat : O.At w s s' := ⟨hbefore ▸ List.suffix_append vs w, hrest, hrest', hs₀, herrors'⟩
  obtain ⟨y, t', hy, ⟨G, _, inner, rfl, hG, hsame, ws, z, ws', rfl, hws, rfl, hws'⟩, htokens,
    herrors⟩ := encloses_sourceUnit.run rfl rfl hF hunit ht hin hat
  -- What stands behind the item with the body stands behind the omission.
  have hlength : t'.rest.length = t.rest.length := by
    rw [← length_tokens, htokens, length_tokens]
  have hle := hopens.le.trans hinside.behind
  obtain ⟨_, _, htook₂⟩ := portable_sourceUnit.onward.took hunit
  obtain ⟨_, _, htook₃⟩ := portable_sourceUnit.onward.took hy
  obtain ⟨as, has⟩ : t.rest <:+ O.behind := by
    have hsuffix : t.rest <:+ s.rest := ⟨_, htook₂.1.symm⟩
    have hsuffix' : O.behind <:+ s.rest := ⟨w ++ [O.last, O.semi], by rw [hrest]; simp⟩
    exact List.suffix_of_suffix_length_le hsuffix hsuffix' hle
  obtain ⟨as', has'⟩ : t'.rest <:+ O.later := by
    have hsuffix : t'.rest <:+ s'.rest := ⟨_, htook₃.1.symm⟩
    have hsuffix' : O.later <:+ s'.rest := ⟨w ++ [O.last], by rw [hrest']; simp⟩
    refine List.suffix_of_suffix_length_le hsuffix hsuffix' ?_
    rw [hlength, O.length_later]
    exact hle
  have hretold : Retold (Session.ofSource source).context (Session.ofSource broken).context t.rest
      t'.rest := by
    have hsplit := h.behind
    rw [← has, ← has'] at hsplit
    refine hsplit.right ?_
    have hsum := O.length_later
    rw [← has, ← has', List.length_append, List.length_append] at hsum
    omega
  obtain ⟨us', v', hus', halike', hend', herrors₂⟩ : ∃ us' v', Chain (sourceUnit .full)
      (Session.ofSource broken).context t' us' v' ∧ Alike zs' us' ∧ v'.rest = []
        ∧ v'.errors = t'.errors :=
    hzs'.retold rfl rfl (hs.of_took htook₂) hv (by rw [hend, List.append_nil])
      (List.append_nil _).symm hretold
  obtain ⟨_, _, htook₄⟩ := hus.took portable_sourceUnit.onward
  have hordered := (Session.ordered_start broken).of_took htook₄
  obtain ⟨hitems', hrecorded⟩ := parse_of_items
    ((hus.items (Session.ordered_start broken)).append ((Chain.cons hy hus').items hordered)) hend'
  refine ⟨us, us', G, ws, ws', inner, hG, hsame, halike, halike', hws, hws', hitems', ?_⟩
  rw [hrecorded, herrors₂, herrors]

end Omission.Lies

/-- Where the semicolon of a statement of one line is missing, in a body that stands in a file without
errors, with a line below it that begins a statement of its own or closes the body, then exactly one
error is reported: that semicolon is missing behind the last token that is left of the statement. The
statement is marked from its first to its last token, and all others, and all around the body, are read
as before, up to their spans. -/
theorem parse_without_semicolon {source : String} {zs zs' : List SourceUnit} {F : Block → SourceUnit}
    {xs ys : List Stmt} {x : Stmt} {span : Span} (hclean : (parse source).errors = [])
    (hF : SourceUnit.Around F)
    (hitems : (parse source).file.items = zs ++ F ⟨xs ++ x :: ys, span⟩ :: zs') (hx : x.isPlain) :
    ∃ before last semi next behind,
      (tokenize source).tokens = before ++ last :: semi :: next :: behind
        ∧ semi.token = .symbol .semicolon ∧ semi.span.stop = x.span.stop
        ∧ (last.span.stop.position.line < next.span.start.position.line →
          (ys ≠ [] → next.token.beginsAnew) →
          ∃ us us' G ws ws' inner, SourceUnit.Around G ∧ (∀ b, Alike (F b) (G b))
            ∧ Alike zs us ∧ Alike zs' us' ∧ Alike xs ws ∧ Alike ys ws'
            ∧ (parse (semi.span.without source)).file.items
              = us ++ G ⟨ws ++ .error ((SyntaxError.mk (.missing .semicolon) last.span.after).mark
                ⟨x.span.start, last.span.stop⟩) :: ws', inner⟩ :: us'
            ∧ (parse (semi.span.without source)).errors
              = [.syntactic ⟨.missing .semicolon, last.span.after⟩]) := by
  obtain ⟨s, t, v, hzs, hunit, hzs', hend, hv⟩ := Omission.Lies.unit_of_items hclean hitems
  obtain ⟨vs, es, htook⟩ := hzs.took portable_sourceUnit.onward
  obtain ⟨vs', es', htook'⟩ := hzs'.took portable_sourceUnit.onward
  have hs := (Session.ordered_start source).of_took htook
  obtain ⟨u₁, v₁, hopens⟩ := encloses_sourceUnit.opens rfl hF hunit (htook'.errors_nil hv)
  obtain ⟨w, last, semi, t₁, t₂, hstands⟩ := hopens.stands hs hx
  obtain ⟨next, behind, hnext, hcalm⟩ := hstands.calm hopens.brace
  obtain ⟨ts, _, htook₁⟩ := hopens.took
  obtain ⟨us, _, htook₂⟩ := hstands.took
  have htokens : (tokenize source).tokens
      = (vs ++ (ts ++ us ++ w)) ++ last :: semi :: next :: behind := by
    refine (show (tokenize source).tokens = vs ++ s.rest from htook.1).trans ?_
    rw [htook₁.1, htook₂.1, hstands.rest, hnext]
    simp
  refine ⟨_, last, semi, next, behind, htokens, hstands.semicolon, hstands.stop,
    fun hline hanew => ?_⟩
  obtain ⟨hcalm, hne⟩ := hcalm hanew
  obtain ⟨O, -, rfl, rfl, -, hO⟩ := exists_omission htokens (tokenize_of_parse hclean) hstands.ends
    hstands.semicolon hline hcalm hne
  obtain ⟨us, us', G, ws, ws', inner, hG, hsame, hus, hus', hws, hws', hread, herrors⟩ :=
    hO.items hclean hF hitems hx hstands.stop
  refine ⟨us, us', G, ws, ws', inner, hG, hsame, hus, hus', hws, hws', hread, ?_⟩
  rw [parse_errors, herrors, hO.tokenize_errors (tokenize_of_parse hclean)]
  exact List.mergeSort_singleton _

/-- A function with two statements that end with the semicolons of their lines. -/
def twoLines : String := "function f() \x7b\n  a = 1;\n  b = 2;\n\x7d"

/-- Whether an item is a function with two statements, the first of which ends at an offset. -/
def SourceUnit.hasTwoLines (stop : Nat) : SourceUnit → Bool
  | .function ⟨_, _, _, _, some ⟨[x, _], _⟩, _⟩ => x.isPlain && x.span.stop.offset == stop
  | _ => false

/-- Whether the second of three tokens ends elsewhere than at an offset, or else the line ends there and
the third begins a statement. -/
def endsLine (stop : Nat) : List Lexeme → Bool
  | last :: semi :: next :: _ => semi.span.stop.offset != stop
    || last.span.stop.position.line < next.span.start.position.line && next.token.beginsAnew
  | _ => true

/-- Without the first semicolon, only the first of two statements is marked. -/
theorem parse_without_semicolon_twoLines :
    ∃ (d : FunctionDefinition) (x y : Stmt) (span : Span) (last semi : Lexeme),
      (parse twoLines).errors = []
        ∧ (parse twoLines).file.items = [.function (d.withBody ⟨[x, y], span⟩)] ∧ x.isPlain
        ∧ semi.span.stop = x.span.stop
        ∧ (parse (semi.span.without twoLines)).errors
          = [.syntactic ⟨.missing .semicolon, last.span.after⟩] := by
  obtain ⟨hclean, hunit, hlines⟩ : (parse twoLines).hasErrors = false
      ∧ (parse twoLines).file.items.map (SourceUnit.hasTwoLines 23) = [true]
      ∧ (tokenize twoLines).tokens.tails.all (endsLine 23) := by
    rw [twoLines, parse_ofList, tokenize_ofList]
    decide +kernel
  have hnil : (parse twoLines).errors = [] := by simpa [ParseOutput.hasErrors] using hclean
  obtain ⟨unit, units, hitems, hunit, hunits⟩ := List.map_eq_cons_iff.1 hunit
  obtain rfl := List.map_eq_nil_iff.1 hunits
  cases unit with
  | function d =>
    obtain ⟨name, ps, attributes, returns, _ | ⟨_ | ⟨x, _ | ⟨y, _ | _⟩⟩, span⟩, whole⟩ := d
    all_goals try exact absurd hunit Bool.false_ne_true
    obtain ⟨hplain, hoffset⟩ := Bool.and_eq_true_iff.1 hunit
    let d : FunctionDefinition := ⟨name, ps, attributes, returns, none, whole⟩
    have hitems' : (parse twoLines).file.items
        = [] ++ SourceUnit.function (d.withBody ⟨[] ++ x :: [y], span⟩) :: [] := hitems
    obtain ⟨before, last, semi, next, behind, htokens, -, hstop, hlost⟩ :=
      parse_without_semicolon hnil (.function d) hitems' hplain
    have hends := List.all_eq_true.1 hlines (last :: semi :: next :: behind)
      ((List.mem_tails _ _).2 ⟨before, htokens.symm⟩)
    rw [endsLine, hstop, bne, hoffset, Bool.not_true, Bool.false_or, Bool.and_eq_true_iff,
      decide_eq_true_eq] at hends
    obtain ⟨_, _, _, _, _, _, -, -, -, -, -, -, -, herrors⟩ := hlost hends.1 fun _ => hends.2
    exact ⟨d, x, y, span, last, semi, hnil, hitems, hplain, hstop, herrors⟩
  | _ => exact absurd hunit Bool.false_ne_true

end SolidityFrontend
