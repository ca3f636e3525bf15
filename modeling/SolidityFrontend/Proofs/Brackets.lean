import SolidityFrontend.Proofs.Boundary

/-!
# Nested brackets

Tokens `close` the brackets that are open before them if each closing bracket is the one for the
innermost open one, and none is open at the end. Skipping to a boundary counts brackets of all kinds
alike, and never below zero: it may count fewer than are open, but never more than were opened behind
its start, so it stops before tokens that close all brackets and end with a semicolon end.

Where only braces matter, `braceDepth` counts them.
-/

namespace SolidityFrontend

/-! ### Brackets of all kinds -/

/-- The brackets that are to be closed behind a token, the innermost first, if it is no wrong one. -/
def afterBracket (awaited : List Symbol) : Token → Option (List Symbol)
  | .symbol .leftParen => some (.rightParen :: awaited)
  | .symbol .leftBracket => some (.rightBracket :: awaited)
  | .symbol .leftBrace => some (.rightBrace :: awaited)
  | .symbol .rightParen => if awaited.head? = some .rightParen then some awaited.tail else none
  | .symbol .rightBracket => if awaited.head? = some .rightBracket then some awaited.tail else none
  | .symbol .rightBrace => if awaited.head? = some .rightBrace then some awaited.tail else none
  | _ => some awaited

/-- Whether tokens close the awaited brackets and all those that they open. -/
def closes (awaited : List Symbol) : List Token → Bool
  | [] => awaited.isEmpty
  | t :: ts => match afterBracket awaited t with
    | some awaited' => closes awaited' ts
    | none => false

theorem closes_cons {awaited : List Symbol} {t : Token} {ts : List Token}
    (h : closes awaited (t :: ts)) :
    ∃ awaited', afterBracket awaited t = some awaited' ∧ closes awaited' ts := by
  rw [closes] at h
  split at h
  · exact ⟨_, ‹_›, h⟩
  · exact absurd h (by simp)

theorem ne_nil_of_closes {awaited : List Symbol} {ts : List Token} (h : closes awaited ts)
    (hne : awaited ≠ []) : ts ≠ [] := by
  rintro rfl
  exact hne (List.isEmpty_iff.1 h)

/-- How many of the awaited brackets are braces. -/
def braces (awaited : List Symbol) : Nat := awaited.count .rightBrace

theorem ne_nil_of_braces {awaited : List Symbol} {n : Nat} (h : n + 1 ≤ braces awaited) :
    awaited ≠ [] := by
  rintro rfl
  exact absurd h (Nat.not_succ_le_zero n)

theorem getLast?_of_cons {α : Type} {x y : α} {xs : List α} (h : (x :: xs).getLast? = some y)
    (hne : x ≠ y) : xs.getLast? = some y := by
  rcases xs with _ | ⟨z, xs⟩
  · exact absurd (Option.some.inj h) hne
  · simpa using h

theorem braces_le_append (opened around : List Symbol) :
    braces around ≤ braces (opened ++ around) := by
  rw [braces, braces, List.count_append]
  exact Nat.le_add_left _ _

/-- Skipping stops in these tokens, whatever follows, before it closes a brace that is awaited
around. -/
def Stops (around : List Symbol) (depth : Nat) (ts : List Token) : Prop :=
  ∃ k ≤ ts.length, (∀ next, boundary depth (ts ++ next) = k)
    ∧ ∃ awaited, closes awaited (ts.drop k) ∧ braces around ≤ braces awaited

theorem Stops.cons {around around' : List Symbol} {depth depth' : Nat} {t : Token} {ts : List Token}
    (h : Stops around' depth' ts) (hbraces : braces around ≤ braces around')
    (hboundary : ∀ next, boundary depth (t :: ts ++ next) = boundary depth' (ts ++ next) + 1) :
    Stops around depth (t :: ts) := by
  obtain ⟨k, hk, hnext, awaited, hcloses, hle⟩ := h
  refine ⟨k + 1, Nat.succ_le_succ hk, fun next => ?_, awaited, hcloses, hbraces.trans hle⟩
  rw [hboundary, hnext]

theorem stops_here {around opened : List Symbol} {depth : Nat} {ts : List Token}
    (h : closes (opened ++ around) ts) (hboundary : ∀ next, boundary depth (ts ++ next) = 0) :
    Stops around depth ts :=
  ⟨0, Nat.zero_le _, hboundary, _, h, braces_le_append opened around⟩

theorem stops_behind {around opened : List Symbol} {depth : Nat} {t : Token} {ts : List Token}
    (h : closes (opened ++ around) ts) (hboundary : ∀ next, boundary depth (t :: ts ++ next) = 1) :
    Stops around depth (t :: ts) :=
  ⟨1, Nat.succ_le_succ (Nat.zero_le _), hboundary, _, h, braces_le_append opened around⟩

/-- From tokens that close what was opened behind a place and what is awaited around it, skipping
leads no farther than the last of them, a semicolon. -/
theorem stops_of_closes {around opened : List Symbol} {depth : Nat} {ts : List Token}
    (h : closes (opened ++ around) ts) (hlast : ts.getLast? = some (.symbol .semicolon))
    (hdepth : depth ≤ opened.length) : Stops around depth ts := by
  induction ts generalizing around opened depth with
  | nil => simp at hlast
  | cons t ts ih =>
    obtain ⟨awaited, hafter, hrest⟩ := closes_cons h
    by_cases hsemicolon : t = .symbol .semicolon
    · subst hsemicolon
      obtain rfl : opened ++ around = awaited := Option.some.inj hafter
      cases depth with
      | zero => exact stops_behind hrest fun next => rfl
      | succ depth =>
        have hne : ts ≠ [] := ne_nil_of_closes hrest fun hnil => by
          rw [(List.append_eq_nil_iff.1 hnil).1] at hdepth
          exact absurd hdepth (by simp)
        obtain ⟨u, us, rfl⟩ := List.exists_cons_of_ne_nil hne
        exact (ih hrest (by simpa using hlast) hdepth).cons le_rfl fun next => rfl
    have hlast' := getLast?_of_cons hlast hsemicolon
    have hopen {s : Symbol} (hs : s :: (opened ++ around) = awaited)
        (hboundary : ∀ next, boundary depth (t :: ts ++ next) = boundary (depth + 1) (ts ++ next) + 1) :
        Stops around depth (t :: ts) := by
      subst hs
      have hrest : closes (s :: opened ++ around) ts := hrest
      exact (ih hrest hlast' (Nat.succ_le_succ hdepth)).cons le_rfl hboundary
    -- A closing bracket closes one that was opened, or else one that was awaited around.
    have hclose {s : Symbol} (hs : s ≠ .rightBrace)
        (hafter : (if (opened ++ around).head? = some s then some (opened ++ around).tail else none)
          = some awaited)
        (hboundary : ∀ next, boundary depth (t :: ts ++ next) = boundary (depth - 1) (ts ++ next) + 1) :
        Stops around depth (t :: ts) := by
      split at hafter
      · rename_i hhead
        obtain rfl := Option.some.inj hafter
        have hdepth' := Nat.sub_le_sub_right hdepth 1
        rcases opened with _ | ⟨o, opened⟩
        · obtain ⟨around', rfl⟩ := List.head?_eq_some_iff.1 hhead
          have hrest : closes ([] ++ around') ts := hrest
          refine (ih hrest hlast' hdepth').cons ?_ hboundary
          rw [braces, braces, List.count_cons_of_ne hs]
        · exact (ih hrest hlast' hdepth').cons le_rfl hboundary
      · simp at hafter
    unfold afterBracket at hafter
    split at hafter
    · exact hopen (Option.some.inj hafter) fun next => rfl
    · exact hopen (Option.some.inj hafter) fun next => rfl
    · exact hopen (Option.some.inj hafter) fun next => rfl
    · exact hclose (by decide) hafter fun next => rfl
    · exact hclose (by decide) hafter fun next => rfl
    · split at hafter
      · obtain rfl := Option.some.inj hafter
        cases depth with
        | zero => exact stops_here h fun next => rfl
        | succ depth =>
          obtain ⟨o, opened, rfl⟩ := List.exists_cons_of_length_pos (Nat.lt_of_lt_of_le
            (Nat.succ_pos depth) hdepth)
          have hrest : closes (opened ++ around) ts := hrest
          cases depth with
          | zero => exact stops_behind hrest fun next => rfl
          | succ depth =>
            exact (ih hrest hlast' (Nat.le_of_succ_le_succ hdepth)).cons le_rfl fun next => rfl
      · simp at hafter
    · obtain rfl := Option.some.inj hafter
      refine (ih hrest hlast' hdepth).cons le_rfl fun next => ?_
      rw [List.cons_append, boundary]
      all_goals assumption

/-! ### Braces alone -/

/-- How many braces are open behind a token, if it closes none that is not. -/
def afterBrace (n : Nat) : Token → Option Nat
  | .symbol .leftBrace => some (n + 1)
  | .symbol .rightBrace => if n = 0 then none else some (n - 1)
  | _ => some n

/-- How many braces are open behind some tokens. -/
def braceDepth (n : Nat) : List Token → Option Nat
  | [] => some n
  | t :: ts => (afterBrace n t).bind fun n => braceDepth n ts

theorem braceDepth_append (n : Nat) (ts us : List Token) :
    braceDepth n (ts ++ us) = (braceDepth n ts).bind fun n => braceDepth n us := by
  induction ts generalizing n with
  | nil => rfl
  | cons t ts ih =>
    rw [List.cons_append, braceDepth, braceDepth, Option.bind_assoc]
    exact congrArg _ (funext ih)

theorem braceDepth_of_afterBrace {n m : Nat} {t : Token} {ts : List Token}
    (h : afterBrace n t = some m) : braceDepth n (t :: ts) = braceDepth m ts := by
  rw [braceDepth, h, Option.bind_some]

/-- The count of the braces of an assembly block goes the same way. -/
theorem closingBrace_cons (depth n : Nat) (t : Token) :
    ∃ depth', afterBrace (n + (depth + 1)) t = some (n + depth') ∧ ∀ ts,
      closingBrace (depth + 1) (t :: ts) = (closingBrace depth' ts).map (· + 1) := by
  by_cases hopen : t = .symbol .leftBrace
  · subst hopen
    exact ⟨depth + 2, rfl, fun ts => by rw [closingBrace]⟩
  by_cases hclose : t = .symbol .rightBrace
  · subst hclose
    exact ⟨depth, rfl, fun ts => by rw [closingBrace]⟩
  · refine ⟨depth + 1, ?_, fun ts => ?_⟩
    · rw [afterBrace]
      · exact hopen
      · exact hclose
    · rw [closingBrace]
      · exact hopen
      · exact hclose

theorem braceDepth_of_closingBrace {depth k : Nat} (n : Nat) {ts : List Token}
    (h : closingBrace depth ts = some k) : braceDepth (n + depth) (ts.take k) = some n := by
  induction ts generalizing depth k with
  | nil =>
    cases depth with
    | zero => exact Option.some.inj h ▸ rfl
    | succ depth => simp [closingBrace] at h
  | cons t ts ih =>
    cases depth with
    | zero =>
      rw [closingBrace] at h
      exact Option.some.inj h ▸ rfl
    | succ depth =>
      obtain ⟨depth', hafter, hcount⟩ := closingBrace_cons depth n t
      rw [hcount] at h
      obtain ⟨k, hk, rfl⟩ := Option.map_eq_some_iff.1 h
      rw [List.take_succ_cons, braceDepth_of_afterBrace hafter]
      exact ih hk

/-- Where no brace closes the block, more are open at the end. -/
theorem braceDepth_of_no_closingBrace {depth : Nat} (n : Nat) {ts : List Token}
    (h : closingBrace depth ts = none) : ∃ m, n < m ∧ braceDepth (n + depth) ts = some m := by
  induction ts generalizing depth with
  | nil =>
    cases depth with
    | zero => simp [closingBrace] at h
    | succ depth => exact ⟨_, Nat.lt_add_of_pos_right (Nat.succ_pos depth), rfl⟩
  | cons t ts ih =>
    cases depth with
    | zero => simp [closingBrace] at h
    | succ depth =>
      obtain ⟨depth', hafter, hcount⟩ := closingBrace_cons depth n t
      rw [hcount] at h
      rw [braceDepth_of_afterBrace hafter]
      exact ih (Option.map_eq_none_iff.1 h)

theorem closingBrace_append {depth k : Nat} {ts : List Token} (next : List Token)
    (h : closingBrace depth ts = some k) : closingBrace depth (ts ++ next) = some k := by
  induction ts generalizing depth k with
  | nil =>
    cases depth with
    | zero =>
      rw [closingBrace] at h ⊢
      exact h
    | succ depth => simp [closingBrace] at h
  | cons t ts ih =>
    cases depth with
    | zero =>
      rw [closingBrace] at h ⊢
      exact h
    | succ depth =>
      obtain ⟨depth', -, hcount⟩ := closingBrace_cons depth 0 t
      rw [hcount] at h
      obtain ⟨k, hk, rfl⟩ := Option.map_eq_some_iff.1 h
      rw [List.cons_append, hcount, ih hk]
      rfl

/-- Tokens behind which fewer braces are open than an assembly block needs hold its end. -/
theorem closingBrace_of_braceDepth {depth n m : Nat} {ts : List Token}
    (h : braceDepth (n + depth) ts = some m) (hle : m ≤ n) :
    ∃ k ≤ ts.length, (∀ next, closingBrace depth (ts ++ next) = some k)
      ∧ braceDepth (n + depth) (ts.take k) = some n := by
  rcases hclosing : closingBrace depth ts with _ | k
  · obtain ⟨m', hlt, hm'⟩ := braceDepth_of_no_closingBrace n hclosing
    rw [h] at hm'
    exact absurd (Option.some.inj hm') (by omega)
  · exact ⟨k, closingBrace_le hclosing, fun next => closingBrace_append next hclosing,
      braceDepth_of_closingBrace n hclosing⟩

theorem afterBrace_of_afterBracket {awaited awaited' : List Symbol} {t : Token}
    (h : afterBracket awaited t = some awaited') :
    afterBrace (braces awaited) t = some (braces awaited') := by
  have htail {s : Symbol} (h : (if awaited.head? = some s then some awaited.tail else none)
      = some awaited') : awaited = s :: awaited' := by
    split at h
    · obtain ⟨around, rfl⟩ := List.head?_eq_some_iff.1 ‹_›
      rw [← Option.some.inj h, List.tail_cons]
    · simp at h
  unfold afterBracket at h
  split at h
  · exact Option.some.inj h ▸ congrArg some (List.count_cons_of_ne (by decide)).symm
  · exact Option.some.inj h ▸ congrArg some (List.count_cons_of_ne (by decide)).symm
  · exact Option.some.inj h ▸ congrArg some List.count_cons_self.symm
  · exact htail h ▸ congrArg some (List.count_cons_of_ne (by decide))
  · exact htail h ▸ congrArg some (List.count_cons_of_ne (by decide))
  · rw [htail h, braces, List.count_cons_self]
    rfl
  · rw [Option.some.inj h, afterBrace]
    all_goals assumption

/-- What is left of tokens that close brackets closes brackets too. -/
theorem closes_drop {awaited : List Symbol} {ts : List Token} (h : closes awaited ts) (k : Nat) :
    ∃ awaited', closes awaited' (ts.drop k)
      ∧ braceDepth (braces awaited) (ts.take k) = some (braces awaited') := by
  induction ts generalizing awaited k with
  | nil => exact ⟨awaited, by simpa using h, by simp [braceDepth]⟩
  | cons t ts ih =>
    cases k with
    | zero => exact ⟨awaited, h, rfl⟩
    | succ k =>
      obtain ⟨awaited', hafter, hrest⟩ := closes_cons h
      rw [List.drop_succ_cons, List.take_succ_cons,
        braceDepth_of_afterBrace (afterBrace_of_afterBracket hafter)]
      exact ih hrest k

theorem braceDepth_of_closes {awaited : List Symbol} {ts : List Token} (h : closes awaited ts) :
    braceDepth (braces awaited) ts = some 0 := by
  obtain ⟨awaited', hcloses, hdepth⟩ := closes_drop h ts.length
  rw [List.drop_length] at hcloses
  obtain rfl := List.isEmpty_iff.1 hcloses
  rwa [List.take_length] at hdepth

end SolidityFrontend
