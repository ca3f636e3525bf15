import Mathlib.Data.List.DropRight
import Mathlib.Data.List.TakeWhile
import Mathlib.Data.Nat.Basic
import Mathlib.Order.Basic
import SolidityFrontend.Version.Requirement

/-!
# Where the constraints of a version requirement stand

The constraints of a requirement stand in its text one behind the other, and none of them begins or
ends with a blank, so all stand in the text without the blanks at its ends.
-/

namespace SolidityFrontend.Version

open Text

/-- How many bytes of blanks a text begins with. -/
def leading (text : List Char) : Nat := byteLength (text.takeWhile isBlank)

/-- A constraint whose bytes lie in the text without the blanks at its ends. -/
def Constraint.Inside (text : List Char) (k : Constraint) : Prop :=
  leading text ≤ k.start ∧ k.start ≤ k.stop ∧ k.stop ≤ byteLength (trimEnd text)

/-- Constraints between two offsets, one behind the other. -/
def Spread (lo hi : Nat) : List Constraint → Prop
  | [] => lo ≤ hi
  | k :: ks => lo ≤ k.start ∧ k.start ≤ k.stop ∧ Spread k.stop hi ks

theorem Spread.mono {lo lo' hi : Nat} {ks : List Constraint} (h : Spread lo' hi ks)
    (hle : lo ≤ lo') : Spread lo hi ks := by
  cases ks with
  | nil => exact le_trans hle h
  | cons k ks => exact ⟨le_trans hle h.1, h.2⟩

theorem Spread.append {lo mid hi : Nat} {ks ls : List Constraint} (h : Spread lo mid ks)
    (h' : Spread mid hi ls) : Spread lo hi (ks ++ ls) := by
  induction ks generalizing lo with
  | nil =>
    cases ls with
    | nil => exact le_trans h h'
    | cons l ls => exact h'.mono h
  | cons k ks ih => exact ⟨h.1, h.2.1, ih h.2.2⟩

/-! ### Blanks at the ends of a text -/

theorem byteLength_takeWhile_le (p : Char → Bool) (cs : List Char) :
    byteLength (cs.takeWhile p) ≤ byteLength cs := by
  induction cs with
  | nil => exact le_rfl
  | cons c cs ih =>
    rw [List.takeWhile_cons]
    split
    · simp only [byteLength]
      omega
    · simp [byteLength]

theorem byteLength_trimEnd_le (text : List Char) :
    byteLength (trimEnd text) ≤ byteLength text := by
  have hsplit := congrArg List.reverse
    (List.takeWhile_append_dropWhile (p := isBlank) (l := text.reverse))
  rw [List.reverse_append, List.reverse_reverse] at hsplit
  conv_rhs => rw [← hsplit, byteLength_append]
  exact Nat.le_add_right _ _

/-- What stands before a character that is no blank is as long as the blanks at the start. -/
theorem leading_le {x rest : List Char} {d : Char} (hd : isBlank d = false) :
    leading (x ++ d :: rest) ≤ byteLength x := by
  induction x with
  | nil => simp [leading, hd, byteLength]
  | cons c x ih =>
    unfold leading at ih ⊢
    rw [List.cons_append, List.takeWhile_cons]
    split
    · simp only [byteLength]
      omega
    · exact Nat.zero_le _

theorem exists_dropWhile_append (p : Char → Bool) (a b : List Char) {d : Char} (hd : p d = false) :
    ∃ a', (a ++ d :: b).dropWhile p = a' ++ d :: b := by
  induction a with
  | nil => exact ⟨[], by simp [hd]⟩
  | cons c a ih =>
    rw [List.cons_append, List.dropWhile_cons]
    split
    · exact ih
    · exact ⟨c :: a, rfl⟩

/-- What ends with a character that is no blank remains when the text is trimmed. -/
theorem le_trimEnd {x rest : List Char} {d : Char} (hd : isBlank d = false) :
    byteLength (x ++ [d]) ≤ byteLength (trimEnd (x ++ [d] ++ rest)) := by
  obtain ⟨a, ha⟩ := exists_dropWhile_append isBlank rest.reverse x.reverse hd
  have htrim : trimEnd (x ++ [d] ++ rest) = x ++ [d] ++ a.reverse := by
    simp [trimEnd, ha]
  rw [htrim, byteLength_append (x ++ [d])]
  exact Nat.le_add_right _ _

theorem isBlank_of_isDigit {c : Char} (h : isDigit c) : isBlank c = false := by
  have hc : 48 ≤ c.toNat ∧ c.toNat ≤ 57 := by
    simpa [isDigit, Char.le_def, UInt32.le_iff_toNat_le] using h
  simp only [isBlank, blankRanges, List.any_cons, List.any_nil, Bool.or_false, Bool.or_eq_false_iff,
    Bool.and_eq_false_iff, decide_eq_false_iff_not]
  omega

/-! ### Versions -/

namespace Cursor

theorem isBlank_of_mem_part {cs : List Char} {d : Char} (h : d ∈ cs.take (partLength cs)) :
    isBlank d = false := by
  rcases cs with _ | ⟨c, cs⟩
  · simp at h
  rw [partLength] at h
  split at h
  · rename_i hc
    rw [Nat.add_comm, List.take_succ_cons, List.mem_cons] at h
    rcases h with rfl | h
    · exact isBlank_of_isDigit hc
    · rw [← List.prefix_iff_eq_take.1 (List.takeWhile_prefix isDigit)] at h
      exact isBlank_of_isDigit (List.mem_takeWhile_imp h)
  · split at h
    · rename_i hc
      obtain rfl : d = c := by simpa using h
      rcases hc with rfl | rfl | rfl <;> decide
    · simp at h

theorem isBlank_of_mem_moreParts {n : Nat} {cs : List Char} {d : Char}
    (h : d ∈ cs.take (morePartsLength n cs)) : isBlank d = false := by
  fun_induction morePartsLength n cs
  case case2 n cs hpart ih =>
    rw [Nat.add_assoc, Nat.add_comm 1, List.take_succ_cons, List.mem_cons, List.take_add,
      List.mem_append] at h
    rcases h with rfl | h | h
    · decide
    · exact isBlank_of_mem_part h
    · exact ih h
  all_goals simp at h

/-- No character of a version is a blank. -/
theorem isBlank_of_mem_version {cs : List Char} {d : Char}
    (h : d ∈ cs.take (versionLength cs)) : isBlank d = false := by
  rw [versionLength] at h
  split at h
  · simp at h
  · rw [List.take_add, List.mem_append] at h
    rcases h with h | h
    · exact isBlank_of_mem_part h
    · exact isBlank_of_mem_moreParts h

/-! ### Cursors -/

/-- The cursor stands in a text, behind as many bytes as it says. -/
def At (text : List Char) (c : Cursor) : Prop :=
  ∃ before, text = before ++ c.rest ∧ c.offset = byteLength before

variable {text : List Char} {c next : Cursor} {k : Constraint}

theorem At.skip (h : c.At text) (n : Nat) : (c.skip n).At text := by
  obtain ⟨before, htext, hoffset⟩ := h
  refine ⟨before ++ c.rest.take n, ?_, ?_⟩
  · rw [List.append_assoc, Cursor.skip, List.take_append_drop]
    exact htext
  · rw [byteLength_append, Cursor.skip, hoffset]

theorem offset_le_skip (c : Cursor) (n : Nat) : c.offset ≤ (c.skip n).offset := Nat.le_add_right _ _

theorem At.skipSpace (h : c.At text) : c.skipSpace.At text := h.skip _

theorem rest_skipSpace (c : Cursor) : c.skipSpace.rest = c.rest.dropWhile isSpace := by
  have hsplit := List.takeWhile_append_dropWhile (p := isSpace) (l := c.rest)
  have hdrop := congrArg (List.drop (c.rest.takeWhile isSpace).length) hsplit
  rw [List.drop_left] at hdrop
  exact hdrop.symm

theorem match?_eq_some {t : String} (h : c.match? t = some next) :
    t.toList <+: c.rest ∧ next = c.skip t.length := by
  unfold match? at h
  split at h
  · rename_i hbegins
    exact ⟨List.isPrefixOf_iff_prefix.1 hbegins, (Option.some_inj.1 h).symm⟩
  · simp at h

theorem operator_cases (c : Cursor) : c.operator = (none, c)
    ∨ ∃ op : VersionOperator, c.operator = (some op, c.skip op.text.length)
      ∧ op.text.toList <+: c.rest := by
  unfold operator
  split
  · rename_i op next hfound
    obtain ⟨op', -, hop⟩ := List.exists_of_findSome?_eq_some hfound
    obtain ⟨next', hnext, heq⟩ := Option.map_eq_some_iff.1 hop
    obtain ⟨rfl, rfl⟩ := Prod.mk.inj heq
    obtain ⟨hbegins, rfl⟩ := match?_eq_some hnext
    exact .inr ⟨op', rfl, hbegins⟩
  · exact .inl rfl

theorem exists_operator_text (op : VersionOperator) :
    ∃ d ds, op.text.toList = d :: ds ∧ isBlank d = false := by
  cases op <;> exact ⟨_, _, rfl, by decide⟩

/-- Where a cursor stands before a character that is no blank. -/
theorem At.leading_le (h : c.At text) {d : Char} {ds : List Char} (hrest : c.rest = d :: ds)
    (hd : isBlank d = false) : leading text ≤ c.offset := by
  obtain ⟨before, htext, hoffset⟩ := h
  rw [htext, hrest, hoffset]
  exact Version.leading_le hd

/-- Where a cursor stands behind characters of which none is a blank. -/
theorem At.skip_le (h : c.At text) {n : Nat} (hne : c.rest.take n ≠ [])
    (hblank : ∀ d ∈ c.rest.take n, isBlank d = false) :
    (c.skip n).offset ≤ byteLength (trimEnd text) := by
  obtain ⟨before, htext, hoffset⟩ := h
  obtain ⟨ds, d, hds⟩ := List.eq_nil_or_concat _ |>.resolve_left hne
  have hd : isBlank d = false := hblank d (by rw [hds]; simp)
  have hle : byteLength (before ++ ds ++ [d])
      ≤ byteLength (trimEnd (before ++ ds ++ [d] ++ c.rest.drop n)) := le_trimEnd hd
  have hwhole : before ++ ds ++ [d] ++ c.rest.drop n = text := by
    rw [htext]
    conv_rhs => rw [← List.take_append_drop n c.rest, hds]
    simp
  rw [hwhole] at hle
  refine le_trans ?_ hle
  rw [Cursor.skip, hds, hoffset]
  simp [byteLength_append]

/-- A version begins with a character that is no blank, as does all of it. -/
theorem version_begins {cs : List Char} (h : versionLength cs ≠ 0) :
    cs.take (versionLength cs) ≠ [] ∧ ∃ d ds, cs = d :: ds ∧ isBlank d = false := by
  rcases cs with _ | ⟨d, ds⟩
  · exact absurd rfl h
  obtain ⟨n, hn⟩ := Nat.exists_eq_succ_of_ne_zero h
  have htake : (d :: ds).take (versionLength (d :: ds)) = d :: ds.take n := by
    rw [hn, Nat.succ_eq_add_one, List.take_succ_cons]
  refine ⟨by simp [htake], d, ds, rfl, ?_⟩
  have hd : d ∈ (d :: ds).take (versionLength (d :: ds)) := by
    rw [htake]
    exact List.mem_cons_self
  exact isBlank_of_mem_version hd

/-- A constraint stands behind the cursor it is read from, and the cursor behind it at its end. -/
theorem constraint?_spec (hc : c.At text) (h : c.constraint? = some (k, next)) :
    next.At text ∧ k.Inside text ∧ c.offset ≤ k.start ∧ k.stop = next.offset := by
  have hstart : c.skipSpace.At text := hc.skipSpace
  simp only [constraint?] at h
  split at h
  · simp at h
  rename_i n hn
  obtain ⟨rfl, rfl⟩ := Prod.mk.inj (Option.some_inj.1 h)
  obtain ⟨hne, d, ds, hrest, hd⟩ := version_begins hn
  obtain ⟨hversion, hoffset, hleading⟩ : c.skipSpace.operator.2.skipSpace.At text
      ∧ c.skipSpace.offset ≤ c.skipSpace.operator.2.skipSpace.offset
      ∧ leading text ≤ c.skipSpace.offset := by
    rcases operator_cases c.skipSpace with hnone | ⟨op, hsome, hbegins⟩
    · -- Without an operator the version begins where the constraint does.
      have hbegins : c.skipSpace.rest = d :: ds := by
        rw [hnone, rest_skipSpace, rest_skipSpace, List.dropWhile_idempotent] at hrest
        rw [rest_skipSpace, hrest]
      rw [hnone]
      exact ⟨hstart.skipSpace, offset_le_skip _ _, hstart.leading_le hbegins hd⟩
    · rw [hsome]
      obtain ⟨d', ds', htext, hd'⟩ := exists_operator_text op
      obtain ⟨behind, hbehind⟩ := hbegins
      refine ⟨(hstart.skip _).skipSpace, (offset_le_skip _ _).trans (offset_le_skip _ _), ?_⟩
      exact hstart.leading_le (by rw [← hbehind, htext, List.cons_append]) hd'
  refine ⟨hversion.skip _, ⟨hleading, hoffset.trans (offset_le_skip _ _), ?_⟩, ?_, rfl⟩
  · exact hversion.skip_le hne fun d hd => isBlank_of_mem_version hd
  · exact offset_le_skip _ _

theorem constraints_spec {fuel : Nat} {ks : List Constraint} (hc : c.At text)
    (h : constraints fuel c = (ks, next)) :
    next.At text ∧ Spread c.offset next.offset ks ∧ ∀ k ∈ ks, k.Inside text := by
  induction fuel generalizing c ks with
  | zero =>
    obtain ⟨rfl, rfl⟩ := Prod.mk.inj h
    exact ⟨hc, le_rfl, by simp⟩
  | succ fuel ih =>
    rw [constraints] at h
    split at h
    · obtain ⟨rfl, rfl⟩ := Prod.mk.inj h
      exact ⟨hc, le_rfl, by simp⟩
    · rename_i k after hk
      obtain ⟨hafter, hinside, hstart, hstop⟩ := constraint?_spec hc hk
      obtain ⟨rfl, rfl⟩ := Prod.mk.inj h
      obtain ⟨hnext, hspread, hall⟩ := ih hafter rfl
      refine ⟨hnext, ⟨hstart, hinside.2.1, hstop ▸ hspread⟩, ?_⟩
      rw [List.forall_mem_cons]
      exact ⟨hinside, hall⟩

/-- An alternative is a range of two constraints or a list of them. -/
theorem alternative?_cases {ks : List Constraint} (h : c.alternative? = some (ks, next)) :
    ∃ first after, c.constraint? = some (first, after)
      ∧ ((∃ hyphen last, after.skipSpace.match? "-" = some hyphen
          ∧ hyphen.constraint? = some (last, next)
          ∧ ks = [{ first with operator := some .ge }, { last with operator := some .le }]
          ∧ first.operator = none ∧ last.operator = none)
        ∨ list first after = (ks, next)) := by
  unfold alternative? at h
  obtain ⟨⟨first, after⟩, hfirst, h⟩ := Option.bind_eq_some_iff.1 h
  refine ⟨first, after, hfirst, ?_⟩
  dsimp only at h
  split at h
  · rename_i hnone
    split at h
    · rename_i hyphen hhyphen
      obtain ⟨⟨last, stop⟩, hlast, h⟩ := Option.bind_eq_some_iff.1 h
      dsimp only at h
      split at h
      · rename_i hnone'
        obtain ⟨rfl, rfl⟩ := Prod.mk.inj (Option.some_inj.1 h)
        exact .inl ⟨hyphen, last, hhyphen, hlast, rfl, Option.isNone_iff_eq_none.1 hnone,
          Option.isNone_iff_eq_none.1 hnone'⟩
      · exact .inr (Option.some_inj.1 h)
    · exact .inr (Option.some_inj.1 h)
  · exact .inr (Option.some_inj.1 h)

/-- The constraints of an alternative stand one behind the other, and the cursor behind them. -/
theorem alternative?_spec {ks : List Constraint} (hc : c.At text)
    (h : c.alternative? = some (ks, next)) :
    next.At text ∧ Spread c.offset next.offset ks ∧ ∀ k ∈ ks, k.Inside text := by
  obtain ⟨first, after, hfirst, h⟩ := alternative?_cases h
  obtain ⟨hafter, hinside, hstart, hstop⟩ := constraint?_spec hc hfirst
  rcases h with ⟨hyphen, last, hhyphen, hlast, rfl, -⟩ | h
  · obtain ⟨-, rfl⟩ := match?_eq_some hhyphen
    obtain ⟨hnext, hinside', hstart', hstop'⟩ :=
      constraint?_spec (hafter.skipSpace.skip _) hlast
    have hbehind : first.stop ≤ last.start := by
      rw [hstop]
      exact (offset_le_skip _ _).trans ((offset_le_skip _ _).trans hstart')
    refine ⟨hnext, ⟨hstart, hinside.2.1, hbehind, hinside'.2.1, hstop'.le⟩, ?_⟩
    rw [List.forall_mem_cons, List.forall_mem_singleton]
    exact ⟨hinside, hinside'⟩
  · obtain ⟨rfl, rfl⟩ := Prod.mk.inj h
    obtain ⟨hnext, hspread, hall⟩ := constraints_spec hafter (Prod.eta _).symm
    refine ⟨hnext, ⟨hstart, hinside.2.1, hstop ▸ hspread⟩, ?_⟩
    rw [List.forall_mem_cons]
    exact ⟨hinside, hall⟩

end Cursor

/-! ### Alternatives -/

variable {text : List Char} {fuel : Nat} {c : Cursor} {kss : List (List Constraint)}

theorem alternatives_zero : alternatives text 0 c ≠ .ok kss := nofun

/-- What is read as alternatives is one that ends the text, or one with a mark and more behind it. -/
theorem alternatives_cases (h : alternatives text (fuel + 1) c = .ok kss) :
    ∃ ks next, c.alternative? = some (ks, next)
      ∧ ((∃ after more, next.skipSpace.match? "||" = some after
          ∧ alternatives text fuel after = .ok more ∧ kss = ks :: more)
        ∨ next.skipSpace.rest = [] ∧ kss = [ks]) := by
  rw [alternatives] at h
  split at h
  · simp at h
  rename_i ks next hks
  refine ⟨ks, next, hks, ?_⟩
  split at h
  · rename_i after hafter
    rcases hmore : alternatives text fuel after with fault | more
    · rw [hmore] at h
      exact absurd h (by simp [bind, Except.bind])
    rw [hmore] at h
    exact .inl ⟨after, more, hafter, hmore, (Except.ok.inj h).symm⟩
  · dsimp only at h
    split at h
    · rename_i hempty
      exact .inr ⟨List.isEmpty_iff.1 hempty, (Except.ok.inj h).symm⟩
    · simp at h

/-- The constraints of all alternatives stand one behind the other. -/
theorem alternatives_spec (hc : c.At text) (h : alternatives text fuel c = .ok kss) :
    (∃ hi, Spread c.offset hi kss.flatten) ∧ ∀ ks ∈ kss, ∀ k ∈ ks, k.Inside text := by
  induction fuel generalizing c kss with
  | zero => exact absurd h alternatives_zero
  | succ fuel ih =>
    obtain ⟨ks, next, hks, h⟩ := alternatives_cases h
    obtain ⟨hnext, hspread, hall⟩ := Cursor.alternative?_spec hc hks
    rcases h with ⟨after, more, hafter, hmore, rfl⟩ | ⟨-, rfl⟩
    · obtain ⟨-, rfl⟩ := Cursor.match?_eq_some hafter
      obtain ⟨⟨hi, hmores⟩, hmoreInside⟩ := ih (hnext.skipSpace.skip _) hmore
      have hbehind : next.offset ≤ (next.skipSpace.skip "||".length).offset :=
        (Cursor.offset_le_skip _ _).trans (Cursor.offset_le_skip _ _)
      refine ⟨⟨hi, ?_⟩, ?_⟩
      · rw [List.flatten_cons]
        exact hspread.append (hmores.mono hbehind)
      · rw [List.forall_mem_cons]
        exact ⟨hall, hmoreInside⟩
    · exact ⟨⟨next.offset, by simpa using hspread⟩, by simpa using hall⟩

/-- The constraints of a requirement stand one behind the other in the text without the blanks at
its ends. -/
theorem parse_spec {text : List Char} {kss : List (List Constraint)} (h : parse text = .ok kss) :
    (∃ hi, Spread 0 hi kss.flatten) ∧ ∀ ks ∈ kss, ∀ k ∈ ks, k.Inside text :=
  alternatives_spec (c := ⟨0, text⟩) ⟨[], rfl, rfl⟩ h

/-- An alternative has a constraint. -/
theorem Cursor.alternative?_ne_nil {c next : Cursor} {ks : List Constraint}
    (h : c.alternative? = some (ks, next)) : ks ≠ [] := by
  obtain ⟨first, after, -, ⟨hyphen, last, -, -, rfl, -⟩ | h⟩ := alternative?_cases h
  · simp
  · obtain ⟨rfl, -⟩ := Prod.mk.inj h
    simp

theorem alternatives_ne_nil (h : alternatives text fuel c = .ok kss) :
    kss ≠ [] ∧ ∀ ks ∈ kss, ks ≠ [] := by
  induction fuel generalizing c kss with
  | zero => exact absurd h alternatives_zero
  | succ fuel ih =>
    obtain ⟨ks, next, hks, h⟩ := alternatives_cases h
    have hne := Cursor.alternative?_ne_nil hks
    rcases h with ⟨after, more, -, hmore, rfl⟩ | ⟨-, rfl⟩
    · exact ⟨by simp, List.forall_mem_cons.2 ⟨hne, (ih hmore).2⟩⟩
    · exact ⟨by simp, by simpa using hne⟩

/-- A requirement has alternatives, and each of them constraints. -/
theorem parse_ne_nil {text : List Char} {kss : List (List Constraint)} (h : parse text = .ok kss) :
    kss ≠ [] ∧ ∀ ks ∈ kss, ks ≠ [] := alternatives_ne_nil h

/-! ### Constraints and characters -/

/-- The number of bytes in some of the characters that a text begins with. -/
def IsCut (text : List Char) (n : Nat) : Prop := ∃ before, before <+: text ∧ n = byteLength before

theorem IsCut.zero (text : List Char) : IsCut text 0 := ⟨[], List.nil_prefix, rfl⟩

/-- A constraint that begins and ends between two characters. -/
def Constraint.Cut (text : List Char) (k : Constraint) : Prop := IsCut text k.start ∧ IsCut text k.stop

namespace Cursor

variable {text : List Char} {c next : Cursor} {k : Constraint}

theorem At.isCut (h : c.At text) : IsCut text c.offset := by
  obtain ⟨before, htext, hoffset⟩ := h
  exact ⟨before, ⟨c.rest, htext.symm⟩, hoffset⟩

theorem constraint?_cut (hc : c.At text) (h : c.constraint? = some (k, next)) : k.Cut text := by
  obtain ⟨hnext, -, -, hstop⟩ := constraint?_spec hc h
  refine ⟨?_, hstop ▸ hnext.isCut⟩
  simp only [constraint?] at h
  split at h
  · simp at h
  · obtain ⟨rfl, -⟩ := Prod.mk.inj (Option.some_inj.1 h)
    exact hc.skipSpace.isCut

theorem constraints_cut {fuel : Nat} (hc : c.At text) : ∀ k ∈ (constraints fuel c).1, k.Cut text := by
  induction fuel generalizing c with
  | zero => simp [constraints]
  | succ fuel ih =>
    rw [constraints]
    split
    · simp
    · rename_i k after hk
      exact List.forall_mem_cons.2 ⟨constraint?_cut hc hk, ih (constraint?_spec hc hk).1⟩

theorem alternative?_cut {ks : List Constraint} (hc : c.At text)
    (h : c.alternative? = some (ks, next)) : ∀ k ∈ ks, k.Cut text := by
  obtain ⟨first, after, hfirst, h⟩ := alternative?_cases h
  have hafter := (constraint?_spec hc hfirst).1
  have hcut := constraint?_cut hc hfirst
  rcases h with ⟨hyphen, last, hhyphen, hlast, rfl, -⟩ | h
  · obtain ⟨-, rfl⟩ := match?_eq_some hhyphen
    have hlastCut := constraint?_cut (hafter.skipSpace.skip _) hlast
    rw [List.forall_mem_cons, List.forall_mem_singleton]
    exact ⟨hcut, hlastCut⟩
  · obtain ⟨rfl, -⟩ := Prod.mk.inj h
    exact List.forall_mem_cons.2 ⟨hcut, constraints_cut hafter⟩

end Cursor

theorem alternatives_cut (hc : c.At text) (h : alternatives text fuel c = .ok kss) :
    ∀ ks ∈ kss, ∀ k ∈ ks, k.Cut text := by
  induction fuel generalizing c kss with
  | zero => exact absurd h alternatives_zero
  | succ fuel ih =>
    obtain ⟨ks, next, hks, h⟩ := alternatives_cases h
    have hcut := Cursor.alternative?_cut hc hks
    rcases h with ⟨after, more, hafter, hmore, rfl⟩ | ⟨-, rfl⟩
    · obtain ⟨-, rfl⟩ := Cursor.match?_eq_some hafter
      have hnext := (Cursor.alternative?_spec hc hks).1
      exact List.forall_mem_cons.2 ⟨hcut, ih (hnext.skipSpace.skip _) hmore⟩
    · simpa using hcut

/-- The constraints of a requirement begin and end between two characters of its text. -/
theorem parse_cut {text : List Char} {kss : List (List Constraint)} (h : parse text = .ok kss) :
    ∀ ks ∈ kss, ∀ k ∈ ks, k.Cut text := alternatives_cut (c := ⟨0, text⟩) ⟨[], rfl, rfl⟩ h

end SolidityFrontend.Version
