import SolidityFrontend.Proofs.Segments
import SolidityFrontend.Proofs.VersionPlaces

/-!
# How version requirements are laid out

A requirement that is read accounts for every character of its text (`Requirement`): the constraints
stand where they say they do, and between them are only blanks, one `||` between two alternatives and
one `-` in a range. Conversely, constraints with blanks between them are read as they are written
(`Spelled`). Both together are `parse_lossless`.
-/

namespace SolidityFrontend.Version

open Text

/-! ### Versions -/

/-- A text of blanks only. -/
def IsGap (cs : List Char) : Prop := ∀ c ∈ cs, Cursor.isSpace c

theorem isGap_nil : IsGap [] := by simp [IsGap]

/-- One part of a version. -/
inductive IsPart : List Char → Prop
  | digits {ds : List Char} (hne : ds ≠ []) (h : ∀ d ∈ ds, isDigit d) : IsPart ds
  | any {c : Char} (h : c = 'x' ∨ c = 'X' ∨ c = '*') : IsPart [c]

/-- Parts with a point before each. -/
def pointed (parts : List (List Char)) : List Char := parts.flatMap fun part => '.' :: part

/-- One to three parts with points between them. -/
def IsVersion (cs : List Char) : Prop :=
  ∃ (first : List Char) (more : List (List Char)), cs = first ++ pointed more
    ∧ IsPart first ∧ more.length ≤ 2 ∧ ∀ part ∈ more, IsPart part

/-- What follows a version goes on neither with its last part nor with a further one. -/
def EndsVersion (rest : List Char) : Prop := ∀ c, rest.head? = some c → isDigit c = false ∧ c ≠ '.'

theorem IsPart.ne_nil {part : List Char} (h : IsPart part) : part ≠ [] := by
  cases h with
  | digits hne _ => exact hne
  | any _ => exact List.cons_ne_nil _ _

/-- What follows a part does not go on with it. -/
theorem EndsVersion.head_pointed {rest : List Char} (h : EndsVersion rest) (more : List (List Char)) :
    ∀ c, (pointed more ++ rest).head? = some c → isDigit c = false := by
  rcases more with _ | ⟨next, more⟩
  · exact fun c hc => (h c hc).1
  · rintro c hc
    obtain rfl : '.' = c := by simpa [pointed] using hc
    rfl

namespace Cursor

theorem isPart_take {cs : List Char} (h : partLength cs ≠ 0) : IsPart (cs.take (partLength cs)) := by
  rcases cs with _ | ⟨c, cs⟩
  · exact absurd rfl h
  rw [partLength] at h ⊢
  split
  · rename_i hc
    rw [Nat.add_comm, List.take_succ_cons, ← List.prefix_iff_eq_take.1 (List.takeWhile_prefix isDigit)]
    refine .digits (by simp) (List.forall_mem_cons.2 ⟨hc, fun d hd => List.mem_takeWhile_imp hd⟩)
  · rename_i hc
    rw [if_neg hc] at h
    split
    · rename_i hany
      exact .any hany
    · rename_i hany
      rw [if_neg hany] at h
      exact absurd rfl h

theorem exists_moreParts (n : Nat) (cs : List Char) :
    ∃ more : List (List Char), more.length ≤ n ∧ (∀ part ∈ more, IsPart part)
      ∧ cs.take (morePartsLength n cs) = pointed more := by
  fun_induction morePartsLength n cs
  case case2 n cs hpart ih =>
    obtain ⟨more, hlength, hparts, hmore⟩ := ih
    refine ⟨cs.take (partLength cs) :: more, by simpa using hlength,
      List.forall_mem_cons.2 ⟨isPart_take hpart, hparts⟩, ?_⟩
    rw [Nat.add_assoc, Nat.add_comm 1, List.take_succ_cons, List.take_add, hmore, pointed, pointed,
      List.flatMap_cons, List.cons_append]
  all_goals exact ⟨[], Nat.zero_le _, by simp, by simp [pointed]⟩

theorem isVersion_take {cs : List Char} (h : versionLength cs ≠ 0) :
    IsVersion (cs.take (versionLength cs)) := by
  rw [versionLength] at h ⊢
  split
  · rename_i hzero
    rw [hzero] at h
    exact absurd rfl h
  · rename_i hpart
    obtain ⟨more, hlength, hparts, hmore⟩ := exists_moreParts 2 (cs.drop (partLength cs))
    exact ⟨_, more, by rw [List.take_add, hmore], isPart_take hpart, hlength, hparts⟩

theorem partLength_append {part rest : List Char} (h : IsPart part)
    (hrest : ∀ c, rest.head? = some c → isDigit c = false) :
    partLength (part ++ rest) = part.length := by
  cases h with
  | digits hne h =>
    obtain ⟨d, ds, rfl⟩ := List.exists_cons_of_ne_nil hne
    obtain ⟨hd, hds⟩ := List.forall_mem_cons.1 h
    have hstop : rest.takeWhile isDigit = [] := by
      rcases rest with _ | ⟨c, rest⟩
      · rfl
      · simp [hrest c rfl]
    rw [List.cons_append, partLength, if_pos hd, List.takeWhile_append_of_pos hds, hstop,
      List.append_nil, Nat.add_comm, List.length_cons]
  | any h =>
    rcases h with rfl | rfl | rfl <;> rfl

theorem moreParts_append {n : Nat} {more : List (List Char)} {rest : List Char}
    (hlength : more.length ≤ n) (hparts : ∀ part ∈ more, IsPart part) (hrest : EndsVersion rest) :
    morePartsLength n (pointed more ++ rest) = (pointed more).length := by
  induction more generalizing n with
  | nil =>
    rw [pointed, List.flatMap_nil, List.nil_append]
    unfold morePartsLength
    split
    · exact absurd rfl (hrest _ rfl).2
    · rfl
  | cons part more ih =>
    obtain ⟨n, rfl⟩ : ∃ m, n = m + 1 := ⟨n - 1, by simp only [List.length_cons] at hlength; omega⟩
    obtain ⟨hpart, hparts⟩ := List.forall_mem_cons.1 hparts
    have hcons : pointed (part :: more) = '.' :: (part ++ pointed more) := by simp [pointed]
    rw [hcons, List.cons_append, List.append_assoc, morePartsLength,
      partLength_append hpart (hrest.head_pointed more)]
    split
    · rename_i hzero
      exact absurd (List.length_eq_zero_iff.1 hzero) hpart.ne_nil
    · rw [List.drop_left, ih (by simpa using hlength) hparts, List.length_cons, List.length_append]
      omega

/-- A version is read to its end. -/
theorem versionLength_append {version rest : List Char} (h : IsVersion version)
    (hrest : EndsVersion rest) : versionLength (version ++ rest) = version.length := by
  obtain ⟨first, more, rfl, hfirst, hlength, hparts⟩ := h
  rw [List.append_assoc, versionLength, partLength_append hfirst (hrest.head_pointed more)]
  split
  · rename_i hzero
    exact absurd (List.length_eq_zero_iff.1 hzero) hfirst.ne_nil
  · rw [List.drop_left, moreParts_append hlength hparts hrest, List.length_append]

end Cursor

/-! ### What a requirement accounts for -/

/-- The text of an operator, if there is one. -/
def operatorText (op : Option VersionOperator) : List Char := op.elim [] fun op => op.text.toList

/-- A constraint stands from an offset on as the characters `cs`: the operator, blanks behind it, and
its version. -/
structure Constraint.Stands (k : Constraint) (op : Option VersionOperator) (n : Nat) (cs : List Char) :
    Prop where
  text : ∃ gap, cs = operatorText op ++ gap ++ k.version.toList ∧ IsGap gap ∧ (op = none → gap = [])
  version : IsVersion k.version.toList
  start : k.start = n
  stop : k.stop = n + byteLength cs

/-- Constraints stand from an offset on one behind the other, each with its operator. -/
inductive Row : Nat → List Char → List Constraint → Prop
  | nil (n : Nat) : Row n [] []
  | cons {n : Nat} {gap cs rest : List Char} {k : Constraint} {ks : List Constraint} (hgap : IsGap gap)
    (h : k.Stands k.operator (n + byteLength gap) cs) (hrest : Row (n + byteLength (gap ++ cs)) rest ks) :
    Row n (gap ++ cs ++ rest) (k :: ks)

/-- An alternative stands from an offset on. Only the two ends of a range have operators that are not
in the text. -/
inductive Alternative : Nat → List Char → List Constraint → Prop
  | row {n : Nat} {cs : List Char} {ks : List Constraint} (h : Row n cs ks) (hne : ks ≠ []) :
    Alternative n cs ks
  | range {n : Nat} {gap first before behind last : List Char} {k l : Constraint} (hgap : IsGap gap)
    (hfirst : k.Stands none (n + byteLength gap) first) (hbefore : IsGap before) (hbehind : IsGap behind)
    (hlast : l.Stands none (n + byteLength (gap ++ first ++ before ++ ['-'] ++ behind)) last) :
    Alternative n (gap ++ first ++ before ++ ['-'] ++ behind ++ last)
      [{ k with operator := some .ge }, { l with operator := some .le }]

/-- A requirement stands from an offset on up to the end of the text. -/
inductive Requirement : Nat → List Char → List (List Constraint) → Prop
  | last {n : Nat} {cs gap : List Char} {ks : List Constraint} (h : Alternative n cs ks)
    (hgap : IsGap gap) : Requirement n (cs ++ gap) [ks]
  | more {n : Nat} {cs gap rest : List Char} {ks : List Constraint} {kss : List (List Constraint)}
    (h : Alternative n cs ks) (hgap : IsGap gap)
    (hrest : Requirement (n + byteLength (cs ++ gap ++ ['|', '|'])) rest kss) :
    Requirement n (cs ++ gap ++ ['|', '|'] ++ rest) (ks :: kss)

namespace Cursor

/-- The cursor moves over the characters `cs`. -/
def Over (c : Cursor) (cs : List Char) (next : Cursor) : Prop :=
  c.rest = cs ++ next.rest ∧ next.offset = c.offset + byteLength cs

variable {c c' next : Cursor} {k : Constraint}

theorem over_skip (c : Cursor) (n : Nat) : c.Over (c.rest.take n) (c.skip n) :=
  ⟨(List.take_append_drop n c.rest).symm, rfl⟩

theorem Over.trans {x y : List Char} (h : c.Over x c') (h' : c'.Over y next) : c.Over (x ++ y) next :=
  ⟨by rw [h.1, h'.1, List.append_assoc], by rw [h'.2, h.2, byteLength_append, Nat.add_assoc]⟩

theorem exists_over_skipSpace (c : Cursor) : ∃ gap, IsGap gap ∧ c.Over gap c.skipSpace := by
  refine ⟨c.rest.takeWhile isSpace, fun d hd => List.mem_takeWhile_imp hd, ?_⟩
  have htake : c.rest.take (c.rest.takeWhile isSpace).length = c.rest.takeWhile isSpace :=
    (List.prefix_iff_eq_take.1 (List.takeWhile_prefix isSpace)).symm
  have hover := over_skip c (c.rest.takeWhile isSpace).length
  rwa [htake] at hover

theorem over_match {t : String} (h : c.match? t = some next) : c.Over t.toList next := by
  obtain ⟨⟨rest, hrest⟩, rfl⟩ := match?_eq_some h
  have hover := over_skip c t.length
  rwa [← hrest, ← String.length_toList, List.take_left] at hover

theorem over_operator (c : Cursor) : c.Over (operatorText c.operator.1) c.operator.2 := by
  rcases operator_cases c with hnone | ⟨op, hsome, rest, hrest⟩
  · rw [hnone]
    exact ⟨rfl, rfl⟩
  · have hover := over_skip c op.text.length
    rw [hsome]
    rwa [← hrest, ← String.length_toList, List.take_left] at hover

/-- No blanks are left where blanks were skipped. -/
theorem eq_nil_of_over_skipSpace {gap : List Char} (hgap : IsGap gap) (h : c.skipSpace.Over gap next) :
    gap = [] := by
  rcases gap with _ | ⟨d, gap⟩
  · rfl
  have hrest := h.1
  have hnot := List.head?_dropWhile_not isSpace c.rest
  rw [← rest_skipSpace, hrest, List.cons_append, List.head?_cons] at hnot
  exact absurd (hgap d List.mem_cons_self) (by simpa using hnot)

/-- A constraint stands where it is read. -/
theorem constraint?_stands (h : c.constraint? = some (k, next)) :
    ∃ gap cs, IsGap gap ∧ k.Stands k.operator (c.offset + byteLength gap) cs
      ∧ c.Over (gap ++ cs) next := by
  simp only [constraint?] at h
  split at h
  · simp at h
  rename_i hlength
  obtain ⟨rfl, rfl⟩ := Prod.mk.inj (Option.some_inj.1 h)
  obtain ⟨gap, hgap, hstart⟩ := exists_over_skipSpace c
  have hoperator := over_operator c.skipSpace
  obtain ⟨inner, hinner, hversion⟩ := exists_over_skipSpace c.skipSpace.operator.2
  have hnone : c.skipSpace.operator.1 = none → inner = [] := by
    intro hnone
    rcases operator_cases c.skipSpace with hsame | ⟨op, hsome, -⟩
    · rw [hsame] at hversion
      exact eq_nil_of_over_skipSpace hinner hversion
    · rw [hsome] at hnone
      simp at hnone
  have hstop := over_skip c.skipSpace.operator.2.skipSpace
    (versionLength c.skipSpace.operator.2.skipSpace.rest)
  have hwhole := (hoperator.trans hversion).trans hstop
  refine ⟨gap, _, hgap, ⟨⟨inner, rfl, hinner, hnone⟩, ?_, hstart.2, ?_⟩, hstart.trans ?_⟩
  · simpa using isVersion_take hlength
  · rw [← hstart.2]
    simpa using hwhole.2
  · simpa using hwhole

theorem constraints_row {fuel : Nat} {ks : List Constraint} (h : constraints fuel c = (ks, next)) :
    ∃ cs, Row c.offset cs ks ∧ c.Over cs next := by
  induction fuel generalizing c ks with
  | zero =>
    obtain ⟨rfl, rfl⟩ := Prod.mk.inj h
    exact ⟨[], .nil _, rfl, rfl⟩
  | succ fuel ih =>
    rw [constraints] at h
    split at h
    · obtain ⟨rfl, rfl⟩ := Prod.mk.inj h
      exact ⟨[], .nil _, rfl, rfl⟩
    · rename_i k after hk
      obtain ⟨rfl, rfl⟩ := Prod.mk.inj h
      obtain ⟨gap, cs, hgap, hstands, hover⟩ := constraint?_stands hk
      obtain ⟨rest, hrow, hrest⟩ := ih rfl
      rw [hover.2] at hrow
      exact ⟨_, .cons hgap hstands hrow, hover.trans hrest⟩

theorem alternative?_stands {ks : List Constraint} (h : c.alternative? = some (ks, next)) :
    ∃ cs, Alternative c.offset cs ks ∧ c.Over cs next := by
  obtain ⟨first, after, hfirst, h⟩ := alternative?_cases h
  obtain ⟨gap, cs, hgap, hstands, hover⟩ := constraint?_stands hfirst
  rcases h with ⟨hyphen, last, hhyphen, hlast, rfl, hnone, hnone'⟩ | h
  · obtain ⟨before, hbefore, hskip⟩ := exists_over_skipSpace after
    obtain ⟨behind, ds, hbehind, hstands', hover'⟩ := constraint?_stands hlast
    have hup := (hover.trans hskip).trans (over_match hhyphen)
    have hwhole := hup.trans hover'
    rw [hnone] at hstands
    rw [hnone', hup.2] at hstands'
    refine ⟨_, .range hgap hstands hbefore hbehind ?_, by simpa using hwhole⟩
    rw [byteLength_append _ behind, ← Nat.add_assoc]
    exact hstands'
  · obtain ⟨rfl, rfl⟩ := Prod.mk.inj h
    obtain ⟨rest, hrow, hrest⟩ := constraints_row (c := after) rfl
    rw [hover.2] at hrow
    exact ⟨_, .row (.cons hgap hstands hrow) (by simp), hover.trans hrest⟩

end Cursor

/-- A requirement that is read stands in the text as a whole. -/
theorem alternatives_stand {text : List Char} {fuel : Nat} {c : Cursor} {kss : List (List Constraint)}
    (h : alternatives text fuel c = .ok kss) : Requirement c.offset c.rest kss := by
  induction fuel generalizing c kss with
  | zero => exact absurd h alternatives_zero
  | succ fuel ih =>
    obtain ⟨ks, next, hks, h⟩ := alternatives_cases h
    obtain ⟨cs, halternative, hover⟩ := Cursor.alternative?_stands hks
    obtain ⟨gap, hgap, hskip⟩ := Cursor.exists_over_skipSpace next
    rcases h with ⟨after, more, hafter, hmore, rfl⟩ | ⟨hempty, rfl⟩
    · have hup := (hover.trans hskip).trans (Cursor.over_match hafter)
      have hrest := ih hmore
      rw [hup.2] at hrest
      rw [hup.1]
      exact .more halternative hgap hrest
    · have hup := (hover.trans hskip).1
      rw [hempty, List.append_nil] at hup
      rw [hup]
      exact .last halternative hgap

theorem parse_stands {text : List Char} {kss : List (List Constraint)} (h : parse text = .ok kss) :
    Requirement 0 text kss := alternatives_stand (c := ⟨0, text⟩) h

/-! ### What a requirement is read from -/

/-- A constraint as it is written. -/
def spelling (w : Option VersionOperator × List Char) : List Char := operatorText w.1 ++ w.2

/-- The alternatives of a requirement are written as the characters `cs`, where what separates two
constraints or a constraint and a mark `||` satisfies `G`. -/
inductive Spelled (G : List Char → Prop) :
    List (List (Option VersionOperator × List Char)) → List Char → Prop
  | one {w : Option VersionOperator × List Char} (hw : IsVersion w.2) : Spelled G [[w]] (spelling w)
  | next {w : Option VersionOperator × List Char} {ws : List (Option VersionOperator × List Char)}
    {wss : List (List (Option VersionOperator × List Char))} {gap cs : List Char} (hw : IsVersion w.2)
    (hgap : G gap) (h : Spelled G (ws :: wss) cs) : Spelled G ((w :: ws) :: wss) (spelling w ++ gap ++ cs)
  | alternative {w : Option VersionOperator × List Char}
    {wss : List (List (Option VersionOperator × List Char))} {gap gap' cs : List Char}
    (hw : IsVersion w.2) (hgap : G gap) (hgap' : G gap') (h : Spelled G wss cs) :
    Spelled G ([w] :: wss) (spelling w ++ gap ++ ['|', '|'] ++ gap' ++ cs)

/-- A text of blanks, and at least one. -/
def IsRun (cs : List Char) : Prop := IsGap cs ∧ cs ≠ []

/-- What a constraint says, without its place. -/
def Constraint.content (k : Constraint) : Option VersionOperator × List Char :=
  (k.operator, k.version.toList)

theorem isDigit_of_isSpace {c : Char} (h : Cursor.isSpace c) : isDigit c = false ∧ c ≠ '.' := by
  simp only [Cursor.isSpace, Bool.or_eq_true, beq_iff_eq] at h
  rcases h with ((rfl | rfl) | rfl) | rfl <;> decide

/-- The first character of a version. -/
theorem IsVersion.exists_cons {cs : List Char} (h : IsVersion cs) :
    ∃ d ds, cs = d :: ds ∧ (isDigit d ∨ d = 'x' ∨ d = 'X' ∨ d = '*') := by
  obtain ⟨first, more, rfl, hfirst, -, -⟩ := h
  cases hfirst with
  | @digits ds hne h =>
    obtain ⟨d, ds, rfl⟩ := List.exists_cons_of_ne_nil hne
    exact ⟨d, _, rfl, .inl (h d List.mem_cons_self)⟩
  | @any c h => exact ⟨c, _, rfl, .inr h⟩

/-- A version begins with none of the characters with which blanks, operators and marks do. -/
theorem not_mem_of_version {d : Char} (h : isDigit d ∨ d = 'x' ∨ d = 'X' ∨ d = '*') :
    d ∉ [' ', '\t', '\r', '\n', '<', '>', '=', '^', '~', '|', '-'] := by
  rintro hmem
  simp only [List.mem_cons, List.not_mem_nil, or_false] at hmem
  rcases hmem with rfl | rfl | rfl | rfl | rfl | rfl | rfl | rfl | rfl | rfl | rfl <;> revert h <;> decide

/-- What is written begins neither with a blank nor with a hyphen. -/
theorem head_spelling {w : Option VersionOperator × List Char} (hw : IsVersion w.2) (rest : List Char)
    {d : Char} (hd : (spelling w ++ rest).head? = some d) : Cursor.isSpace d = false ∧ d ≠ '-' := by
  obtain ⟨op, version⟩ := w
  obtain ⟨e, es, rfl, he⟩ := IsVersion.exists_cons hw
  have hnot := not_mem_of_version he
  rcases op with _ | op
  · obtain rfl : e = d := Option.some_inj.1 hd
    simp_all [Cursor.isSpace]
  · cases op <;> obtain rfl := Option.some_inj.1 hd <;> decide

theorem Spelled.head {G : List Char → Prop} {wss : List (List (Option VersionOperator × List Char))}
    {cs : List Char} (h : Spelled G wss cs) (rest : List Char) {d : Char}
    (hd : (cs ++ rest).head? = some d) : Cursor.isSpace d = false ∧ d ≠ '-' := by
  cases h with
  | one hw => exact head_spelling hw rest hd
  | next hw _ _ =>
    simp only [List.append_assoc] at hd
    exact head_spelling hw _ hd
  | alternative hw _ _ _ =>
    simp only [List.append_assoc] at hd
    exact head_spelling hw _ hd

namespace Cursor

variable {c next : Cursor} {k : Constraint} {gap rest : List Char}

theorem rest_skipSpace_of_gap (hgap : IsGap gap) (hc : c.rest = gap ++ rest)
    (hrest : ∀ d, rest.head? = some d → isSpace d = false) : c.skipSpace.rest = rest := by
  rw [rest_skipSpace, hc, List.dropWhile_append_of_pos hgap]
  rcases rest with _ | ⟨d, rest⟩
  · rfl
  · rw [List.dropWhile_cons, hrest d rfl]
    rfl

theorem operator_of_text {op : Option VersionOperator} {inner version : List Char}
    (hversion : IsVersion version) (hinner : IsGap inner)
    (hc : c.rest = operatorText op ++ (inner ++ (version ++ rest))) :
    c.operator.1 = op ∧ c.operator.2.rest = inner ++ (version ++ rest) := by
  -- What stands behind an operator does not go on with it.
  obtain ⟨d, ds, hds, hnot⟩ : ∃ d ds, inner ++ (version ++ rest) = d :: ds
      ∧ (d ≠ '<' ∧ d ≠ '>' ∧ d ≠ '=' ∧ d ≠ '^' ∧ d ≠ '~') := by
    rcases inner with _ | ⟨d, inner⟩
    · obtain ⟨d, ds, rfl, hd⟩ := hversion.exists_cons
      have hnot := not_mem_of_version hd
      simp only [List.mem_cons, List.not_mem_nil, or_false, not_or] at hnot
      exact ⟨d, ds ++ rest, rfl, by simp [hnot]⟩
    · refine ⟨d, inner ++ (version ++ rest), rfl, ?_⟩
      have hspace := hinner d List.mem_cons_self
      simp only [isSpace, Bool.or_eq_true, beq_iff_eq] at hspace
      rcases hspace with ((rfl | rfl) | rfl) | rfl <;> decide
  rw [hds] at hc ⊢
  rcases op with _ | op
  · have hc : c.rest = d :: ds := hc
    simp [operator, VersionOperator.all, match?, VersionOperator.text, hc, Ne.symm, hnot]
  · cases op <;>
      (simp only [operatorText, Option.elim_some, VersionOperator.text] at hc
       simp [operator, VersionOperator.all, match?, VersionOperator.text, hc, Ne.symm, hnot, skip]
       rfl)

/-- A constraint is read as it is written, with blanks behind its operator. -/
theorem constraint?_of_text {op : Option VersionOperator} {inner version : List Char}
    (hw : IsVersion version) (hgap : IsGap gap) (hinner : IsGap inner) (hnone : op = none → inner = [])
    (hc : c.rest = gap ++ (operatorText op ++ (inner ++ (version ++ rest)))) (hrest : EndsVersion rest) :
    ∃ k next, c.constraint? = some (k, next) ∧ k.content = (op, version) ∧ next.rest = rest := by
  have hstart : c.skipSpace.rest = operatorText op ++ (inner ++ (version ++ rest)) := by
    refine rest_skipSpace_of_gap hgap hc fun d hd => ?_
    rcases op with _ | op
    · rw [hnone rfl] at hd
      exact (head_spelling (w := (none, version)) hw rest hd).1
    · cases op <;> obtain rfl := Option.some_inj.1 hd <;> decide
  obtain ⟨hoperator, hbehind⟩ := operator_of_text hw hinner hstart
  have hversion : c.skipSpace.operator.2.skipSpace.rest = version ++ rest :=
    rest_skipSpace_of_gap hinner hbehind fun d hd =>
      (head_spelling (w := (none, version)) hw rest hd).1
  have hlength := versionLength_append hw hrest
  obtain ⟨n, hn⟩ : ∃ n, version.length = n + 1 := by
    obtain ⟨d, ds, hds, -⟩ := hw.exists_cons
    exact ⟨ds.length, by rw [hds, List.length_cons]⟩
  simp only [constraint?]
  rw [hversion, hlength]
  split
  · rename_i hzero
    omega
  · refine ⟨_, _, rfl, ?_, ?_⟩
    · simp [Constraint.content, hoperator]
    · simp [skip, hversion]

theorem constraint?_spelling {w : Option VersionOperator × List Char} (hw : IsVersion w.2)
    (hgap : IsGap gap) (hc : c.rest = gap ++ (spelling w ++ rest)) (hrest : EndsVersion rest) :
    ∃ k next, c.constraint? = some (k, next) ∧ k.content = w ∧ next.rest = rest :=
  constraint?_of_text hw hgap isGap_nil (fun _ => rfl)
    (show c.rest = gap ++ (operatorText w.1 ++ ([] ++ (w.2 ++ rest))) by simpa [spelling] using hc)
    hrest

/-- No constraint begins behind blanks at the end of the text or before a mark. -/
theorem constraint?_eq_none (hgap : IsGap gap) (hc : c.rest = gap ++ rest)
    (hrest : ∀ d, rest.head? = some d → d = '|') : c.constraint? = none := by
  have hstart : c.skipSpace.rest = rest :=
    rest_skipSpace_of_gap hgap hc fun d hd => by rw [hrest d hd]; rfl
  obtain ⟨hoperator, hlength⟩ : c.skipSpace.operator = (none, c.skipSpace) ∧ versionLength rest = 0 := by
    rcases rest with _ | ⟨d, rest⟩
    · exact ⟨by simp [operator, VersionOperator.all, match?, VersionOperator.text, hstart], rfl⟩
    · obtain rfl := hrest d rfl
      exact ⟨by simp [operator, VersionOperator.all, match?, VersionOperator.text, hstart], rfl⟩
  have hversion : c.skipSpace.skipSpace.rest = rest :=
    rest_skipSpace_of_gap isGap_nil hstart fun d hd => by rw [hrest d hd]; rfl
  simp only [constraint?]
  rw [hoperator, hversion, hlength]
  rfl

theorem constraints_of_none {fuel : Nat} (h : c.constraint? = none) : constraints fuel c = ([], c) := by
  cases fuel with
  | zero => rfl
  | succ fuel => rw [constraints, h]

theorem skipSpace_match_hyphen (hgap : IsGap gap) (hc : c.rest = gap ++ rest)
    (hrest : ∀ d, rest.head? = some d → isSpace d = false ∧ d ≠ '-') :
    c.skipSpace.match? "-" = none := by
  have hstart : c.skipSpace.rest = rest := rest_skipSpace_of_gap hgap hc fun d hd => (hrest d hd).1
  rcases rest with _ | ⟨d, rest⟩
  · simp [match?, hstart]
  · simp [match?, hstart, (hrest d rfl).2.symm]

end Cursor

/-! ### Reading what is spelled -/

variable {w : Option VersionOperator × List Char} {ws : List (Option VersionOperator × List Char)}
  {wss : List (List (Option VersionOperator × List Char))} {cs rest tail gap : List Char}

/-- What stands behind an alternative, where blanks stand behind the requirement. -/
inductive Behind (wss : List (List (Option VersionOperator × List Char))) (tail rest : List Char) : Prop
  | last (hnil : wss = []) (htail : IsGap tail) (hrest : rest = tail)
  | more {run run' cs : List Char} (hrun : IsGap run) (hrun' : IsGap run') (h : Spelled IsRun wss cs)
    (hrest : rest = run ++ ('|' :: '|' :: (run' ++ (cs ++ tail))))

/-- What stands behind a constraint: a further one of its alternative, or what stands behind that. -/
inductive Onward (ws : List (Option VersionOperator × List Char))
    (wss : List (List (Option VersionOperator × List Char))) (tail rest : List Char) : Prop
  | behind (hnil : ws = []) (h : Behind wss tail rest)
  | more {run cs : List Char} (hrun : IsGap run) (h : Spelled IsRun (ws :: wss) cs)
    (hrest : rest = run ++ (cs ++ tail))

theorem endsVersion_append (hgap : IsGap gap) (h : gap ≠ []) (rest : List Char) :
    EndsVersion (gap ++ rest) := by
  obtain ⟨e, gap, rfl⟩ := List.exists_cons_of_ne_nil h
  rintro d hd
  obtain rfl : e = d := by simpa using hd
  exact isDigit_of_isSpace (hgap e List.mem_cons_self)

theorem endsVersion_gap (hgap : IsGap gap) : EndsVersion gap := fun d hd =>
  isDigit_of_isSpace (hgap d (List.mem_of_head? hd))

/-- A requirement begins with a constraint. -/
theorem Spelled.exists_cons (h : Spelled IsRun (ws :: wss) cs) (htail : IsGap tail) :
    ∃ w ws' rest, ws = w :: ws' ∧ IsVersion w.2 ∧ cs ++ tail = spelling w ++ rest
      ∧ EndsVersion rest ∧ Onward ws' wss tail rest := by
  cases h with
  | one hw =>
    exact ⟨_, [], tail, rfl, hw, rfl, endsVersion_gap htail, .behind rfl (.last rfl htail rfl)⟩
  | next hw hrun h =>
    refine ⟨_, _, _, rfl, hw, ?_, endsVersion_append hrun.1 hrun.2 _, .more hrun.1 h rfl⟩
    simp only [List.append_assoc]
  | alternative hw hrun hrun' h =>
    refine ⟨_, [], _, rfl, hw, ?_, endsVersion_append hrun.1 hrun.2 _,
      .behind rfl (.more hrun.1 hrun'.1 h rfl)⟩
    simp only [List.append_assoc, List.cons_append, List.nil_append]

theorem length_spelling_pos (hw : IsVersion w.2) : 0 < (spelling w).length := by
  obtain ⟨d, ds, hds, -⟩ := hw.exists_cons
  rw [spelling, List.length_append, hds, List.length_cons]
  omega

/-- Each constraint of a requirement, and each alternative, has a character of its own. -/
theorem Spelled.length_le {G : List Char → Prop} (h : Spelled G wss cs) :
    (∀ ws ∈ wss, ws.length ≤ cs.length) ∧ wss.length ≤ cs.length := by
  induction h with
  | one hw =>
    have hpos := length_spelling_pos hw
    simpa using Nat.succ_le_of_lt hpos
  | next hw _ _ ih =>
    have hpos := length_spelling_pos hw
    obtain ⟨⟨hfirst, hothers⟩, hlength⟩ := ih.imp_left List.forall_mem_cons.1
    refine ⟨List.forall_mem_cons.2 ⟨?_, fun ws hws => (hothers ws hws).trans ?_⟩, ?_⟩ <;>
      simp only [List.length_cons, List.length_append] at * <;> omega
  | alternative hw _ _ _ ih =>
    have hpos := length_spelling_pos hw
    obtain ⟨hall, hlength⟩ := ih
    refine ⟨List.forall_mem_cons.2 ⟨?_, fun ws hws => (hall ws hws).trans ?_⟩, ?_⟩ <;>
      simp only [List.length_cons, List.length_append, List.length_nil] at * <;> omega

namespace Cursor

variable {c : Cursor}

/-- No constraint stands behind an alternative. -/
theorem constraint?_behind (h : Behind wss tail c.rest) : c.constraint? = none := by
  cases h with
  | last _ htail hrest =>
    have hrest' : c.rest = tail ++ [] := by simpa using hrest
    exact constraint?_eq_none htail hrest' (by simp)
  | more hrun _ _ hrest => exact constraint?_eq_none hrun hrest (by simp)

/-- No hyphen stands behind a constraint. -/
theorem match_hyphen_onward (h : Onward ws wss tail c.rest) : c.skipSpace.match? "-" = none := by
  cases h with
  | behind _ h =>
    cases h with
    | last _ htail hrest =>
      have hrest' : c.rest = tail ++ [] := by simpa using hrest
      exact skipSpace_match_hyphen htail hrest' (by simp)
    | more hrun _ _ hrest => exact skipSpace_match_hyphen hrun hrest (by simp; decide)
  | more hrun h hrest => exact skipSpace_match_hyphen hrun hrest fun d hd => h.head tail hd

/-- The constraints of an alternative are read as they are written. -/
theorem constraints_spelled {fuel : Nat} (h : Spelled IsRun (ws :: wss) cs) (htail : IsGap tail)
    (hgap : IsGap gap) (hc : c.rest = gap ++ (cs ++ tail)) (hfuel : ws.length ≤ fuel) :
    ∃ ks next, constraints fuel c = (ks, next) ∧ ks.map Constraint.content = ws
      ∧ Behind wss tail next.rest := by
  induction ws generalizing c cs gap fuel with
  | nil =>
    obtain ⟨w, ws', rest, hws, -⟩ := h.exists_cons htail
    simp at hws
  | cons w ws ih =>
    obtain ⟨w, ws, rest, hws, hw, hcs, hends, honward⟩ := h.exists_cons htail
    obtain ⟨rfl, rfl⟩ := List.cons.inj hws
    rw [hcs] at hc
    obtain ⟨k, next, hk, hcontent, hrest⟩ := constraint?_spelling hw hgap hc hends
    obtain ⟨fuel, rfl⟩ : ∃ m, fuel = m + 1 :=
      ⟨fuel - 1, by simp only [List.length_cons] at hfuel; omega⟩
    rw [constraints, hk]
    cases honward with
    | behind hnil hbehind =>
      rw [← hrest] at hbehind
      simp only [constraints_of_none (constraint?_behind hbehind)]
      exact ⟨[k], next, rfl, by simp [hcontent, hnil], hbehind⟩
    | more hrun h hrest' =>
      obtain ⟨ks, stop, hks, hcontents, hbehind⟩ :=
        ih h hrun (hrest.trans hrest') (by simpa using hfuel)
      simp only [hks]
      exact ⟨k :: ks, stop, rfl, by simp [hcontent, hcontents], hbehind⟩

/-- An alternative is read as it is written. -/
theorem alternative?_spelled (h : Spelled IsRun (ws :: wss) cs) (htail : IsGap tail)
    (hgap : IsGap gap) (hc : c.rest = gap ++ (cs ++ tail)) :
    ∃ ks next, c.alternative? = some (ks, next) ∧ ks.map Constraint.content = ws
      ∧ Behind wss tail next.rest := by
  obtain ⟨w, ws, rest, rfl, hw, hcs, hends, honward⟩ := h.exists_cons htail
  obtain ⟨k, next, hk, -, hrest⟩ := constraint?_spelling hw hgap (hcs ▸ hc) hends
  have hlist : c.alternative? = some (list k next) := by
    rw [← hrest] at honward
    unfold alternative?
    simp only [hk, match_hyphen_onward honward, Option.bind_eq_bind, Option.bind_some]
    split <;> rfl
  have hfuel : (w :: ws).length ≤ next.rest.length + 1 := by
    cases honward with
    | behind hnil _ => simp [hnil]
    | more _ h hrest' =>
      have hle := h.length_le.1 _ List.mem_cons_self
      rw [hrest, hrest']
      simp only [List.length_cons, List.length_append]
      omega
  obtain ⟨ks, stop, hks, hcontents, hbehind⟩ := constraints_spelled h htail hgap hc hfuel
  refine ⟨ks, stop, ?_, hcontents, hbehind⟩
  rw [hlist, ← hks, constraints, hk]
  rfl

end Cursor

/-- A requirement is read as it is written. -/
theorem alternatives_spelled {text : List Char} {fuel : Nat} {c : Cursor} (h : Spelled IsRun wss cs)
    (htail : IsGap tail) (hgap : IsGap gap) (hc : c.rest = gap ++ (cs ++ tail))
    (hfuel : wss.length ≤ fuel) :
    ∃ kss, alternatives text fuel c = .ok kss ∧ kss.map (·.map Constraint.content) = wss := by
  induction wss generalizing c cs gap fuel with
  | nil => cases h
  | cons ws wss ih =>
    obtain ⟨ks, next, hks, hcontents, hbehind⟩ := Cursor.alternative?_spelled h htail hgap hc
    obtain ⟨fuel, rfl⟩ : ∃ m, fuel = m + 1 :=
      ⟨fuel - 1, by simp only [List.length_cons] at hfuel; omega⟩
    rw [alternatives, hks]
    cases hbehind with
    | last hnil _ hrest =>
      have hstop : next.skipSpace.rest = [] :=
        Cursor.rest_skipSpace_of_gap htail (by simpa using hrest) (by simp)
      refine ⟨[ks], ?_, by simp [hcontents, hnil]⟩
      simp [Cursor.match?, hstop, pure, Except.pure]
    | more hrun hrun' h hrest =>
      have hstop := Cursor.rest_skipSpace_of_gap hrun hrest (by simp; decide)
      obtain ⟨kss, hkss, hall⟩ := ih (c := next.skipSpace.skip 2) h hrun'
        (by simp [Cursor.skip, hstop]) (by simpa using hfuel)
      refine ⟨ks :: kss, ?_, by simp [hcontents, hall]⟩
      have hmark : next.skipSpace.match? "||" = some (next.skipSpace.skip 2) := by
        simp [Cursor.match?, hstop]
        rfl
      simp [hmark, hkss, bind, Except.bind, pure, Except.pure]

/-- Constraints with blanks between them are a requirement. -/
theorem parse_spelled (h : Spelled IsRun wss cs) (hgap : IsGap gap) (htail : IsGap tail) :
    ∃ kss, parse (gap ++ (cs ++ tail)) = .ok kss ∧ kss.map (·.map Constraint.content) = wss := by
  refine alternatives_spelled h htail hgap rfl ?_
  have hle := h.length_le.2
  simp only [List.length_append]
  omega

/-! ### Slices and single spaces -/

/-- A constraint is cut out of a text: an operator, blanks and its version. -/
def Constraint.Slices (text : List Char) (op : Option VersionOperator) (k : Constraint) : Prop :=
  ∃ blanks, sliceBytes k.start k.stop text = some (operatorText op ++ blanks ++ k.version.toList)
    ∧ IsGap blanks ∧ IsVersion k.version.toList

section

variable {x z : List Char} {k : Constraint} {ks : List Constraint} {kss : List (List Constraint)}

theorem Constraint.Stands.slices {op : Option VersionOperator} (h : k.Stands op (byteLength x) cs) :
    k.Slices (x ++ (cs ++ z)) op := by
  obtain ⟨⟨blanks, rfl, hblanks, -⟩, hversion, hstart, hstop⟩ := h
  refine ⟨blanks, ?_, hblanks, hversion⟩
  have hcut := sliceBytes_byteLength x (operatorText op ++ blanks ++ k.version.toList) z
  rwa [byteLength_append, ← hstop, ← hstart, List.append_assoc x] at hcut

theorem Row.slices {n : Nat} (h : Row n cs ks) (hn : n = byteLength x) :
    ∀ k ∈ ks, k.Slices (x ++ (cs ++ z)) k.operator := by
  induction h generalizing x with
  | nil => simp
  | @cons n gap cs rest k ks _ hstands _ ih =>
    subst hn
    rw [← byteLength_append] at hstands
    refine List.forall_mem_cons.2 ⟨?_, fun l hl => ?_⟩
    · simpa only [List.append_assoc] using hstands.slices (z := rest ++ z)
    · have hslices := ih (x := x ++ (gap ++ cs)) (byteLength_append _ _).symm l hl
      simpa only [List.append_assoc] using hslices

/-- Only in a range of two constraints are the operators not in the text. -/
theorem Alternative.slices (h : Alternative (byteLength x) cs ks) :
    ∀ k ∈ ks, ∃ op, k.Slices (x ++ (cs ++ z)) op ∧ (op = k.operator ∨ op = none
      ∧ ∃ v w, ks = [v, w] ∧ v.operator = some .ge ∧ w.operator = some .le) := by
  cases h with
  | row h _ => exact fun k hk => ⟨k.operator, h.slices rfl k hk, .inl rfl⟩
  | @range gap first before behind last v w _ hfirst _ _ hlast =>
    rw [← byteLength_append] at hfirst hlast
    rw [List.forall_mem_cons, List.forall_mem_singleton]
    refine ⟨⟨none, ?_, .inr ⟨rfl, _, _, rfl, rfl, rfl⟩⟩, none, ?_, .inr ⟨rfl, _, _, rfl, rfl, rfl⟩⟩
    · have hslices := hfirst.slices (z := before ++ (['-'] ++ (behind ++ (last ++ z))))
      simp only [List.append_assoc] at hslices ⊢
      exact hslices
    · have hslices := hlast.slices (z := z)
      simp only [List.append_assoc] at hslices ⊢
      exact hslices

theorem Requirement.slices {n : Nat} (h : Requirement n cs kss) (hn : n = byteLength x) :
    ∀ ks ∈ kss, ∀ k ∈ ks, ∃ op, k.Slices (x ++ cs) op ∧ (op = k.operator ∨ op = none
      ∧ ∃ v w, ks = [v, w] ∧ v.operator = some .ge ∧ w.operator = some .le) := by
  induction h generalizing x with
  | last h _ =>
    subst hn
    exact List.forall_mem_singleton.2 h.slices
  | @more n cs gap rest ks kss h _ _ ih =>
    subst hn
    refine List.forall_mem_cons.2 ⟨?_, fun ls hls => ?_⟩
    · simpa only [List.append_assoc] using h.slices (z := gap ++ (['|', '|'] ++ rest))
    · have hslices := ih (x := x ++ (cs ++ gap ++ ['|', '|'])) (byteLength_append _ _).symm ls hls
      simpa only [List.append_assoc] using hslices

end

/-- The text of a requirement with single spaces in it. -/
def spelledText (wss : List (List (Option VersionOperator × List Char))) : List Char :=
  " || ".toList.intercalate (wss.map fun ws => [' '].intercalate (ws.map spelling))

theorem spelled_spelledText (hne : wss ≠ [])
    (h : ∀ ws ∈ wss, ws ≠ [] ∧ ∀ w ∈ ws, IsVersion w.2) :
    Spelled (· = [' ']) wss (spelledText wss) := by
  induction wss with
  | nil => exact absurd rfl hne
  | cons ws wss ih =>
    obtain ⟨⟨hws, hversions⟩, hothers⟩ := List.forall_mem_cons.1 h
    induction ws with
    | nil => exact absurd rfl hws
    | cons w ws ihw =>
      obtain ⟨hw, hversions⟩ := List.forall_mem_cons.1 hversions
      rcases ws with _ | ⟨w', ws⟩
      · rcases wss with _ | ⟨ws', wss⟩
        · have htext : spelledText [[w]] = spelling w := by simp [spelledText, List.intercalate]
          rw [htext]
          exact .one hw
        · have htext : spelledText ([w] :: ws' :: wss)
              = spelling w ++ [' '] ++ ['|', '|'] ++ [' '] ++ spelledText (ws' :: wss) := by
            simp [spelledText, List.intercalate]
          rw [htext]
          exact .alternative hw rfl rfl (ih (by simp) hothers)
      · have htext : spelledText ((w :: w' :: ws) :: wss)
            = spelling w ++ [' '] ++ spelledText ((w' :: ws) :: wss) := by
          rcases wss with _ | ⟨ws', wss⟩ <;> simp [spelledText, List.intercalate]
        rw [htext]
        exact .next hw rfl (ihw (by simp) (List.forall_mem_cons.2 ⟨⟨by simp, hversions⟩, hothers⟩)
          (by simp) hversions)

theorem Spelled.mono {G G' : List Char → Prop} (h : Spelled G wss cs) (hG : ∀ gap, G gap → G' gap) :
    Spelled G' wss cs := by
  induction h with
  | one hw => exact .one hw
  | next hw hgap _ ih => exact .next hw (hG _ hgap) ih
  | alternative hw hgap hgap' _ ih => exact .alternative hw (hG _ hgap) (hG _ hgap') ih

theorem isRun_space : IsRun [' '] := ⟨by simp [IsGap, Cursor.isSpace], by simp⟩

/-- Requirements are read without loss. What is read accounts for the whole text: the constraints
stand in order, each is cut out of the text with its operator, unless it is an end of a range, and
nothing else stands there but blanks and the marks between alternatives and in ranges. Conversely,
every list of alternatives is what its text is read as. -/
theorem parse_lossless :
    (∀ text kss, parse text = .ok kss → Requirement 0 text kss ∧ (∃ hi, Spread 0 hi kss.flatten)
        ∧ ∀ ks ∈ kss, ∀ k ∈ ks, ∃ op, k.Slices text op ∧ (op = k.operator ∨ op = none
          ∧ ∃ v w, ks = [v, w] ∧ v.operator = some .ge ∧ w.operator = some .le))
      ∧ ∀ wss : List (List (Option VersionOperator × List Char)), wss ≠ [] →
        (∀ ws ∈ wss, ws ≠ [] ∧ ∀ w ∈ ws, IsVersion w.2) →
        ∃ kss, parse (spelledText wss) = .ok kss ∧ kss.map (·.map Constraint.content) = wss := by
  refine ⟨fun text kss h => ?_, fun wss hne h => ?_⟩
  · have hstands := parse_stands h
    exact ⟨hstands, (parse_spec h).1, hstands.slices (x := []) rfl⟩
  · have hspelled := (spelled_spelledText hne h).mono fun gap hgap => hgap ▸ isRun_space
    simpa using parse_spelled hspelled isGap_nil isGap_nil

/-- A text with a range and without spaces around its mark, and a list of one constraint. -/
theorem parse_lossless_range :
    parse ">=0.4||1.x - 2".toList
        = .ok [[⟨some .ge, "0.4", 0, 5⟩], [⟨some .ge, "1.x", 7, 10⟩, ⟨some .le, "2", 13, 14⟩]]
      ∧ Requirement 0 ">=0.4||1.x - 2".toList
        [[⟨some .ge, "0.4", 0, 5⟩], [⟨some .ge, "1.x", 7, 10⟩, ⟨some .le, "2", 13, 14⟩]]
      ∧ ∃ kss, parse (spelledText [[(some .caret, ['x'])]]) = .ok kss
        ∧ kss.map (·.map Constraint.content) = [[(some .caret, ['x'])]] := by
  have hparse : parse ">=0.4||1.x - 2".toList
      = .ok [[⟨some .ge, "0.4", 0, 5⟩], [⟨some .ge, "1.x", 7, 10⟩, ⟨some .le, "2", 13, 14⟩]] := rfl
  have hversion : IsVersion ['x'] := ⟨['x'], [], rfl, .any (.inl rfl), by simp, by simp⟩
  refine ⟨hparse, (parse_lossless.1 _ _ hparse).1, parse_lossless.2 _ (by simp) ?_⟩
  simpa using hversion

end SolidityFrontend.Version
