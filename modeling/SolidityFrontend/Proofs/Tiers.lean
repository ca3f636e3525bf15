import SolidityFrontend.Proofs.Parts
import SolidityFrontend.Proofs.ReadingFile
import SolidityFrontend.Proofs.Scanning

/-!
# The tiers of operands in what a session gives

Every expression that a session gives, however deep it stands in the answer, has operands of the
tiers that its place allows, and between two operands the source holds the token of their operator
and no other.
-/

namespace SolidityFrontend

open Phrase

/-- The operands of an operator that stands between them, and how it is written. -/
def Expr.infix? : Expr → Option (Expr × String × Expr)
  | .binary left op right _ => some (left, op.text, right)
  | .assignment left op right _ => some (left, op.text, right)
  | _ => none

theorem Expr.tiered_of_phrase {e : Expr} {ts rest : List Lexeme} {es : List SyntaxError}
    (h : e.phrase ts es rest) : e.Tiered := by
  cases e
  case update op fixity operand span =>
    cases fixity <;> (rw [Expr.phrase] at h; exact h.1)
  case assignment | struct =>
    rw [Expr.phrase] at h
    exact h.1.1
  case tuple | inlineArray | new | cast | elementary | metaType | payable | parenthesized | literal
    | identifier => trivial
  all_goals
    rw [Expr.phrase] at h
    exact h.1

/-- Two operands and the token between them. -/
theorem Expr.phrase_le_infix {e left right : Expr} {text : String}
    (h : e.infix? = some (left, text, right)) :
    e.phrase ≤ left.phrase * lexeme (fun l => l.token.text = text) * right.phrase := by
  cases e
  case binary left' op right' span =>
    obtain ⟨rfl, rfl, rfl⟩ : left' = left ∧ op.text = text ∧ right' = right := by
      simpa [Expr.infix?] using h
    rw [Expr.phrase]
    refine such_le.trans (covered_le.trans ?_)
    gcongr
    rintro ts es rest ⟨l, rfl, rfl, hl⟩
    exact ⟨l, rfl, rfl, congrArg Token.text hl⟩
  case assignment left' op right' span =>
    obtain ⟨rfl, rfl, rfl⟩ : left' = left ∧ op.text = text ∧ right' = right := by
      simpa [Expr.infix?] using h
    rw [Expr.phrase]
    refine such_le.trans (covered_le.trans ?_)
    gcongr
    rintro ts es rest ⟨l, rfl, rfl, hl⟩
    exact ⟨l, rfl, rfl, congrArg Token.text hl⟩
  all_goals simp [Expr.infix?] at h

theorem endOf_append_of_covers {span : Span} {ts : List Lexeme} (before : List Lexeme)
    (h : Covers span ts) : endOf (before ++ ts) = span.stop := by
  obtain ⟨first, last, -, hlast, rfl⟩ := h
  rw [endOf, List.getLast?_append, hlast]
  rfl

theorem startOf_append_of_covers {span : Span} {ts : List Lexeme} (stop : Location)
    (after : List Lexeme) (h : Covers span ts) : startOf stop (ts ++ after) = span.start := by
  obtain ⟨first, last, hfirst, -, rfl⟩ := h
  rw [startOf, List.head?_append, hfirst]
  rfl

/-- The text between two operands is that of the token between them. -/
theorem WrittenIn.text_between {source text : String} {left right : Expr}
    (h : WrittenIn source (left.phrase * lexeme (fun l => l.token.text = text) * right.phrase)) :
    (tokenize (Span.text ⟨left.span.stop, right.span.start⟩ source)).tokens.map
      (·.token.text) = [text] := by
  obtain ⟨before, _, _, after, htokens, _, us, _, _, rfl, rfl,
    ⟨ts, _, _, _, rfl, rfl, hleft, l, rfl, rfl, hl⟩, hright⟩ := h
  have hend : endOf (before ++ ts) = left.span.stop :=
    endOf_append_of_covers before (left.phrase_le _ _ _ hleft).1
  have hstart : startOf (tokenize source).stop.start (us ++ after) = right.span.start :=
    startOf_append_of_covers _ after (right.phrase_le _ _ _ hright).1
  have hsplit : (tokenize source).tokens = before ++ ts ++ [l] ++ (us ++ after) := by
    rw [htokens]
    simp
  have hbetween := tokenize_between hsplit
  rw [hend, hstart] at hbetween
  have htexts := congrArg (List.map Token.text) hbetween
  rw [List.map_map, List.map_singleton, List.map_singleton, hl] at htexts
  exact htexts

namespace Session

/-- The parts of what a session may be asked for. -/
inductive Gives (s : Session) : List Part → Prop
  | expression {e : Expr} (h : s.expression.1 = .ok e) : Gives s e.parts
  | statement {t : Stmt} (h : s.statement.1 = .ok t) : Gives s t.parts
  | typeName {t : TypeName} (h : s.typeName.1 = .ok t) : Gives s t.parts
  | file : Gives s s.file.1.parts

/-- Every part of what a session gives is written in its source. -/
theorem Gives.writtenIn {source : String} {s : Session} {ps : List Part} {p : Part}
    (h : s.Gives ps) (hs : Reachable source s) (hp : p ∈ ps) : WrittenIn source p.phrase := by
  have hsound := hs.sound
  cases h with
  | expression h => exact ((hsound.expression.1 _ h).mono (Expr.holds_phrase _ p hp)).middle
  | statement h => exact ((hsound.statement.1 _ h).mono (Stmt.holds_phrase _ p hp)).middle
  | typeName h => exact ((hsound.typeName.1 _ h).mono (TypeName.holds_phrase _ p hp)).middle
  | file =>
    refine (hsound.file.1.mono ?_).middle
    exact mul_before_le.trans (SourceFile.holds_phrase _ p hp)

/-- In whatever a session gives, every operand binds tightly enough for its place, and an operator
between two operands is the one token that the source has between them. -/
theorem Gives.tiered {source : String} {s : Session} {ps : List Part} {e : Expr}
    (h : s.Gives ps) (hs : Reachable source s) (he : .expr e ∈ ps) :
    e.Tiered ∧ ∀ left text right, e.infix? = some (left, text, right) →
      (tokenize (Span.text ⟨left.span.stop, right.span.start⟩ source)).tokens.map
        (·.token.text) = [text] := by
  have hwritten := h.writtenIn hs he
  refine ⟨?_, fun left text right hinfix => ?_⟩
  · obtain ⟨-, ts, es, after, -, hphrase⟩ := hwritten
    exact Expr.tiered_of_phrase hphrase
  · exact (hwritten.mono (Expr.phrase_le_infix hinfix)).text_between

theorem Gives.tiered_sum : ∃ e left right, (ofSource "a[1] + -b").expression.1 = .ok e
    ∧ e.infix? = some (left, "+", right) ∧ e.Tiered
    ∧ (tokenize (Span.text ⟨left.span.stop, right.span.start⟩ "a[1] + -b")).tokens.map
      (·.token.text) = ["+"] := by
  have heval : ((ofSource "a[1] + -b").expression.1.toOption.bind Expr.infix?).map (·.2.1)
      = some "+" := by
    rw [ofSource_ofList]
    decide +kernel
  rcases hexpression : (ofSource "a[1] + -b").expression.1 with error | e
  · rw [hexpression] at heval
    simp [Except.toOption] at heval
  · rw [hexpression] at heval
    obtain ⟨⟨left, text, right⟩, hinfix, rfl⟩ := Option.map_eq_some_iff.1 heval
    have htiered := Gives.tiered (.expression hexpression) .start e.mem_parts
    exact ⟨e, left, right, rfl, hinfix, htiered.1, htiered.2 left "+" right hinfix⟩

end Session

end SolidityFrontend
