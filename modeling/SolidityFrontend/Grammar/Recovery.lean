import SolidityFrontend.Grammar.Basic

/-!
# Recovery from errors

A part that cannot be read becomes an `ErrorMark` over the tokens that are skipped, and its error is
recorded. Reading goes on behind the next semicolon, before a brace that closes what stands around,
or behind a balanced pair of braces. Nothing is skipped where the part was already read to such a
place, or where only its semicolon is missing at the end of a line.
-/

namespace SolidityFrontend

/-- Skips to the next place where reading can go on; `depth` brackets are open. -/
def skipToBoundary : Nat → Option Lexeme → List Lexeme → Option Lexeme × List Lexeme
  | _, previous, [] => (previous, [])
  | depth, previous, t :: rest =>
    match t.token with
    | .symbol .leftParen | .symbol .leftBracket | .symbol .leftBrace =>
      skipToBoundary (depth + 1) (some t) rest
    | .symbol .rightParen | .symbol .rightBracket => skipToBoundary (depth - 1) (some t) rest
    | .symbol .rightBrace =>
      match depth with
      | 0 => (previous, t :: rest)
      | 1 => (some t, rest)
      | depth + 1 => skipToBoundary depth (some t) rest
    | .symbol .semicolon =>
      match depth with
      | 0 => (some t, rest)
      | depth + 1 => skipToBoundary (depth + 1) (some t) rest
    | _ => skipToBoundary depth (some t) rest

namespace State

/-- The next place where reading can go on. -/
def synchronize (s : State) : State :=
  let (previous, rest) := skipToBoundary 0 s.previous s.rest
  { s with previous, rest }

/-- Whether the token read last ends a part of the syntax. -/
def atBoundary (s : State) : Bool :=
  match s.previous.map Lexeme.token with
  | some (.symbol .semicolon) | some (.symbol .rightBrace) => true
  | _ => false

/-- Whether no further token stands on the line of the token read last. -/
def atLineEnd (s : State) : Bool :=
  match s.previous, s.rest with
  | _, [] => true
  | some t, next :: _ => t.span.stop.position.line < next.span.start.position.line
  | none, _ :: _ => false

/-- The state in which reading goes on after an error in a part that began at `before`. It is behind
at least one token of that part, if there is one. -/
def resume (before : State) (fault : SyntaxFault) (now : State) : State :=
  let progressed := before.progressed now
  let keep := progressed && ((fault == .missing .semicolon && now.atLineEnd) || now.atBoundary)
  let next := if keep then now else now.synchronize
  if before.progressed next then next else next.advance

end State

namespace Parser

/-- Goes on after an error in a part that began at `before`, and marks what was skipped. -/
def recover (before : State) (e : SyntaxError) : Parser ErrorMark := do
  let start := before.nextSpan (← context).stop
  goTo (before.resume e.fault (← state))
  let span ← spanFrom start
  record e
  return e.mark span

/-- A part of the syntax, or a mark in its place. -/
def recovering {α : Type} (mark : ErrorMark → α) (part : Parser α) : Parser α := do
  let before ← state
  match ← attempt part with
  | .ok x => return x
  | .error e => return mark (← recover before e)

theorem neverFails_recover (before : State) (e : SyntaxError) : NeverFails (recover before e) :=
  neverFails_bind neverFails_context fun _ => neverFails_bind neverFails_state fun _ =>
    neverFails_bind (neverFails_goTo _) fun _ => neverFails_bind (neverFails_spanFrom _) fun _ =>
      neverFails_bind (neverFails_record e) fun _ => neverFails_pure _

theorem neverFails_recovering (mark : ErrorMark → α) (part : Parser α) :
    NeverFails (recovering mark part) :=
  neverFails_bind neverFails_state fun before => neverFails_bind (neverFails_attempt part) fun
    | .ok _ => neverFails_pure _
    | .error e => neverFails_bind (neverFails_recover before e) fun _ => neverFails_pure _

/-- Marks the place behind the last token, where a closing brace is missing. -/
def missingBrace : Parser ErrorMark := do
  let span := (← previousSpan).after
  let e : SyntaxError := ⟨.missing .rightBrace, span⟩
  record e
  return e.mark span

/-- The parts of a body up to its closing brace, at most one for each token of a list. -/
def partsOver {α : Type} (part : Parser α) : List Lexeme → Parser (List α)
  | [] => return []
  | _ :: clock => do
    if ← atEnd then return []
    if ← nextIs (.symbol .rightBrace) then return []
    return (← part) :: (← partsOver part clock)

/-- The parts of a body and its closing brace. Each part that cannot be read is marked, and so is the
end of the input if the brace is missing. -/
def body {α : Type} (mark : ErrorMark → α) (part : Parser α) : Parser (List α) := do
  let parts ← partsOver (recovering mark part) (← state).rest
  if ← atEnd then return parts ++ [mark (← missingBrace)]
  let _ ← symbol .rightBrace
  return parts

/-- The first of two readings, or else the second. If both fail, the error is that of the reading
that came farther; where the first did, it is reported as such unless only a symbol is missing. -/
def either {α : Type} (reading : Reading) (first second : Parser α) : Parser α := do
  let before ← state
  match ← attempt first with
  | .ok x => return x
  | .error e =>
    let reached ← state
    goTo before
    match ← attempt second with
    | .ok x => return x
    | .error e' =>
      if (← state).progressed reached then
        goTo reached
        match e.fault with
        | .missing _ => fail e
        | fault => fail ⟨.ambiguous reading fault, e.span⟩
      else fail e'

end Parser

end SolidityFrontend
