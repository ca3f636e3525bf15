import SolidityFrontend.Diagnostic.SyntaxError
import SolidityFrontend.Token.Segment

/-!
# Parsers

A `Parser` reads from the tokens that are left and answers with a value or an error. It also leaves
a state when it fails: the place where it stopped, and the errors from which it recovered before.
Going back is therefore always explicit, by `State` values that were kept.

Repetition is bounded by the tokens left when it begins, since every repeated part takes a token.
`NeverFails` says that a parser gives a value from every state; sequences and repetitions of such
parsers are of that kind again.
-/

namespace SolidityFrontend

/-- What a parser knows of the whole input, and whether a brace behind an expression may open named
fields. -/
structure Context where
  source : List Char
  /-- The empty span at the end of the source. -/
  stop : Span
  structLiterals : Bool := true

/-- Where reading stands. -/
structure State where
  /-- The token read last. -/
  previous : Option Lexeme
  /-- The tokens that are left. -/
  rest : List Lexeme
  /-- The errors from which reading recovered, the first one first. -/
  errors : Array SyntaxError

namespace State

/-- The state before the first token. -/
def start (tokens : List Lexeme) : State := ⟨none, tokens, #[]⟩

/-- Whether a later state has taken a token. -/
def progressed (before now : State) : Bool := now.rest.length < before.rest.length

/-- The span of the token read last. -/
def previousSpan (s : State) : Span := s.previous.elim .origin Lexeme.span

/-- The span of the next token, or the given end of the input. -/
def nextSpan (s : State) (stop : Span) : Span := s.rest.head?.elim stop Lexeme.span

/-- The state behind the next token. -/
def advance (s : State) : State :=
  match s.rest with
  | [] => s
  | t :: rest => { s with previous := some t, rest }

end State

/-- A reader of tokens. -/
def Parser (α : Type) : Type := Context → State → Except SyntaxError α × State

namespace Parser

variable {α β : Type}

instance : Monad Parser where
  pure x := fun _ s => (.ok x, s)
  bind p f := fun c s => match p c s with
    | (.ok x, s') => f x c s'
    | (.error e, s') => (.error e, s')

/-- Fails without reading. -/
def fail (e : SyntaxError) : Parser α := fun _ s => (.error e, s)

/-- The state as it is. -/
def state : Parser State := fun _ s => (.ok s, s)

/-- Goes to a state. -/
def goTo (s : State) : Parser Unit := fun _ _ => (.ok (), s)

def context : Parser Context := fun c s => (.ok c, s)

/-- The value or the error of a parser, which leaves its state in both cases. -/
def attempt (p : Parser α) : Parser (Except SyntaxError α) := fun c s =>
  let (r, s') := p c s
  (.ok r, s')

/-- Reads with named fields behind an expression allowed or not. -/
def structLiterals (allowed : Bool) (p : Parser α) : Parser α := fun c s =>
  p { c with structLiterals := allowed } s

/-- Adds an error from which reading has recovered. -/
def record (e : SyntaxError) : Parser Unit := fun _ s =>
  (.ok (), { s with errors := s.errors.push e })

/-! ### Looking at tokens -/

/-- The token `n` places further on. -/
def peek? (n : Nat) : Parser (Option Token) := do return (← state).rest[n]?.map Lexeme.token

/-- The next token. -/
def next? : Parser (Option Token) := peek? 0

def atEnd : Parser Bool := do return (← state).rest.isEmpty

/-- Whether the next token is this one. -/
def nextIs (t : Token) : Parser Bool := do return (← next?) == some t

/-- The name, if the next token is an identifier. -/
def nextWord? : Parser (Option String) := do return (← next?).bind Token.identifier?

/-- The span of the next token, or the end of the input. -/
def here : Parser Span := do return (← state).nextSpan (← context).stop

/-- The span of the token read last. -/
def previousSpan : Parser Span := do return (← state).previousSpan

/-- From the start of a span to the end of the token read last; empty where nothing has been read
since that start. -/
def spanFrom (start : Span) : Parser Span := do
  let previous ← previousSpan
  return if previous.stop.offset < start.start.offset then .point start.start
    else start.through previous

/-! ### Taking tokens -/

def advance : Parser Unit := fun _ s => (.ok (), s.advance)

/-- Takes the next token if it is this one. -/
def accept (t : Token) : Parser Bool := do
  if ← nextIs t then
    advance
    return true
  else return false

/-- Takes the next token if it is this identifier. -/
def acceptWord (word : String) : Parser Bool := accept (.identifier word)

/-- Fails at the next token, where something else is due. -/
def unexpected (expected : Expected) : Parser α := do
  let span ← here
  match ← next? with
  | some found => fail ⟨.unexpectedToken expected found, span⟩
  | none => fail ⟨.unexpectedEnd expected, span⟩

/-- Fails because a rule is broken. -/
def violation (v : Violation) (span : Span) : Parser α := fail ⟨.violation v, span⟩

/-- Takes the next token, which has to be this one, and gives its span. -/
def take (t : Token) (expected : Expected) : Parser Span := do
  let span ← here
  if ← accept t then return span
  else unexpected expected

/-- Whether a symbol ends what stands before it. -/
def isClosing : Symbol → Bool
  | .semicolon | .rightParen | .rightBracket | .rightBrace => true
  | _ => false

/-- Takes a symbol. A closing one that is not there is missing behind the token read last. -/
def symbol (s : Symbol) : Parser Span := do
  let span ← here
  if ← accept (.symbol s) then return span
  else if isClosing s then fail ⟨.missing s, (← previousSpan).after⟩
  else unexpected (.symbol s)

/-- Takes a reserved word. -/
def keyword (k : Keyword) : Parser Span := take (.keyword k) (.keyword k)

/-- Takes an identifier that has a meaning here. -/
def word (w : String) : Parser Span := take (.identifier w) (.word w)

/-- Takes an identifier. -/
def identifier : Parser Identifier := do
  let span ← here
  match ← nextWord? with
  | some name =>
    advance
    return ⟨name, span⟩
  | none => unexpected .identifier

/-- Takes an identifier if there is one. -/
def identifier? : Parser (Option Identifier) := do
  match ← nextWord? with
  | some _ => return some (← identifier)
  | none => return none

/-- Takes a string and gives its text. -/
def stringText : Parser (String × Span) := do
  let span ← here
  match ← next? with
  | some (.string bytes) =>
    advance
    return (String.ofList (Text.Utf8.decodeLossy bytes), span)
  | _ => unexpected .stringLiteral

/-- Succeeds at the end of the input. -/
def endOfInput : Parser Unit := do
  if ← atEnd then return () else unexpected .endOfInput

/-! ### Repetition -/

/-- Changes a value step by step as long as there is a step, at most once for each token of a list. -/
def iterateOver (step : α → Parser (Option α)) : List Lexeme → α → Parser α
  | [], x => return x
  | _ :: clock, x => do
    match ← step x with
    | some y => iterateOver step clock y
    | none => return x

/-- Changes a value step by step as long as there is a step; each has to take a token. -/
def iterate (step : α → Parser (Option α)) (x : α) : Parser α := do
  iterateOver step (← state).rest x

/-- The values of a parser as long as it has one, at most one for each token of a list. -/
def manyOver (more : Parser (Option α)) : List Lexeme → Parser (List α)
  | [] => return []
  | _ :: clock => do
    match ← more with
    | some x => return x :: (← manyOver more clock)
    | none => return []

/-- The values of a parser as long as it has one; each has to take a token. -/
def many (more : Parser (Option α)) : Parser (List α) := do
  manyOver more (← state).rest

/-- One or more items with commas between them. -/
def separated (item : Parser α) : Parser (List α) := do
  let first ← item
  let more ← many do
    if ← accept (.symbol .comma) then return some (← item) else return none
  return first :: more

/-- The items before a closing symbol, at most one for each token of a list. -/
def itemsOver (close : Symbol) (continues : Parser Bool) (item : Parser α) :
    List Lexeme → Parser (List α)
  | [] => return []
  | _ :: clock => do
    if ← atEnd then return []
    if ← nextIs (.symbol close) then return []
    let x ← item
    if ← continues then return x :: (← itemsOver close continues item clock)
    else return [x]

/-- The items before a closing symbol, which is not taken. After each item `continues` says whether
another may follow. -/
def itemsUntil (close : Symbol) (continues : Parser Bool) (item : Parser α) : Parser (List α) := do
  itemsOver close continues item (← state).rest

/-- Items with commas between them and perhaps one behind the last. -/
def commaItems (close : Symbol) (item : Parser α) : Parser (List α) :=
  itemsUntil close (accept (.symbol .comma)) item

/-! ### Parsers that never fail -/

/-- A parser that gives a value from every state. -/
def NeverFails (p : Parser α) : Prop := ∀ c s, ∃ x s', p c s = (.ok x, s')

theorem neverFails_pure (x : α) : NeverFails (pure x) := fun _ s => ⟨x, s, rfl⟩

theorem neverFails_state : NeverFails state := fun _ s => ⟨s, s, rfl⟩

theorem neverFails_context : NeverFails context := fun c s => ⟨c, s, rfl⟩

theorem neverFails_goTo (s : State) : NeverFails (goTo s) := fun _ _ => ⟨(), s, rfl⟩

theorem neverFails_record (e : SyntaxError) : NeverFails (record e) := fun _ _ => ⟨(), _, rfl⟩

theorem neverFails_attempt (p : Parser α) : NeverFails (attempt p) := fun _ _ => ⟨_, _, rfl⟩

theorem neverFails_bind {p : Parser α} {f : α → Parser β} (hp : NeverFails p)
    (hf : ∀ x, NeverFails (f x)) : NeverFails (p >>= f) := by
  intro c s
  obtain ⟨x, s', hx⟩ := hp c s
  obtain ⟨y, t, hy⟩ := hf x c s'
  refine ⟨y, t, ?_⟩
  simp only [bind, hx, hy]

theorem neverFails_atEnd : NeverFails atEnd :=
  neverFails_bind neverFails_state fun _ => neverFails_pure _

theorem neverFails_previousSpan : NeverFails previousSpan :=
  neverFails_bind neverFails_state fun _ => neverFails_pure _

theorem neverFails_spanFrom (start : Span) : NeverFails (spanFrom start) :=
  neverFails_bind neverFails_previousSpan fun _ => neverFails_pure _

theorem neverFails_manyOver {more : Parser (Option α)} (h : NeverFails more) :
    ∀ clock, NeverFails (manyOver more clock)
  | [] => neverFails_pure _
  | _ :: clock => neverFails_bind h fun
    | some _ => neverFails_bind (neverFails_manyOver h clock) fun _ => neverFails_pure _
    | none => neverFails_pure _

theorem neverFails_many {more : Parser (Option α)} (h : NeverFails more) : NeverFails (many more) :=
  neverFails_bind neverFails_state fun s => neverFails_manyOver h s.rest

end Parser

end SolidityFrontend
