import Mathlib.Data.List.Induction
import SolidityFrontend.Proofs.ReadingFile

/-!
# The state of a parser

A `Machine` is a parser with all that it keeps: the tokens and a cursor in them, the errors that were
recorded, how deep reading is nested, and whether braces may open named fields. The depth and the
flag are changed for a part of the grammar and restored behind it, whether that part succeeds or
fails (`nested`, `withStructLiterals`); running the parsers of a level is the same as that.

Expressions, type names and arguments only move the cursor forward. Whatever may hold statements or
members may record errors as well, and keeps those that were recorded before.
-/

namespace SolidityFrontend

open SolidityFrontend.Parser

/-- A parser of a source, somewhere in its tokens. -/
structure Machine where
  source : String
  tokenized : Tokenized
  /-- How many tokens have been taken. -/
  cursor : Nat
  errors : Array SyntaxError
  /-- How many levels of nesting are open. -/
  depth : Nat
  /-- Whether a brace behind an expression belongs to what follows it. -/
  restricted : Bool
  lexed : tokenized = tokenize source
  cursor_le : cursor ≤ tokenized.tokens.length

namespace Machine

variable {α : Type}

/-- A parser before the first token. -/
def ofSource (source : String) : Machine where
  source := source
  tokenized := tokenize source
  cursor := 0
  errors := #[]
  depth := 0
  restricted := false
  lexed := rfl
  cursor_le := Nat.zero_le _

/-- Where reading stands. -/
def state (m : Machine) : State :=
  ⟨(m.tokenized.tokens.take m.cursor).getLast?, m.tokenized.tokens.drop m.cursor, m.errors⟩

/-- What parsers know of the source. -/
def context (m : Machine) : Context :=
  { source := m.source.toList, stop := m.tokenized.stop, structLiterals := !m.restricted }

/-- The parsers for what is nested one level deeper. -/
def deeper (m : Machine) : Nested := .ofDepth (nestingLimit - m.depth)

/-- The parser where reading stands in a state. -/
def moveTo (m : Machine) (s : State) : Machine :=
  { m with
    cursor := m.tokenized.tokens.length - s.rest.length
    errors := s.errors
    cursor_le := Nat.sub_le _ _ }

/-- The answer of a part of the grammar, and the parser behind what was read. -/
def run (p : Nested → Parser α) (m : Machine) : Except SyntaxError α × Machine :=
  let (answer, s) := p m.deeper m.context m.state
  (answer, m.moveTo s)

/-! ### Depth and flag -/

/-- Runs a part one level deeper, unless that is too deep, and comes back from that level. -/
def nested (part : Machine → Except SyntaxError α × Machine) (m : Machine) :
    Except SyntaxError α × Machine :=
  let inner := { m with depth := m.depth + 1 }
  let (answer, m') := if inner.depth > nestingLimit then
      (.error ⟨.violation .nestingTooDeep, inner.state.nextSpan inner.tokenized.stop⟩, inner)
    else part inner
  (answer, { m' with depth := m'.depth - 1 })

/-- The cursor does not move back, and errors are only added. -/
structure Records (m m' : Machine) : Prop where
  source : m'.source = m.source
  tokenized : m'.tokenized = m.tokenized
  depth : m'.depth = m.depth
  restricted : m'.restricted = m.restricted
  cursor : m.cursor ≤ m'.cursor
  cursor_le : m'.cursor ≤ m.tokenized.tokens.length
  errors : m.errors.toList <+: m'.errors.toList

variable {m : Machine} {s : State} {ts : List Lexeme} {es : List SyntaxError}

theorem Records.refl (m : Machine) : m.Records m :=
  ⟨rfl, rfl, rfl, rfl, le_rfl, m.cursor_le, List.prefix_refl _⟩

theorem Records.trans {m' m'' : Machine} (h : m.Records m') (h' : m'.Records m'') :
    m.Records m'' where
  source := h'.source.trans h.source
  tokenized := h'.tokenized.trans h.tokenized
  depth := h'.depth.trans h.depth
  restricted := h'.restricted.trans h.restricted
  cursor := h.cursor.trans h'.cursor
  cursor_le := h.tokenized ▸ h'.cursor_le
  errors := h.errors.trans h'.errors

end Machine

/-! ### Calls -/

/-- What a parser may be asked for. -/
inductive Call where
  | expression
  | statement
  | typeName
  | file

namespace Call

/-- The session behind a call, whatever it answers. -/
def session : Call → Session → Session
  | .expression, s => s.expression.2
  | .statement, s => s.statement.2
  | .typeName, s => s.typeName.2
  | .file, s => s.file.2

/-- The parser behind a call, whatever it answers. -/
def machine : Call → Machine → Machine
  | .expression, m => (m.run fun n => Session.whole n.expression).2
  | .statement, m => (m.run fun n => Session.whole n.statement).2
  | .typeName, m => (m.run fun n => Session.whole n.typeName).2
  | .file, m => (m.run Grammar.sourceFile).2

end Call

namespace Machine

/-- The parser behind a number of calls. -/
def behind (source : String) (calls : List Call) : Machine :=
  calls.foldl (fun m call => call.machine m) (ofSource source)

/-- The session that stands where a parser does. -/
def session (m : Machine) : Session := ⟨m.source, m.tokenized, m.state⟩

end Machine

end SolidityFrontend
