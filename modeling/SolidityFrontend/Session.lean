import SolidityFrontend.Diagnostic.Basic
import SolidityFrontend.Grammar.Level

/-!
# Reading a source

A `Session` reads the parts of one source in order. Reading a part may fail, and the session goes on
from the place where it stopped; reading a file takes all that is left and never fails.
-/

namespace SolidityFrontend

/-- A source, its tokens, and how far it has been read. -/
structure Session where
  source : String
  tokenized : Tokenized
  state : State

namespace Session

/-- A session at the start of a source. -/
def ofSource (source : String) : Session :=
  let tokenized := tokenize source
  ⟨source, tokenized, .start tokenized.tokens⟩

/-- What parsers know of the source. -/
def context (s : Session) : Context :=
  { source := s.source.toList, stop := s.tokenized.stop }

theorem source_context_ofSource (source : String) :
    (ofSource source).context.source = source.toList := by rw [context, ofSource]

/-- The answer of a parser, and the session behind what it read. -/
def run {α : Type} (s : Session) (p : Parser α) : Except SyntaxError α × Session :=
  let (answer, state) := p s.context s.state
  (answer, { s with state })

/-- A part of the syntax that takes all that is left. -/
def whole {α : Type} (p : Parser α) : Parser α := do
  let x ← p
  Parser.endOfInput
  return x

/-- Reads the rest of the source as an expression. -/
def expression (s : Session) : Except SyntaxError Expr × Session :=
  s.run (whole Nested.full.expression)

/-- Reads the rest of the source as a statement. -/
def statement (s : Session) : Except SyntaxError Stmt × Session :=
  s.run (whole Nested.full.statement)

/-- Reads the rest of the source as a type name. -/
def typeName (s : Session) : Except SyntaxError TypeName × Session :=
  s.run (whole Nested.full.typeName)

/-- Reads the rest of the source as the items of a file. -/
def file (s : Session) : SourceFile × Session :=
  match s.run (Grammar.sourceFile Nested.full) with
  | (.ok f, next) => (f, next)
  | (.error _, next) => (⟨[], .through .origin s.tokenized.stop⟩, next)

/-- Reading the items of a file always gives a file. -/
theorem run_sourceFile (s : Session) :
    s.run (Grammar.sourceFile Nested.full) = (.ok s.file.1, s.file.2) := by
  obtain ⟨f, state, h⟩ := Grammar.neverFails_sourceFile Nested.full s.context s.state
  simp only [file, run, h]

/-- The errors of the source that are known so far, by their places. -/
def errors (s : Session) : List SourceError :=
  SourceError.sorted s.tokenized.errors s.state.errors.toList

end Session

/-- A source file and its errors. -/
structure ParseOutput where
  file : SourceFile
  errors : List SourceError

def ParseOutput.hasErrors (o : ParseOutput) : Bool := !o.errors.isEmpty

/-- The syntax of a source, with marks where it could not be read. -/
def parse (source : String) : ParseOutput :=
  let (file, session) := (Session.ofSource source).file
  ⟨file, session.errors⟩

/-- The syntax of a source given by its bytes, if these are text. -/
def parseBytes (bytes : List UInt8) : Except SourceError ParseOutput :=
  match Text.Utf8.decode bytes with
  | .ok cs => .ok (parse (String.ofList cs))
  | .error failure => .error (.encoding failure)

end SolidityFrontend
