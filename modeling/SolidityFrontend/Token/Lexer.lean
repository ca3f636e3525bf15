import SolidityFrontend.Token.Segment

/-!
# Reading tokens one at a time

A `Lexer` holds the segments still to be read and the faults met so far. Reading to the end gives
the tokens that were left, while the faults are all those of the text.
-/

namespace SolidityFrontend

/-- A reader of tokens. -/
structure Lexer where
  rest : List Segment
  errors : List LexError
  /-- The empty span at the end of the text. -/
  stop : Span

namespace Lexer

/-- A reader at the start of a text. -/
def ofSource (source : String) : Lexer :=
  let cs := source.toList
  ⟨segments .origin cs, [], .point (Location.origin.advanceBy cs)⟩

/-- The next token among segments, the fault it stands for, and the segments behind it. -/
def nextOf : List Segment → Option (Lexeme × Option LexError × List Segment)
  | [] => none
  | s :: rest => match s.lexeme? with
    | some lexeme => some (lexeme, s.error?, rest)
    | none => nextOf rest

/-- The next token, and the reader behind it. -/
def next? (lx : Lexer) : Option (Lexeme × Lexer) :=
  (nextOf lx.rest).map fun (lexeme, error, rest) =>
    (lexeme, { lx with rest, errors := lx.errors ++ error.toList })

/-- The tokens that are left, with all faults of the text. -/
def tokenize (lx : Lexer) : Tokenized where
  tokens := lx.rest.filterMap Segment.lexeme?
  errors := lx.errors ++ lx.rest.filterMap Segment.error?
  stop := lx.stop

end Lexer

theorem tokenize_ofSource (source : String) :
    (Lexer.ofSource source).tokenize = SolidityFrontend.tokenize source := rfl

/-- A line for each token: the token, its bytes, and the position where it starts. -/
def dumpTokens (tokens : List Lexeme) : String :=
  "\n".intercalate <| tokens.map fun t =>
    t.token.dump ++ " @ " ++ Text.decimal t.span.start.offset ++ ".."
      ++ Text.decimal t.span.stop.offset ++ " (" ++ Text.decimal t.span.start.position.line ++ ":"
      ++ Text.decimal t.span.start.position.column ++ ")"

end SolidityFrontend
