import SolidityFrontend.Token.Rule

/-!
# Cutting a text into segments

A text is cut into segments that lie end to end: tokens, the blanks and comments between them, and
stretches that are faulty. `Tokenized` keeps the tokens, with an `error` token for each faulty
stretch, and the faults.
-/

namespace SolidityFrontend

open Text

/-- What a stretch of text is. -/
inductive Content where
  /-- A run of blanks or a comment. -/
  | extra
  | token (t : Token)
  | fault (f : LexFault)
  deriving DecidableEq, Repr

namespace Content

/-- A string token, or the fault in its body. -/
def ofScan {α : Type} (token : α → Token) : Except LexFault α → Content
  | .ok value => .token (token value)
  | .error f => .fault f

/-- The content of a string literal behind its opening quote, and the length of its body. -/
def ofString (kind : StringKind) (quote : Char) (body : List Char) : Content × Nat :=
  match kind with
  | .plain => let (n, result) := Literal.scanString quote body; (ofScan .string result, n)
  | .unicode => let (n, result) := Literal.scanString quote body; (ofScan .unicodeString result, n)
  | .hex => let (n, result) := Literal.scanHexString quote body; (ofScan .hexString result, n)

/-- The content at the start of a text where a rule has a lexeme of length `n`, and its length. -/
def ofRule (r : Rule) (n : Nat) (cs : List Char) : Content × Nat :=
  let text := String.ofList (cs.take n)
  match r with
  | .blank | .lineComment => (.extra, n)
  | .keyword k => (.token (.keyword k), n)
  | .elementaryType => (.token (.elementaryType text), n)
  | .identifier => (.token (.identifier text), n)
  | .decimalNumber => (.token (.decimalNumber text), n)
  | .hexNumber => (.token (.hexNumber text), n)
  | .symbol s => (.token (.symbol s), n)
  | .openString kind quote =>
    let (content, m) := ofString kind quote (cs.drop n)
    (content, n + m)
  | .openComment => match Literal.scanBlockComment (cs.drop n) with
    | some m => (.extra, n + m)
    | none => (.fault .unterminatedComment, cs.length)

/-- The content at the start of a text that begins with `c`, and its length. A character with which
nothing begins is a fault of its own. -/
def first (c : Char) (cs : List Char) : Content × Nat :=
  match Rule.longest (c :: cs) with
  | some (r, n) => ofRule r n (c :: cs)
  | none => (.fault (.invalidCharacter c), 1)

end Content

/-- A stretch of text and what it is. -/
structure Segment where
  content : Content
  span : Span
  deriving DecidableEq, Repr

/-- The segments of a text that begins at a location. -/
def segments (here : Location) : List Char → List Segment
  | [] => []
  | c :: cs =>
    let (content, n) := Content.first c cs
    let stop := here.advanceBy ((c :: cs).take n)
    ⟨content, ⟨here, stop⟩⟩ :: segments stop (cs.drop (n - 1))
  termination_by cs => cs.length
  decreasing_by simp only [List.length_drop, List.length_cons]; omega

/-- A token and where it stands. -/
structure Lexeme where
  token : Token
  span : Span
  deriving DecidableEq, Repr

namespace Segment

/-- The token of a segment; a faulty stretch gives an `error` token. -/
def lexeme? (s : Segment) : Option Lexeme :=
  match s.content with
  | .extra => none
  | .token t => some ⟨t, s.span⟩
  | .fault _ => some ⟨.error, s.span⟩

/-- The fault of a segment. -/
def error? (s : Segment) : Option LexError :=
  match s.content with
  | .fault f => some ⟨f, s.span⟩
  | _ => none

end Segment

/-- The tokens of a text, its faults, and the empty span at its end. -/
structure Tokenized where
  tokens : List Lexeme
  errors : List LexError
  stop : Span
  deriving DecidableEq, Repr

/-- The tokens of a source text. -/
def tokenize (source : String) : Tokenized :=
  let cs := source.toList
  let parts := segments .origin cs
  { tokens := parts.filterMap Segment.lexeme?
    errors := parts.filterMap Segment.error?
    stop := .point (Location.origin.advanceBy cs) }

end SolidityFrontend
