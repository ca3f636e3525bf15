import SolidityFrontend.Diagnostic.SyntaxError
import SolidityFrontend.Token.Segment

/-!
# Diagnostics

The errors of a source, whatever part of the work found them, and the reports made from them.
-/

namespace SolidityFrontend

open Text

/-- An error of a source. -/
inductive SourceError where
  | lexical (e : LexError)
  | syntactic (e : SyntaxError)
  /-- The bytes of the source are no text. -/
  | encoding (failure : Utf8.Failure)
  deriving DecidableEq, Repr

namespace SourceError

/-- How bytes fail to be text. -/
def encodingText : Utf8.Failure → String
  | .invalid length index =>
    "invalid utf-8 sequence of " ++ decimal length ++ " bytes from index " ++ decimal index
  | .incomplete index => "incomplete utf-8 byte sequence from index " ++ decimal index

def encodingMessage (failure : Utf8.Failure) : String :=
  "不正なエンコーディング: " ++ encodingText failure

/-- The message with the part of the work that found the error. -/
def message : SourceError → String
  | .lexical e => "字句解析エラー: " ++ e.fault.message
  | .syntactic e => "構文解析エラー: " ++ e.fault.message
  | .encoding failure => encodingMessage failure

/-- Where the error is, if it has a place. -/
def span? : SourceError → Option Span
  | .lexical e => some e.span
  | .syntactic e => some e.span
  | .encoding _ => none

/-- Whether an error starts no later than another, where both have a place. -/
def startsBefore (a b : SourceError) : Bool :=
  let start (e : SourceError) := e.span?.elim 0 (·.start.offset)
  start a ≤ start b

/-- The errors of a source by the offset at which they start, lexical ones first among equals. -/
def sorted (lexical : List LexError) (syntactic : List SyntaxError) : List SourceError :=
  (lexical.map SourceError.lexical ++ syntactic.map SourceError.syntactic).mergeSort startsBefore

end SourceError

/-- A place that a diagnostic points at, and what it says there. -/
structure Label where
  file : Nat
  start : Nat
  stop : Nat
  message : String
  deriving DecidableEq, Repr

/-- A report of an error. -/
structure Diagnostic where
  message : String
  labels : List Label
  deriving DecidableEq, Repr

namespace Diagnostic

/-- A report that points at a span of a file. -/
def at_ (file : Nat) (message label : String) (span : Span) : Diagnostic :=
  ⟨message, [⟨file, span.start.offset, span.stop.offset, label⟩]⟩

/-- The report of an error in a file. -/
def ofError (file : Nat) : SourceError → Diagnostic
  | .lexical e => at_ file e.fault.message e.fault.label e.span
  | .syntactic e => at_ file e.fault.message e.fault.label e.span
  | .encoding failure => ⟨SourceError.encodingMessage failure, []⟩

end Diagnostic

end SolidityFrontend
