import SolidityFrontend.Command.Arguments
import SolidityFrontend.Command.Help
import SolidityFrontend.Json.OfSyntax
import SolidityFrontend.Session
import SolidityFrontend.Token.Lexer
import SolidityFrontend.Tree.OfSyntax

/-!
# The command line

`parse FILE` prints the syntax of a file as JSON or as an S-expression and succeeds whatever errors
the file has; `check FILE` only says whether it has any. The words of a call are read to a `Request`,
and a request with the content of its file gives the text to print and the exit code (`respond`).
-/

namespace SolidityFrontend

open Text

/-- What a call prints and how it ends. -/
structure Outcome where
  output : String
  /-- The message of a call that fails. -/
  failure : Option String
  exitCode : Nat
  diagnostics : List Diagnostic := []
  deriving DecidableEq, Repr

namespace Outcome

/-- A call that ends well. -/
def success (output : String) (diagnostics : List Diagnostic) : Outcome :=
  ⟨output, none, 0, diagnostics⟩

/-- A call that ends with a message. -/
def error (output message : String) (diagnostics : List Diagnostic) : Outcome :=
  ⟨output, some ("error: " ++ message), 1, diagnostics⟩

/-- A call that runs nothing and ends with advice. -/
def usage (advice : String) : Outcome := ⟨"", some advice, 2, []⟩

end Outcome

namespace Command

/-- The dump of the tokens of a source, with a heading and an empty line behind it. -/
def tokenDump (source : String) : String :=
  "=== Tokens ===\n" ++ dumpTokens (tokenize source).tokens ++ "\n\n"

/-- The syntax of a file in a format. -/
def render (file : SourceFile) : OutputFormat → String
  | .json => file.toJson.pretty
  | .tree => file.toNode.sexp

/-- The reports of the errors of a source. -/
def diagnosticsOf (output : ParseOutput) : List Diagnostic :=
  output.errors.map (Diagnostic.ofError 0)

/-- The result of a command on the text of its file. -/
def runOn (c : Command) (source : String) : Outcome :=
  let output := SolidityFrontend.parse source
  match c.action with
  | .parse format dump =>
    .success ((if dump then tokenDump source else "") ++ render output.file format ++ "\n")
      (diagnosticsOf output)
  | .check =>
    let info := if c.verbose then
        "info: " ++ decimal output.file.items.length ++ " top-level item(s)\n"
      else ""
    if output.hasErrors then
      .error info (decimal output.errors.length ++ " syntax error(s) in " ++ c.file)
        (diagnosticsOf output)
    else .success (info ++ "success: " ++ c.file ++ " has no syntax errors\n") []

/-- The result of a command on the bytes of its file, if the file could be read. -/
def run (c : Command) : Option (List UInt8) → Outcome
  | none => .error "" ("Failed to read source file: " ++ quote c.file) []
  | some bytes =>
    match Utf8.decode bytes with
    | .ok cs => c.runOn (String.ofList cs)
    | .error _ => .error "" ("Source file is not valid UTF-8: " ++ quote c.file) []

end Command

/-- The outcome of the words of a call, where `contentOf` reads the bytes of a file. -/
def respond {m : Type → Type} [Monad m] (contentOf : String → m (Option (List UInt8)))
    (words : List String) : m Outcome := do
  match Request.ofWords? words with
  | some (.run command) => return command.run (← contentOf command.file)
  | some .version => return .success (versionLine ++ "\n") []
  | some (.help page) => return .success (page.text ++ "\n") []
  | some .nothing => return .usage HelpPage.program.text
  | none => return .usage "For more information, try '--help'."

end SolidityFrontend
