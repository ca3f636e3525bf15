import SolidityFrontend.Command.Basic

/-!
# Help

The line of the version and the pages of help.
-/

namespace SolidityFrontend

/-- The name and the version of the program. -/
def versionLine : String := "solparse 0.1.0"

/-- The lines of a page of help. -/
def HelpPage.lines : HelpPage → List String
  | .program =>
    ["Solidity 0.4-0.7 syntax parser",
     "",
     "Usage: solparse [OPTIONS] <COMMAND>",
     "",
     "Commands:",
     "  parse  Parse a Solidity source file and print its syntax tree",
     "  check  Check a Solidity source file for syntax errors",
     "  help   Print this message or the help of the given subcommand(s)",
     "",
     "Options:",
     "  -v, --verbose  Enable verbose output",
     "  -h, --help     Print help",
     "  -V, --version  Print version"]
  | .parse =>
    ["Parse a Solidity source file and print its syntax tree",
     "",
     "Usage: solparse parse [OPTIONS] <INPUT>",
     "",
     "Arguments:",
     "  <INPUT>",
     "          The source file to parse",
     "",
     "Options:",
     "      --format <FORMAT>",
     "          Output format",
     "          ",
     "          [default: json]",
     "",
     "          Possible values:",
     "          - json: Typed AST as JSON (default)",
     "          - tree: Generic syntax tree as an S-expression",
     "",
     "      --dump-tokens",
     "          Dump tokens to stdout",
     "",
     "  -v, --verbose",
     "          Enable verbose output",
     "",
     "  -h, --help",
     "          Print help (see a summary with '-h')"]
  | .parseShort =>
    ["Parse a Solidity source file and print its syntax tree",
     "",
     "Usage: solparse parse [OPTIONS] <INPUT>",
     "",
     "Arguments:",
     "  <INPUT>  The source file to parse",
     "",
     "Options:",
     "      --format <FORMAT>  Output format [default: json] [possible values: json, tree]",
     "      --dump-tokens      Dump tokens to stdout",
     "  -v, --verbose          Enable verbose output",
     "  -h, --help             Print help (see more with '--help')"]
  | .check =>
    ["Check a Solidity source file for syntax errors",
     "",
     "Usage: solparse check [OPTIONS] <INPUT>",
     "",
     "Arguments:",
     "  <INPUT>  The source file to check",
     "",
     "Options:",
     "  -v, --verbose  Enable verbose output",
     "  -h, --help     Print help"]
  | .help =>
    ["Print this message or the help of the given subcommand(s)",
     "",
     "Usage: solparse help [COMMAND]...",
     "",
     "Arguments:",
     "  [COMMAND]...  Print help for the subcommand(s)"]

/-- The text of a page of help, without a line feed at its end. -/
def HelpPage.text (page : HelpPage) : String := String.intercalate "\n" page.lines

end SolidityFrontend
