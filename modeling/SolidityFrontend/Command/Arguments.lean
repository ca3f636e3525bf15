import SolidityFrontend.Command.Basic

/-!
# The arguments of a call

The words of a call are first told apart by their dashes (`Argument.ofWords`) and then read from
left to right: options in front of the verb, the verb, and what its action takes. The first argument
that asks for the version or for help decides, whatever follows it; one that is unknown, repeated or
out of place in front of it makes the call a misuse.
-/

namespace SolidityFrontend

/-- One argument of a call. -/
inductive Argument where
  /-- A letter behind one dash, which several letters may share. -/
  | flag (letter : Char)
  /-- A name behind two dashes, with the value that an equals sign gives it. -/
  | option (name : String) (value : Option String)
  /-- Two dashes that stand alone: no option follows them. -/
  | dashes
  /-- A word that is no option. -/
  | word (text : String)
  /-- A word behind the two dashes. -/
  | operand (text : String)
  deriving DecidableEq, Repr

namespace Argument

/-- The arguments in a word that is not two dashes alone. A single dash is no option. -/
def ofWord (text : String) : List Argument :=
  match text.toList with
  | '-' :: '-' :: cs =>
    let value := match cs.dropWhile (· ≠ '=') with
      | [] => none
      | _ :: value => some (String.ofList value)
    [.option (String.ofList (cs.takeWhile (· ≠ '='))) value]
  | '-' :: c :: cs => (c :: cs).map flag
  | _ => [.word text]

/-- The arguments in the words of a call. -/
def ofWords : List String → List Argument
  | [] => []
  | "--" :: words => .dashes :: words.map operand
  | text :: words => ofWord text ++ ofWords words

end Argument

def OutputFormat.ofName? : String → Option OutputFormat
  | "json" => some .json
  | "tree" => some .tree
  | _ => none

/-- The actions by name. -/
inductive Verb where
  | parse | check
  deriving DecidableEq, Repr

/-- What the arguments behind a verb have given. -/
structure Settings where
  file : Option String := none
  format : Option OutputFormat := none
  dumpTokens : Bool := false
  verbose : Bool := false
  deriving DecidableEq, Repr

namespace Settings

/-- The settings with a file, which has a name and is the only one. -/
def addFile (s : Settings) (name : String) : Option Settings :=
  if name = "" ∨ s.file.isSome then none else some { s with file := some name }

/-- The settings with a format, which only `parse` takes, and once. -/
def addFormat (s : Settings) (verb : Verb) (name : String) : Option Settings := do
  let format ← OutputFormat.ofName? name
  if verb = .parse ∧ s.format.isNone then some { s with format := some format } else none

/-- The settings with a dump of the tokens, which only `parse` takes, and once. -/
def addDump (s : Settings) (verb : Verb) : Option Settings :=
  if verb = .parse ∧ !s.dumpTokens then some { s with dumpTokens := true } else none

/-- The settings with more output, which is asked for once. -/
def addVerbose (s : Settings) : Option Settings :=
  if s.verbose then none else some { s with verbose := true }

/-- The command of a verb, if there is a file. -/
def command? (s : Settings) (verb : Verb) (verboseBefore : Bool) : Option Command := do
  let file ← s.file
  let action := match verb with
    | .parse => .parse (s.format.getD .json) s.dumpTokens
    | .check => .check
  return ⟨action, file, verboseBefore || s.verbose⟩

end Settings

namespace Request

/-- The request of the arguments behind a verb, or `none` for a misuse. -/
def ofSettings? (verb : Verb) (verboseBefore : Bool) : Settings → List Argument → Option Request
  | s, [] => (s.command? verb verboseBefore).map .run
  | _, .flag 'h' :: _ => some (.help (if verb = .parse then .parseShort else .check))
  | _, .option "help" none :: _ => some (.help (if verb = .parse then .parse else .check))
  | s, .flag 'v' :: rest => do ofSettings? verb verboseBefore (← s.addVerbose) rest
  | s, .option "verbose" none :: rest => do ofSettings? verb verboseBefore (← s.addVerbose) rest
  | s, .option "dump-tokens" none :: rest => do
    ofSettings? verb verboseBefore (← s.addDump verb) rest
  | s, .option "format" (some name) :: rest => do
    ofSettings? verb verboseBefore (← s.addFormat verb name) rest
  | s, .option "format" none :: .word name :: rest => do
    ofSettings? verb verboseBefore (← s.addFormat verb name) rest
  | s, .dashes :: rest => ofSettings? verb verboseBefore s rest
  | s, .word name :: rest => do ofSettings? verb verboseBefore (← s.addFile name) rest
  | s, .operand name :: rest => do ofSettings? verb verboseBefore (← s.addFile name) rest
  | _, _ => none

/-- The page of help that the words behind `help` name. -/
def helpPage? : List Argument → Option HelpPage
  | [] => some .program
  | [.word "parse"] => some .parse
  | [.word "check"] => some .check
  | [.word "help"] => some .help
  | _ => none

/-- The request of the arguments of a call after it has asked for more output or not. -/
def ofArguments? (verbose : Bool) : List Argument → Option Request
  | [] | [.dashes] => if verbose then none else some .nothing
  | .flag 'V' :: _ | .option "version" none :: _ => some .version
  | .flag 'h' :: _ | .option "help" none :: _ => some (.help .program)
  | .flag 'v' :: rest | .option "verbose" none :: rest =>
    if verbose then none else ofArguments? true rest
  | .word "parse" :: rest => ofSettings? .parse verbose {} rest
  | .word "check" :: rest => ofSettings? .check verbose {} rest
  | .word "help" :: rest => (helpPage? rest).map .help
  | _ => none

/-- The request of the words of a call, or `none` for a misuse. -/
def ofWords? (words : List String) : Option Request := ofArguments? false (Argument.ofWords words)

end Request

end SolidityFrontend
