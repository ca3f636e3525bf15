/-!
# Commands

What a call of the program asks for: a file to parse or to check, the version, or a page of help.
-/

namespace SolidityFrontend

/-- The form in which a syntax tree is printed. -/
inductive OutputFormat where
  | json | tree
  deriving DecidableEq, Repr

/-- What to do with a file. -/
inductive Action where
  | parse (format : OutputFormat) (dumpTokens : Bool)
  | check
  deriving DecidableEq, Repr

structure Command where
  action : Action
  file : String
  verbose : Bool
  deriving DecidableEq, Repr

/-- The pages of help. That on `parse` has a short form. -/
inductive HelpPage where
  | program | parse | parseShort | check | help
  deriving DecidableEq, Repr

/-- What a call of the program asks for. -/
inductive Request where
  | run (command : Command)
  | version
  | help (page : HelpPage)
  /-- Nothing, because the call has no arguments. -/
  | nothing
  deriving DecidableEq, Repr

end SolidityFrontend
