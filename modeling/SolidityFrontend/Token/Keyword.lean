/-!
# Reserved words

The words that are never identifiers, each with its spelling and the name under which token dumps
show it.
-/

namespace SolidityFrontend

/-- A reserved word. -/
inductive Keyword where
  | pragma | import_ | contract | interface | library | abstract | struct | enum | event
  | function | modifier | constructor | if_ | else_ | for_ | while_ | do_ | break_ | continue_
  | return_ | returns | try_ | catch_ | emit | new | delete | mapping | is_ | using_ | assembly
  | throw | true_ | false_
  deriving DecidableEq, Repr

namespace Keyword

/-- Every reserved word once. -/
def all : List Keyword :=
  [.pragma, .import_, .contract, .interface, .library, .abstract, .struct, .enum, .event,
   .function, .modifier, .constructor, .if_, .else_, .for_, .while_, .do_, .break_, .continue_,
   .return_, .returns, .try_, .catch_, .emit, .new, .delete, .mapping, .is_, .using_, .assembly,
   .throw, .true_, .false_]

/-- The spelling in source text. -/
def text : Keyword → String
  | .pragma => "pragma"
  | .import_ => "import"
  | .contract => "contract"
  | .interface => "interface"
  | .library => "library"
  | .abstract => "abstract"
  | .struct => "struct"
  | .enum => "enum"
  | .event => "event"
  | .function => "function"
  | .modifier => "modifier"
  | .constructor => "constructor"
  | .if_ => "if"
  | .else_ => "else"
  | .for_ => "for"
  | .while_ => "while"
  | .do_ => "do"
  | .break_ => "break"
  | .continue_ => "continue"
  | .return_ => "return"
  | .returns => "returns"
  | .try_ => "try"
  | .catch_ => "catch"
  | .emit => "emit"
  | .new => "new"
  | .delete => "delete"
  | .mapping => "mapping"
  | .is_ => "is"
  | .using_ => "using"
  | .assembly => "assembly"
  | .throw => "throw"
  | .true_ => "true"
  | .false_ => "false"

/-- The name in token dumps. -/
def name : Keyword → String
  | .pragma => "Pragma"
  | .import_ => "Import"
  | .contract => "Contract"
  | .interface => "Interface"
  | .library => "Library"
  | .abstract => "Abstract"
  | .struct => "Struct"
  | .enum => "Enum"
  | .event => "Event"
  | .function => "Function"
  | .modifier => "Modifier"
  | .constructor => "Constructor"
  | .if_ => "If"
  | .else_ => "Else"
  | .for_ => "For"
  | .while_ => "While"
  | .do_ => "Do"
  | .break_ => "Break"
  | .continue_ => "Continue"
  | .return_ => "Return"
  | .returns => "Returns"
  | .try_ => "Try"
  | .catch_ => "Catch"
  | .emit => "Emit"
  | .new => "New"
  | .delete => "Delete"
  | .mapping => "Mapping"
  | .is_ => "Is"
  | .using_ => "Using"
  | .assembly => "Assembly"
  | .throw => "Throw"
  | .true_ => "True"
  | .false_ => "False"

theorem mem_all (k : Keyword) : k ∈ all := by cases k <;> decide

end Keyword

end SolidityFrontend
