/-!
# Words with a meaning in some places

The lexer reads these words as identifiers; the grammar gives them a meaning where a declaration or
a number may carry them.
-/

namespace SolidityFrontend

/-- The value of an enumeration that a word spells. -/
def ofSpelling? {α : Type} (all : List α) (text : α → String) (word : String) : Option α :=
  all.find? fun x => text x == word

/-- Who may use a function or a variable. -/
inductive Visibility where
  | public_ | private_ | internal | external
  deriving DecidableEq, Repr

namespace Visibility

def all : List Visibility :=
  [.public_, .private_, .internal, .external]

/-- The spelling in source text. -/
def text : Visibility → String
  | .public_ => "public"
  | .private_ => "private"
  | .internal => "internal"
  | .external => "external"

/-- The visibility that a word spells. -/
def ofWord? (word : String) : Option Visibility := ofSpelling? all text word

end Visibility

/-- What a function may do to the state; `constant` is the older word for `view`. -/
inductive Mutability where
  | pure_ | view | payable | constant
  deriving DecidableEq, Repr

namespace Mutability

def all : List Mutability :=
  [.pure_, .view, .payable, .constant]

/-- The spelling in source text. -/
def text : Mutability → String
  | .pure_ => "pure"
  | .view => "view"
  | .payable => "payable"
  | .constant => "constant"

/-- The mutability that a word spells. -/
def ofWord? (word : String) : Option Mutability := ofSpelling? all text word

end Mutability

/-- Where a value of reference type lives. -/
inductive StorageLocation where
  | memory | storage | calldata
  deriving DecidableEq, Repr

namespace StorageLocation

def all : List StorageLocation :=
  [.memory, .storage, .calldata]

/-- The spelling in source text. -/
def text : StorageLocation → String
  | .memory => "memory"
  | .storage => "storage"
  | .calldata => "calldata"

/-- The location that a word spells. -/
def ofWord? (word : String) : Option StorageLocation := ofSpelling? all text word

end StorageLocation

/-- A unit of currency or time behind a number. -/
inductive NumberUnit where
  | wei | gwei | szabo | finney | ether | seconds | minutes | hours | days | weeks | years
  deriving DecidableEq, Repr

namespace NumberUnit

def all : List NumberUnit :=
  [.wei, .gwei, .szabo, .finney, .ether, .seconds, .minutes, .hours, .days, .weeks, .years]

/-- The spelling in source text. -/
def text : NumberUnit → String
  | .wei => "wei"
  | .gwei => "gwei"
  | .szabo => "szabo"
  | .finney => "finney"
  | .ether => "ether"
  | .seconds => "seconds"
  | .minutes => "minutes"
  | .hours => "hours"
  | .days => "days"
  | .weeks => "weeks"
  | .years => "years"

/-- The unit that a word spells. -/
def ofWord? (word : String) : Option NumberUnit := ofSpelling? all text word

end NumberUnit

end SolidityFrontend
