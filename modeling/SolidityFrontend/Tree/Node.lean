import SolidityFrontend.Source.Span
import SolidityFrontend.Text.Quoted

/-!
# Generic syntax trees

A `Node` has a kind, a span, perhaps a value, and children under field names. The children of one
field stand together, in the order in which they were added, and the fields in the order of their
first children. Trees are walked root first, and written as S-expressions.
-/

namespace SolidityFrontend

/-- A node of a generic syntax tree. -/
structure Node where
  kind : String
  span : Span
  value : Option String
  /-- The children with their fields. -/
  children : List (String × Node)

namespace Node

/-! ### Building -/

/-- A node without children. -/
def leaf (kind : String) (span : Span) (value : Option String) : Node := ⟨kind, span, value, []⟩

/-- The children with further ones in a field, behind those it has or at the end. -/
def attach (children : List (String × Node)) (field : String) (nodes : List Node) :
    List (String × Node) :=
  let before := children.takeWhile (·.1 != field)
  let rest := children.dropWhile (·.1 != field)
  before ++ rest.takeWhile (·.1 == field) ++ nodes.map (field, ·)
    ++ rest.dropWhile (·.1 == field)

/-- The node with further children in a field. -/
def push (n : Node) (field : String) (nodes : List Node) : Node :=
  { n with children := attach n.children field nodes }

/-- The nodes for places of which some are vacant. A vacant place is an empty node behind the place
before it, the first one at the given span. -/
def places (here : Span) : List (Option Node) → List Node
  | [] => []
  | place :: rest =>
    let n := place.getD (leaf "empty" here none)
    n :: places n.span.after rest

/-- The node with further places in a field, the first of them at its start. -/
def pushPlaces (n : Node) (field : String) (slots : List (Option Node)) : Node :=
  n.push field (places (.point n.span.start) slots)

/-! ### Looking at a node -/

/-- The children in a field. -/
def field (n : Node) (name : String) : List Node :=
  n.children.filterMap fun (f, child) => if f == name then some child else none

/-- The first child in a field. -/
def first? (n : Node) (name : String) : Option Node := (n.field name).head?

/-- Whether a node starts before another, or at the same offset and ends no later. -/
def startsBefore (a b : Node) : Bool :=
  a.span.start.offset < b.span.start.offset
    || (a.span.start.offset == b.span.start.offset && a.span.stop.offset ≤ b.span.stop.offset)

/-- The children of all fields by their places in the source. -/
def sortedChildren (n : Node) : List Node := (n.children.map Prod.snd).mergeSort startsBefore

/-- Whether the node marks text that could not be read. -/
def isError (n : Node) : Bool := n.kind == "error"

/-! ### Walking -/

mutual

/-- The node and all below it, root first, each with its depth and the field it stands in. -/
def outlineAt (depth : Nat) (field : String) : Node → List (Nat × String × Node)
  | ⟨kind, span, value, children⟩ =>
    (depth, field, ⟨kind, span, value, children⟩) :: outlineChildren (depth + 1) children

def outlineChildren (depth : Nat) : List (String × Node) → List (Nat × String × Node)
  | [] => []
  | (field, n) :: rest => outlineAt depth field n ++ outlineChildren depth rest

end

/-- The tree, root first, each node with its depth and the field it stands in. -/
def outline (n : Node) : List (Nat × String × Node) := outlineAt 0 "" n

mutual

/-- The node and all below it, root first. -/
def walk : Node → List Node
  | ⟨kind, span, value, children⟩ => ⟨kind, span, value, children⟩ :: walkChildren children

def walkChildren : List (String × Node) → List Node
  | [] => []
  | (_, n) :: rest => walk n ++ walkChildren rest

end

/-- The nodes of a kind, root first. -/
def findAll (n : Node) (kind : String) : List Node := n.walk.filter (·.kind == kind)

/-! ### S-expressions -/

/-- The value of a node behind its kind. -/
def valueText : Option String → String
  | none => ""
  | some v => " " ++ Text.quote v

mutual

/-- The tree in parentheses: kind, value, and the children behind their fields. -/
def sexp : Node → String
  | ⟨kind, _, value, children⟩ => "(" ++ kind ++ valueText value ++ sexpChildren children ++ ")"

def sexpChildren : List (String × Node) → String
  | [] => ""
  | (field, n) :: rest => " " ++ field ++ ": " ++ sexp n ++ sexpChildren rest

end

end Node

end SolidityFrontend
