import SolidityFrontend.Syntax.Elementary
import SolidityFrontend.Syntax.Literal
import SolidityFrontend.Syntax.Name
import SolidityFrontend.Syntax.Operator

/-!
# Expressions and type names

The two depend on each other: an array type may have an expression as its size, and `new` takes a
type name.
-/

namespace SolidityFrontend

/-- An elementary type where it stands. -/
structure ElementaryTypeName where
  kind : ElementaryType
  span : Span
  deriving DecidableEq, Repr

/-- An attribute of a function type. -/
inductive FunctionTypeAttribute where
  | visibility (v : Visibility) (span : Span)
  | mutability (m : Mutability) (span : Span)
  deriving DecidableEq, Repr

mutual

/-- An expression. -/
inductive Expr where
  | binary (left : Expr) (op : BinaryOp) (right : Expr) (span : Span)
  | unary (op : UnaryOp) (operand : Expr) (span : Span)
  | update (op : UpdateOp) (fixity : Fixity) (operand : Expr) (span : Span)
  | ternary (condition ifTrue ifFalse : Expr) (span : Span)
  | assignment (left : Expr) (op : AssignOp) (right : Expr) (span : Span)
  | call (callee : Expr) (arguments : Arguments) (span : Span)
  | member (object : Expr) (name : Identifier) (span : Span)
  | index (base : Expr) (index : Option Expr) (span : Span)
  | slice (base : Expr) (lower upper : Option Expr) (span : Span)
  /-- A tuple, some of whose places may be vacant. -/
  | tuple (elements : List (Option Expr)) (span : Span)
  | inlineArray (elements : List Expr) (span : Span)
  /-- A struct with named fields, or a function with options for its call. -/
  | struct (type : Expr) (fields : List NamedArgument) (span : Span)
  | new (type : TypeName) (span : Span)
  | cast (type : ElementaryTypeName) (argument : Expr) (span : Span)
  /-- An elementary type as a value, as in `abi.decode(data, (uint))`. -/
  | elementary (type : ElementaryTypeName)
  | metaType (type : TypeName) (span : Span)
  | payable (arguments : Arguments) (span : Span)
  | parenthesized (inner : Expr) (span : Span)
  | literal (l : Literal)
  | identifier (i : Identifier)

/-- The arguments of a call, by position or by name. -/
inductive Arguments where
  | positional (arguments : List Expr) (span : Span)
  | named (arguments : List NamedArgument) (span : Span)

/-- A name and the value given to it. -/
structure NamedArgument where
  name : Identifier
  value : Expr
  span : Span

/-- The name of a type. -/
inductive TypeName where
  | elementary (type : ElementaryTypeName)
  | userDefined (path : Path)
  | mapping (key value : TypeName) (span : Span)
  | array (base : TypeName) (size : Option Expr) (span : Span)
  | function (parameters : List Parameter) (attributes : List FunctionTypeAttribute)
      (returns : List Parameter) (span : Span)

/-- A parameter, whose name may be left out. -/
structure Parameter where
  type : TypeName
  location : Option StorageLocation
  name : Option Identifier
  span : Span

end

def Expr.span : Expr → Span
  | .binary _ _ _ span | .unary _ _ span | .update _ _ _ span | .ternary _ _ _ span
  | .assignment _ _ _ span | .call _ _ span | .member _ _ span | .index _ _ span
  | .slice _ _ _ span | .tuple _ span | .inlineArray _ span | .struct _ _ span | .new _ span
  | .cast _ _ span | .metaType _ span | .payable _ span | .parenthesized _ span => span
  | .elementary type => type.span
  | .literal l => l.span
  | .identifier i => i.span

/-- Whether the expression may stand on the left of an assignment. -/
def Expr.isAssignable : Expr → Bool
  | .member .. | .tuple .. | .index .. | .identifier _ => true
  | .parenthesized inner _ => inner.isAssignable
  | _ => false

namespace Arguments

def span : Arguments → Span
  | .positional _ span | .named _ span => span

def length : Arguments → Nat
  | .positional arguments _ => arguments.length
  | .named arguments _ => arguments.length

def isEmpty (a : Arguments) : Bool := a.length == 0

end Arguments

def TypeName.span : TypeName → Span
  | .elementary type => type.span
  | .userDefined path => path.span
  | .mapping _ _ span | .array _ _ span | .function _ _ _ span => span

end SolidityFrontend
