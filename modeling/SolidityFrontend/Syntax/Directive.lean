import SolidityFrontend.Syntax.Expr
import SolidityFrontend.Version.Requirement

/-!
# Directives

Pragmas, imports and `using`.
-/

namespace SolidityFrontend

/-- A version constraint where it stands. -/
structure VersionConstraint where
  operator : Option VersionOperator
  version : String
  span : Span
  deriving DecidableEq, Repr

/-- Alternative lists of constraints. -/
structure VersionRequirement where
  alternatives : List (List VersionConstraint)
  span : Span
  deriving DecidableEq, Repr

/-- The constraints of all alternatives. -/
def VersionRequirement.constraints (r : VersionRequirement) : List VersionConstraint :=
  r.alternatives.flatten

inductive PragmaValue where
  | version (requirement : VersionRequirement)
  | raw (text : String) (span : Span)
  deriving DecidableEq, Repr

structure PragmaDirective where
  name : Identifier
  value : PragmaValue
  span : Span
  deriving DecidableEq, Repr

/-- The file an import names. -/
structure ImportPath where
  value : String
  span : Span
  deriving DecidableEq, Repr

inductive ImportSymbol where
  | wildcard (span : Span)
  | name (i : Identifier)
  deriving DecidableEq, Repr

/-- A name, and perhaps another name for it. -/
structure ImportAlias where
  name : Identifier
  renamed : Option Identifier
  span : Span
  deriving DecidableEq, Repr

/-- What is imported from a file. -/
inductive ImportClause where
  | single (symbol : ImportSymbol) (renamed : Option Identifier) (span : Span)
  | multiple (symbols : List ImportAlias) (span : Span)
  deriving DecidableEq, Repr

def ImportClause.span : ImportClause → Span
  | .single _ _ span | .multiple _ span => span

structure ImportDirective where
  path : ImportPath
  /-- The name for the whole file. -/
  renamed : Option Identifier
  clause : Option ImportClause
  span : Span
  deriving DecidableEq, Repr

/-- The types that a library is attached to. -/
inductive UsingTarget where
  | wildcard (span : Span)
  | type (t : TypeName)

structure UsingDirective where
  library : Path
  target : UsingTarget
  span : Span

end SolidityFrontend
