import SolidityFrontend.Diagnostic.Basic

/-!
# Syntax with other spans

`respan f` changes every span in a piece of syntax by `f`. Two pieces of syntax are the same up to
their spans if they are equal when every span is erased, that is, set to the empty span at the start
of the text.
-/

namespace SolidityFrontend

/-- Values in which every span can be changed. -/
class Placed (α : Type) where
  respan : (Span → Span) → α → α

export Placed (respan)

/-- A value without its spans. -/
def erase {α : Type} [Placed α] (x : α) : α := respan (fun _ => .origin) x

section Containers

variable {α β : Type} [Placed α] [Placed β]

instance : Placed Span := ⟨fun f span => f span⟩

instance : Placed (Option α) := ⟨fun f => Option.map (respan f)⟩

instance : Placed (List α) := ⟨fun f => List.map (respan f)⟩

instance : Placed (α × β) := ⟨fun f => Prod.map (respan f) (respan f)⟩

instance : Placed (α ⊕ β) := ⟨fun f => Sum.map (respan f) (respan f)⟩

variable {f : Span → Span}

@[simp] theorem respan_span (span : Span) : respan f span = f span := rfl

@[simp] theorem respan_none : respan f (none : Option α) = none := rfl

@[simp] theorem respan_some (x : α) : respan f (some x) = some (respan f x) := rfl

@[simp] theorem respan_nil : respan f ([] : List α) = [] := rfl

@[simp] theorem respan_cons (x : α) (xs : List α) :
    respan f (x :: xs) = respan f x :: respan f xs := rfl

@[simp] theorem respan_append (xs ys : List α) :
    respan f (xs ++ ys) = respan f xs ++ respan f ys := List.map_append

@[simp] theorem respan_pair (x : α) (y : β) : respan f (x, y) = (respan f x, respan f y) := rfl

@[simp] theorem respan_inl (x : α) : respan f (.inl x : α ⊕ β) = .inl (respan f x) := rfl

@[simp] theorem respan_inr (y : β) : respan f (.inr y : α ⊕ β) = .inr (respan f y) := rfl

theorem respan_list (xs : List α) : respan f xs = xs.map (respan f) := rfl

@[simp] theorem isSome_respan (o : Option α) : (respan f o).isSome = o.isSome := Option.isSome_map

@[simp] theorem isNone_respan (o : Option α) : (respan f o).isNone = o.isNone := Option.isNone_map

@[simp] theorem isEmpty_respan (xs : List α) : (respan f xs).isEmpty = xs.isEmpty := List.isEmpty_map

@[simp] theorem length_respan (xs : List α) : (respan f xs).length = xs.length := List.length_map _

end Containers

/-! ### Values without spans -/

instance : Placed Unit := ⟨fun _ x => x⟩

instance : Placed Bool := ⟨fun _ x => x⟩

instance : Placed String := ⟨fun _ x => x⟩

instance : Placed UInt8 := ⟨fun _ x => x⟩

instance : Placed StorageLocation := ⟨fun _ x => x⟩

instance : Placed ContractKind := ⟨fun _ x => x⟩

section

variable {f : Span → Span}

@[simp] theorem respan_unit (x : Unit) : respan f x = x := rfl

@[simp] theorem respan_bool (x : Bool) : respan f x = x := rfl

@[simp] theorem respan_text (x : String) : respan f x = x := rfl

@[simp] theorem respan_storageLocation (x : StorageLocation) : respan f x = x := rfl

@[simp] theorem respan_contractKind (x : ContractKind) : respan f x = x := rfl

@[simp] theorem respan_location? (o : Option StorageLocation) : respan f o = o := by
  cases o <;> rfl

@[simp] theorem respan_bytes (x : List UInt8) : respan f x = x := List.map_id x

@[simp] theorem respan_text? (o : Option String) : respan f o = o := by
  cases o <;> rfl

end

/-! ### Tokens, names and literals -/

instance : Placed Lexeme := ⟨fun f t => { t with span := f t.span }⟩

instance : Placed LexError := ⟨fun f e => { e with span := f e.span }⟩

instance : Placed SyntaxError := ⟨fun f e => { e with span := f e.span }⟩

instance : Placed SourceError where
  respan f
    | .lexical e => .lexical (respan f e)
    | .syntactic e => .syntactic (respan f e)
    | .encoding failure => .encoding failure

instance : Placed Identifier := ⟨fun f i => { i with span := f i.span }⟩

instance : Placed Path := ⟨fun f p => ⟨respan f p.segments, f p.span⟩⟩

instance : Placed ErrorMark := ⟨fun f m => { m with span := f m.span }⟩

instance : Placed StringLiteral :=
  ⟨fun f l => { l with parts := respan f l.parts, span := f l.span }⟩

instance : Placed NumberLiteral := ⟨fun f l => { l with span := f l.span }⟩

instance : Placed Literal where
  respan f
    | .string l => .string (respan f l)
    | .hexString l => .hexString (respan f l)
    | .unicodeString l => .unicodeString (respan f l)
    | .number l => .number (respan f l)
    | .boolean value span => .boolean value (f span)

instance : Placed ElementaryTypeName := ⟨fun f t => { t with span := f t.span }⟩

instance : Placed FunctionTypeAttribute where
  respan f
    | .visibility v span => .visibility v (f span)
    | .mutability m span => .mutability m (f span)

section

variable {f : Span → Span}

@[simp] theorem respan_lexeme (t : Token) (span : Span) :
    respan f (Lexeme.mk t span) = ⟨t, f span⟩ := rfl

@[simp] theorem token_respan (l : Lexeme) : (respan f l).token = l.token := rfl

@[simp] theorem respan_syntaxError (fault : SyntaxFault) (span : Span) :
    respan f (SyntaxError.mk fault span) = ⟨fault, f span⟩ := rfl

@[simp] theorem respan_identifier (name : String) (span : Span) :
    respan f (Identifier.mk name span) = ⟨name, f span⟩ := rfl

@[simp] theorem respan_path (segments : List Identifier) (span : Span) :
    respan f (Path.mk segments span) = ⟨respan f segments, f span⟩ := rfl

@[simp] theorem respan_errorMark (message : String) (span : Span) :
    respan f (ErrorMark.mk message span) = ⟨message, f span⟩ := rfl

@[simp] theorem respan_stringLiteral (value : String) (bytes : List UInt8) (parts : List Span)
    (span : Span) :
    respan f (StringLiteral.mk value bytes parts span) = ⟨value, bytes, respan f parts, f span⟩ :=
  rfl

@[simp] theorem respan_numberLiteral (value : String) (kind : NumberKind)
    (unit : Option NumberUnit) (span : Span) :
    respan f (NumberLiteral.mk value kind unit span) = ⟨value, kind, unit, f span⟩ := rfl

@[simp] theorem respan_string (l : StringLiteral) :
    respan f (Literal.string l) = .string (respan f l) := rfl

@[simp] theorem respan_hexString (l : StringLiteral) :
    respan f (Literal.hexString l) = .hexString (respan f l) := rfl

@[simp] theorem respan_unicodeString (l : StringLiteral) :
    respan f (Literal.unicodeString l) = .unicodeString (respan f l) := rfl

@[simp] theorem respan_number (l : NumberLiteral) :
    respan f (Literal.number l) = .number (respan f l) := rfl

@[simp] theorem respan_boolean (value : Bool) (span : Span) :
    respan f (Literal.boolean value span) = .boolean value (f span) := rfl

@[simp] theorem respan_elementaryTypeName (kind : ElementaryType) (span : Span) :
    respan f (ElementaryTypeName.mk kind span) = ⟨kind, f span⟩ := rfl

@[simp] theorem respan_typeVisibility (v : Visibility) (span : Span) :
    respan f (FunctionTypeAttribute.visibility v span) = .visibility v (f span) := rfl

@[simp] theorem respan_typeMutability (m : Mutability) (span : Span) :
    respan f (FunctionTypeAttribute.mutability m span) = .mutability m (f span) := rfl

end

/-! ### Expressions and type names -/

mutual

def Expr.respan (f : Span → Span) : Expr → Expr
  | .binary left op right span => .binary (left.respan f) op (right.respan f) (f span)
  | .unary op operand span => .unary op (operand.respan f) (f span)
  | .update op fixity operand span => .update op fixity (operand.respan f) (f span)
  | .ternary condition ifTrue ifFalse span =>
    .ternary (condition.respan f) (ifTrue.respan f) (ifFalse.respan f) (f span)
  | .assignment left op right span => .assignment (left.respan f) op (right.respan f) (f span)
  | .call callee arguments span => .call (callee.respan f) (arguments.respan f) (f span)
  | .member object name span => .member (object.respan f) (SolidityFrontend.respan f name) (f span)
  | .index base index span => .index (base.respan f) (respanOption f index) (f span)
  | .slice base lower upper span =>
    .slice (base.respan f) (respanOption f lower) (respanOption f upper) (f span)
  | .tuple elements span => .tuple (respanPlaces f elements) (f span)
  | .inlineArray elements span => .inlineArray (respanExprs f elements) (f span)
  | .struct type fields span => .struct (type.respan f) (respanNamed f fields) (f span)
  | .new type span => .new (type.respan f) (f span)
  | .cast type argument span =>
    .cast (SolidityFrontend.respan f type) (argument.respan f) (f span)
  | .elementary type => .elementary (SolidityFrontend.respan f type)
  | .metaType type span => .metaType (type.respan f) (f span)
  | .payable arguments span => .payable (arguments.respan f) (f span)
  | .parenthesized inner span => .parenthesized (inner.respan f) (f span)
  | .literal l => .literal (SolidityFrontend.respan f l)
  | .identifier i => .identifier (SolidityFrontend.respan f i)

def Arguments.respan (f : Span → Span) : Arguments → Arguments
  | .positional arguments span => .positional (respanExprs f arguments) (f span)
  | .named arguments span => .named (respanNamed f arguments) (f span)

def NamedArgument.respan (f : Span → Span) : NamedArgument → NamedArgument
  | ⟨name, value, span⟩ => ⟨SolidityFrontend.respan f name, value.respan f, f span⟩

def TypeName.respan (f : Span → Span) : TypeName → TypeName
  | .elementary type => .elementary (SolidityFrontend.respan f type)
  | .userDefined path => .userDefined (SolidityFrontend.respan f path)
  | .mapping key value span => .mapping (key.respan f) (value.respan f) (f span)
  | .array base size span => .array (base.respan f) (respanOption f size) (f span)
  | .function parameters attributes returns span =>
    .function (respanParameters f parameters) (SolidityFrontend.respan f attributes)
      (respanParameters f returns) (f span)

def Parameter.respan (f : Span → Span) : Parameter → Parameter
  | ⟨type, location, name, span⟩ =>
    ⟨type.respan f, location, SolidityFrontend.respan f name, f span⟩

def respanOption (f : Span → Span) : Option Expr → Option Expr
  | none => none
  | some e => some (e.respan f)

def respanPlaces (f : Span → Span) : List (Option Expr) → List (Option Expr)
  | [] => []
  | e :: es => respanOption f e :: respanPlaces f es

def respanExprs (f : Span → Span) : List Expr → List Expr
  | [] => []
  | e :: es => e.respan f :: respanExprs f es

def respanNamed (f : Span → Span) : List NamedArgument → List NamedArgument
  | [] => []
  | a :: as => a.respan f :: respanNamed f as

def respanParameters (f : Span → Span) : List Parameter → List Parameter
  | [] => []
  | p :: ps => p.respan f :: respanParameters f ps

end

instance : Placed Expr := ⟨Expr.respan⟩

instance : Placed Arguments := ⟨Arguments.respan⟩

instance : Placed NamedArgument := ⟨NamedArgument.respan⟩

instance : Placed TypeName := ⟨TypeName.respan⟩

instance : Placed Parameter := ⟨Parameter.respan⟩

section

variable (f : Span → Span)

theorem respanOption_eq (e : Option Expr) : respanOption f e = respan f e := by
  cases e <;> rfl

theorem respanPlaces_eq (es : List (Option Expr)) : respanPlaces f es = respan f es := by
  induction es with
  | nil => rfl
  | cons e es ih => rw [respanPlaces, respanOption_eq, ih, respan_cons]

theorem respanExprs_eq (es : List Expr) : respanExprs f es = respan f es := by
  induction es with
  | nil => rfl
  | cons e es ih => rw [respanExprs, ih, respan_cons]; rfl

theorem respanNamed_eq (as : List NamedArgument) : respanNamed f as = respan f as := by
  induction as with
  | nil => rfl
  | cons a as ih => rw [respanNamed, ih, respan_cons]; rfl

theorem respanParameters_eq (ps : List Parameter) : respanParameters f ps = respan f ps := by
  induction ps with
  | nil => rfl
  | cons p ps ih => rw [respanParameters, ih, respan_cons]; rfl

end

section

variable {f : Span → Span}

@[simp]
theorem respan_binary (left right : Expr) (op : BinaryOp) (span : Span) :
    respan f (Expr.binary left op right span)
      = .binary (respan f left) op (respan f right) (f span) := rfl

@[simp]
theorem respan_unary (op : UnaryOp) (operand : Expr) (span : Span) :
    respan f (Expr.unary op operand span) = .unary op (respan f operand) (f span) := rfl

@[simp]
theorem respan_update (op : UpdateOp) (fixity : Fixity) (operand : Expr) (span : Span) :
    respan f (Expr.update op fixity operand span) = .update op fixity (respan f operand) (f span) := rfl

@[simp]
theorem respan_ternary (condition ifTrue ifFalse : Expr) (span : Span) :
    respan f (Expr.ternary condition ifTrue ifFalse span)
      = .ternary (respan f condition) (respan f ifTrue) (respan f ifFalse) (f span) := rfl

@[simp]
theorem respan_assignment (left right : Expr) (op : AssignOp) (span : Span) :
    respan f (Expr.assignment left op right span)
      = .assignment (respan f left) op (respan f right) (f span) := rfl

@[simp]
theorem respan_call (callee : Expr) (arguments : Arguments) (span : Span) :
    respan f (Expr.call callee arguments span)
      = .call (respan f callee) (respan f arguments) (f span) := rfl

@[simp]
theorem respan_member (object : Expr) (name : Identifier) (span : Span) :
    respan f (Expr.member object name span)
      = .member (respan f object) (respan f name) (f span) := rfl

@[simp]
theorem respan_index (base : Expr) (index : Option Expr) (span : Span) :
    respan f (Expr.index base index span) = .index (respan f base) (respan f index) (f span) := by
  rw [← respanOption_eq]
  rfl

@[simp]
theorem respan_slice (base : Expr) (lower upper : Option Expr) (span : Span) :
    respan f (Expr.slice base lower upper span)
      = .slice (respan f base) (respan f lower) (respan f upper) (f span) := by
  rw [← respanOption_eq f lower, ← respanOption_eq f upper]
  rfl

@[simp]
theorem respan_tuple (elements : List (Option Expr)) (span : Span) :
    respan f (Expr.tuple elements span) = .tuple (respan f elements) (f span) := by
  rw [← respanPlaces_eq]
  rfl

@[simp]
theorem respan_inlineArray (elements : List Expr) (span : Span) :
    respan f (Expr.inlineArray elements span) = .inlineArray (respan f elements) (f span) := by
  rw [← respanExprs_eq]
  rfl

@[simp]
theorem respan_struct (type : Expr) (fields : List NamedArgument) (span : Span) :
    respan f (Expr.struct type fields span) = .struct (respan f type) (respan f fields) (f span) := by
  rw [← respanNamed_eq]
  rfl

@[simp]
theorem respan_new (type : TypeName) (span : Span) :
    respan f (Expr.new type span) = .new (respan f type) (f span) := rfl

@[simp]
theorem respan_cast (type : ElementaryTypeName) (argument : Expr) (span : Span) :
    respan f (Expr.cast type argument span) = .cast (respan f type) (respan f argument) (f span) := rfl

@[simp]
theorem respan_elementary (type : ElementaryTypeName) :
    respan f (Expr.elementary type) = .elementary (respan f type) := rfl

@[simp]
theorem respan_metaType (type : TypeName) (span : Span) :
    respan f (Expr.metaType type span) = .metaType (respan f type) (f span) := rfl

@[simp]
theorem respan_payable (arguments : Arguments) (span : Span) :
    respan f (Expr.payable arguments span) = .payable (respan f arguments) (f span) := rfl

@[simp]
theorem respan_parenthesized (inner : Expr) (span : Span) :
    respan f (Expr.parenthesized inner span) = .parenthesized (respan f inner) (f span) := rfl

@[simp]
theorem respan_literal (l : Literal) : respan f (Expr.literal l) = .literal (respan f l) := rfl

@[simp]
theorem respan_name (i : Identifier) :
    respan f (Expr.identifier i) = .identifier (respan f i) := rfl

@[simp]
theorem respan_positional (arguments : List Expr) (span : Span) :
    respan f (Arguments.positional arguments span) = .positional (respan f arguments) (f span) := by
  rw [← respanExprs_eq]
  rfl

@[simp]
theorem respan_named (arguments : List NamedArgument) (span : Span) :
    respan f (Arguments.named arguments span) = .named (respan f arguments) (f span) := by
  rw [← respanNamed_eq]
  rfl

@[simp]
theorem respan_namedArgument (name : Identifier) (value : Expr) (span : Span) :
    respan f (NamedArgument.mk name value span) = ⟨respan f name, respan f value, f span⟩ := rfl

@[simp]
theorem respan_elementaryType (type : ElementaryTypeName) :
    respan f (TypeName.elementary type) = .elementary (respan f type) := rfl

@[simp]
theorem respan_userDefined (path : Path) :
    respan f (TypeName.userDefined path) = .userDefined (respan f path) := rfl

@[simp]
theorem respan_mapping (key value : TypeName) (span : Span) :
    respan f (TypeName.mapping key value span)
      = .mapping (respan f key) (respan f value) (f span) := rfl

@[simp]
theorem respan_array (base : TypeName) (size : Option Expr) (span : Span) :
    respan f (TypeName.array base size span) = .array (respan f base) (respan f size) (f span) := by
  rw [← respanOption_eq]
  rfl

@[simp]
theorem respan_function (parameters returns : List Parameter)
    (attributes : List FunctionTypeAttribute) (span : Span) :
    respan f (TypeName.function parameters attributes returns span)
      = .function (respan f parameters) (respan f attributes) (respan f returns) (f span) := by
  rw [← respanParameters_eq f parameters, ← respanParameters_eq f returns]
  rfl

@[simp]
theorem respan_parameter (type : TypeName) (location : Option StorageLocation)
    (name : Option Identifier) (span : Span) :
    respan f (Parameter.mk type location name span)
      = ⟨respan f type, location, respan f name, f span⟩ := rfl

@[simp]
theorem Expr.span_respan (e : Expr) : (SolidityFrontend.respan f e).span = f e.span := by
  cases e with
  | literal l => cases l <;> rfl
  | _ => rfl

@[simp]
theorem TypeName.span_respan (t : TypeName) : (SolidityFrontend.respan f t).span = f t.span := by
  cases t <;> rfl

/-- An assignment may go to an expression wherever it stands. -/
@[simp]
theorem isAssignable_respan : ∀ e : Expr, (respan f e).isAssignable = e.isAssignable
  | .parenthesized inner _ => by
      rw [respan_parenthesized, Expr.isAssignable, Expr.isAssignable]
      exact isAssignable_respan inner
  | .binary .. | .unary .. | .update .. | .ternary .. | .assignment .. | .call .. | .member ..
  | .index .. | .slice .. | .tuple .. | .inlineArray .. | .struct .. | .new .. | .cast ..
  | .elementary _ | .metaType .. | .payable _ _ | .literal _ | .identifier _ => by
      simp [Expr.isAssignable]

end

end SolidityFrontend
