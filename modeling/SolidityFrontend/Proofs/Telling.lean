import SolidityFrontend.Proofs.Decoding
import SolidityFrontend.Proofs.Drawing
import SolidityFrontend.Proofs.Legible
import SolidityFrontend.Proofs.Wording
import SolidityFrontend.Proofs.Yielding

/-!
# Trees tell their syntax

The tree of an expression or a type name keeps all of it but the places of the parts of strings: its
kind tells the constructor, its value the operator or the word, and each field the operands in their
order. A string is told by its characters where its bytes are text. So two fragments that are read and
have the same S-expression are the same but for spans (`Session.eq_of_sexp_eq`).
-/

namespace SolidityFrontend

open Node Text SolidityFrontend.Parser

/-! ### Syntax without places -/

def StringLiteral.bare (l : StringLiteral) : StringLiteral :=
  { l with parts := [], span := .origin }

def Literal.bare : Literal → Literal
  | .string l => .string l.bare
  | .hexString l => .hexString l.bare
  | .unicodeString l => .unicodeString l.bare
  | .number l => .number { l with span := .origin }
  | .boolean value _ => .boolean value .origin

mutual

/-- The expression without its spans and without the places of the parts of its strings. -/
def Expr.bare : Expr → Expr
  | .binary left op right _ => .binary left.bare op right.bare .origin
  | .unary op operand _ => .unary op operand.bare .origin
  | .update op fixity operand _ => .update op fixity operand.bare .origin
  | .ternary c a b _ => .ternary c.bare a.bare b.bare .origin
  | .assignment left op right _ => .assignment left.bare op right.bare .origin
  | .call callee arguments _ => .call callee.bare arguments.bare .origin
  | .member object name _ => .member object.bare (erase name) .origin
  | .index base index _ => .index base.bare (bareOption index) .origin
  | .slice base lower upper _ => .slice base.bare (bareOption lower) (bareOption upper) .origin
  | .tuple elements _ => .tuple (barePlaces elements) .origin
  | .inlineArray elements _ => .inlineArray (bareExprs elements) .origin
  | .struct type fields _ => .struct type.bare (bareNamed fields) .origin
  | .new type _ => .new type.bare .origin
  | .cast type argument _ => .cast (erase type) argument.bare .origin
  | .elementary type => .elementary (erase type)
  | .metaType type _ => .metaType type.bare .origin
  | .payable arguments _ => .payable arguments.bare .origin
  | .parenthesized inner _ => .parenthesized inner.bare .origin
  | .literal l => .literal l.bare
  | .identifier i => .identifier (erase i)

def Arguments.bare : Arguments → Arguments
  | .positional arguments _ => .positional (bareExprs arguments) .origin
  | .named arguments _ => .named (bareNamed arguments) .origin

def NamedArgument.bare : NamedArgument → NamedArgument
  | ⟨name, value, _⟩ => ⟨erase name, value.bare, .origin⟩

/-- The type name without its spans and without the places of the parts of its strings. -/
def TypeName.bare : TypeName → TypeName
  | .elementary type => .elementary (erase type)
  | .userDefined path => .userDefined (erase path)
  | .mapping key value _ => .mapping key.bare value.bare .origin
  | .array base size _ => .array base.bare (bareOption size) .origin
  | .function ps attributes rs _ =>
    .function (bareParameters ps) (erase attributes) (bareParameters rs) .origin

def Parameter.bare : Parameter → Parameter
  | ⟨type, location, name, _⟩ => ⟨type.bare, location, erase name, .origin⟩

def bareOption : Option Expr → Option Expr
  | none => none
  | some e => some e.bare

def barePlaces : List (Option Expr) → List (Option Expr)
  | [] => []
  | e :: es => bareOption e :: barePlaces es

def bareExprs : List Expr → List Expr
  | [] => []
  | e :: es => e.bare :: bareExprs es

def bareNamed : List NamedArgument → List NamedArgument
  | [] => []
  | a :: as => a.bare :: bareNamed as

def bareParameters : List Parameter → List Parameter
  | [] => []
  | p :: ps => p.bare :: bareParameters ps

end

/-! ### Fields -/

namespace Node

/-- The nodes in a field among children. -/
def inField (name : String) (children : List (String × Node)) : List Node :=
  (children.filter (·.1 == name)).map Prod.snd

variable {name field : String} {xs ys : List (String × Node)}

@[simp] theorem inField_append : inField name (xs ++ ys) = inField name xs ++ inField name ys := by
  simp [inField]

@[simp] theorem inField_several (ns : List Node) :
    inField name (several field ns) = if field == name then ns else [] := by
  rw [inField, several, List.filter_map, List.map_map]
  have hfield : (fun c => c.1 == name) ∘ Prod.mk field = fun _ : Node => field == name := rfl
  rw [hfield]
  split
  case isTrue h => rw [List.filter_eq_self.2 fun _ _ => h]; exact List.map_id ns
  case isFalse h => rw [List.filter_eq_nil_iff.2 fun _ _ => h]; rfl

@[simp] theorem inField_one (n : Node) :
    inField name (one field n) = if field == name then [n] else [] := inField_several [n]

@[simp] theorem inField_maybe (o : Option Node) :
    inField name (maybe field o) = if field == name then o.toList else [] := by
  cases o with
  | none => exact inField_several []
  | some n => exact inField_several [n]

theorem erase_eq_iff {kind kind' : String} {span span' : Span} {value value' : Option String} :
    erase (Node.mk kind span value xs) = erase (Node.mk kind' span' value' ys)
      ↔ kind = kind' ∧ value = value' ∧ erase xs = erase ys := by
  simp [erase]

/-- Children that are alike are alike in every field. -/
theorem map_erase_inField (h : erase xs = erase ys) (name : String) :
    (inField name xs).map erase = (inField name ys).map erase := by
  have herase (zs : List (String × Node)) :
      inField name (erase zs) = (inField name zs).map erase := by
    rw [erase, respan_list, inField, List.filter_map, List.map_map, inField, List.map_map]
    rfl
  rw [← herase, h, herase]

end Node

/-- The kind of the nodes that an expression becomes; one for all kinds of literals. -/
def Expr.sort : Expr → String
  | .binary .. => "binary_expression"
  | .unary .. => "unary_expression"
  | .update .. => "update_expression"
  | .ternary .. => "ternary_expression"
  | .assignment .. => "assignment_expression"
  | .call .. => "call_expression"
  | .member .. => "member_expression"
  | .index .. => "array_access"
  | .slice .. => "slice_access"
  | .tuple .. => "tuple_expression"
  | .inlineArray .. => "inline_array_expression"
  | .struct .. => "struct_expression"
  | .new .. => "new_expression"
  | .cast .. => "type_cast_expression"
  | .elementary .. => "primitive_type"
  | .metaType .. => "meta_type_expression"
  | .payable .. => "payable_conversion_expression"
  | .parenthesized .. => "parenthesized_expression"
  | .literal .. => "literal"
  | .identifier .. => "identifier"

/-- The sort of expressions that become nodes of a kind. -/
def sortOfKind (kind : String) : String :=
  if ["string_literal", "hex_string_literal", "unicode_string_literal", "number_literal",
    "boolean_literal"].contains kind then "literal" else kind

theorem Expr.sort_eq (e : Expr) : e.sort = sortOfKind e.toNode.kind := by
  cases e with
  | literal l => cases l <;> rw [Expr.toNode] <;> rfl
  | _ => rw [Expr.toNode]; rfl

theorem Node.kind_eq_of_erase_eq {m n : Node} (h : erase m = erase n) : m.kind = n.kind := by
  obtain ⟨kind, span, value, xs⟩ := m
  obtain ⟨kind', span', value', ys⟩ := n
  exact (erase_eq_iff.1 h).1

/-- Expressions that become nodes of one kind have the same constructor. -/
theorem Expr.sort_eq_of_erase_eq {e e' : Expr} (h : erase e.toNode = erase e'.toNode) :
    e.sort = e'.sort := by
  rw [sort_eq, sort_eq, kind_eq_of_erase_eq h]

/-! ### Literals -/

/-- Whether a string in characters is text. -/
def Literal.isText : Literal → Bool
  | .string l | .unicodeString l => (Utf8.decode l.bytes).toOption.isSome
  | _ => true

/-- What has to be known of a literal for its text to tell it: it is spelt as the lexical rules say,
and a string in characters is text. -/
def Literal.Told (l : Literal) : Prop := l.Spelt ∧ l.isText

theorem StringLiteral.bare_eq {l m : StringLiteral} (hvalue : l.value = m.value)
    (hbytes : l.bytes = m.bytes) : l.bare = m.bare := by
  rw [bare, bare, hvalue, hbytes]

theorem StringLiteral.bytes_eq {l m : StringLiteral}
    (hl : l.value = String.ofList (Utf8.decodeLossy l.bytes))
    (hm : m.value = String.ofList (Utf8.decodeLossy m.bytes))
    (hl' : (Utf8.decode l.bytes).toOption.isSome) (hm' : (Utf8.decode m.bytes).toOption.isSome)
    (h : l.value = m.value) : l.bytes = m.bytes := by
  have hdecode {bytes : List UInt8} (h : (Utf8.decode bytes).toOption.isSome) :
      ∃ cs, Utf8.decode bytes = .ok cs := by
    cases hcs : Utf8.decode bytes with
    | error f => simp [hcs, Except.toOption] at h
    | ok cs => exact ⟨cs, rfl⟩
  obtain ⟨cs, hcs⟩ := hdecode hl'
  obtain ⟨ds, hds⟩ := hdecode hm'
  rw [hl, hm] at h
  exact Utf8.eq_of_decodeLossy_eq hcs hds (String.ofList_injective h)

theorem Literal.bare_eq {l m : Literal} (hl : l.Told) (hm : m.Told)
    (h : erase l.toNode = erase m.toNode) : l.bare = m.bare := by
  cases l with
  | string l =>
    cases m with
    | string m =>
      simp only [toNode, leaf, erase_eq_iff, Option.some.injEq, true_and] at h
      have hbytes := StringLiteral.bytes_eq hl.1 hm.1 hl.2 hm.2 h.1
      simp only [bare, StringLiteral.bare_eq h.1 hbytes]
    | _ => simp [toNode, leaf, erase_eq_iff] at h
  | unicodeString l =>
    cases m with
    | unicodeString m =>
      simp only [toNode, leaf, erase_eq_iff, Option.some.injEq, true_and] at h
      have hbytes := StringLiteral.bytes_eq hl.1 hm.1 hl.2 hm.2 h.1
      simp only [bare, StringLiteral.bare_eq h.1 hbytes]
    | _ => simp [toNode, leaf, erase_eq_iff] at h
  | hexString l =>
    cases m with
    | hexString m =>
      simp only [toNode, leaf, erase_eq_iff, Option.some.injEq, true_and] at h
      have hbytes : l.bytes = m.bytes := by rw [hl.1, hm.1, h.1]
      simp only [bare, StringLiteral.bare_eq h.1 hbytes]
    | _ => simp [toNode, leaf, erase_eq_iff] at h
  | number l =>
    cases m with
    | number m =>
      simp only [toNode, leaf, erase_eq_iff, Option.some.injEq, true_and] at h
      obtain ⟨hvalue, hkind, hunit⟩ := NumberLiteral.text_injective hl.1 hm.1 h.1
      simp only [bare, hvalue, hkind, hunit]
    | _ => simp [toNode, leaf, erase_eq_iff] at h
  | boolean x span =>
    cases m with
    | boolean y span' => cases x <;> cases y <;> first | rfl | simp [toNode, leaf, erase_eq_iff] at h
    | _ => simp [toNode, leaf, erase_eq_iff] at h

/-! ### Expressions and type names -/

/-- The literal that a part is. -/
def Part.literal? : Part → Option Literal
  | .expr (.literal l) => some l
  | _ => none

/-- Every literal among parts has a property. -/
def AllLiterals (P : Literal → Prop) (parts : List Part) : Prop :=
  ∀ p ∈ parts, ∀ l ∈ p.literal?, P l

instance (P : Literal → Prop) [DecidablePred P] (parts : List Part) :
    Decidable (AllLiterals P parts) := inferInstanceAs (Decidable (∀ p ∈ parts, _))

variable {P : Literal → Prop} {ps qs : List Part}

@[simp] theorem allLiterals_nil : AllLiterals P [] := by simp [AllLiterals]

@[simp] theorem allLiterals_append :
    AllLiterals P (ps ++ qs) ↔ AllLiterals P ps ∧ AllLiterals P qs := by
  simp only [AllLiterals, List.mem_append, or_imp, forall_and]

/-- An expression that is no literal has those of its operands. -/
theorem AllLiterals.tail {e : Expr} (h : AllLiterals P (.expr e :: ps)) : AllLiterals P ps :=
  fun p hp => h p (List.mem_cons_of_mem _ hp)

theorem Identifier.erase_eq {i j : Identifier} (h : erase i.toNode = erase j.toNode) :
    erase i = erase j := by
  obtain ⟨name, span⟩ := i
  obtain ⟨name', span'⟩ := j
  simp only [toNode, leaf, erase_eq_iff, Option.some.injEq, true_and] at h
  simp [erase, h.1]

theorem Identifier.map_erase_eq {is js : List Identifier}
    (h : (is.map toNode).map erase = (js.map toNode).map erase) : erase is = erase js := by
  induction is generalizing js with
  | nil =>
    cases js with
    | nil => rfl
    | cons j js => simp at h
  | cons i is ih =>
    cases js with
    | nil => simp at h
    | cons j js =>
      simp only [List.map_cons, List.cons.injEq] at h
      rw [erase, respan_cons, erase, respan_cons]
      exact congrArg₂ _ (erase_eq h.1) (ih h.2)

theorem Path.erase_eq {p q : Path} (h : erase p.toNode = erase q.toNode) : erase p = erase q := by
  obtain ⟨is, span⟩ := p
  obtain ⟨js, span'⟩ := q
  simp only [toNode, erase_eq_iff] at h
  have hsegments := Identifier.map_erase_eq (by simpa using map_erase_inField h.2.2 "segments")
  simp only [erase, respan_path] at hsegments ⊢
  rw [hsegments]

theorem ElementaryTypeName.erase_eq {t u : ElementaryTypeName}
    (h : erase t.toNode = erase u.toNode) : erase t = erase u := by
  obtain ⟨kind, span⟩ := t
  obtain ⟨kind', span'⟩ := u
  simp only [toNode, leaf, erase_eq_iff, Option.some.injEq, true_and] at h
  simp [erase, ElementaryType.text_injective h.1]

theorem FunctionTypeAttribute.map_erase_eq {as bs : List FunctionTypeAttribute}
    (h : (as.map toNode).map erase = (bs.map toNode).map erase) : erase as = erase bs := by
  have hone {a b : FunctionTypeAttribute} (h : erase a.toNode = erase b.toNode) :
      erase a = erase b := by
    cases a <;> cases b <;>
      simp only [toNode, Visibility.toNode, Mutability.toNode, leaf, erase_eq_iff,
        Option.some.injEq, true_and] at h
    · simp [erase, Visibility.text_injective h.1]
    · simp at h
    · simp at h
    · simp [erase, Mutability.text_injective h.1]
  induction as generalizing bs with
  | nil =>
    cases bs with
    | nil => rfl
    | cons b bs => simp at h
  | cons a as ih =>
    cases bs with
    | nil => simp at h
    | cons b bs =>
      simp only [List.map_cons, List.cons.injEq] at h
      rw [erase, respan_cons, erase, respan_cons]
      exact congrArg₂ _ (hone h.1) (ih h.2)

/-- No expression becomes the node of a vacant place. -/
theorem Expr.kind_ne_empty (e : Expr) : e.toNode.kind ≠ "empty" := by
  intro h
  have hsort := e.sort_eq
  rw [h] at hsort
  cases e <;> simp [sort, sortOfKind] at hsort

mutual

theorem Expr.bare_eq : ∀ e x : Expr, AllLiterals Literal.Told e.parts →
    AllLiterals Literal.Told x.parts → erase e.toNode = erase x.toNode → e.bare = x.bare
  | .binary l op r span, x, he, hx, h => by
    cases x with
    | binary l' op' r' span' =>
      simp only [Expr.parts] at he hx
      simp only [Expr.toNode, erase_eq_iff, Option.some.injEq] at h
      obtain ⟨hel, her⟩ := allLiterals_append.1 he.tail
      obtain ⟨hxl, hxr⟩ := allLiterals_append.1 hx.tail
      have hl := l.bare_eq l' hel hxl (by simpa using map_erase_inField h.2.2 "left")
      have hr := r.bare_eq r' her hxr (by simpa using map_erase_inField h.2.2 "right")
      simp only [Expr.bare, hl, hr, BinaryOp.text_injective h.2.1]
    | _ => simpa [Expr.sort] using Expr.sort_eq_of_erase_eq h
  | .unary op e span, x, he, hx, h => by
    cases x with
    | unary op' x span' =>
      simp only [Expr.parts] at he hx
      simp only [Expr.toNode, erase_eq_iff, Option.some.injEq] at h
      have hoperand := e.bare_eq x he.tail hx.tail
        (by simpa using map_erase_inField h.2.2 "operand")
      simp only [Expr.bare, hoperand, UnaryOp.text_injective h.2.1]
    | _ => simpa [Expr.sort] using Expr.sort_eq_of_erase_eq h
  | .update op fixity e span, x, he, hx, h => by
    cases x with
    | update op' fixity' x span' =>
      simp only [Expr.parts] at he hx
      simp only [Expr.toNode, erase_eq_iff, Option.some.injEq] at h
      have hoperand := e.bare_eq x he.tail hx.tail
        (by simpa using map_erase_inField h.2.2 "operand")
      obtain ⟨rfl, rfl⟩ := UpdateOp.textAt_injective h.2.1
      simp only [Expr.bare, hoperand]
    | _ => simpa [Expr.sort] using Expr.sort_eq_of_erase_eq h
  | .ternary c a b span, x, he, hx, h => by
    cases x with
    | ternary c' a' b' span' =>
      simp only [Expr.parts] at he hx
      simp only [Expr.toNode, erase_eq_iff] at h
      obtain ⟨heca, heb⟩ := allLiterals_append.1 he.tail
      obtain ⟨hec, hea⟩ := allLiterals_append.1 heca
      obtain ⟨hxca, hxb⟩ := allLiterals_append.1 hx.tail
      obtain ⟨hxc, hxa⟩ := allLiterals_append.1 hxca
      have hc := c.bare_eq c' hec hxc (by simpa using map_erase_inField h.2.2 "condition")
      have ha := a.bare_eq a' hea hxa (by simpa using map_erase_inField h.2.2 "consequence")
      have hb := b.bare_eq b' heb hxb (by simpa using map_erase_inField h.2.2 "alternative")
      simp only [Expr.bare, hc, ha, hb]
    | _ => simpa [Expr.sort] using Expr.sort_eq_of_erase_eq h
  | .assignment l op r span, x, he, hx, h => by
    cases x with
    | assignment l' op' r' span' =>
      simp only [Expr.parts] at he hx
      simp only [Expr.toNode, erase_eq_iff, Option.some.injEq] at h
      obtain ⟨hel, her⟩ := allLiterals_append.1 he.tail
      obtain ⟨hxl, hxr⟩ := allLiterals_append.1 hx.tail
      have hl := l.bare_eq l' hel hxl (by simpa using map_erase_inField h.2.2 "left")
      have hr := r.bare_eq r' her hxr (by simpa using map_erase_inField h.2.2 "right")
      simp only [Expr.bare, hl, hr, AssignOp.text_injective h.2.1]
    | _ => simpa [Expr.sort] using Expr.sort_eq_of_erase_eq h
  | .call e a span, x, he, hx, h => by
    cases x with
    | call x b span' =>
      simp only [Expr.parts] at he hx
      simp only [Expr.toNode, erase_eq_iff] at h
      obtain ⟨hee, hea⟩ := allLiterals_append.1 he.tail
      obtain ⟨hxx, hxb⟩ := allLiterals_append.1 hx.tail
      have hcallee := e.bare_eq x hee hxx (by simpa using map_erase_inField h.2.2 "function")
      have harguments := a.bare_eq b hea hxb
        (by simpa using map_erase_inField h.2.2 "arguments")
      simp only [Expr.bare, hcallee, harguments]
    | _ => simpa [Expr.sort] using Expr.sort_eq_of_erase_eq h
  | .member e i span, x, he, hx, h => by
    cases x with
    | member x j span' =>
      simp only [Expr.parts] at he hx
      simp only [Expr.toNode, erase_eq_iff] at h
      have hobject := e.bare_eq x he.tail hx.tail
        (by simpa using map_erase_inField h.2.2 "object")
      have hname := Identifier.erase_eq (i := i) (j := j)
        (by simpa using map_erase_inField h.2.2 "property")
      simp only [Expr.bare, hobject, hname]
    | _ => simpa [Expr.sort] using Expr.sort_eq_of_erase_eq h
  | .index b i span, x, he, hx, h => by
    cases x with
    | index c j span' =>
      simp only [Expr.parts] at he hx
      simp only [Expr.toNode, erase_eq_iff] at h
      obtain ⟨heb, hei⟩ := allLiterals_append.1 he.tail
      obtain ⟨hxc, hxj⟩ := allLiterals_append.1 hx.tail
      have hbase := b.bare_eq c heb hxc (by simpa using map_erase_inField h.2.2 "base")
      have hindex := option_bare_eq i j hei hxj
        (by simpa using map_erase_inField h.2.2 "index")
      simp only [Expr.bare, hbase, hindex]
    | _ => simpa [Expr.sort] using Expr.sort_eq_of_erase_eq h
  | .slice b l u span, x, he, hx, h => by
    cases x with
    | slice c m v span' =>
      simp only [Expr.parts] at he hx
      simp only [Expr.toNode, erase_eq_iff] at h
      obtain ⟨hebl, heu⟩ := allLiterals_append.1 he.tail
      obtain ⟨heb, hel⟩ := allLiterals_append.1 hebl
      obtain ⟨hxcm, hxv⟩ := allLiterals_append.1 hx.tail
      obtain ⟨hxc, hxm⟩ := allLiterals_append.1 hxcm
      have hbase := b.bare_eq c heb hxc (by simpa using map_erase_inField h.2.2 "base")
      have hlower := option_bare_eq l m hel hxm (by simpa using map_erase_inField h.2.2 "from")
      have hupper := option_bare_eq u v heu hxv (by simpa using map_erase_inField h.2.2 "to")
      simp only [Expr.bare, hbase, hlower, hupper]
    | _ => simpa [Expr.sort] using Expr.sort_eq_of_erase_eq h
  | .tuple es span, x, he, hx, h => by
    cases x with
    | tuple xs span' =>
      simp only [Expr.parts] at he hx
      simp only [Expr.toNode, erase_eq_iff, slots] at h
      have helements := places_bare_eq es xs he.tail hx.tail
        (by simpa using map_erase_inField h.2.2 "elements")
      simp only [Expr.bare, helements]
    | _ => simpa [Expr.sort] using Expr.sort_eq_of_erase_eq h
  | .inlineArray es span, x, he, hx, h => by
    cases x with
    | inlineArray xs span' =>
      simp only [Expr.parts] at he hx
      simp only [Expr.toNode, erase_eq_iff] at h
      have helements := exprs_bare_eq es xs he.tail hx.tail
        (by simpa using map_erase_inField h.2.2 "elements")
      simp only [Expr.bare, helements]
    | _ => simpa [Expr.sort] using Expr.sort_eq_of_erase_eq h
  | .struct e as span, x, he, hx, h => by
    cases x with
    | struct x bs span' =>
      simp only [Expr.parts] at he hx
      simp only [Expr.toNode, erase_eq_iff] at h
      obtain ⟨hee, hea⟩ := allLiterals_append.1 he.tail
      obtain ⟨hxx, hxb⟩ := allLiterals_append.1 hx.tail
      have htype := e.bare_eq x hee hxx (by simpa using map_erase_inField h.2.2 "type")
      have hfields := named_bare_eq as bs hea hxb
        (by simpa using map_erase_inField h.2.2 "fields")
      simp only [Expr.bare, htype, hfields]
    | _ => simpa [Expr.sort] using Expr.sort_eq_of_erase_eq h
  | .new t span, x, he, hx, h => by
    cases x with
    | new u span' =>
      simp only [Expr.parts] at he hx
      simp only [Expr.toNode, erase_eq_iff] at h
      have htype := t.bare_eq u he.tail hx.tail (by simpa using map_erase_inField h.2.2 "type")
      simp only [Expr.bare, htype]
    | _ => simpa [Expr.sort] using Expr.sort_eq_of_erase_eq h
  | .cast t e span, x, he, hx, h => by
    cases x with
    | cast u x span' =>
      simp only [Expr.parts] at he hx
      simp only [Expr.toNode, erase_eq_iff] at h
      have htype := ElementaryTypeName.erase_eq (t := t) (u := u)
        (by simpa using map_erase_inField h.2.2 "type")
      have hargument := e.bare_eq x he.tail hx.tail
        (by simpa using map_erase_inField h.2.2 "argument")
      simp only [Expr.bare, htype, hargument]
    | _ => simpa [Expr.sort] using Expr.sort_eq_of_erase_eq h
  | .elementary t, x, he, hx, h => by
    cases x with
    | elementary u =>
      simp only [Expr.toNode] at h
      simp only [Expr.bare, ElementaryTypeName.erase_eq h]
    | _ => simpa [Expr.sort] using Expr.sort_eq_of_erase_eq h
  | .metaType t span, x, he, hx, h => by
    cases x with
    | metaType u span' =>
      simp only [Expr.parts] at he hx
      simp only [Expr.toNode, erase_eq_iff] at h
      have htype := t.bare_eq u he.tail hx.tail (by simpa using map_erase_inField h.2.2 "type")
      simp only [Expr.bare, htype]
    | _ => simpa [Expr.sort] using Expr.sort_eq_of_erase_eq h
  | .payable a span, x, he, hx, h => by
    cases x with
    | payable b span' =>
      simp only [Expr.parts] at he hx
      simp only [Expr.toNode, erase_eq_iff] at h
      have harguments := a.bare_eq b he.tail hx.tail
        (by simpa using map_erase_inField h.2.2 "arguments")
      simp only [Expr.bare, harguments]
    | _ => simpa [Expr.sort] using Expr.sort_eq_of_erase_eq h
  | .parenthesized e span, x, he, hx, h => by
    cases x with
    | parenthesized x span' =>
      simp only [Expr.parts] at he hx
      simp only [Expr.toNode, erase_eq_iff] at h
      have hinner := e.bare_eq x he.tail hx.tail
        (by simpa using map_erase_inField h.2.2 "expression")
      simp only [Expr.bare, hinner]
    | _ => simpa [Expr.sort] using Expr.sort_eq_of_erase_eq h
  | .literal l, x, he, hx, h => by
    cases x with
    | literal m =>
      simp only [Expr.parts] at he hx
      simp only [Expr.toNode] at h
      simp only [Expr.bare, Literal.bare_eq (he _ List.mem_cons_self l rfl)
        (hx _ List.mem_cons_self m rfl) h]
    | _ => simpa [Expr.sort] using Expr.sort_eq_of_erase_eq h
  | .identifier i, x, he, hx, h => by
    cases x with
    | identifier j =>
      simp only [Expr.toNode] at h
      simp only [Expr.bare, Identifier.erase_eq h]
    | _ => simpa [Expr.sort] using Expr.sort_eq_of_erase_eq h
termination_by structural e => e

theorem Arguments.bare_eq : ∀ a b : Arguments, AllLiterals Literal.Told a.parts →
    AllLiterals Literal.Told b.parts → erase a.toNode = erase b.toNode → a.bare = b.bare
  | .positional es span, b, ha, hb, h => by
    cases b with
    | positional xs span' =>
      simp only [Arguments.parts] at ha hb
      simp only [Arguments.toNode, erase_eq_iff] at h
      have harguments := exprs_bare_eq es xs ha hb
        (by simpa using map_erase_inField h.2.2 "arguments")
      simp only [Arguments.bare, harguments]
    | named bs span' => simp [Arguments.toNode, erase_eq_iff] at h
  | .named as span, b, ha, hb, h => by
    cases b with
    | positional xs span' => simp [Arguments.toNode, erase_eq_iff] at h
    | named bs span' =>
      simp only [Arguments.parts] at ha hb
      simp only [Arguments.toNode, erase_eq_iff] at h
      have harguments := named_bare_eq as bs ha hb
        (by simpa using map_erase_inField h.2.2 "arguments")
      simp only [Arguments.bare, harguments]
termination_by structural a => a

theorem NamedArgument.bare_eq : ∀ a b : NamedArgument, AllLiterals Literal.Told a.parts →
    AllLiterals Literal.Told b.parts → erase a.toNode = erase b.toNode → a.bare = b.bare
  | ⟨i, e, span⟩, ⟨j, x, span'⟩, ha, hb, h => by
    simp only [NamedArgument.parts] at ha hb
    simp only [NamedArgument.toNode, erase_eq_iff] at h
    have hname := Identifier.erase_eq (i := i) (j := j)
      (by simpa using map_erase_inField h.2.2 "name")
    have hvalue := e.bare_eq x ha hb (by simpa using map_erase_inField h.2.2 "value")
    simp only [NamedArgument.bare, hname, hvalue]
termination_by structural a => a

theorem TypeName.bare_eq : ∀ t u : TypeName, AllLiterals Literal.Told t.parts →
    AllLiterals Literal.Told u.parts → erase t.toNode = erase u.toNode → t.bare = u.bare
  | .elementary t, u, ht, hu, h => by
    cases u with
    | elementary u =>
      simp only [TypeName.toNode] at h
      simp only [TypeName.bare, ElementaryTypeName.erase_eq h]
    | _ => simp [TypeName.toNode, ElementaryTypeName.toNode, leaf, erase_eq_iff] at h
  | .userDefined p, u, ht, hu, h => by
    cases u with
    | userDefined q =>
      simp only [TypeName.toNode, erase_eq_iff] at h
      have hpath := Path.erase_eq (p := p) (q := q)
        (by simpa using map_erase_inField h.2.2 "path")
      simp only [TypeName.bare, hpath]
    | _ => simp [TypeName.toNode, ElementaryTypeName.toNode, leaf, erase_eq_iff] at h
  | .mapping k v span, u, ht, hu, h => by
    cases u with
    | mapping k' v' span' =>
      simp only [TypeName.parts] at ht hu
      simp only [TypeName.toNode, erase_eq_iff] at h
      obtain ⟨htk, htv⟩ := allLiterals_append.1 ht
      obtain ⟨huk, huv⟩ := allLiterals_append.1 hu
      have hkey := k.bare_eq k' htk huk (by simpa using map_erase_inField h.2.2 "key")
      have hvalue := v.bare_eq v' htv huv (by simpa using map_erase_inField h.2.2 "value")
      simp only [TypeName.bare, hkey, hvalue]
    | _ => simp [TypeName.toNode, ElementaryTypeName.toNode, leaf, erase_eq_iff] at h
  | .array t size span, u, ht, hu, h => by
    cases u with
    | array u size' span' =>
      simp only [TypeName.parts] at ht hu
      simp only [TypeName.toNode, erase_eq_iff] at h
      obtain ⟨htt, hts⟩ := allLiterals_append.1 ht
      obtain ⟨huu, hus⟩ := allLiterals_append.1 hu
      have hbase := t.bare_eq u htt huu (by simpa using map_erase_inField h.2.2 "base")
      have hsize := option_bare_eq size size' hts hus
        (by simpa using map_erase_inField h.2.2 "size")
      simp only [TypeName.bare, hbase, hsize]
    | _ => simp [TypeName.toNode, ElementaryTypeName.toNode, leaf, erase_eq_iff] at h
  | .function ps as rs span, u, ht, hu, h => by
    cases u with
    | function qs bs vs span' =>
      simp only [TypeName.parts] at ht hu
      simp only [TypeName.toNode, erase_eq_iff] at h
      obtain ⟨htp, htr⟩ := allLiterals_append.1 ht
      obtain ⟨huq, huv⟩ := allLiterals_append.1 hu
      have hparameters := parameters_bare_eq ps qs htp huq
        (by simpa using map_erase_inField h.2.2 "parameters")
      have hattributes : erase as = erase bs := FunctionTypeAttribute.map_erase_eq
        (by simpa using map_erase_inField h.2.2 "attributes")
      have hreturns := parameters_bare_eq rs vs htr huv
        (by simpa using map_erase_inField h.2.2 "returns")
      simp only [TypeName.bare, hparameters, hattributes, hreturns]
    | _ => simp [TypeName.toNode, ElementaryTypeName.toNode, leaf, erase_eq_iff] at h
termination_by structural t => t

theorem Parameter.bare_eq : ∀ p q : Parameter, AllLiterals Literal.Told p.parts →
    AllLiterals Literal.Told q.parts → erase p.toNode = erase q.toNode → p.bare = q.bare
  | ⟨t, location, name, span⟩, ⟨u, location', name', span'⟩, hp, hq, h => by
    simp only [Parameter.parts] at hp hq
    simp only [Parameter.toNode, erase_eq_iff] at h
    have htype := t.bare_eq u hp hq (by simpa using map_erase_inField h.2.2 "type")
    have hlocation : location = location' :=
      Option.map_injective (fun _ _ => StorageLocation.text_injective) h.2.1
    have hname : erase name = erase name' := by
      have hfield := map_erase_inField h.2.2 "name"
      cases name with
      | none =>
        cases name' with
        | none => rfl
        | some j => simp at hfield
      | some i =>
        cases name' with
        | none => simp at hfield
        | some j => exact congrArg some (Identifier.erase_eq (by simpa using hfield))
    simp only [Parameter.bare, htype, hlocation, hname]
termination_by structural p => p

theorem option_bare_eq : ∀ o o' : Option Expr, AllLiterals Literal.Told (optionParts o) →
    AllLiterals Literal.Told (optionParts o') →
    (optionNode o).toList.map erase = (optionNode o').toList.map erase →
      bareOption o = bareOption o'
  | none, none, _, _, _ => rfl
  | none, some x, _, _, h => by simp [optionNode] at h
  | some e, none, _, _, h => by simp [optionNode] at h
  | some e, some x, he, hx, h => by
    rw [optionParts] at he hx
    rw [bareOption, bareOption, e.bare_eq x he hx (by simpa [optionNode] using h)]
termination_by structural o => o

theorem places_bare_eq : ∀ (es xs : List (Option Expr)) {here here' : Span},
    AllLiterals Literal.Told (placeParts es) → AllLiterals Literal.Told (placeParts xs) →
    (places here (placeNodes es)).map erase = (places here' (placeNodes xs)).map erase →
      barePlaces es = barePlaces xs
  | [], [], _, _, _, _, _ => rfl
  | [], x :: xs, _, _, _, _, h => by simp [placeNodes, places] at h
  | e :: es, [], _, _, _, _, h => by simp [placeNodes, places] at h
  | e :: es, x :: xs, here, here', he, hx, h => by
    rw [placeParts, allLiterals_append] at he hx
    simp only [placeNodes, places, List.map_cons, List.cons.injEq] at h
    have hempty (y : Expr) (span : Span) : erase y.toNode ≠ erase (leaf "empty" span none) :=
      fun hy => y.kind_ne_empty (kind_eq_of_erase_eq hy)
    have hoption := option_bare_eq e x he.1 hx.1
    have hplace : bareOption e = bareOption x := by
      cases e with
      | none =>
        cases x with
        | none => rfl
        | some x => exact absurd h.1.symm (hempty x _)
      | some e =>
        cases x with
        | none => exact absurd h.1 (hempty e _)
        | some x => exact hoption (by simpa [optionNode] using h.1)
    rw [barePlaces, barePlaces, hplace, places_bare_eq es xs he.2 hx.2 h.2]
termination_by structural es => es

theorem exprs_bare_eq : ∀ es xs : List Expr, AllLiterals Literal.Told (exprParts es) →
    AllLiterals Literal.Told (exprParts xs) →
    (exprNodes es).map erase = (exprNodes xs).map erase → bareExprs es = bareExprs xs
  | [], [], _, _, _ => rfl
  | [], x :: xs, _, _, h => by simp [exprNodes] at h
  | e :: es, [], _, _, h => by simp [exprNodes] at h
  | e :: es, x :: xs, he, hx, h => by
    rw [exprParts, allLiterals_append] at he hx
    simp only [exprNodes, List.map_cons, List.cons.injEq] at h
    rw [bareExprs, bareExprs, e.bare_eq x he.1 hx.1 h.1, exprs_bare_eq es xs he.2 hx.2 h.2]
termination_by structural es => es

theorem named_bare_eq : ∀ as bs : List NamedArgument, AllLiterals Literal.Told (namedParts as) →
    AllLiterals Literal.Told (namedParts bs) →
    (namedNodes as).map erase = (namedNodes bs).map erase → bareNamed as = bareNamed bs
  | [], [], _, _, _ => rfl
  | [], b :: bs, _, _, h => by simp [namedNodes] at h
  | a :: as, [], _, _, h => by simp [namedNodes] at h
  | a :: as, b :: bs, ha, hb, h => by
    rw [namedParts, allLiterals_append] at ha hb
    simp only [namedNodes, List.map_cons, List.cons.injEq] at h
    rw [bareNamed, bareNamed, a.bare_eq b ha.1 hb.1 h.1, named_bare_eq as bs ha.2 hb.2 h.2]
termination_by structural as => as

theorem parameters_bare_eq : ∀ ps qs : List Parameter,
    AllLiterals Literal.Told (parameterParts ps) → AllLiterals Literal.Told (parameterParts qs) →
    (parameterNodes ps).map erase = (parameterNodes qs).map erase →
      bareParameters ps = bareParameters qs
  | [], [], _, _, _ => rfl
  | [], q :: qs, _, _, h => by simp [parameterNodes] at h
  | p :: ps, [], _, _, h => by simp [parameterNodes] at h
  | p :: ps, q :: qs, hp, hq, h => by
    rw [parameterParts, allLiterals_append] at hp hq
    simp only [parameterNodes, List.map_cons, List.cons.injEq] at h
    rw [bareParameters, bareParameters, p.bare_eq q hp.1 hq.1 h.1,
      parameters_bare_eq ps qs hp.2 hq.2 h.2]
termination_by structural ps => ps

end

/-! ### Words -/

/-- Kinds and fields are words, and the children have words below them. -/
theorem Node.worded_of_over {kind : String} {span : Span} {value : Option String}
    {children : List (String × Node)} (hkind : IsWord kind)
    (h : Over (fun field n => IsWord field ∧ n.Worded) children) :
    Worded ⟨kind, span, value, children⟩ := worded_node.2 ⟨hkind, h⟩

@[simp] theorem Node.worded_leaf {kind : String} {span : Span} {value : Option String} :
    (leaf kind span value).Worded ↔ IsWord kind := by
  simp [leaf, worded_node]

theorem Identifier.worded (i : Identifier) : i.toNode.Worded := Node.worded_leaf.2 (by decide)

theorem Path.worded (p : Path) : p.toNode.Worded := by
  refine worded_of_over (by decide) ?_
  simpa using fun i _ => ⟨by decide, i.worded⟩

theorem ElementaryTypeName.worded (t : ElementaryTypeName) : t.toNode.Worded :=
  Node.worded_leaf.2 (by decide)

theorem FunctionTypeAttribute.worded (a : FunctionTypeAttribute) : a.toNode.Worded := by
  cases a <;> exact Node.worded_leaf.2 (by decide)

theorem Literal.worded (l : Literal) : l.toNode.Worded := by
  cases l <;> exact Node.worded_leaf.2 (by decide)

mutual

theorem Expr.worded : ∀ e : Expr, e.toNode.Worded
  | .binary l op r span | .assignment l op r span => by
    rw [Expr.toNode]
    refine worded_of_over (by decide) ?_
    simp only [over_append, over_one]
    exact ⟨⟨by decide, l.worded⟩, by decide, r.worded⟩
  | .unary op e span | .update op fixity e span | .parenthesized e span => by
    rw [Expr.toNode]
    refine worded_of_over (by decide) ?_
    simp only [over_one]
    exact ⟨by decide, e.worded⟩
  | .ternary c a b span => by
    rw [Expr.toNode]
    refine worded_of_over (by decide) ?_
    simp only [over_append, over_one]
    exact ⟨⟨⟨by decide, c.worded⟩, by decide, a.worded⟩, by decide, b.worded⟩
  | .call e a span => by
    rw [Expr.toNode]
    refine worded_of_over (by decide) ?_
    simp only [over_append, over_one]
    exact ⟨⟨by decide, e.worded⟩, by decide, a.worded⟩
  | .member e i span => by
    rw [Expr.toNode]
    refine worded_of_over (by decide) ?_
    simp only [over_append, over_one]
    exact ⟨⟨by decide, e.worded⟩, by decide, i.worded⟩
  | .index b i span => by
    rw [Expr.toNode]
    refine worded_of_over (by decide) ?_
    simp only [over_append, over_one, over_maybe]
    exact ⟨⟨by decide, b.worded⟩, fun n hn => ⟨by decide, option_worded i n hn⟩⟩
  | .slice b l u span => by
    rw [Expr.toNode]
    refine worded_of_over (by decide) ?_
    simp only [over_append, over_one, over_maybe]
    exact ⟨⟨⟨by decide, b.worded⟩, fun n hn => ⟨by decide, option_worded l n hn⟩⟩,
      fun n hn => ⟨by decide, option_worded u n hn⟩⟩
  | .tuple es span => by
    rw [Expr.toNode]
    refine worded_of_over (by decide) (over_slots (fun _ => ⟨by decide, ?_⟩) fun o ho n hn => ?_)
    · exact Node.worded_leaf.2 (by decide)
    · exact ⟨by decide, places_worded es o ho n hn⟩
  | .inlineArray es span => by
    rw [Expr.toNode]
    refine worded_of_over (by decide) ?_
    simp only [over_several]
    exact fun n hn => ⟨by decide, exprs_worded es n hn⟩
  | .struct e as span => by
    rw [Expr.toNode]
    refine worded_of_over (by decide) ?_
    simp only [over_append, over_one, over_several]
    exact ⟨⟨by decide, e.worded⟩, fun n hn => ⟨by decide, named_worded as n hn⟩⟩
  | .new t span | .metaType t span => by
    rw [Expr.toNode]
    refine worded_of_over (by decide) ?_
    simp only [over_one]
    exact ⟨by decide, t.worded⟩
  | .cast t e span => by
    rw [Expr.toNode]
    refine worded_of_over (by decide) ?_
    simp only [over_append, over_one]
    exact ⟨⟨by decide, t.worded⟩, by decide, e.worded⟩
  | .elementary t => by rw [Expr.toNode]; exact t.worded
  | .payable a span => by
    rw [Expr.toNode]
    refine worded_of_over (by decide) ?_
    simp only [over_one]
    exact ⟨by decide, a.worded⟩
  | .literal l => by rw [Expr.toNode]; exact l.worded
  | .identifier i => by rw [Expr.toNode]; exact i.worded

theorem Arguments.worded : ∀ a : Arguments, a.toNode.Worded
  | .positional es span => by
    rw [Arguments.toNode]
    refine worded_of_over (by decide) ?_
    simp only [over_several]
    exact fun n hn => ⟨by decide, exprs_worded es n hn⟩
  | .named as span => by
    rw [Arguments.toNode]
    refine worded_of_over (by decide) ?_
    simp only [over_several]
    exact fun n hn => ⟨by decide, named_worded as n hn⟩

theorem NamedArgument.worded : ∀ a : NamedArgument, a.toNode.Worded
  | ⟨i, e, span⟩ => by
    rw [NamedArgument.toNode]
    refine worded_of_over (by decide) ?_
    simp only [over_append, over_one]
    exact ⟨⟨by decide, i.worded⟩, by decide, e.worded⟩

theorem TypeName.worded : ∀ t : TypeName, t.toNode.Worded
  | .elementary t => by rw [TypeName.toNode]; exact t.worded
  | .userDefined p => by
    rw [TypeName.toNode]
    refine worded_of_over (by decide) ?_
    simp only [over_one]
    exact ⟨by decide, p.worded⟩
  | .mapping k v span => by
    rw [TypeName.toNode]
    refine worded_of_over (by decide) ?_
    simp only [over_append, over_one]
    exact ⟨⟨by decide, k.worded⟩, by decide, v.worded⟩
  | .array t size span => by
    rw [TypeName.toNode]
    refine worded_of_over (by decide) ?_
    simp only [over_append, over_one, over_maybe]
    exact ⟨⟨by decide, t.worded⟩, fun n hn => ⟨by decide, option_worded size n hn⟩⟩
  | .function ps as rs span => by
    rw [TypeName.toNode]
    refine worded_of_over (by decide) ?_
    simp only [over_append, over_several, List.forall_mem_map]
    exact ⟨⟨fun n hn => ⟨by decide, parameters_worded ps n hn⟩, fun a _ => ⟨by decide, a.worded⟩⟩,
      fun n hn => ⟨by decide, parameters_worded rs n hn⟩⟩

theorem Parameter.worded : ∀ p : Parameter, p.toNode.Worded
  | ⟨t, location, name, span⟩ => by
    rw [Parameter.toNode]
    refine worded_of_over (by decide) ?_
    simp only [over_append, over_one, over_maybe, Option.mem_def, Option.map_eq_some_iff]
    refine ⟨⟨by decide, t.worded⟩, ?_⟩
    rintro _ ⟨i, -, rfl⟩
    exact ⟨by decide, i.worded⟩

theorem option_worded : ∀ e : Option Expr, ∀ n ∈ optionNode e, n.Worded
  | none, n, h => by simp [optionNode] at h
  | some e, n, h => by
    rw [optionNode, Option.mem_some_iff] at h
    exact h ▸ e.worded

theorem places_worded : ∀ es : List (Option Expr), ∀ o ∈ placeNodes es, ∀ n ∈ o, n.Worded
  | [], o, h, n, hn => by simp [placeNodes] at h
  | e :: es, o, h, n, hn => by
    rw [placeNodes, List.mem_cons] at h
    rcases h with rfl | h
    · exact option_worded e n hn
    · exact places_worded es o h n hn

theorem exprs_worded : ∀ es : List Expr, ∀ n ∈ exprNodes es, n.Worded
  | [], n, h => by simp [exprNodes] at h
  | e :: es, n, h => by
    rw [exprNodes, List.mem_cons] at h
    rcases h with rfl | h
    · exact e.worded
    · exact exprs_worded es n h

theorem named_worded : ∀ as : List NamedArgument, ∀ n ∈ namedNodes as, n.Worded
  | [], n, h => by simp [namedNodes] at h
  | a :: as, n, h => by
    rw [namedNodes, List.mem_cons] at h
    rcases h with rfl | h
    · exact a.worded
    · exact named_worded as n h

theorem parameters_worded : ∀ ps : List Parameter, ∀ n ∈ parameterNodes ps, n.Worded
  | [], n, h => by simp [parameterNodes] at h
  | p :: ps, n, h => by
    rw [parameterNodes, List.mem_cons] at h
    rcases h with rfl | h
    · exact p.worded
    · exact parameters_worded ps n h

end

/-! ### What is read from a source -/

/-- The literals in what the parsers yield are spelt as the lexical rules say. -/
def literalsTrait : Trait where
  suffixed e := AllLiterals Literal.Spelt e.parts
  operand e := AllLiterals Literal.Spelt e.parts
  tier _ e := AllLiterals Literal.Spelt e.parts
  conditional e := AllLiterals Literal.Spelt e.parts
  expression e := AllLiterals Literal.Spelt e.parts
  typeName t := AllLiterals Literal.Spelt t.parts

theorem allLiterals_flatMap {α : Type} {f : α → List Part} {xs : List α} :
    AllLiterals P (xs.flatMap f) ↔ ∀ x ∈ xs, AllLiterals P (f x) := by
  simp only [AllLiterals, List.mem_flatMap]
  exact ⟨fun h x hx p hp => h p ⟨x, hx, hp⟩, fun h p ⟨x, hx, hp⟩ => h x hx p hp⟩

theorem allLiterals_cons {e : Expr} :
    AllLiterals P (.expr e :: ps) ↔ (∀ l, e = .literal l → P l) ∧ AllLiterals P ps := by
  rw [AllLiterals, List.forall_mem_cons]
  cases e <;> simp [AllLiterals, Part.literal?]

theorem allLiterals_optionParts {o : Option Expr} :
    AllLiterals P (optionParts o) ↔ ∀ e ∈ o, AllLiterals P e.parts := by
  cases o <;> simp [optionParts]

theorem allLiterals_places {os : List (Option Expr)} :
    AllLiterals P (placeParts os) ↔ ∀ o ∈ os, ∀ e ∈ o, AllLiterals P e.parts := by
  rw [placeParts_eq, allLiterals_flatMap]
  refine forall₂_congr fun o _ => ?_
  cases o <;> simp

theorem allLiterals_named {as : List NamedArgument} :
    AllLiterals P (namedParts as) ↔ ∀ a ∈ as, AllLiterals P a.value.parts := by
  rw [namedParts_eq, allLiterals_flatMap]
  exact forall₂_congr fun a _ => by cases a; rw [NamedArgument.parts]

theorem allLiterals_arguments {a : Arguments} :
    AllLiterals P a.parts ↔ a.All fun e => AllLiterals P e.parts := by
  cases a with
  | positional es span =>
    rw [Arguments.parts, exprParts_eq, allLiterals_flatMap, Arguments.All]
  | named as span =>
    rw [Arguments.parts, allLiterals_named, Arguments.All]

theorem allLiterals_parameters {parameters : List Parameter} :
    AllLiterals P (parameterParts parameters) ↔ ∀ p ∈ parameters, AllLiterals P p.type.parts := by
  rw [parameterParts_eq, allLiterals_flatMap]
  exact forall₂_congr fun p _ => by cases p; rw [Parameter.parts]

theorem literalsTrait_extends : literalsTrait.Extends literalsTrait where
  literal hl := by simpa [literalsTrait, Expr.parts, allLiterals_cons] using hl
  identifier i := by simp [literalsTrait, Expr.parts, allLiterals_cons]
  elementary t := by simp [literalsTrait, Expr.parts, allLiterals_cons]
  cast t span he := by simpa [literalsTrait, Expr.parts, allLiterals_cons] using he
  payable span ha := by
    simpa [literalsTrait, Expr.parts, allLiterals_cons, allLiterals_arguments] using ha
  metaType span ht := by simpa [literalsTrait, Expr.parts, allLiterals_cons] using ht
  new span ht := by simpa [literalsTrait, Expr.parts, allLiterals_cons] using ht
  parenthesized span he := by simpa [literalsTrait, Expr.parts, allLiterals_cons] using he
  tuple span hes := by
    simpa [literalsTrait, Expr.parts, allLiterals_cons, allLiterals_places] using hes
  inlineArray span hes := by
    simpa [literalsTrait, Expr.parts, allLiterals_cons, exprParts_eq, allLiterals_flatMap]
      using hes
  index span hb hi := by
    simpa [literalsTrait, Expr.parts, allLiterals_cons, allLiterals_optionParts]
      using And.intro hb hi
  slice span hb hl hu := by
    simpa [literalsTrait, Expr.parts, allLiterals_cons, allLiterals_optionParts]
      using And.intro hb (And.intro hl hu)
  member i span he := by simpa [literalsTrait, Expr.parts, allLiterals_cons] using he
  call span he ha := by
    simpa [literalsTrait, Expr.parts, allLiterals_cons, allLiterals_arguments]
      using And.intro he ha
  struct span he hfields := by
    simpa [literalsTrait, Expr.parts, allLiterals_cons, allLiterals_named]
      using And.intro he hfields
  updateAfter op span he := by simpa [literalsTrait, Expr.parts, allLiterals_cons] using he
  operand he := he
  unary op span he := by simpa [literalsTrait, Expr.parts, allLiterals_cons] using he
  updateBefore op span he := by simpa [literalsTrait, Expr.parts, allLiterals_cons] using he
  power he := he
  powerOf span he he' := by
    simpa [literalsTrait, Expr.parts, allLiterals_cons] using And.intro he he'
  tier he := he
  binary span hop hl hr := by
    simpa [literalsTrait, Expr.parts, allLiterals_cons] using And.intro hl hr
  conditional he := he
  ternary span hc ha hb := by
    simpa [literalsTrait, Expr.parts, allLiterals_cons] using And.intro hc (And.intro ha hb)
  expression he := he
  assignment op span he he' := by
    simpa [literalsTrait, Expr.parts, allLiterals_cons] using And.intro he he'
  elementaryType t := by simp [literalsTrait, TypeName.parts]
  userDefined p := by simp [literalsTrait, TypeName.parts]
  mapping {k v} span hk hv := by
    have hkey : k.parts = [] := by cases k <;> simp_all [TypeName.isSimple, TypeName.parts]
    simpa [literalsTrait, TypeName.parts, hkey] using hv
  array span ht hsize := by
    simpa [literalsTrait, TypeName.parts, allLiterals_optionParts] using And.intro ht hsize
  function as span hps hrs := by
    simpa [literalsTrait, TypeName.parts, allLiterals_parameters] using And.intro hps hrs

/-- The strings in characters among the literals of parts are text. -/
def Literate (parts : List Part) : Prop := AllLiterals (·.isText) parts

instance (parts : List Part) : Decidable (Literate parts) := inferInstanceAs (Decidable (AllLiterals _ _))

theorem Literate.told (h : Literate ps) (hspelt : AllLiterals Literal.Spelt ps) :
    AllLiterals Literal.Told ps := fun p hp l hl => ⟨hspelt p hp l hl, h p hp l hl⟩

namespace Session

variable {source source' : String}

/-- What is read of a source as a whole has what the parser yields. -/
theorem of_whole {α : Type} {p : Parser α} {Q : α → Prop} (hp : p.Yields Q) {x : α}
    (h : ((ofSource source).run (whole p)).1 = .ok x) : Q x := by
  have hend : Onward endOfInput := peeks_atEnd.looks.onward.bind fun _ =>
    .ite (fun _ => onward_pure _) fun _ => onward_unexpected _
  have hwhole : (whole p).Yields Q := hp.bind fun x hx => hend.bind_yields fun _ => yields_pure hx
  have hspelt : (ofSource source).state.Spelt := tokenize_spelt source
  exact (hwhole _ _ _ _ hspelt (Prod.ext h rfl)).1

/-- Fragments with the same S-expression are the same but for their spans and the places of the parts
of strings. -/
theorem eq_of_sexp_eq (source source' : String) :
    (∀ e e' : Expr, (ofSource source).expression.1 = .ok e →
      (ofSource source').expression.1 = .ok e' → Literate e.parts → Literate e'.parts →
        e.toNode.sexp = e'.toNode.sexp → e.bare = e'.bare) ∧
    ∀ t t' : TypeName, (ofSource source).typeName.1 = .ok t →
      (ofSource source').typeName.1 = .ok t' → Literate t.parts → Literate t'.parts →
        t.toNode.sexp = t'.toNode.sexp → t.bare = t'.bare := by
  have hyields := Nested.yields_ofDepth (fun _ => literalsTrait_extends) nestingLimit
  constructor
  · intro e e' he he' htext htext' h
    have htree := Node.sexp_injective e.worded e'.worded h
    exact e.bare_eq e' (htext.told (of_whole hyields.expression he))
      (htext'.told (of_whole hyields.expression he')) htree
  · intro t t' ht ht' htext htext' h
    have htree := Node.sexp_injective t.worded t'.worded h
    exact t.bare_eq t' (htext.told (of_whole hyields.typeName ht))
      (htext'.told (of_whole hyields.typeName ht')) htree

/-- A string in two parts and in one, with other blanks around it. -/
theorem eq_of_sexp_eq_parts : ∃ e e', (ofSource "f(\"a\" \"b\")").expression.1 = .ok e
    ∧ (ofSource "f ( \"ab\" )").expression.1 = .ok e' ∧ Literate e.parts ∧ Literate e'.parts
    ∧ e.toNode.sexp = e'.toNode.sexp ∧ e.bare = e'.bare := by
  have heval : ((ofSource "f(\"a\" \"b\")").expression.1.toOption.bind fun e =>
      (ofSource "f ( \"ab\" )").expression.1.toOption.map fun e' =>
        decide (Literate e.parts ∧ Literate e'.parts ∧ e.toNode.sexp = e'.toNode.sexp))
      = some true := by
    rw [ofSource_ofList, ofSource_ofList]
    decide +kernel
  rcases he : (ofSource "f(\"a\" \"b\")").expression.1 with error | e
  · rw [he] at heval
    exact absurd heval.symm (Option.some_ne_none true)
  rcases he' : (ofSource "f ( \"ab\" )").expression.1 with error | e'
  · rw [he, he'] at heval
    simp [Except.toOption] at heval
  · rw [he, he'] at heval
    obtain ⟨htext, htext', hsexp⟩ := of_decide_eq_true (Option.some.inj heval)
    exact ⟨e, e', rfl, rfl, htext, htext', hsexp,
      (eq_of_sexp_eq _ _).1 e e' he he' htext htext' hsexp⟩

end Session

end SolidityFrontend
