import SolidityFrontend.Proofs.Granting

/-!
# The fragments of expressions and type names stand

Each level of the grammar of expressions and type names grants that all fragments of its values stand,
if the level of nesting below it does: the parts are granted by the parsers that read them, and what is
put together from them is read alone, since its own run is echoed and completed by the parsers of the
outermost level.
-/

namespace SolidityFrontend

open SolidityFrontend.Parser

theorem Expr.fragments_eq (e : Expr) : e.fragments = .expr e :: e.fragments.tail := by
  cases e <;> simp [Expr.fragments]

theorem TypeName.fragments_eq (T : TypeName) : T.fragments = .typeName T :: T.fragments.tail := by
  cases T <;> simp [TypeName.fragments]

/-! ### Levels of nesting -/

namespace Nested

/-- The level below the outermost one. -/
def inner : Nested := .ofDepth (nestingLimit - 1)

theorem full_eq : full = inner.above := rfl

/-- The level lies below the outermost one. -/
structure Within (d : Nested) : Prop where
  sound : d.Sound
  echoed : ∀ H, d.EchoedWhole H inner

theorem within_ofDepth {n : Nat} (h : n < nestingLimit) : (ofDepth n).Within :=
  ⟨sound_ofDepth n, fun _ => echoedWhole_ofDepth (Nat.le_sub_one_of_lt h)⟩

/-- All fragments that the parsers of the level read stand. -/
structure Granted (V : List Lexeme) (d : Nested) : Prop where
  expression : ∀ c, Grants V c d.expression fun e => Stand V e.fragments
  operand : ∀ c, Grants V c d.operand fun e => Stand V e.fragments
  exponent : ∀ c, Grants V c d.exponent fun e => Stand V e.fragments
  typeName : ∀ c, Grants V c d.typeName fun T => Stand V T.fragments
  statement : ∀ c, c.structLiterals = true → Grants V c d.statement fun x => Stand V x.fragments

end Nested

namespace Parser

variable {α : Type} [Placed α] {V : List Lexeme} {c : Context} {p p' : Parser α} {L : α → Phrase}
  {F : α → Fragment} {P : Setting → Proviso α} {j : Nat}

/-- What a parser reads stands as a fragment, if its run is echoed by a parser that the outermost level
completes. -/
theorem grants_stands (hreads : Reads False p L) (hL : ∀ x, L x ≤ Phrase.covered (F x).span ⊤)
    (hechoes : ∀ ts vs, Echoes (.ofPrefix ts [] vs) (P (.ofPrefix ts [] vs)) anywhere j 0 p p')
    (hP : ∀ ts x t, P (.ofPrefix ts [] t.rest) x c t)
    (halone : ∀ x ts, Alone p' x ts → (F x).Alone ts) : Grants V c p fun x => (F x).Stands V where
  onward := (hechoes [] []).onward
  grants {_ x t} hs hx ht :=
    Fragment.stands_of_reached hs (hreads.effect_ok hs.ordered hx) (hL x) fun _ hts =>
      halone x _ ((hechoes _ t.rest).alone hx (hP _ x t) trivial hts hs.errors ht)

end Parser

namespace Grammar

variable {V : List Lexeme} {c : Context} {d : Nested}

/-! ### Type names -/

theorem grants_typeName_stands {p p' : Parser TypeName} {L : TypeName → Phrase}
    (hreads : Reads False p L) (hL : ∀ T, L T ≤ T.phrase)
    (hechoes : ∀ H : Setting, H.Mild 0 → Echoes H always anywhere 1 0 p p')
    (hcompletes : Completes p' (typeName .inner)) :
    Grants V c p fun T => (Fragment.typeName T).Stands V :=
  grants_stands (P := fun _ => always) hreads (fun T => (hL T).trans T.phrase_le)
    (fun _ _ => hechoes _ Setting.calm_ofPrefix.mild) (fun _ _ _ => trivial)
    fun _ _ hT => hcompletes.alone hT

theorem grants_mappingKey : Grants V c mappingKey fun T => Stand V T.fragments := by
  have hparts : Grants V c mappingKey fun T => Stand V T.fragments.tail := by
    refine grants_next fun next => ?_
    split
    · exact (onward_elementaryTypeName false).bind_grants fun _ =>
        grants_pure (by simp [Stand, TypeName.fragments])
    · exact onward_path.bind_grants fun _ => grants_pure (by simp [Stand, TypeName.fragments])
    · exact grants_here fun _ => grants_violation _ _
  refine (hparts.and (grants_typeName_stands reads_mappingKey (fun _ => Phrase.such_le)
    (fun H hH => echoes_mappingKey hH) (completes_baseType.trans completes_typeName))).mono ?_
  rintro T ⟨hinner, hT⟩
  rw [T.fragments_eq]
  exact List.forall_mem_cons.2 ⟨hT, hinner⟩

section

variable (hd : d.Granted V)
include hd

theorem grants_parameter : Grants V c (parameter d) fun p => Stand V p.type.fragments :=
  grants_here fun _ => (hd.typeName c).bind fun _ => onward_storageLocation?.bind_grants fun _ =>
    onward_identifier?.bind_grants fun _ => grants_spanFrom fun _ => grants_pure id

theorem grants_parameters : Grants V c (parameters d) fun ps => Stand V (parameterFragments ps) := by
  refine grants_symbol fun _ => grants_if_accept (grants_pure (by simp)) ?_
  refine (grants_separated (grants_parameter hd)).bind fun ps => grants_symbol fun _ => ?_
  exact grants_pure forall_parameterFragments.2

theorem grants_returnParameters :
    Grants V c (returnParameters d) fun ps => Stand V (parameterFragments ps) :=
  grants_if_accept (grants_parameters hd) (grants_pure (by simp))

theorem grants_mappingType : Grants V c (mappingType d) fun T => Stand V T.fragments.tail := by
  refine grants_keyword fun _ => grants_symbol fun _ => grants_mappingKey.bind fun key => ?_
  refine grants_symbol fun _ => (hd.typeName c).bind fun value => grants_symbol fun _ => ?_
  refine grants_spanFrom fun _ => grants_pure fun hvalue hkey => ?_
  rw [TypeName.fragments]
  exact List.forall_mem_append.2 ⟨hkey, hvalue⟩

theorem grants_functionType : Grants V c (functionType d) fun T => Stand V T.fragments.tail := by
  refine grants_keyword fun _ => (grants_parameters hd).bind fun ps => ?_
  refine onward_functionTypeAttributes.bind_grants fun _ => ?_
  refine (grants_returnParameters hd).bind fun returns => grants_spanFrom fun _ => ?_
  refine grants_pure fun hreturns hps => ?_
  rw [TypeName.fragments]
  exact List.forall_mem_append.2 ⟨hps, hreturns⟩

theorem grants_baseType (hw : d.Within) : Grants V c (baseType d) fun T => Stand V T.fragments := by
  have hparts : Grants V c (baseType d) fun T => Stand V T.fragments.tail := by
    refine grants_next fun next => ?_
    split
    · exact (onward_elementaryTypeName true).bind_grants fun _ =>
        grants_pure (by simp [Stand, TypeName.fragments])
    · exact grants_mappingType hd
    · exact grants_functionType hd
    · exact onward_path.bind_grants fun _ => grants_pure (by simp [Stand, TypeName.fragments])
    · exact grants_unexpected _
  refine (hparts.and (grants_typeName_stands (reads_baseType hw.sound) (fun _ => le_rfl)
    (fun H hH => echoes_baseType (hw.echoed H).toEchoed hH) completes_typeName)).mono ?_
  rintro T ⟨hinner, hT⟩
  rw [T.fragments_eq]
  exact List.forall_mem_cons.2 ⟨hT, hinner⟩

/-- The brackets of an array add it and its size. -/
theorem grants_arraySuffix? (T : TypeName) : Grants V c (arraySuffix? d T) fun o =>
    ∀ U ∈ o, Stand V T.fragments → Stand V U.fragments.tail := by
  refine grants_if_accept ?_ grants_none
  have hclose (size : Option Expr) : Grants V c (symbol .rightBracket >>= fun _ =>
      spanFrom T.span >>= fun span => pure (some (TypeName.array T size span))) fun o =>
      Stand V (optionFragments size) → ∀ U ∈ o, Stand V T.fragments → Stand V U.fragments.tail := by
    refine grants_symbol fun _ => grants_spanFrom fun span => grants_pure ?_
    intro hsize U hU hT
    obtain rfl := Option.some.inj hU
    rw [TypeName.fragments]
    exact List.forall_mem_append.2 ⟨hT, hsize⟩
  refine grants_if_nextIs ((grants_pure (by simp)).bind hclose) (Grants.bind ?_ hclose)
  exact (hd.expression c).map fun e he => by simpa using he

theorem grants_typeName (hw : d.Within) : Grants V c (typeName d) fun T => Stand V T.fragments := by
  have hrounds (ts : List Token) (vs : List Lexeme) {T T' : TypeName} (h : Alike T T') :=
    rounds_arraySuffix? (k := 0) (hw.echoed (.ofPrefix ts [] vs)).toEchoed
      (Setting.calm_ofPrefix.lacks (by decide)) h
  refine grants_iterate (Q := fun T => Stand V T.fragments.tail) (grants_baseType hd hw)
    (fun T => (grants_arraySuffix? (c := c) hd T).onward)
    (fun T _ _ _ h => (hrounds [] [] rfl).strides _ _ _ _ h)
    (fun T hT _ _ _ hs h ht => (grants_arraySuffix? hd T).grants hs h ht _ rfl hT)
    fun {s T u U t} hs hT hsteps ht hinner => ?_
  rw [U.fragments_eq]
  refine List.forall_mem_cons.2 ⟨?_, hinner⟩
  refine Fragment.stands_of_reached hs (hsteps.reached hs.ordered
    ((reads_baseType hw.sound).effect_ok hs.ordered hT) fun T => after_arraySuffix? hw.sound T)
    U.phrase_le fun ts hts => ?_
  exact alone_of_steps (I := anywhere)
    (echoes_baseType (hw.echoed _).toEchoed Setting.calm_ofPrefix.mild)
    (fun _ _ h => hrounds _ _ h) suffices_atLast (fun _ _ _ _ => trivial)
    (fun h => arraySuffix?_of_ne (h.head_ne (by decide))) hT hsteps trivial hts hs.errors ht trivial

/-! ### Arguments -/

theorem onward_expression (c : Context) : Onward d.expression := (hd.expression c).onward

theorem grants_inside : Grants V c (inside d) fun e => Stand V e.fragments :=
  (hd.expression _).structLiterals (onward_expression hd c)

theorem grants_namedArgument : Grants V c (namedArgument d) fun a => Stand V a.value.fragments :=
  onward_identifier.bind_grants fun _ => grants_symbol fun _ => (hd.expression c).bind fun _ =>
    grants_spanFrom fun _ => grants_pure id

theorem grants_namedArguments :
    Grants V c (namedArguments d) fun as => Stand V (namedFragments as) := by
  have hlist (c : Context) : Grants V c (symbol .leftBrace >>= fun _ =>
      commaItems .rightBrace (namedArgument d) >>= fun as => symbol .rightBrace >>= fun _ => pure as)
      fun as => Stand V (namedFragments as) :=
    grants_symbol fun _ => (grants_commaItems (grants_namedArgument hd)).bind fun _ =>
      grants_symbol fun _ => grants_pure forall_namedFragments.2
  exact (hlist _).structLiterals (hlist c).onward

theorem grants_callArguments : Grants V c (callArguments d) fun as => Stand V as.fragments := by
  refine grants_symbol fun _ => grants_if_nextIs ?_ ?_
  · refine (grants_namedArguments hd).bind fun as => grants_symbol fun _ => ?_
    refine grants_spanFrom fun _ => grants_pure fun has => ?_
    rwa [Arguments.fragments]
  · have hcontinues : Onward argumentsContinue :=
      (echoes_argumentsContinue (H := .ofPrefix [] [] []) (I := anywhere) (k := 0)).onward
    refine (grants_itemsUntil (grants_inside hd) hcontinues).bind fun as => grants_symbol fun _ => ?_
    refine grants_spanFrom fun _ => grants_pure fun has => ?_
    rw [Arguments.fragments]
    exact forall_exprFragments.2 has

theorem grants_callArguments? :
    Grants V c (callArguments? d) fun o => ∀ as ∈ o, Stand V as.fragments :=
  grants_if_nextIs (grants_callArguments hd).some grants_none

/-! ### Primary expressions -/

theorem grants_elementaryExpr :
    Grants V c (elementaryExpr d) fun e => Stand V e.fragments.tail := by
  refine (onward_elementaryTypeName false).bind_grants fun type => grants_if_accept ?_ ?_
  · refine (grants_inside hd).bind fun argument => grants_symbol fun _ => grants_spanFrom fun _ => ?_
    exact grants_pure fun h => by rwa [Expr.fragments]
  · exact grants_pure (by simp [Stand, Expr.fragments])

theorem grants_payableExpr : Grants V c (payableExpr d) fun e => Stand V e.fragments.tail := by
  refine (onward_take _ _).bind_grants fun _ => (grants_callArguments hd).bind fun as => ?_
  exact grants_spanFrom fun _ => grants_pure fun h => by rwa [Expr.fragments]

theorem grants_metaTypeExpr : Grants V c (metaTypeExpr d) fun e => Stand V e.fragments.tail := by
  refine (onward_take _ _).bind_grants fun _ => grants_symbol fun _ => (hd.typeName c).bind fun _ => ?_
  exact grants_symbol fun _ => grants_spanFrom fun _ => grants_pure fun h => by rwa [Expr.fragments]

theorem grants_newExpr : Grants V c (newExpr d) fun e => Stand V e.fragments.tail := by
  refine grants_keyword fun _ => (hd.typeName c).bind fun _ => grants_spanFrom fun _ => ?_
  exact grants_pure fun h => by rwa [Expr.fragments]

omit hd in
theorem grants_tuplePlace {α : Type} {item : Parser α} {P : α → Prop} (h : Grants V c item P) :
    Grants V c (tuplePlace item) fun o => ∀ x ∈ o, P x :=
  grants_if_nextIs grants_none (grants_if_nextIs grants_none h.some)

theorem grants_parenthesizedOrTuple :
    Grants V c (parenthesizedOrTuple d) fun e => Stand V e.fragments.tail := by
  refine grants_symbol fun _ => grants_if_accept ?_ ?_
  · exact grants_spanFrom fun _ => grants_pure (by simp [Stand, Expr.fragments, placeFragments])
  refine (grants_separated (grants_tuplePlace (grants_inside hd))).bind fun elements => ?_
  refine grants_symbol fun _ => grants_spanFrom fun span => ?_
  split
  · refine grants_pure fun h => ?_
    rw [Expr.fragments]
    exact h _ (List.mem_singleton_self _) _ rfl
  · refine grants_pure fun h => ?_
    rw [Expr.fragments]
    exact forall_placeFragments.2 h

theorem grants_inlineArray : Grants V c (inlineArray d) fun e => Stand V e.fragments.tail := by
  refine grants_symbol fun _ => (grants_commaItems (grants_inside hd)).bind fun elements => ?_
  refine grants_symbol fun _ => grants_spanFrom fun _ => grants_pure fun h => ?_
  rw [Expr.fragments]
  exact forall_exprFragments.2 h

theorem grants_identifierExpr (name : String) :
    Grants V c (identifierExpr d name) fun e => Stand V e.fragments.tail := by
  have hname : Grants V c (identifier >>= fun i => pure (.identifier i))
      fun e : Expr => Stand V e.fragments.tail :=
    onward_identifier.bind_grants fun _ => grants_pure (by simp [Stand, Expr.fragments])
  refine (peeks_peek 1).looks.onward.bind_grants fun _ => Grants.ite ?_ hname
  exact (grants_payableExpr hd).ite ((grants_metaTypeExpr hd).ite hname)

omit hd in
theorem Completes.alone_expr {p : Parser Expr} {e : Expr} {ts : List Token}
    (h : Completes p (expression .inner)) (he : Alone p e ts) : (Fragment.expr e).Alone ts := by
  rw [Fragment.Alone, Nested.full_eq]
  exact h.alone he

omit hd in
/-- An expression stands with its parts. -/
theorem grants_expr {p p' : Parser Expr} {L : Expr → Phrase}
    (hparts : Grants V c p fun e => Stand V e.fragments.tail)
    (hreads : Reads False p L) (hL : ∀ e, L e ≤ e.phrase)
    (hechoes : ∀ H : Setting, H.Calm 0 → Echoes H (fun _ => uncut H) anywhere 1 0 p p')
    (hcompletes : Completes p' (expression .inner)) : Grants V c p fun e => Stand V e.fragments := by
  have hwhole : Grants V c p fun e => (Fragment.expr e).Stands V :=
    grants_stands (P := fun H _ => uncut H) hreads (fun e => (hL e).trans e.phrase_le)
      (fun _ _ => hechoes _ Setting.calm_ofPrefix) (fun _ _ _ => .inr (.inr le_rfl))
      fun _ _ he => Completes.alone_expr hcompletes he
  refine (hparts.and hwhole).mono ?_
  rintro e ⟨hinner, he⟩
  rw [e.fragments_eq]
  exact List.forall_mem_cons.2 ⟨he, hinner⟩

omit hd in
/-- Nothing goes on behind the operands of a tier where nothing is left. -/
theorem completes_tiers {tiers : List (List BinaryOp)} (h : tiers <:+ BinaryOp.tiers) :
    Completes (binaryExpr .inner tiers) (expression .inner) :=
  fun he ht => completes_expression (completes_conditionalExpr (completes_binaryExpr h he ht) ht) ht

omit hd in
theorem completes_unary : Completes (unaryExpr .inner) (expression .inner) :=
  fun he ht => completes_tiers List.nil_suffix (completes_powerExpr he ht) ht

omit hd in
theorem completes_suffixed : Completes (suffixedExpr .inner) (expression .inner) :=
  fun he ht => completes_unary (completes_unaryExpr he ht) ht

theorem grants_primaryExpr (hw : d.Within) :
    Grants V c (primaryExpr d) fun e => Stand V e.fragments := by
  refine grants_expr ?_ (reads_primaryExpr hw.sound) (fun _ => Phrase.such_le)
    (fun H hH => (echoes_primaryExpr (hw.echoed H).toEchoed hH).proviso fun _ _ _ _ => trivial)
    (completes_suffixedExpr.trans completes_suffixed)
  refine grants_next fun next => ?_
  rcases next with _ | a
  · exact grants_unexpected _
  dsimp only
  cases hp : literal? a with
  | some p =>
    have honward : Onward p :=
      (echoes_literal (H := .ofPrefix [] [] []) (I := anywhere) (k := 0) Setting.calm_ofPrefix hp).onward
    exact honward.bind_grants fun _ => grants_pure (by simp [Stand, Expr.fragments])
  | none =>
    dsimp only
    split
    · exact grants_identifierExpr hd _
    · exact grants_elementaryExpr hd
    · exact grants_newExpr hd
    · exact grants_parenthesizedOrTuple hd
    · exact grants_inlineArray hd
    · exact grants_unexpected _

/-! ### What follows a primary expression -/

theorem grants_bound? (stop : Symbol) :
    Grants V c (bound? d stop) fun o => ∀ e ∈ o, Stand V e.fragments :=
  grants_if_nextIs grants_none (grants_inside hd).some

theorem grants_indexOrSlice (base : Expr) : Grants V c (indexOrSlice d base) fun e =>
    Stand V base.fragments → Stand V e.fragments.tail := by
  refine grants_symbol fun _ => grants_if_accept ?_ ?_
  · refine grants_spanFrom fun _ => grants_pure fun hbase => ?_
    rw [Expr.fragments]
    simpa [Stand, optionFragments] using hbase
  refine (grants_bound? hd .colon).bind fun lower => grants_if_accept ?_ ?_
  · refine (grants_bound? hd .rightBracket).bind fun upper => grants_symbol fun _ => ?_
    refine grants_spanFrom fun _ => grants_pure fun hupper hlower hbase => ?_
    rw [Expr.fragments]
    exact List.forall_mem_append.2 ⟨List.forall_mem_append.2 ⟨hbase,
      forall_optionFragments.2 hlower⟩, forall_optionFragments.2 hupper⟩
  · refine grants_symbol fun _ => grants_spanFrom fun _ => grants_pure fun hlower hbase => ?_
    rw [Expr.fragments]
    exact List.forall_mem_append.2 ⟨hbase, forall_optionFragments.2 hlower⟩

/-- Named fields add their values. -/
theorem grants_structFields? (e : Expr) : Grants V c (structFields? d e) fun o =>
    ∀ x ∈ o, Stand V e.fragments → Stand V x.fragments.tail where
  onward := onward_structFields? (grants_namedArguments (c := c) hd).onward
  grants {s o t} hs ho ht x hx he := by
    obtain rfl : o = some x := hx
    rw [structFields?_eq] at ho
    rcases hfields : namedArguments d c s with ⟨error | fields, u⟩ <;> rw [hfields] at ho
    · simp at ho
    dsimp only at ho
    split at ho
    · obtain ⟨span, v, hspan, hpure⟩ := bind_eq_ok ho
      obtain ⟨heq, rfl⟩ := pure_eq_ok hpure
      obtain rfl := Option.some.inj heq
      have hu := (onward_spanFrom e.span).errors_eq_empty hspan ht
      rw [Expr.fragments]
      exact List.forall_mem_append.2 ⟨he, (grants_namedArguments hd).grants hs hfields hu⟩
    · simp at ho

theorem grants_suffix? (e : Expr) : Grants V c (suffix? d e) fun o =>
    ∀ x ∈ o, Stand V e.fragments → Stand V x.fragments.tail := by
  refine grants_next fun next => ?_
  split
  · exact (grants_indexOrSlice hd e).some
  · refine onward_advance.bind_grants fun _ => onward_identifier.bind_grants fun name => ?_
    refine grants_spanFrom fun _ => grants_pure fun x hx he => ?_
    obtain rfl := Option.some.inj hx
    rwa [Expr.fragments]
  · refine (grants_callArguments hd).bind fun as => grants_spanFrom fun _ => grants_pure ?_
    intro has x hx he
    obtain rfl := Option.some.inj hx
    rw [Expr.fragments]
    exact List.forall_mem_append.2 ⟨he, has⟩
  · refine peeks_fieldsBegin.looks.onward.bind_grants fun _ => ?_
    exact (grants_structFields? hd e).ite (grants_pure (by simp))
  · split
    · refine onward_advance.bind_grants fun _ => grants_spanFrom fun _ => grants_pure ?_
      intro x hx he
      obtain rfl := Option.some.inj hx
      rwa [Expr.fragments]
    · exact grants_pure (by simp)
  · exact grants_pure (by simp)

theorem grants_suffixedExpr (hw : d.Within) :
    Grants V c (suffixedExpr d) fun e => Stand V e.fragments := by
  have hrounds (ts : List Token) (vs : List Lexeme) {e e' : Expr} (h : Alike e e') :=
    rounds_suffix? (k := 0) (hw.echoed (.ofPrefix ts [] vs)).toEchoed Setting.calm_ofPrefix h
  refine grants_iterate (Q := fun e => Stand V e.fragments.tail) (grants_primaryExpr hd hw)
    (fun e => (grants_suffix? (c := c) hd e).onward)
    (fun e _ _ _ h => (hrounds [] [] rfl).strides _ _ _ _ h)
    (fun e he _ _ _ hs h ht => (grants_suffix? hd e).grants hs h ht _ rfl he)
    fun {s e u x t} hs he hsteps ht hinner => ?_
  rw [x.fragments_eq]
  refine List.forall_mem_cons.2 ⟨?_, hinner⟩
  refine Fragment.stands_of_reached (L := Phrase.such (x.tier = 13) x.phrase) hs
    (hsteps.reached (L := fun e => Phrase.such (e.tier = 13) e.phrase) hs.ordered
      ((reads_primaryExpr hw.sound).effect_ok hs.ordered he)
      fun e => after_such fun htier => after_suffix? hw.sound htier)
    (Phrase.such_le.trans x.phrase_le) fun ts hts => Completes.alone_expr completes_suffixed ?_
  exact alone_of_steps (I := anywhere)
    (echoes_primaryExpr (hw.echoed _).toEchoed Setting.calm_ofPrefix)
    (fun _ _ h => hrounds _ _ h) suffices_atLast (fun _ _ _ _ => trivial)
    suffix?_of_ended he hsteps trivial hts hs.errors ht (.inr (.inr le_rfl))

/-! ### Operators -/

theorem grants_unaryExpr (hw : d.Within) : Grants V c (unaryExpr d) fun e => Stand V e.fragments := by
  refine grants_expr ?_ (reads_unaryExpr hw.sound) (fun _ => Phrase.such_le)
    (fun H hH => echoes_unaryExpr (hw.echoed H).toEchoed hH) completes_unary
  have hsuffixed : Grants V c (suffixedExpr d) fun e => Stand V e.fragments.tail :=
    (grants_suffixedExpr hd hw).mono fun e he f hf => he f (List.mem_of_mem_tail hf)
  refine grants_here fun _ => grants_next fun next => ?_
  rcases next with _ | a
  · exact hsuffixed
  dsimp only
  split
  · refine onward_advance.bind_grants fun _ => (hd.operand c).bind fun _ => ?_
    exact grants_spanFrom fun _ => grants_pure fun h => by rwa [Expr.fragments]
  · refine onward_advance.bind_grants fun _ => (hd.operand c).bind fun _ => ?_
    exact grants_spanFrom fun _ => grants_pure fun h => by rwa [Expr.fragments]
  · exact hsuffixed

omit hd in
theorem stand_binary {left right : Expr} (op : BinaryOp) (hleft : Stand V left.fragments)
    (hright : Stand V right.fragments) : Stand V (binary left op right).fragments.tail := by
  rw [binary, Expr.fragments]
  exact List.forall_mem_append.2 ⟨hleft, hright⟩

theorem grants_powerExpr (hw : d.Within) : Grants V c (powerExpr d) fun e => Stand V e.fragments := by
  refine grants_expr ?_ (reads_powerExpr hw.sound) (fun _ => Phrase.such_le)
    (fun H hH => echoes_powerExpr (hw.echoed H).toEchoed hH) (completes_tiers List.nil_suffix)
  refine (grants_unaryExpr hd hw).bind fun base => grants_if_accept ?_ ?_
  · exact (hd.exponent c).bind fun _ => grants_pure fun he hbase => stand_binary .pow hbase he
  · exact grants_pure fun hbase f hf => hbase f (List.mem_of_mem_tail hf)

omit hd in
/-- An operator adds its right operand. -/
theorem grants_operatorStep {ops : List BinaryOp} {operand : Parser Expr}
    (h : Grants V c operand fun e => Stand V e.fragments) (left : Expr) :
    Grants V c (operatorStep ops operand left) fun o =>
      ∀ x ∈ o, Stand V left.fragments → Stand V x.fragments.tail := by
  refine grants_next fun next => ?_
  split
  · refine onward_advance.bind_grants fun _ => h.bind fun right => grants_pure ?_
    intro hright x hx hleft
    obtain rfl := Option.some.inj hx
    exact stand_binary _ hleft hright
  · exact grants_pure (by simp)

theorem grants_binaryExpr (hw : d.Within) : ∀ (n : Nat) (tiers : List (List BinaryOp)),
    BinaryOp.Climbs n tiers → tiers <:+ BinaryOp.tiers →
      Grants V c (binaryExpr d tiers) fun e => Stand V e.fragments
  | _, [], _, _ => grants_powerExpr hd hw
  | n, ops :: tighter, hclimbs, htiers => by
    have hoperand := grants_binaryExpr hw (n + 1) tighter hclimbs.2
      ((List.suffix_cons ops tighter).trans htiers)
    obtain ⟨hn, hreads⟩ := reads_binaryExpr (q := False) hw.sound (n + 1) tighter hclimbs.2
    have hrounds (ts : List Token) (vs : List Lexeme) {e e' : Expr} (h : Alike e e') :
        Rounds (.ofPrefix ts [] vs) (fun _ => uncut _) 0
          (operatorStep ops (binaryExpr d tighter) e)
          (operatorStep ops (binaryExpr .inner tighter) e') :=
      rounds_chainStep Setting.calm_ofPrefix
        (echoes_binaryExpr (hw.echoed (.ofPrefix ts [] vs)).toEchoed Setting.calm_ofPrefix tighter) h
    refine grants_iterate (Q := fun e => Stand V e.fragments.tail) hoperand
      (fun e => (grants_operatorStep hoperand e).onward)
      (fun e _ _ _ h => (hrounds [] [] rfl).strides _ _ _ _ h)
      (fun e he _ _ _ hs h ht => (grants_operatorStep hoperand e).grants hs h ht _ rfl he)
      fun {s e u x t} hs he hsteps ht hinner => ?_
    rw [x.fragments_eq]
    refine List.forall_mem_cons.2 ⟨?_, hinner⟩
    refine Fragment.stands_of_reached (L := Phrase.such (n ≤ x.tier) x.phrase) hs
      (hsteps.reached (L := fun e => Phrase.such (n ≤ e.tier) e.phrase) hs.ordered
        ((hreads.mono fun e => such_tier_mono n.le_succ e).effect_ok hs.ordered he)
        fun e => after_operator hclimbs.1 (by omega) hreads e)
      (Phrase.such_le.trans x.phrase_le)
      fun ts hts => Completes.alone_expr (completes_tiers htiers) ?_
    exact alone_of_steps (I := anywhere)
      (echoes_binaryExpr (hw.echoed _).toEchoed Setting.calm_ofPrefix tighter)
      (fun _ _ h => hrounds _ _ h) (suffices_uncut chainStep_of_brace) (fun _ _ _ => id)
      operatorStep_of_ended he hsteps trivial hts hs.errors ht (.inr (.inr le_rfl))

theorem grants_conditionalExpr (hw : d.Within) :
    Grants V c (conditionalExpr d) fun e => Stand V e.fragments := by
  refine grants_expr ?_ (reads_conditionalExpr hw.sound) (fun _ => le_rfl)
    (fun H hH => echoes_conditionalExpr (hw.echoed H).toEchoed hH) completes_expression
  refine (grants_binaryExpr hd hw 1 _ BinaryOp.climbs_tiers List.suffix_rfl).bind fun condition => ?_
  refine grants_if_accept ?_ (grants_pure fun h f hf => h f (List.mem_of_mem_tail hf))
  refine (grants_inside hd).bind fun ifTrue => grants_symbol fun _ => ?_
  refine (hd.expression c).bind fun ifFalse => grants_pure fun hfalse htrue hcondition => ?_
  rw [Expr.fragments]
  exact List.forall_mem_append.2 ⟨List.forall_mem_append.2 ⟨hcondition, htrue⟩, hfalse⟩

theorem grants_expression (hw : d.Within) :
    Grants V c (expression d) fun e => Stand V e.fragments := by
  refine grants_expr ?_ (reads_expression hw.sound) (fun _ => le_rfl)
    (fun H hH => echoes_expression (hw.echoed H).toEchoed hH) fun h _ => h
  refine (grants_conditionalExpr hd hw).bind fun left => grants_next fun next => ?_
  split
  · exact grants_pure fun h f hf => h f (List.mem_of_mem_tail hf)
  · refine onward_advance.bind_grants fun _ => Grants.ite ?_ (grants_violation _ _)
    refine (hd.expression c).bind fun right => grants_pure fun hright hleft => ?_
    rw [Expr.fragments]
    exact List.forall_mem_append.2 ⟨hleft, hright⟩

end

end Grammar

end SolidityFrontend
