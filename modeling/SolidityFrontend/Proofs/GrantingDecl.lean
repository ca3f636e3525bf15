import SolidityFrontend.Proofs.Composing
import SolidityFrontend.Proofs.GrantingStmt
import SolidityFrontend.Proofs.Steepness

/-!
# The fragments of a file stand

The grammar of declarations stands outside all levels of nesting; what it reads grants that its fragments
stand, since those of the outermost level do. Where the parser recovers from an error that is recorded,
so the items of a file without errors are granted as they were read.
-/

namespace SolidityFrontend

open SolidityFrontend.Parser

namespace Grammar

variable {V : List Lexeme} {c : Context}

/-! ### Functions -/

theorem grants_modifierInvocation :
    Grants V c (modifierInvocation .full) fun m => Stand V m.fragments := by
  refine onward_path.bind_grants fun p => (grants_callArguments? Nested.granted_full).bind fun o => ?_
  refine grants_spanFrom fun _ => grants_pure fun ho => ?_
  cases o with
  | none => simp [Stand, ModifierInvocation.fragments]
  | some as => exact ho as rfl

theorem functionAttribute?_fragments {w : String} {span : Span} {a : FunctionAttribute}
    (h : functionAttribute? w span = some a) : a.fragments = [] := by
  unfold functionAttribute? at h
  split at h
  · exact Option.some.inj h ▸ rfl
  · exact Option.some.inj h ▸ rfl
  · split at h
    · exact Option.some.inj h ▸ rfl
    · simp at h

theorem grants_functionAttributes : Grants V c (functionAttributes .full) fun as =>
    Stand V (as.flatMap FunctionAttribute.fragments) := by
  refine (grants_many (P := fun a : FunctionAttribute => Stand V a.fragments) ?_).mono
    fun as has f hf => ?_
  · refine grants_here fun span => peeks_nextWord.looks.onward.bind_grants fun o => ?_
    rcases o with _ | w
    · exact grants_none
    dsimp only
    cases ha : functionAttribute? w span with
    | some a =>
      refine onward_advance.bind_grants fun _ => grants_pure fun x hx => ?_
      obtain rfl := Option.some.inj hx
      simp [Stand, functionAttribute?_fragments ha]
    | none =>
      refine Grants.ite ?_ ?_
      · refine onward_overrideSpecifier.bind_grants fun o => grants_pure fun x hx => ?_
        obtain rfl := Option.some.inj hx
        simp [Stand, FunctionAttribute.fragments]
      · refine grants_modifierInvocation.bind fun m => grants_pure fun hm x hx => ?_
        obtain rfl := Option.some.inj hx
        exact hm
  · obtain ⟨a, ha, hf⟩ := List.mem_flatMap.1 hf
    exact has a ha f hf

theorem grants_functionBody (hc : c.structLiterals = true) :
    Grants V c (functionBody .full) fun b => Stand V (bodyFragments b) := by
  refine grants_if_accept (grants_pure (by simp [Stand, bodyFragments])) ?_
  exact (grants_block Nested.granted_full hc).bind fun _ => grants_pure id

/-- Parameters, attributes and a body grant the fragments of the whole. -/
theorem grants_signature {α : Type} {P : α → Prop}
    {rest : List Parameter → List FunctionAttribute → Parser α}
    (h : ∀ ps as, Grants V c (rest ps as) fun x => Stand V (signatureFragments ps as) → P x)
    {parameters : Parser (List Parameter)}
    (hps : Grants V c parameters fun ps => Stand V (parameterFragments ps)) :
    Grants V c (parameters >>= fun ps => functionAttributes .full >>= fun as => rest ps as) P :=
  hps.bind fun ps => grants_functionAttributes.bind fun as => (h ps as).mono fun _ hx has hps =>
    hx (List.forall_mem_append.2 ⟨hps, has⟩)

theorem grants_functionDefinition (hc : c.structLiterals = true) :
    Grants V c (functionDefinition .full) fun f => Stand V f.fragments := by
  refine grants_keyword fun _ => onward_identifier.bind_grants fun name => ?_
  refine grants_signature (fun ps as => ?_) (grants_parameters Nested.granted_full)
  refine (grants_returnParameters Nested.granted_full).bind fun returns => ?_
  refine (grants_functionBody hc).bind fun body => grants_spanFrom fun _ => grants_pure ?_
  exact fun hbody hreturns hsignature =>
    List.forall_mem_append.2 ⟨List.forall_mem_append.2 ⟨hsignature, hreturns⟩, hbody⟩

theorem grants_modifierDefinition (hc : c.structLiterals = true) :
    Grants V c (modifierDefinition .full) fun f => Stand V f.fragments := by
  refine grants_keyword fun start => onward_identifier.bind_grants fun name => ?_
  have hend (ps : List Parameter) : Grants V c (functionAttributes .full >>= fun as =>
      functionBody .full >>= fun inner => spanFrom start >>= fun span =>
        pure (⟨name, ps, as, inner, span⟩ : ModifierDefinition))
      fun f => Stand V (parameterFragments ps) → Stand V f.fragments := by
    refine grants_functionAttributes.bind fun as => (grants_functionBody hc).bind fun body => ?_
    exact grants_spanFrom fun _ => grants_pure fun hbody has hps =>
      List.forall_mem_append.2 ⟨List.forall_mem_append.2 ⟨hps, has⟩, hbody⟩
  refine grants_if_nextIs ((grants_parameters Nested.granted_full).bind hend) ?_
  exact (grants_pure (by simp)).bind hend

theorem grants_constructorDefinition (hc : c.structLiterals = true) :
    Grants V c (constructorDefinition .full) fun f => Stand V f.fragments := by
  refine grants_keyword fun _ => ?_
  refine grants_signature (fun ps as => ?_) (grants_parameters Nested.granted_full)
  refine (grants_functionBody hc).bind fun body => grants_spanFrom fun _ => grants_pure ?_
  exact fun hbody hsignature => List.forall_mem_append.2 ⟨hsignature, hbody⟩

theorem grants_fallbackRest (hc : c.structLiterals = true) (kind : FallbackKind) (start : Span) :
    Grants V c (fallbackRest .full kind start) fun f => Stand V f.fragments := by
  refine grants_signature (fun ps as => ?_) (grants_parameters Nested.granted_full)
  refine (grants_functionBody hc).bind fun body => grants_spanFrom fun _ => grants_pure ?_
  exact fun hbody hsignature => List.forall_mem_append.2 ⟨hsignature, hbody⟩

/-! ### Variables, structs, events and directives -/

theorem grants_stateVariable : Grants V c (stateVariable .full) fun v => Stand V v.fragments := by
  refine grants_here fun start => (Nested.granted_full.typeName c).bind fun type => ?_
  refine onward_variableAttributes.bind_grants fun as => onward_identifier.bind_grants fun name => ?_
  have hend (value : Option Expr) : Grants V c (symbol .semicolon >>= fun _ => spanFrom start >>=
      fun span => pure (⟨type, as, name, value, span⟩ : StateVariable))
      fun v => Stand V (optionFragments value) → Stand V type.fragments → Stand V v.fragments :=
    grants_symbol fun _ => grants_spanFrom fun _ => grants_pure fun hvalue htype =>
      List.forall_mem_append.2 ⟨htype, hvalue⟩
  refine grants_if_accept (Grants.bind ?_ hend) ((grants_pure (by simp)).bind hend)
  exact (Nested.granted_full.expression c).map fun e he => by simpa using he

theorem grants_constantDeclaration :
    Grants V c (constantDeclaration .full) fun v => Stand V v.fragments := by
  refine grants_here fun _ => (Nested.granted_full.typeName c).bind fun type => ?_
  refine (onward_take _ _).bind_grants fun _ => onward_identifier.bind_grants fun name => ?_
  refine grants_symbol fun _ => (Nested.granted_full.expression c).bind fun value => ?_
  exact grants_symbol fun _ => grants_spanFrom fun _ => grants_pure fun hvalue htype =>
    List.forall_mem_append.2 ⟨htype, hvalue⟩

theorem grants_structDeclaration :
    Grants V c (structDeclaration .full) fun x => Stand V x.fragments := by
  have hmember : Grants V c (structMember .full) fun m => Stand V m.type.fragments :=
    grants_here fun _ => (Nested.granted_full.typeName c).bind fun _ =>
      onward_identifier.bind_grants fun _ => grants_symbol fun _ => grants_spanFrom fun _ =>
        grants_pure id
  refine grants_keyword fun _ => onward_identifier.bind_grants fun name => grants_symbol fun _ => ?_
  refine (grants_itemsUntil hmember (onward_pure true)).bind fun members => grants_symbol fun _ => ?_
  have hpure (span : Span) : Grants V c (pure (⟨name, members, span⟩ : StructDeclaration))
      fun x => (∀ m ∈ members, Stand V m.type.fragments) → Stand V x.fragments :=
    grants_pure fun hmembers f hf => by
      obtain ⟨m, hm, hf⟩ := List.mem_flatMap.1 hf
      exact hmembers m hm f hf
  refine grants_spanFrom fun span => Grants.ite ?_ (hpure span)
  exact (onward_record _).bind_grants fun _ => hpure span

theorem grants_eventDefinition :
    Grants V c (eventDefinition .full) fun x => Stand V x.fragments := by
  have hparameter : Grants V c (eventParameter .full) fun p => Stand V p.type.fragments :=
    grants_here fun _ => (Nested.granted_full.typeName c).bind fun _ =>
      (onward_accept _).bind_grants fun _ => onward_identifier?.bind_grants fun _ =>
        grants_spanFrom fun _ => grants_pure id
  refine grants_keyword fun start => onward_identifier.bind_grants fun name => grants_symbol fun _ => ?_
  have hend (ps : List EventParameter) : Grants V c (symbol .rightParen >>= fun _ =>
      acceptWord "anonymous" >>= fun isAnonymous => symbol .semicolon >>= fun _ =>
        spanFrom start >>= fun span => pure (⟨name, ps, isAnonymous, span⟩ : EventDefinition))
      fun x => (∀ p ∈ ps, Stand V p.type.fragments) → Stand V x.fragments := by
    refine grants_symbol fun _ => (onward_accept _).bind_grants fun _ => grants_symbol fun _ => ?_
    refine grants_spanFrom fun _ => grants_pure fun hps f hf => ?_
    obtain ⟨p, hp, hf⟩ := List.mem_flatMap.1 hf
    exact hps p hp f hf
  exact grants_if_nextIs ((grants_pure (by simp)).bind hend) ((grants_separated hparameter).bind hend)

theorem grants_usingDirective : Grants V c (usingDirective .full) fun x => Stand V x.fragments := by
  have htarget : Grants V c (usingTarget .full) fun x => ∀ T, x = .type T → Stand V T.fragments :=
    grants_here fun _ => grants_if_accept (grants_pure (by simp))
      ((Nested.granted_full.typeName c).bind fun _ => grants_pure fun h _ hT =>
        UsingTarget.type.inj hT ▸ h)
  refine grants_keyword fun _ => onward_path.bind_grants fun _ => grants_keyword fun _ => ?_
  refine htarget.bind fun x => grants_symbol fun _ => grants_spanFrom fun _ => grants_pure fun hx => ?_
  cases x with
  | wildcard span => simp [Stand, UsingDirective.fragments]
  | type T => exact hx T rfl

/-! ### Contracts and files -/

theorem grants_member (hc : c.structLiterals = true) :
    Grants V c (member .full) fun m => Stand V m.fragments := by
  have hvariable : Grants V c (.stateVariable <$> stateVariable .full)
      fun m : Member => Stand V m.fragments := grants_stateVariable.map fun _ => id
  have hfallback (kind : FallbackKind) (start : Span) :
      Grants V c (fallbackRest .full kind start) fun f => Stand V f.fragments :=
    grants_fallbackRest hc kind start
  refine grants_next fun next => ?_
  split
  · refine (peeks_peek 1).looks.onward.bind_grants fun _ => Grants.ite ?_ ?_
    · exact grants_either hvariable ((grants_keyword fun start => hfallback _ start).map fun _ => id)
    · exact (grants_functionDefinition hc).bind fun _ => grants_pure id
  · exact (grants_modifierDefinition hc).bind fun _ => grants_pure id
  · exact (grants_constructorDefinition hc).bind fun _ => grants_pure id
  · exact grants_eventDefinition.bind fun _ => grants_pure id
  · exact grants_structDeclaration.bind fun _ => grants_pure id
  · exact onward_enumDeclaration.bind_grants fun _ => grants_pure (by simp [Stand, Member.fragments])
  · exact grants_usingDirective.bind fun _ => grants_pure id
  · refine (peeks_peek 1).looks.onward.bind_grants fun _ => ?_
    split
    · exact ((onward_take _ _).bind_grants fun start => hfallback _ start).bind fun _ => grants_pure id
    · exact grants_stateVariable.bind fun _ => grants_pure id
  · exact grants_stateVariable.bind fun _ => grants_pure id
  · exact grants_stateVariable.bind fun _ => grants_pure id
  · exact grants_unexpected _

theorem grants_inheritance (kind : ContractKind) : Grants V c (inheritance .full kind) fun xs =>
    Stand V (xs.flatMap InheritanceSpecifier.fragments) := by
  have hbase : Grants V c (inheritanceSpecifier .full) fun x => Stand V x.fragments := by
    refine onward_path.bind_grants fun _ => (grants_callArguments? Nested.granted_full).bind fun o => ?_
    refine grants_spanFrom fun _ => grants_pure fun ho => ?_
    cases o with
    | none => simp [Stand, InheritanceSpecifier.fragments]
    | some as => exact ho as rfl
  refine grants_if_nextIs ((grants_here fun _ => grants_violation _ _).ite ?_)
    (grants_pure (by simp [Stand]))
  refine onward_advance.bind_grants fun _ => (grants_separated hbase).mono fun xs hxs f hf => ?_
  obtain ⟨x, hx, hf⟩ := List.mem_flatMap.1 hf
  exact hxs x hx f hf

theorem grants_contractDeclaration (hc : c.structLiterals = true) :
    Grants V c (contractDeclaration .full) fun x => Stand V x.fragments := by
  refine grants_here fun _ => (onward_accept _).bind_grants fun isAbstract => ?_
  have hkind : Onward (contractKind isAbstract) :=
    (echoes_contractKind (H := .ofPrefix [] [] []) (I := anywhere) (k := 0) isAbstract).onward
  refine hkind.bind_grants fun kind => onward_identifier.bind_grants fun name => ?_
  refine (grants_inheritance kind).bind fun bases => grants_symbol fun _ => ?_
  refine (grants_body (grants_member hc)).bind fun members => grants_spanFrom fun _ => ?_
  refine grants_pure fun hmembers hbases => List.forall_mem_append.2 ⟨hbases, fun f hf => ?_⟩
  obtain ⟨m, hm, hf⟩ := List.mem_flatMap.1 hf
  exact hmembers m hm f hf

theorem grants_sourceUnit (hc : c.structLiterals = true) :
    Grants V c (sourceUnit .full) fun x => Stand V x.fragments := by
  have hcontract : Grants V c (contractDeclaration .full >>= fun x => pure (SourceUnit.contract x))
      fun x => Stand V x.fragments := (grants_contractDeclaration hc).bind fun _ => grants_pure id
  have hconstant : Grants V c (constantDeclaration .full >>= fun x => pure (SourceUnit.constant x))
      fun x => Stand V x.fragments := grants_constantDeclaration.bind fun _ => grants_pure id
  refine grants_next fun next => ?_
  split
  · exact onward_pragmaDirective.bind_grants fun _ => grants_pure (by simp [Stand, SourceUnit.fragments])
  · exact onward_importDirective.bind_grants fun _ => grants_pure (by simp [Stand, SourceUnit.fragments])
  · exact hcontract
  · exact hcontract
  · exact hcontract
  · exact hcontract
  · exact grants_structDeclaration.bind fun _ => grants_pure id
  · exact onward_enumDeclaration.bind_grants fun _ => grants_pure (by simp [Stand, SourceUnit.fragments])
  · exact (grants_functionDefinition hc).bind fun _ => grants_pure id
  · exact hconstant
  · exact hconstant
  · exact hconstant
  · exact grants_unexpected _

theorem grants_sourceFile (hc : c.structLiterals = true) :
    Grants V c (sourceFile .full) fun x => Stand V x.fragments := by
  refine (grants_many (P := fun x : SourceUnit => Stand V x.fragments) ?_).bind fun items => ?_
  · refine peeks_atEnd.looks.onward.bind_grants fun _ => grants_none.ite ?_
    exact (grants_recovering (grants_sourceUnit hc)).some
  · refine looks_context.onward.bind_grants fun _ => grants_pure fun hitems f hf => ?_
    obtain ⟨x, hx, hf⟩ := List.mem_flatMap.1 hf
    exact hitems x hx f hf

end Grammar

end SolidityFrontend
