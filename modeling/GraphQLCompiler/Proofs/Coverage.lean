import GraphQLCompiler.Proofs.Attribution
import GraphQLCompiler.Proofs.Spreading

/-!
# Covering spread fragments

A selection set lists the fragments that are spread in it, at its own type and in each branch. It
**covers** a fragment if it has all response names of the fields that the fragment is compiled with,
so that its data can be read as data of the fragment.

The fragment has been collected twice: for itself at its type condition, and where it is spread at
the type that it was expanded at. That is the type condition again, or else an object type. In the
first case what is collected is the same, and the selection set covers the fragment. In the second
case the inline fragments in the fragment are checked against the object type. A field of the
fragment can be inside one that does not contain the object type, in two ways: the fragment is
listed though it does not apply to the object type, or it widens again what it has narrowed before.
These fields are all that a selection set can lack (`covers_iff`).

## Main definitions

* `Compiled.Covers`: whether fields have the response names of a compiled fragment.
* `InlineContain`: whether the inline fragments around a field contain an object type.

## Main results

* `descend_of_inlineContain`: which fields are collected at an object type.
* `covers_iff`: which fragments a selection set covers of those that it lists.
-/

namespace GraphQLCompiler

/-- Whether compiled fields **cover** a fragment: they have the response names of all fields that
the fragment has at its own type. -/
def Compiled.Covers (fields : List Compiled.Field) (fragment : Compiled.Fragment) : Prop :=
  fragment.selectionSet.fields.map Compiled.Field.responseName
    ⊆ fields.map Compiled.Field.responseName

/-- Whether the type conditions of inline fragments among some enclosures contain an object type. -/
def InlineContain (schema : Schema) (object : Name) (enclosures : List Enclosure) : Prop :=
  ∀ enclosure ∈ enclosures, enclosure.isInline →
    schema.isSubtypeOf object enclosure.typeCondition

/-! ### Collection at an object type -/

/-- **At an object type** everything is collected at that type, unless an inline fragment around it
does not contain the type. -/
theorem descend_of_inlineContain {schema : Schema} {object : Name} (ho : schema.isObject object) :
    ∀ {enclosures : List Enclosure}, InlineContain schema object enclosures →
      schema.descend object enclosures = some object
  | [], _ => rfl
  | enclosure :: rest, contained => by
    obtain ⟨first, others⟩ := List.forall_mem_cons.1 contained
    have stays : schema.narrow object enclosure.typeCondition = object := if_pos ho
    have enters : schema.enter object enclosure = some object := by
      unfold Schema.enter
      rw [stays]
      refine if_neg fun skipped => ?_
      obtain ⟨inline, notApplies⟩ := (Bool.and_eq_true _ _).mp skipped
      rw [applies, (Schema.isProperSupertype_iff_of_isObject ho).2 (first inline),
        Bool.or_true] at notApplies
      cases notApplies
    rw [Schema.descend_cons, enters]
    exact descend_of_inlineContain ho others

variable {settings : Settings}

/-- Whether a mentioned fragment is expanded at its type condition or at an object type. -/
private def Mention.Placed (schema : Schema) : Mention → Prop
  | .field _ _ => True
  | .fragment expandedAt expanded =>
    expandedAt = expanded.typeCondition ∨ schema.isObject expandedAt

mutual

private theorem selection_placed {mention : Mention} :
    ∀ (parent : Name) (selection : LinkedSelection),
      mention ∈ selection.reading settings parent → mention.Placed settings.schema
  | _, .field _ _ _ _ _ _, mem => by
    rw [Selection.reading, List.mem_singleton] at mem
    rw [mem]
    trivial
  | parent, .inlineFragment typeCondition _ _ selections, mem => by
    simp only [Selection.reading] at mem
    split at mem
    · exact placed _ selections mem
    · cases mem
  | _, .spread _ _ _ none, mem => by simp [Selection.reading] at mem
  | parent, .spread _ _ _ (some fragment), mem => by
    rw [Selection.reading] at mem
    exact fragment_placed parent fragment mem

private theorem fragment_placed {mention : Mention} :
    ∀ (parent : Name) (fragment : Fragment),
      mention ∈ fragment.reading settings parent → mention.Placed settings.schema
  | parent, ⟨name, typeCondition, location, selections⟩, mem => by
    rw [Fragment.reading_eq] at mem
    rcases List.mem_cons.1 mem with rfl | mem
    · rw [Mention.Placed]
      by_cases concrete : settings.schema.isObject parent
      · exact .inr (by rwa [Schema.narrow, if_pos concrete])
      · exact .inl (if_neg concrete)
    · unfold readingInside at mem
      split at mem
      · exact placed _ selections mem
      · cases mem

/-- Fragments are **expanded** at their type conditions, or at object types. -/
private theorem placed {mention : Mention} :
    ∀ (parent : Name) (selections : List LinkedSelection),
      mention ∈ reading settings parent selections → mention.Placed settings.schema
  | _, [], mem => by simp [reading] at mem
  | parent, selection :: rest, mem => by
    rw [reading] at mem
    rcases List.mem_append.1 mem with mem | mem
    · exact selection_placed parent selection mem
    · exact placed parent rest mem

end

/-! ### What is seen of a selection set -/

section

variable {find : Name → Option Fragment} {site : Site} {collection : Collection}

/-- What is seen of a compiled selection set at a type is what applies there. -/
private theorem Site.CompilesTo.view {selectionSet : Compiled.SelectionSet}
    (compiles : site.CompilesTo settings find selectionSet) {typeName : Name}
    {fields : List Compiled.Field} {spreads : List Name}
    (views : selectionSet.Views site.parent typeName fields spreads) :
    ∃ collection, site.Collected settings find collection ∧
      fields.map Compiled.Field.responseName
        = (applicableFields settings.schema typeName collection).map
          ApplicableField.responseName ∧
      spreads = spreadNamesAt settings.schema typeName collection := by
  obtain ⟨collection, collected, resolves⟩ := compiles
  have shape := resolves.shape
  refine ⟨collection, collected, ?_⟩
  cases views with
  | own => exact ⟨responseNames_eq shape.fields, shape.fragmentSpreads_eq⟩
  | branch mem =>
    obtain ⟨object, -, branchAt⟩ := exists_related_of_mem shape.inlineFragments.flip mem
    rw [branchAt.typeCondition_eq]
    exact ⟨responseNames_eq branchAt.fields, branchAt.fragmentSpreads_eq⟩

/-- The fields of a fragment at its own type are those that type conditions lead to from there. -/
private theorem mem_fragment_names_iff (settings : Settings)
    (merge : settings.options.mergeFragmentFields)
    {fragment : Fragment} {selectionSet : Compiled.SelectionSet}
    (compiles : fragment.site.CompilesTo settings find selectionSet) {name : Name} :
    name ∈ selectionSet.fields.map Compiled.Field.responseName ↔
      Occurs (enclosedFields fragment.selections) name
        (LeadsTo settings.schema fragment.typeCondition fragment.typeCondition) := by
  obtain ⟨collection, collected, names, -⟩ := compiles.view .own
  rw [names]
  exact mem_responseNames_iff merge collected.gathers

/-- **What a fragment gives where it is spread**: a field that it has for itself, if the inline
fragments around the field contain the type that is looked at, or this is no object type. -/
private theorem mem_names_of_spread (wf : settings.schema.WellFormed)
    (merge : settings.options.mergeFragmentFields)
    (collected : site.Collected settings find collection) {typeName : Name} {fragment : Fragment}
    (spread : fragment ∈ fragmentsAt settings.schema typeName collection) {field : EnclosedField}
    (mem : field ∈ enclosedFields fragment.selections)
    (leads : LeadsTo settings.schema fragment.typeCondition fragment.typeCondition
      field.enclosures)
    (contained : settings.schema.isObject typeName →
      InlineContain settings.schema typeName field.enclosures) :
    field.responseName ∈ (applicableFields settings.schema typeName collection).map
      ApplicableField.responseName := by
  obtain ⟨expandedAt, mentioned, inside⟩ := collected.mem_fragmentsAt.1 spread
  have collectedAt : LeadsTo settings.schema expandedAt typeName field.enclosures := by
    rcases placed site.parent site.selections mentioned with rfl | concrete
    · obtain ⟨collectedAt, descends, contains⟩ := leads
      exact ⟨collectedAt, descends, wf.isSubtypeOf_trans inside contains⟩
    · obtain rfl := Schema.eq_of_isSubtypeOf_object inside concrete
      exact ⟨typeName, descend_of_inlineContain concrete (contained concrete), inside⟩
  obtain ⟨lowest, descends, contains⟩ := collectedAt
  obtain ⟨occurrence, read, rfl⟩ :=
    (reads_iff merge expandedAt fragment.selections).2 ⟨field, mem, rfl, descends⟩
  -- what the fragment mentions where it is expanded is mentioned at the site
  have mentionedField : .field field.responseName occurrence ∈ site.mentions settings := by
    refine readingInside_subset site.parent site.selections mentioned ?_
    rwa [readingInside, if_pos merge]
  obtain ⟨mentions, holds, same⟩ := collected.gathers
  exact holds.mem_responseNames.2 ⟨occurrence, same.mem_iff.2 mentionedField, contains⟩

end

/-! ### Coverage -/

/-- **Which fragments are covered.** In a well-formed schema, every fragment that a compiled
selection set lists at a type is a compiled fragment, and it is covered there unless the type is an
object type; at an object type it is covered if and only if the selection set has those fields of
the fragment that are inside an inline fragment which does not contain the object type. -/
theorem covers_iff {schema : Schema} {document : Document} {options : Options}
    {compiled : Compiled.Document} (wf : schema.WellFormed) (merge : options.mergeFragmentFields)
    (h : compileDocument schema document options = .ok compiled) {site : Site}
    {selectionSet : Compiled.SelectionSet}
    (selects : compiled.Selects { schema, options } document site selectionSet) {typeName : Name}
    {fields : List Compiled.Field} {spreads : List Name}
    (views : selectionSet.Views site.parent typeName fields spreads) {name : Name}
    (mem : name ∈ spreads) :
    ∃ definition fragment, document.fragment? name = some definition ∧
      compiled.fragment? name = some fragment ∧
      (schema.isObject typeName = false → Compiled.Covers fields fragment) ∧
      (Compiled.Covers fields fragment ↔ ∀ field ∈ enclosedFields
          (link (FragmentTable.ofList document.fragments).linked.find? definition.selections),
        LeadsTo schema definition.typeCondition definition.typeCondition field.enclosures →
        ¬ InlineContain schema typeName field.enclosures →
        field.responseName ∈ fields.map Compiled.Field.responseName) := by
  let settings : Settings := { schema, options }
  let compiler := Compiler.ofDocument schema document options
  have run : compiler.compile.run {} = (.ok compiled, (compiler.compile.run {}).2) := Prod.ext h rfl
  obtain ⟨library, acyclic⟩ := exists_library_of_compile rfl run
  have linked : (FragmentTable.ofList document.fragments).linked = library :=
    FragmentTable.linked_eq acyclic
  have whole := compiledDocument_of_compileDocument acyclic h
  obtain ⟨site', full, similar, compiles, all⟩ := exists_compilesTo_of_selects acyclic whole selects
  obtain ⟨more, sub, viewsFull⟩ := all typeName fields spreads views
  rw [similar.parent_eq] at viewsFull
  obtain ⟨collection, collected, names, rfl⟩ := compiles.view viewsFull
  obtain ⟨fragment, spread, rfl⟩ := List.mem_map.1 (sub mem)
  -- the fragment that is spread is that of a definition, which is compiled for itself
  obtain ⟨_, mentioned, -⟩ := collected.mem_fragmentsAt.1 spread
  have found := (collected.found mentioned).1
  rw [FragmentTable.find?_library acyclic, Option.map_eq_some_iff] at found
  obtain ⟨definition, tabled, rfl⟩ := found
  have value : definition ∈ (FragmentTable.ofList document.fragments).values :=
    List.mem_map.2 ⟨_, NameMap.mem_of_find?_eq_some tabled, rfl⟩
  obtain ⟨compiledFragment, foundFragment, compiledAs⟩ := exists_compiledFragment whole value
  have own : ∀ {responseName : Name},
      responseName ∈ compiledFragment.selectionSet.fields.map Compiled.Field.responseName ↔
        Occurs (enclosedFields (definition.link library.find?).selections) responseName
          (LeadsTo schema definition.typeCondition definition.typeCondition) :=
    mem_fragment_names_iff settings merge compiledAs.compilesTo
  have given : ∀ field ∈ enclosedFields (definition.link library.find?).selections,
      LeadsTo schema definition.typeCondition definition.typeCondition field.enclosures →
      (schema.isObject typeName → InlineContain schema typeName field.enclosures) →
      field.responseName ∈ fields.map Compiled.Field.responseName := by
    intro field memField leads contained
    rw [names]
    exact mem_names_of_spread wf merge collected spread memField leads contained
  refine ⟨definition, compiledFragment, ?_, foundFragment, fun abstract responseName memName => ?_,
    fun covers field memField leads _ => ?_, fun rest responseName memName => ?_⟩
  · exact (FragmentTable.find?_ofList _ _).symm.trans tabled
  · obtain ⟨field, memField, rfl, leads⟩ := own.1 memName
    exact given field memField leads fun concrete => by rw [abstract] at concrete; cases concrete
  · rw [linked] at memField
    exact covers (own.2 ⟨field, memField, rfl, leads⟩)
  · obtain ⟨field, memField, rfl, leads⟩ := own.1 memName
    by_cases contained : InlineContain schema typeName field.enclosures
    · exact given field memField leads fun _ => contained
    · refine rest field ?_ leads contained
      rw [linked]
      exact memField

/-- A query for a dog with a fragment on pets, which spreads a fragment on cats. -/
def catsOfDog : Document :=
  queryDocument [plainField "dog" [plainSpread "Parts"]] [
    plainFragment "Parts" "Pet" [plainSpread "Lives"],
    plainFragment "Lives" "Cat" [plainInline "Cat" [plainField "lives" []]]]

/-- The dog lists the fragment on cats and does not cover it: what the fragment selects is inside an
inline fragment that does not contain dogs. -/
theorem covers_iff_catsOfDog :
    ∃ compiled operation dog inner lives, compileDocument petSchema catsOfDog {} = .ok compiled ∧
      compiled.operation? "Q" = some operation ∧ operation.fields = [dog] ∧
      dog.selectionSet = some inner ∧ "Lives" ∈ inner.fragmentSpreads ∧
      compiled.fragment? "Lives" = some lives ∧ ¬ Compiled.Covers inner.fields lives ∧
      ∃ field ∈ enclosedFields (link (FragmentTable.ofList catsOfDog.fragments).linked.find?
          [plainInline "Cat" [plainField "lives" []]]),
        LeadsTo petSchema "Cat" "Cat" field.enclosures ∧
        ¬ InlineContain petSchema "Dog" field.enclosures := by
  obtain ⟨compiled, operation, dog, inner, lives, h, foundOperation, fields, type, nested, spreads,
      foundLives, own, shown⟩ : ∃ compiled operation dog inner lives,
        compileDocument petSchema catsOfDog {} = .ok compiled ∧
        compiled.operation? "Q" = some operation ∧ operation.fields = [dog] ∧
        dog.type.bare = "Dog" ∧ dog.selectionSet = some inner ∧
        inner.fragmentSpreads = ["Parts", "Lives"] ∧ compiled.fragment? "Lives" = some lives ∧
        lives.selectionSet.fields.map Compiled.Field.responseName = ["lives"] ∧
        inner.fields.map Compiled.Field.responseName = [] :=
    ⟨_, _, _, _, _, by cbv, by cbv, by cbv, by cbv, by cbv, by cbv, by cbv, by cbv, by cbv⟩
  have listed : "Lives" ∈ inner.fragmentSpreads := by
    rw [spreads]
    exact List.mem_cons_of_mem _ (List.mem_singleton_self _)
  have uncovered : ¬ Compiled.Covers inner.fields lives := by
    rw [Compiled.Covers, own, shown]
    exact List.cons_subset.not.2 fun both => by cases both.1
  refine ⟨compiled, operation, dog, inner, lives, h, foundOperation, fields, nested, listed,
    foundLives, uncovered, ?_⟩
  have selects : compiled.Selects { schema := petSchema, options := {} } catsOfDog _
      operation.tree := .operation foundOperation rfl rfl
  have shows : operation.tree.Shows "Query" "Query" dog := by
    refine .own ?_
    rw [Compiled.Operation.tree, fields]
    exact List.mem_singleton_self dog
  obtain ⟨definition, fragment, defined, found, -, iff⟩ :=
    covers_iff petSchema_wellFormed rfl h (.field selects shows nested) .own listed
  cases defined
  cases foundLives.symm.trans found
  have lacking := mt iff.2 uncovered
  push Not at lacking
  obtain ⟨field, mem, leads, outside, -⟩ := lacking
  refine ⟨field, mem, leads, ?_⟩
  rwa [show (Site.below _ _ _ dog).parent = "Dog" from type] at outside

end GraphQLCompiler
