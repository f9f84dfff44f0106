import GraphQLCompiler.Proofs.ResolvedAt

/-!
# What branches inherit

The fields of an interface or union and those of a branch are chosen from the same collection, at
two types. An object type is contained in every type that contains the interface or union, so what
applies to all of its values applies in each branch too (`Site.Collected.inherits`). A branch can
only add: it has the response names of the base fields in the same order, with others in between,
marks no field unconditional that is conditional in the base, and drops no spread
(`inherits_of_mem_inlineFragments`).

This needs that containment passes from type to type, so it fails in schemas in which interfaces are
implemented without what they implement.
-/

namespace GraphQLCompiler

/-- A branch **inherits** from its selection set if it has the response names of the base fields in
the same order, the base fields that are conditional are conditional in it, and it has the spreads
of the base. -/
structure Compiled.Inherits (selectionSet : Compiled.SelectionSet)
    (branch : Compiled.InlineFragment) : Prop where
  responseNames : List.Sublist (selectionSet.fields.map Compiled.Field.responseName)
    (branch.fields.map Compiled.Field.responseName)
  conditional : ∀ field ∈ selectionSet.fields, field.isConditional → ∀ own ∈ branch.fields,
    own.responseName = field.responseName → own.isConditional
  fragmentSpreads : selectionSet.fragmentSpreads ⊆ branch.fragmentSpreads

/-! ### Two types of a collection -/

section

variable {schema : Schema} {collection : Collection} {mentions : List Mention}
  {parent object : Name} (ordered : schema.Ordered) (sub : schema.isSubtypeOf object parent)

include ordered sub

/-- What applies at a type applies at its subtypes. -/
theorem occurrencesAt_subset (responseName : Name) :
    occurrencesAt schema parent responseName mentions
      ⊆ occurrencesAt schema object responseName mentions := by
  intro occurrence mem
  obtain ⟨mentioned, contained⟩ := mem_occurrencesAt.1 mem
  exact mem_occurrencesAt.2 ⟨mentioned, ordered.isSubtypeOf_trans sub contained⟩

/-- The response names that apply at a type apply at its subtypes, in the same order. -/
theorem responseNames_sublist :
    List.Sublist ((applicableFields schema parent collection).map ApplicableField.responseName)
      ((applicableFields schema object collection).map ApplicableField.responseName) := by
  rw [responseNames_applicableFields, responseNames_applicableFields]
  refine (List.monotone_filter_right _ fun group applies => ?_).map Prod.fst
  obtain ⟨occurrence, mem, contained⟩ := List.any_eq_true.1 applies
  exact List.any_eq_true.2 ⟨occurrence, mem, ordered.isSubtypeOf_trans sub contained⟩

end

/-- The branch of an object type inherits from the selection set around it. -/
theorem Site.Collected.inherits {settings : Settings} {find : Name → Option Fragment} {site : Site}
    {collection : Collection} (collected : site.Collected settings find collection)
    (ordered : settings.schema.Ordered) {selectionSet : Compiled.SelectionSet}
    (shape : Shape settings site.parent collection selectionSet) {object : Name}
    (sub : settings.schema.isSubtypeOf object site.parent) {branch : Compiled.InlineFragment}
    (branchAt : BranchAt settings collection object branch) :
    Compiled.Inherits selectionSet branch := by
  obtain ⟨mentions, holds, -⟩ := collected.gathers
  refine ⟨?_, fun field mem conditional own memOwn same => ?_, fun name mem => ?_⟩
  · rw [responseNames_eq shape.fields, responseNames_eq branchAt.fields]
    exact responseNames_sublist ordered sub
  · obtain ⟨base, applicable, compiles⟩ := exists_related_of_mem shape.fields.flip mem
    obtain ⟨narrow, applicableOwn, compilesOwn⟩ := exists_related_of_mem branchAt.fields.flip memOwn
    have name : narrow.responseName = base.responseName := by
      rw [← compilesOwn.responseName_eq, same, compiles.responseName_eq]
    have occurrences : base.occurrences ⊆ narrow.occurrences := by
      rw [holds.mem_applicableFields.1 applicable, holds.mem_applicableFields.1 applicableOwn, name]
      exact occurrencesAt_subset ordered sub base.responseName
    rw [compiles.isConditional_eq] at conditional
    rw [compilesOwn.isConditional_eq]
    obtain ⟨occurrence, memOccurrence, directives⟩ := List.any_eq_true.1 conditional
    exact List.any_eq_true.2 ⟨occurrence, occurrences memOccurrence, directives⟩
  · rw [shape.fragmentSpreads_eq] at mem
    obtain ⟨fragment, expanded, rfl⟩ := List.mem_map.1 mem
    obtain ⟨typeName, mentioned, contained⟩ := collected.mem_fragmentsAt.1 expanded
    rw [branchAt.fragmentSpreads_eq]
    refine List.mem_map.2 ⟨fragment, collected.mem_fragmentsAt.2 ⟨typeName, mentioned, ?_⟩, rfl⟩
    exact ordered.isSubtypeOf_trans sub contained

/-- **Branches repeat what their interface or union selects.** In an ordered schema, every branch of
a compiled document inherits from the selection set that it belongs to. -/
theorem inherits_of_mem_inlineFragments {schema : Schema} {document : Document} {options : Options}
    {compiled : Compiled.Document} (ordered : schema.Ordered)
    (h : compileDocument schema document options = .ok compiled) {parent : Name}
    {selectionSet : Compiled.SelectionSet} (resolved : compiled.ResolvedAt parent selectionSet)
    {branch : Compiled.InlineFragment} (mem : branch ∈ selectionSet.inlineFragments) :
    Compiled.Inherits selectionSet branch := by
  obtain ⟨library, -, whole⟩ := exists_compiledDocument h
  obtain ⟨site, full, -, ⟨collection, collected, resolves⟩, rfl | rfl⟩ :=
    exists_compilesTo_of_resolvedAt whole resolved
  · obtain ⟨object, narrowed, branchAt⟩ :=
      exists_related_of_mem resolves.shape.inlineFragments.flip mem
    exact collected.inherits ordered resolves.shape (isSubtypeOf_of_mem_narrowedTypes narrowed)
      branchAt
  · cases mem

/-- The owner of a dog is selected before the name, which is skipped on a condition. -/
def skippedName : Document :=
  queryDocument
    [plainField "pet" [
      plainInline "Dog" [plainField "owner" [plainField "kennel" []]],
      .field none "name" []
        [{ name := "skip", arguments := [{ name := "if", value := .boolean false }] }] none []]]
    []

set_option maxRecDepth 2000 in
/-- The branch of dogs has the name of pets too, after the owner and as conditional as it is. -/
theorem inherits_of_mem_inlineFragments_skippedName :
    ∃ compiled pet branch, compileDocument petSchema skippedName {} = .ok compiled ∧
      compiled.ResolvedAt "Pet" pet ∧ pet.inlineFragments = [branch] ∧
      pet.fields.map Compiled.Field.responseName = ["name"] ∧
      branch.fields.map Compiled.Field.responseName = ["owner", "name"] ∧
      Compiled.Inherits pet branch := by
  obtain ⟨compiled, operation, field, pet, branch, h, values, fields, type, nested, branches, base,
      more⟩ : ∃ compiled operation field pet branch,
        compileDocument petSchema skippedName {} = .ok compiled ∧
        compiled.operations.values = [operation] ∧ operation.fields = [field] ∧
        field.type.bare = "Pet" ∧ field.selectionSet = some pet ∧
        pet.inlineFragments = [branch] ∧
        pet.fields.map Compiled.Field.responseName = ["name"] ∧
        branch.fields.map Compiled.Field.responseName = ["owner", "name"] :=
    ⟨_, _, _, _, _, by cbv, by cbv, by cbv, by cbv, by cbv, by cbv, by cbv, by cbv⟩
  have resolved := Compiled.Document.resolvedAt_of_fields values fields nested
  have memBranch : branch ∈ pet.inlineFragments := by
    rw [branches]
    exact List.mem_singleton_self _
  refine ⟨compiled, pet, branch, h, type ▸ resolved, branches, base, more, ?_⟩
  exact inherits_of_mem_inlineFragments petSchema_wellFormed.ordered h resolved memBranch

end GraphQLCompiler
