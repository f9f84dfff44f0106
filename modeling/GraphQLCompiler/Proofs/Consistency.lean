import GraphQLCompiler.Proofs.Compilation
import Mathlib

/-!
# Consistency of references

The fragments that a compiled definition references are what a code generator needs besides the
definition: whoever spreads a fragment anywhere in a compiled tree finds it among the compiled
fragments, and finds there nothing that the definition does not reference itself
(`consistent_fragmentsReferenced`).

References describe sites, so this is a fact about sites: a spread in the compiled tree comes from a
site that compilation comes to, and from there it goes on to the site of the fragment.
-/

namespace GraphQLCompiler

/-- The compiled tree of an operation, of which the root has no spreads or branches of its own. -/
def Compiled.Operation.tree (operation : Compiled.Operation) : Compiled.SelectionSet where
  fields := operation.fields
  fragmentSpreads := []
  inlineFragments := []

/-- Names are **consistent** references of a compiled tree if they are compiled fragments that are
reached by spreads, each listed once, and have with every fragment that is spread anywhere in the
tree everything that the compiled fragment references. -/
structure Compiled.Document.Consistent (compiled : Compiled.Document) (table : FragmentTable)
    (selections : WrittenSelections) (tree : Compiled.SelectionSet) (names : List Name) :
    Prop where
  nodup : names.Nodup
  defined : ∀ name ∈ names, compiled.fragments.contains name
  reached : ∀ name ∈ names, table.SpreadsFrom selections name
  closed : ∀ inner, Relation.ReflTransGen Compiled.Contains tree inner →
    ∀ name ∈ Compiled.allSpreads inner, name ∈ names ∧
      ∃ fragment, compiled.fragments.find? name = some fragment ∧
        fragment.fragmentsReferenced ⊆ names

section

variable {schema : Schema} {document : Document} {options : Options} {library : FragmentLibrary}
  {compiled : Compiled.Document}

/-- The fragments of a document are compiled, each under its name. -/
theorem exists_compiledFragment
    (whole : (Compiler.ofDocument schema document options).CompiledDocument library compiled)
    {definition : FragmentDefinition}
    (mem : definition ∈ (FragmentTable.ofList document.fragments).values) :
    ∃ fragment, compiled.fragments.find? definition.name = some fragment ∧
      (Compiler.ofDocument schema document options).CompiledFragment library definition
        fragment := by
  obtain ⟨-, fragments, all, eq⟩ := whole
  obtain ⟨fragment, memFragment, compiledFragment⟩ := exists_related_of_mem all mem
  refine ⟨fragment, ?_, compiledFragment⟩
  have nodup : ((fragments.map fun fragment => (fragment.name, fragment)).map Prod.fst).Nodup := by
    rw [List.map_map]
    exact FragmentTable.nodup_names (all.imp fun _ _ compiledFragment => compiledFragment.name_eq)
  rw [eq]
  refine NameMap.find?_ofList_of_mem nodup (List.mem_map.2 ⟨fragment, memFragment, ?_⟩)
  rw [compiledFragment.name_eq]

/-- What describes the site of some selections is consistent for the tree that is compiled from the
site. -/
private theorem consistent_of_describes
    (acyclic : (FragmentTable.ofList document.fragments).library = .ok library)
    (whole : (Compiler.ofDocument schema document options).CompiledDocument library compiled)
    {parent : Name} {selections : WrittenSelections} {names : List Name}
    {tree selectionSet : Compiled.SelectionSet}
    (describes : (Site.start library parent selections).Describes { schema, options } names)
    (compilesTo : (Site.start library parent selections).CompilesTo { schema, options }
      library.find? selectionSet)
    (inside : ∀ inner, Relation.ReflTransGen Compiled.Contains tree inner →
      ∀ name ∈ Compiled.allSpreads inner,
        Relation.ReflTransGen Compiled.Contains selectionSet inner) :
    compiled.Consistent (FragmentTable.ofList document.fragments) selections tree names := by
  have named := FragmentTable.isNamed_ofList document.fragments
  -- what the site references is defined, so it is one of the fragments that are compiled
  have reachable : ∀ name ∈ names,
      (FragmentTable.ofList document.fragments).Reachable selections name := fun name mem =>
    FragmentTable.reachable_of_references acyclic named ((describes.mem_iff name).1 mem)
  have compiledAs : ∀ name ∈ names, ∃ definition fragment,
      library.find? name = some (definition.link library.find?) ∧
      compiled.fragments.find? name = some fragment ∧
      (Compiler.ofDocument schema document options).CompiledFragment library definition
        fragment := by
    intro name mem
    obtain ⟨definition, found⟩ := Option.isSome_iff_exists.1 (reachable name mem).defined
    have value : definition ∈ (FragmentTable.ofList document.fragments).values :=
      List.mem_map.2 ⟨_, NameMap.mem_of_find?_eq_some found, rfl⟩
    obtain ⟨fragment, foundFragment, compiledFragment⟩ := exists_compiledFragment whole value
    rw [named name definition found] at foundFragment
    refine ⟨definition, fragment, ?_, foundFragment, compiledFragment⟩
    rw [FragmentTable.find?_library acyclic, found]
    rfl
  refine ⟨describes.nodup, fun name mem => ?_, fun name mem => (reachable name mem).reached,
    fun inner contained name mem => ?_⟩
  · obtain ⟨_, fragment, -, found, -⟩ := compiledAs name mem
    rw [NameMap.contains, found]
    rfl
  · obtain ⟨references, linked, foundLinked, closed⟩ :=
      compilesTo.references (inside inner contained name mem) mem
    have listed := (describes.mem_iff name).2 references
    obtain ⟨definition, fragment, found, foundFragment, compiledFragment⟩ := compiledAs name listed
    cases found.symm.trans foundLinked
    refine ⟨listed, fragment, foundFragment, fun other memOther => (describes.mem_iff other).2 ?_⟩
    exact closed other ((compiledFragment.describes.mem_iff other).1 memOther)

end

/-- What is spread in the tree of an operation is spread in the selection set with its fields. -/
private theorem contains_of_tree {operation : Compiled.Operation}
    {selectionSet inner : Compiled.SelectionSet} (eq : operation.fields = selectionSet.fields)
    (inside : Relation.ReflTransGen Compiled.Contains operation.tree inner) {name : Name}
    (mem : name ∈ Compiled.allSpreads inner) :
    Relation.ReflTransGen Compiled.Contains selectionSet inner := by
  rcases Relation.ReflTransGen.cases_head inside with rfl | ⟨next, ⟨field, memField, nested⟩, rest⟩
  · cases mem
  · have own : field ∈ selectionSet.fields := by
      rw [← eq]
      simpa [Compiled.allFields, Compiled.Operation.tree] using memField
    exact .head ⟨field, List.mem_append_left _ own, nested⟩ rest

/-- **References are consistent across a compiled document.** What an operation or a fragment
references are compiled fragments that it reaches by spreads, each listed once; it references what
is spread anywhere in its compiled tree, with everything that those fragments reference; and no
fragment references itself. -/
theorem consistent_fragmentsReferenced {schema : Schema} {document : Document} {options : Options}
    {compiled : Compiled.Document} (h : compileDocument schema document options = .ok compiled) :
    let table := FragmentTable.ofList document.fragments
    (∀ operation ∈ compiled.operations.values, ∃ definition ∈ document.operations,
      definition.name = some operation.name ∧
      compiled.Consistent table definition.selections operation.tree
        operation.fragmentsReferenced) ∧
    ∀ fragment ∈ compiled.fragments.values, ∃ definition,
      table.find? fragment.name = some definition ∧
      compiled.Consistent table definition.selections fragment.selectionSet
        fragment.fragmentsReferenced ∧
      fragment.name ∉ fragment.fragmentsReferenced := by
  intro table
  have run : ((Compiler.ofDocument schema document options).compile.run {}) = (.ok compiled,
      ((Compiler.ofDocument schema document options).compile.run {}).2) := Prod.ext h rfl
  obtain ⟨library, acyclic⟩ := exists_library_of_compile rfl run
  have whole := compiledDocument_of_compileDocument acyclic h
  refine ⟨fun operation mem => ?_, fun fragment mem => ?_⟩
  · obtain ⟨operations, all, eq⟩ := whole.operations
    rw [eq] at mem
    obtain ⟨definition, memDefinition, root, compiledOperation⟩ :=
      mem_of_mem_values_ofList all mem
    obtain ⟨selectionSet, fields, compilesTo⟩ := compiledOperation.compilesTo
    refine ⟨definition, memDefinition, compiledOperation.name_eq, ?_⟩
    exact consistent_of_describes acyclic whole compiledOperation.describes compilesTo
      fun inner inside name mem => contains_of_tree fields inside mem
  · obtain ⟨fragments, all, eq⟩ := whole.fragments
    rw [eq] at mem
    obtain ⟨definition, memDefinition, compiledFragment⟩ := mem_of_mem_values_ofList all mem
    have found : table.find? fragment.name = some definition := by
      rw [compiledFragment.name_eq]
      exact FragmentTable.find?_of_mem_values memDefinition
    have consistent := consistent_of_describes acyclic whole compiledFragment.describes
      compiledFragment.compilesTo fun inner inside _ _ => inside
    refine ⟨definition, found, consistent, fun listed => ?_⟩
    -- a fragment that references itself would reach itself by spreads
    obtain ⟨first, spread, path⟩ := consistent.reached _ listed
    have cyclic : Relation.TransGen table.Spreads fragment.name fragment.name :=
      .head' ⟨definition, found, spread⟩ path
    exact FragmentTable.exists_library_iff.1 ⟨library, acyclic⟩ fragment.name cyclic

/-- A query that spreads a fragment, which spreads another inside one of its fields. -/
def nestedSpread : Document :=
  queryDocument [plainField "pet" [plainSpread "Names", plainInline "Dog" [plainSpread "Owned"]]]
    [plainFragment "Names" "Pet" [plainField "name" [], plainField "owner" [plainSpread "Ids"]],
      plainFragment "Owned" "Dog" [plainField "owner" [plainSpread "Ids"]],
      plainFragment "Ids" "Owner" [plainField "id" []]]

/-- The query references all three fragments, of which the last is spread by the others only. -/
theorem consistent_fragmentsReferenced_nestedSpread :
    ∃ compiled, compileDocument petSchema nestedSpread {} = .ok compiled ∧
      compiled.operations.values.map Compiled.Operation.fragmentsReferenced
        = [["Names", "Owned", "Ids"]] ∧
      ∀ operation ∈ compiled.operations.values, compiled.Consistent
        (FragmentTable.ofList nestedSpread.fragments)
        [plainField "pet" [plainSpread "Names", plainInline "Dog" [plainSpread "Owned"]]]
        operation.tree operation.fragmentsReferenced := by
  obtain ⟨compiled, h, references⟩ : ∃ compiled,
      compileDocument petSchema nestedSpread {} = .ok compiled ∧
      compiled.operations.values.map Compiled.Operation.fragmentsReferenced
        = [["Names", "Owned", "Ids"]] := ⟨_, by cbv, by cbv⟩
  refine ⟨compiled, h, references, fun operation mem => ?_⟩
  obtain ⟨definition, memDefinition, -, consistent⟩ :=
    (consistent_fragmentsReferenced h).1 operation mem
  rw [List.mem_singleton.1 memDefinition] at consistent
  exact consistent

end GraphQLCompiler
