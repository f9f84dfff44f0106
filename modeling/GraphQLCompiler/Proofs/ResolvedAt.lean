import GraphQLCompiler.Proofs.Spreading

/-!
# The types of compiled selection sets

Every selection set of a compiled document is resolved at a type: an operation at its root type, a
fragment at its type condition, and the selection set of a field at the type of the field
(`Compiled.Document.ResolvedAt`). It is compiled from a site of that type, so whatever holds of what
sites are compiled to holds at every depth of a compiled document
(`exists_compilesTo_of_resolvedAt`). Only an operation tells less than what it is compiled from: it
has nothing but the fields.
-/

namespace GraphQLCompiler

/-! ### Values by their names -/

namespace NameMap

variable {α : Type} {m : NameMap α} {key : α → String}

/-- A map of values under their names is searched like the list of the values. -/
private theorem find?_eq_find?_values (named : ∀ p ∈ m, p.1 = key p.2) (name : String) :
    m.find? name = m.values.find? fun a => key a = name := by
  induction m with
  | nil => rfl
  | cons p rest ih =>
    obtain ⟨first, others⟩ := List.forall_mem_cons.1 named
    have step : NameMap.values (p :: rest) = p.2 :: NameMap.values rest := rfl
    rw [step, List.find?_cons, find?, ih others, first]
    by_cases eq : key p.2 = name
    · rw [if_pos eq, decide_eq_true eq]
    · rw [if_neg eq, decide_eq_false eq]

/-- **A map that values were put into under their names** has no name twice, and is searched like
the list of its values. -/
theorem nodup_and_find?_of_eq_ofList {values : List α}
    (eq : m = ofList (values.map fun a => (key a, a))) :
    (m.values.map key).Nodup ∧ ∀ name, m.find? name = m.values.find? fun a => key a = name := by
  have named : ∀ p ∈ m, p.1 = key p.2 := by
    rw [eq]
    intro p mem
    obtain ⟨_, -, rfl⟩ := List.mem_map.1 (mem_of_mem_ofList mem)
    rfl
  have keys : m.values.map key = m.keys := by
    rw [NameMap.values, List.map_map]
    exact List.map_congr_left fun p mem => (named p mem).symm
  refine ⟨?_, find?_eq_find?_values named⟩
  rw [keys, eq]
  exact nodup_keys_ofList _

end NameMap

/-- If names occur once, what is found by a name is all that has the name. -/
theorem filter_eq_toList_find? {α : Type} {key : α → String} :
    ∀ {values : List α}, (values.map key).Nodup → ∀ name : String,
      values.filter (fun a => key a = name) = (values.find? fun a => key a = name).toList
  | [], _, _ => rfl
  | a :: rest, nodup, name => by
    obtain ⟨fresh, nodup⟩ := List.nodup_cons.1 nodup
    rw [List.filter_cons, List.find?_cons]
    by_cases eq : key a = name
    · have none : rest.filter (fun b => key b = name) = [] := by
        rw [List.filter_eq_nil_iff]
        intro b mem
        have other : key b ≠ name := fun same =>
          fresh (List.mem_map.2 ⟨b, mem, same.trans eq.symm⟩)
        simpa using other
      rw [decide_eq_true eq, if_pos rfl, none]
      rfl
    · rw [decide_eq_false eq, if_neg Bool.false_ne_true, filter_eq_toList_find? nodup name]

theorem find?_eq_some_of_mem_of_nodup {α : Type} {key : α → String} {values : List α}
    (nodup : (values.map key).Nodup) {a : α} (mem : a ∈ values) :
    values.find? (fun b => key b = key a) = some a := by
  have chosen : a ∈ values.filter fun b => key b = key a :=
    List.mem_filter.2 ⟨mem, decide_eq_true rfl⟩
  rwa [filter_eq_toList_find? nodup, Option.mem_toList] at chosen

/-! ### Types of selection sets -/

namespace Compiled

/-- The selection sets of a compiled document, each with the type that it is **resolved at**: those
of its operations and fragments, and those of the fields in them and in their branches. -/
inductive Document.ResolvedAt (compiled : Document) : Name → SelectionSet → Prop where
  | operation {operation : Operation} (mem : operation ∈ compiled.operations.values) :
    ResolvedAt compiled operation.rootType operation.tree
  | fragment {fragment : Fragment} (mem : fragment ∈ compiled.fragments.values) :
    ResolvedAt compiled fragment.typeCondition fragment.selectionSet
  | field {parent : Name} {selectionSet inner : SelectionSet} {field : Field}
      (resolved : ResolvedAt compiled parent selectionSet) (mem : field ∈ allFields selectionSet)
      (composite : field.selectionSet = some inner) :
    ResolvedAt compiled field.type.bare inner

/-- The selection set of a field of the only operation. -/
theorem Document.resolvedAt_of_fields {compiled : Document} {operation : Operation} {field : Field}
    {inner : SelectionSet} (values : compiled.operations.values = [operation])
    (fields : operation.fields = [field]) (composite : field.selectionSet = some inner) :
    compiled.ResolvedAt field.type.bare inner := by
  have memOperation : operation ∈ compiled.operations.values := by
    rw [values]
    exact List.mem_singleton_self _
  have memField : field ∈ operation.tree.fields := by
    rw [Operation.tree, fields]
    exact List.mem_singleton_self _
  exact .field (.operation memOperation) (List.mem_append_left _ memField) composite

/-- What is left of a selection set without its spreads and branches. -/
def fieldsOnly (selectionSet : SelectionSet) : SelectionSet where
  fields := selectionSet.fields
  fragmentSpreads := []
  inlineFragments := []

theorem allFields_fieldsOnly_subset (selectionSet : SelectionSet) :
    allFields (fieldsOnly selectionSet) ⊆ allFields selectionSet :=
  fun _ mem => List.mem_append_left _ ((List.mem_append.1 mem).resolve_right List.not_mem_nil)

/-- The fields of a selection set and of its branches are those that it shows. -/
theorem mem_allFields_iff {selectionSet : SelectionSet} (parent : Name) {field : Field} :
    field ∈ allFields selectionSet ↔ ∃ typeName, selectionSet.Shows parent typeName field := by
  rw [allFields, List.mem_append, List.mem_flatMap]
  constructor
  · rintro (mem | ⟨branch, memBranch, mem⟩)
    · exact ⟨parent, .own mem⟩
    · exact ⟨branch.typeCondition, .branch memBranch mem⟩
  · rintro ⟨_, mem | ⟨memBranch, mem⟩⟩
    · exact .inl mem
    · exact .inr ⟨_, memBranch, mem⟩

end Compiled

section

variable {schema : Schema} {document : Document} {options : Options} {library : FragmentLibrary}
  {compiled : Compiled.Document}
  (whole : (Compiler.ofDocument schema document options).CompiledDocument library compiled)

/-- A compiled document consists of compiled definitions, over the library of its fragments. -/
theorem exists_compiledDocument (h : compileDocument schema document options = .ok compiled) :
    ∃ library, (FragmentTable.ofList document.fragments).library = .ok library ∧
      (Compiler.ofDocument schema document options).CompiledDocument library compiled := by
  have run : (Compiler.ofDocument schema document options).compile.run {} = (.ok compiled,
      ((Compiler.ofDocument schema document options).compile.run {}).2) := Prod.ext h rfl
  obtain ⟨library, acyclic⟩ := exists_library_of_compile rfl run
  exact ⟨library, acyclic, compiledDocument_of_compileDocument acyclic h⟩

include whole

/-- Operations have different names and are found by them. -/
theorem nodup_and_operation?_eq :
    (compiled.operations.values.map Compiled.Operation.name).Nodup ∧
    ∀ name, compiled.operation? name
      = compiled.operations.values.find? fun operation => operation.name = name := by
  obtain ⟨operations, -, eq⟩ := whole.operations
  exact NameMap.nodup_and_find?_of_eq_ofList eq

/-- Fragments have different names and are found by them. -/
theorem nodup_and_fragment?_eq :
    (compiled.fragments.values.map Compiled.Fragment.name).Nodup ∧
    ∀ name, compiled.fragment? name
      = compiled.fragments.values.find? fun fragment => fragment.name = name := by
  obtain ⟨fragments, -, eq⟩ := whole.fragments
  exact NameMap.nodup_and_find?_of_eq_ofList eq

/-- **Every selection set of a compiled document** is what is compiled from a site of the type that
it is resolved at, or the fields of that. -/
theorem exists_compilesTo_of_resolvedAt {parent : Name} {selectionSet : Compiled.SelectionSet}
    (resolved : compiled.ResolvedAt parent selectionSet) :
    ∃ (site : Site) (full : Compiled.SelectionSet), site.parent = parent ∧
      site.CompilesTo { schema, options } library.find? full ∧
      (selectionSet = full ∨ selectionSet = Compiled.fieldsOnly full) := by
  obtain ⟨operations, allOperations, eqOperations⟩ := whole.operations
  obtain ⟨fragments, allFragments, eqFragments⟩ := whole.fragments
  induction resolved with
  | @operation operation mem =>
    rw [eqOperations] at mem
    obtain ⟨definition, -, root, compiledOperation⟩ := mem_of_mem_values_ofList allOperations mem
    obtain ⟨full, fields, compiles⟩ := compiledOperation.compilesTo
    refine ⟨_, full, compiledOperation.rootType_eq.symm, compiles, .inr ?_⟩
    rw [Compiled.Operation.tree, fields]
    rfl
  | @fragment fragment mem =>
    rw [eqFragments] at mem
    obtain ⟨definition, -, compiledFragment⟩ := mem_of_mem_values_ofList allFragments mem
    exact ⟨_, _, compiledFragment.typeCondition_eq.symm, compiledFragment.compilesTo, .inl rfl⟩
  | @field _ selectionSet inner field _ mem composite ih =>
    obtain ⟨site, full, -, ⟨collection, collected, resolves⟩, eq⟩ := ih
    have memFull : field ∈ Compiled.allFields full := by
      rcases eq with rfl | rfl
      · exact mem
      · exact Compiled.allFields_fieldsOnly_subset full mem
    obtain ⟨typeName, -, applicable, memApplicable, compiles⟩ := resolves.shape.exists_field memFull
    obtain ⟨-, compilesInner⟩ := collected.compilesTo_field memApplicable compiles composite
    refine ⟨applicable.site, inner, ?_, compilesInner, .inl rfl⟩
    rw [compiles.type_eq]
    rfl

/-- Every selection set of a compiled document selects from a site of the type that it is resolved
at. -/
theorem exists_selects_of_resolvedAt {parent : Name} {selectionSet : Compiled.SelectionSet}
    (resolved : compiled.ResolvedAt parent selectionSet) :
    ∃ site : Site, site.parent = parent ∧
      compiled.Selects { schema, options } document site selectionSet := by
  induction resolved with
  | @operation operation mem =>
    obtain ⟨nodup, find_eq⟩ := nodup_and_operation?_eq whole
    have found : compiled.operation? operation.name = some operation := by
      rw [find_eq]
      exact find?_eq_some_of_mem_of_nodup nodup mem
    obtain ⟨definition, root, defined, compiledOperation⟩ :=
      exists_definition_of_operation? whole found
    exact ⟨_, compiledOperation.rootType_eq.symm,
      .operation found defined compiledOperation.root_eq⟩
  | @fragment fragment mem =>
    obtain ⟨nodup, find_eq⟩ := nodup_and_fragment?_eq whole
    have found : compiled.fragment? fragment.name = some fragment := by
      rw [find_eq]
      exact find?_eq_some_of_mem_of_nodup nodup mem
    obtain ⟨definition, defined, -, compiledFragment⟩ := exists_definition_of_fragment? whole found
    exact ⟨_, compiledFragment.typeCondition_eq.symm, .fragment found defined⟩
  | @field parent _ _ field _ mem composite ih =>
    obtain ⟨site, rfl, selects⟩ := ih
    obtain ⟨typeName, shows⟩ := (Compiled.mem_allFields_iff site.parent).1 mem
    exact ⟨site.below { schema, options } typeName field, rfl, .field selects shows composite⟩

end

end GraphQLCompiler
