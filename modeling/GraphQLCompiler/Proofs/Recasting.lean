import GraphQLCompiler.Proofs.Gathering
import GraphQLCompiler.Resolution

/-!
# Recasting collections

What applies at a type is chosen by the types that things were collected at and by the names of
fragments. It does not matter what the sub-selections of fields and the contents of fragments are. A
**recasting** changes just these, so it commutes with everything that is done to a collection until
its fields are resolved. A recast collection holds what the collection holds, recast
(`Collection.Holds.recast`).
-/

namespace GraphQLCompiler

/-- A **recasting** makes other selections of selections, and other fragments of fragments, of the
same names. -/
structure Recasting where
  selections : List LinkedSelection → List LinkedSelection
  fragment : Fragment → Fragment
  name_fragment : ∀ original, (fragment original).name = original.name

/-- An occurrence of a field with its sub-selections recast. -/
def Occurrence.recast (recasting : Recasting) (occurrence : Occurrence) : Occurrence :=
  { occurrence with selections := recasting.selections occurrence.selections }

/-- A field that applies with its occurrences recast. -/
def ApplicableField.recast (recasting : Recasting) (field : ApplicableField) : ApplicableField :=
  { field with
    first := field.first.recast recasting
    others := field.others.map (Occurrence.recast recasting) }

/-- A collection with its occurrences and fragments recast. -/
def Collection.recast (recasting : Recasting) (collection : Collection) : Collection :=
  { collection with
    groups := collection.groups.map fun group =>
      (group.1, group.2.map (Occurrence.recast recasting))
    expansions := collection.expansions.map fun expansion =>
      (expansion.1, expansion.2.map recasting.fragment) }

/-- A mention with its occurrence or its fragment recast. -/
def Mention.recast (recasting : Recasting) : Mention → Mention
  | .field responseName occurrence => .field responseName (occurrence.recast recasting)
  | .fragment typeName original => .fragment typeName (recasting.fragment original)

variable (recasting : Recasting)

theorem ApplicableField.occurrences_recast (field : ApplicableField) :
    (field.recast recasting).occurrences = field.occurrences.map (Occurrence.recast recasting) :=
  rfl

/-! ### Gathering -/

private theorem push_map {α β : Type} {f : α → β} (m : NameMap (List α)) (key : String)
    (value : α) : NameMap.push (m.map fun p => (p.1, p.2.map f)) key (f value)
      = (m.push key value).map fun p => (p.1, p.2.map f) := by
  induction m with
  | nil => rfl
  | cons p rest ih =>
    rw [List.map_cons, NameMap.push, NameMap.push, ih]
    split
    · rw [List.map_cons, List.map_append]
      rfl
    · rfl

private theorem find?_map {α β : Type} {f : α → β} (m : NameMap α) (key : String) :
    NameMap.find? (m.map fun p => (p.1, f p.2)) key = (m.find? key).map f := by
  induction m with
  | nil => rfl
  | cons p rest ih =>
    rw [List.map_cons, NameMap.find?, NameMap.find?, ih]
    split <;> rfl

private theorem collate_map {α β : Type} {f : α → β} (pairs : List (String × α)) :
    NameMap.collate (pairs.map fun p => (p.1, f p.2))
      = (NameMap.collate pairs).map fun p => (p.1, p.2.map f) := by
  induction pairs using List.reverseRecOn with
  | nil => rfl
  | append_singleton pairs p ih =>
    rw [List.map_append, List.map_singleton, NameMap.collate_append_singleton, ih, push_map,
      NameMap.collate_append_singleton]

namespace Collection

variable (collection : Collection)

variable {recasting collection} in
/-- A recast collection holds the recast mentions. -/
theorem Holds.recast {schema : Schema} {mentions : List Mention}
    (h : collection.Holds schema mentions) :
    (collection.recast recasting).Holds schema (mentions.map (Mention.recast recasting)) where
  groups_eq := by
    have fields : (mentions.map (Mention.recast recasting)).filterMap Mention.field?
        = (mentions.filterMap Mention.field?).map fun p => (p.1, p.2.recast recasting) := by
      rw [List.filterMap_map, List.map_filterMap]
      congr 1
      funext mention
      cases mention <;> rfl
    rw [fields, collate_map, ← h.groups_eq]
    rfl
  expansions_eq := by
    have fragments : (mentions.map (Mention.recast recasting)).filterMap Mention.fragment?
        = (mentions.filterMap Mention.fragment?).map fun p => (p.1, recasting.fragment p.2) := by
      rw [List.filterMap_map, List.map_filterMap]
      congr 1
      funext mention
      cases mention <;> rfl
    rw [fragments, collate_map, ← h.expansions_eq]
    rfl
  defined mention mem := by
    obtain ⟨original, memOriginal, rfl⟩ := List.mem_map.1 mem
    have defined := h.defined original memOriginal
    cases original with
    | field responseName occurrence => exact defined
    | fragment typeName fragment => trivial

theorem recast_addField (key : Name) (occurrence : Occurrence) :
    (collection.recast recasting).addField key (occurrence.recast recasting)
      = (collection.addField key occurrence).recast recasting := by
  simp only [addField, recast, push_map]

theorem recast_addExpansion (typeName : Name) (fragment : Fragment) :
    (collection.recast recasting).addExpansion typeName (recasting.fragment fragment)
      = (collection.addExpansion typeName fragment).recast recasting := by
  simp only [addExpansion, recast, push_map]

theorem hasExpanded_recast (typeName fragmentName : Name) :
    (collection.recast recasting).hasExpanded typeName fragmentName
      = collection.hasExpanded typeName fragmentName := by
  simp only [hasExpanded, recast, find?_map, Option.any_map]
  congr 1
  funext fragments
  simp [Function.comp_def, recasting.name_fragment]

/-! ### What applies at a type -/

theorem applicableFields_recast (schema : Schema) (parent : Name) :
    applicableFields schema parent (collection.recast recasting)
      = (applicableFields schema parent collection).map (ApplicableField.recast recasting) := by
  rw [applicableFields, applicableFields, List.map_filterMap, recast, List.filterMap_map]
  congr 1
  funext group
  have same : (fun occurrence : Occurrence =>
      schema.isSubtypeOf parent occurrence.collectedAt) ∘ Occurrence.recast recasting
      = fun occurrence => schema.isSubtypeOf parent occurrence.collectedAt := rfl
  rw [Function.comp_apply, applicableField?, applicableField?, List.filter_map, same]
  cases group.2.filter fun occurrence => schema.isSubtypeOf parent occurrence.collectedAt <;> rfl

private theorem foldl_addFragment_recast (fragments more : List Fragment) :
    (more.map recasting.fragment).foldl addFragment (fragments.map recasting.fragment)
      = (more.foldl addFragment fragments).map recasting.fragment := by
  induction more generalizing fragments with
  | nil => rfl
  | cons fragment rest ih =>
    have step : addFragment (fragments.map recasting.fragment) (recasting.fragment fragment)
        = (addFragment fragments fragment).map recasting.fragment := by
      simp only [addFragment, List.any_map, Function.comp_def, recasting.name_fragment]
      split
      · rfl
      · rw [List.map_append, List.map_singleton]
    rw [List.map_cons, List.foldl_cons, List.foldl_cons, step, ih]

theorem fragmentsAt_recast (schema : Schema) (parent : Name) :
    fragmentsAt schema parent (collection.recast recasting)
      = (fragmentsAt schema parent collection).map recasting.fragment := by
  rw [fragmentsAt, fragmentsAt, ← foldl_addFragment_recast, recast, List.filter_map,
    List.flatMap_map, List.map_flatMap]
  rfl

theorem spreadNamesAt_recast (schema : Schema) (parent : Name) :
    spreadNamesAt schema parent (collection.recast recasting)
      = spreadNamesAt schema parent collection := by
  rw [spreadNamesAt, spreadNamesAt, fragmentsAt_recast, List.map_map]
  exact List.map_congr_left fun fragment _ => recasting.name_fragment fragment

theorem narrowedTypes_recast (schema : Schema) (parent : Name) :
    narrowedTypes schema parent (collection.recast recasting)
      = narrowedTypes schema parent collection := by
  have occurrences : (collection.recast recasting).occurrences.map Occurrence.collectedAt
      = collection.occurrences.map Occurrence.collectedAt := by
    simp only [Collection.occurrences, recast, NameMap.values, List.map_map, List.map_flatten,
      Function.comp_def, Occurrence.recast]
  have keys : (collection.recast recasting).expansions.keys = collection.expansions.keys := by
    simp only [recast, NameMap.keys, List.map_map]
    rfl
  rw [narrowedTypes, narrowedTypes, occurrences, keys]

theorem expandedNames_recast :
    (collection.recast recasting).fragments.map Fragment.name
      = collection.fragments.map Fragment.name := by
  simp only [Collection.fragments, recast, NameMap.values, List.map_map, List.map_flatten,
    Function.comp_def, recasting.name_fragment]

end Collection

end GraphQLCompiler
