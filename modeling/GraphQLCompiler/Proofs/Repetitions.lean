import GraphQLCompiler.Proofs.Application
import Mathlib.Data.List.Forall2

/-!
# What repetitions leave

Collections that hold the same mentions up to repetitions look alike to resolution. The same
fragments apply at a type, the same object types get a branch and the same fragments are expanded,
in the same order. The fields that apply at a type are the same but for repetitions of their
occurrences (`ApplicableField.Same`).
-/

namespace GraphQLCompiler

theorem SameFirsts.unionNames_eq {xs ys : List Name} (h : SameFirsts xs ys) (names : List Name) :
    unionNames names xs = unionNames names ys :=
  h.foldl_eq (fun seen name => name ∈ seen) (fun _ _ => mem_addName.2 (.inr rfl))
    (fun _ _ _ present => mem_addName.2 (.inl present)) (fun _ _ present => if_pos present) names

/-- Whether fields are the same but for repetitions of their occurrences. -/
structure ApplicableField.Same (field field' : ApplicableField) : Prop where
  responseName_eq : field.responseName = field'.responseName
  occurrences : SameFirsts field.occurrences field'.occurrences

section

variable {schema : Schema} {collection collection' : Collection} {mentions mentions' : List Mention}

private theorem keys_eq_of_same {α : Type} (same : SameFirsts mentions mentions')
    (part : Mention → Option (Name × α)) :
    ((mentions.filterMap part).map Prod.fst).eraseDups
      = ((mentions'.filterMap part).map Prod.fst).eraseDups :=
  ((same.filterMap part).map Prod.fst).eraseDups_eq

private theorem valuesOf_same {α : Type} (same : SameFirsts mentions mentions')
    (part : Mention → Option (Name × α)) (key : Name) :
    SameFirsts (NameMap.valuesOf (mentions.filterMap part) key)
      (NameMap.valuesOf (mentions'.filterMap part) key) :=
  ((same.filterMap part).filter _).map _

/-- The values of maps with the same keys are the same if they are for each key. -/
private theorem flatten_values_same {α : Type} (same : SameFirsts mentions mentions')
    (part : Mention → Option (Name × α)) (kept : Name → Bool) :
    SameFirsts (((NameMap.collate (mentions.filterMap part)).filter fun p => kept p.1).flatMap
        Prod.snd)
      (((NameMap.collate (mentions'.filterMap part)).filter fun p => kept p.1).flatMap
        Prod.snd) := by
  rw [NameMap.collate_eq, NameMap.collate_eq, keys_eq_of_same same, List.filter_map,
    List.filter_map, List.flatMap_map, List.flatMap_map]
  exact SameFirsts.flatMap_congr fun key _ => valuesOf_same same part key

variable (holds : collection.Holds schema mentions) (holds' : collection'.Holds schema mentions')
  (same : SameFirsts mentions mentions')

include holds holds' same

/-- **Repetitions change the fields** that apply at a type by repetitions of occurrences only. -/
theorem applicableFields_same (typeName : Name) :
    List.Forall₂ ApplicableField.Same (applicableFields schema typeName collection)
      (applicableFields schema typeName collection') := by
  unfold applicableFields
  rw [holds.groups_eq, holds'.groups_eq, NameMap.collate_eq, NameMap.collate_eq,
    keys_eq_of_same same]
  generalize ((mentions'.filterMap Mention.field?).map Prod.fst).eraseDups = keys
  induction keys with
  | nil => exact .nil
  | cons key rest ih =>
    have occurrences : SameFirsts (occurrencesAt schema typeName key mentions)
        (occurrencesAt schema typeName key mentions') := same.occurrencesAt typeName key
    rw [List.map_cons, List.map_cons]
    unfold occurrencesAt at occurrences
    -- a field that has no occurrences has none with repetitions either
    cases first : (NameMap.valuesOf (mentions.filterMap Mention.field?) key).filter
        fun occurrence => schema.isSubtypeOf typeName occurrence.collectedAt with
    | nil =>
      have second : (NameMap.valuesOf (mentions'.filterMap Mention.field?) key).filter
          (fun occurrence => schema.isSubtypeOf typeName occurrence.collectedAt) = [] := by
        rw [first] at occurrences
        exact List.head?_eq_none_iff.1 occurrences.head?_eq.symm
      rw [List.filterMap_cons_none (by rw [applicableField?, first]),
        List.filterMap_cons_none (by rw [applicableField?, second])]
      exact ih
    | cons occurrence others =>
      obtain ⟨occurrence', others', second⟩ := List.exists_cons_of_ne_nil
        (List.ne_nil_of_mem (occurrences.mem_iff.1 (first ▸ List.mem_cons_self)))
      rw [List.filterMap_cons_some (by rw [applicableField?, first]),
        List.filterMap_cons_some (by rw [applicableField?, second])]
      rw [first, second] at occurrences
      exact .cons ⟨rfl, occurrences⟩ ih

/-- Repetitions do not change which fragments apply at a type. -/
theorem fragmentsAt_same (typeName : Name) :
    fragmentsAt schema typeName collection = fragmentsAt schema typeName collection' := by
  have fragments := flatten_values_same same Mention.fragment? (schema.isSubtypeOf typeName)
  rw [← holds.expansions_eq, ← holds'.expansions_eq] at fragments
  refine fragments.foldl_eq (fun seen fragment => seen.any (·.name = fragment.name)) ?_ ?_ ?_ []
  · intro seen fragment
    unfold addFragment
    split
    · assumption
    · simp
  · intro seen fragment other present
    unfold addFragment
    split
    · exact present
    · rw [List.any_append, present, Bool.true_or]
  · intro seen fragment present
    rw [addFragment, if_pos present]

/-- Repetitions do not change which object types get a branch. -/
theorem narrowedTypes_same (parent : Name) :
    narrowedTypes schema parent collection = narrowedTypes schema parent collection' := by
  have occurrences := flatten_values_same same Mention.field? fun _ => true
  rw [← holds.groups_eq, ← holds'.groups_eq, List.filter_true, List.filter_true] at occurrences
  have keys : collection.expansions.keys = collection'.expansions.keys := by
    rw [holds.expansions_eq, holds'.expansions_eq, NameMap.keys_collate, NameMap.keys_collate,
      keys_eq_of_same same]
  unfold narrowedTypes Collection.occurrences NameMap.values
  rw [← List.flatMap_def, ← List.flatMap_def, keys]
  split
  · exact ((occurrences.map _).append (.refl _)).flatMap _ |>.unionNames_eq []
  · rfl

/-- Repetitions do not change which fragments are expanded. -/
theorem expandedNames_same :
    unionNames [] (collection.fragments.map Fragment.name)
      = unionNames [] (collection'.fragments.map Fragment.name) := by
  have fragments := flatten_values_same same Mention.fragment? fun _ => true
  rw [← holds.expansions_eq, ← holds'.expansions_eq, List.filter_true, List.filter_true]
    at fragments
  unfold Collection.fragments NameMap.values
  rw [← List.flatMap_def, ← List.flatMap_def]
  exact (fragments.map _).unionNames_eq []

end

end GraphQLCompiler
