import GraphQLCompiler.Proofs.Agreement
import GraphQLCompiler.Proofs.Shape
import Mathlib

/-!
# Branches

The compiled selection set of an interface or union has a branch for each object type that something
was narrowed to. Which object types these are is asked in three ways on the way to them: whether the
type that something was recorded at is a supertype of the type around it, whether it is a possible
type of that type, and which possible types it has itself. Together the answers mean that the object
type is a possible type of the type around, and contained in a type that something was recorded at
which does not contain the type around (`mem_narrowedTypes_iff`).

A branch is resolved from the same collection as the type around it. It is what its object type
resolves to by itself (`resolveBranch_eq`): object types have no branches of their own, and the
references that come before have the fragments of the collection already.

## Main definitions

* `Collection.recordedTypes`: the types that something was recorded at.

## Main results

* `mem_narrowedTypes_iff`: which object types get a branch.
* `mem_typeConditions_iff`: which branches there are, and what they hold.
-/

namespace GraphQLCompiler

variable {settings : Settings}

/-! ### Narrowed types -/

section

variable {schema : Schema} {parent object : Name} {collection : Collection}

/-- The types that something was recorded at: those that fields were collected at, and those that
fragments were expanded at. -/
def Collection.recordedTypes (collection : Collection) : List Name :=
  collection.occurrences.map Occurrence.collectedAt ++ collection.expansions.keys

/-- **The object types that a type leaves** of another one are the possible types of that one which
the type contains, if it does not contain that one as a whole. -/
theorem mem_narrowedTo_iff (distinct : schema.types.keys.Nodup) {typeName : Name} :
    object ∈ narrowedTo schema parent typeName ↔ schema.isPossibleType parent object ∧
      schema.isSubtypeOf object typeName ∧ schema.isSubtypeOf parent typeName = false := by
  constructor
  · intro mem
    refine ⟨isPossibleType_of_mem_narrowedTo mem, ?_⟩
    unfold narrowedTo at mem
    split at mem
    · cases mem
    · rename_i notContained
      refine ⟨?_, by simpa using notContained⟩
      split at mem
      · rw [List.mem_singleton.1 mem]
        exact Schema.isSubtypeOf_self schema typeName
      · split at mem
        · obtain ⟨listed, possible⟩ := List.mem_filter.1 mem
          have ho := (Schema.isPossibleType_iff.1 possible).1
          have possibleInside := Schema.isPossibleType_of_mem_possibleTypes distinct ho listed
          exact Schema.isSubtypeOf_of_isSubtype (Schema.isPossibleType_iff.1 possibleInside).2
        · cases mem
  · rintro ⟨possible, contained, notContained⟩
    obtain ⟨ho, sub⟩ := Schema.isPossibleType_iff.1 possible
    have composite := Schema.isComposite_of_isAbstract (Schema.isAbstract_of_isSubtype sub)
    by_contra missing
    have kept := isSubtypeOf_of_not_mem_narrowedTo composite ho
      (Schema.isSubtypeOf_of_isSubtype sub) contained fun _ => missing
    rw [notContained] at kept
    cases kept

/-- **The object types that get a branch** are the possible types of an abstract type that are
contained in a type which something was recorded at, and which does not contain the abstract
type. -/
theorem mem_narrowedTypes_iff (distinct : schema.types.keys.Nodup) :
    object ∈ narrowedTypes schema parent collection ↔
      schema.isAbstract parent ∧ schema.isPossibleType parent object ∧
        ∃ typeName ∈ collection.recordedTypes, schema.isSubtypeOf object typeName ∧
          schema.isSubtypeOf parent typeName = false := by
  have listed : ∀ names : List Name,
      object ∈ unionNames [] (names.flatMap (narrowedTo schema parent)) ↔
        schema.isPossibleType parent object ∧ ∃ typeName ∈ names,
        schema.isSubtypeOf object typeName ∧ schema.isSubtypeOf parent typeName = false := by
    intro names
    rw [mem_unionNames, or_iff_right List.not_mem_nil, List.mem_flatMap]
    simp only [mem_narrowedTo_iff distinct]
    tauto
  unfold narrowedTypes
  split
  · rename_i abstract
    exact (listed _).trans (and_iff_right abstract).symm
  · rename_i concrete
    exact iff_of_false List.not_mem_nil fun h => concrete h.1

/-- No object type gets two branches. -/
theorem nodup_narrowedTypes : (narrowedTypes schema parent collection).Nodup := by
  unfold narrowedTypes
  split
  · exact nodup_unionNames List.nodup_nil _
  · exact List.nodup_nil

end

/-! ### Adding names to references -/

theorem unionNames_addName (names more : List Name) (name : Name) :
    unionNames names (addName more name) = addName (unionNames names more) name := by
  by_cases mem : name ∈ more
  · have known : name ∈ unionNames names more := mem_unionNames.2 (.inr mem)
    rw [addName, if_pos mem, addName, if_pos known]
  · rw [addName, if_neg mem, unionNames, List.foldl_append]
    rfl

theorem unionNames_unionNames (names more others : List Name) :
    unionNames names (unionNames more others) = unionNames (unionNames names more) others := by
  induction others generalizing more with
  | nil => rfl
  | cons name rest ih =>
    have step : ∀ names, unionNames names (name :: rest) = unionNames (addName names name) rest :=
      fun _ => rfl
    rw [step, step, ih, unionNames_addName]

theorem unionNames_of_subset {names more : List Name} (sub : more ⊆ names) :
    unionNames names more = names := by
  induction more with
  | nil => rfl
  | cons name rest ih =>
    obtain ⟨mem, others⟩ := List.cons_subset.1 sub
    have step : unionNames names (name :: rest) = unionNames (addName names name) rest := rfl
    rw [step, addName, if_pos mem, ih others]

section

variable {n : Nat} {recur : ResolveBelow n}

/-- Resolving fields adds to references what it adds to none. -/
private theorem resolveFields_unionNames (names : List Name) {parent : Name} :
    ∀ (fields : List ApplicableField) (bound : ∀ field ∈ fields,
      ∀ occurrence ∈ field.occurrences, height occurrence.selections < n) (references : List Name),
    resolveFields settings recur parent fields bound (unionNames names references)
      = (fun result => (result.1, unionNames names result.2)) <$>
        resolveFields settings recur parent fields bound references
  | [], _, _ => rfl
  | field :: rest, bound, references => by
    rw [resolveFields, resolveFields, map_bind]
    refine congrArg _ (funext fun first => ?_)
    dsimp only
    rw [← unionNames_unionNames, resolveFields_unionNames names rest, map_bind, bind_map_left]
    rfl

private theorem spreadReferences_unionNames (names : List Name) :
    ∀ (fragments : List Fragment) (bound : ∀ fragment ∈ fragments, fragment.height ≤ n)
      (references : List Name),
    spreadReferences settings recur fragments bound (unionNames names references)
      = unionNames names <$> spreadReferences settings recur fragments bound references
  | [], _, _ => rfl
  | fragment :: rest, bound, references => by
    rw [spreadReferences, spreadReferences, map_bind]
    refine congrArg _ (funext fun own => ?_)
    rw [← unionNames_unionNames, spreadReferences_unionNames names rest]

end

/-! ### Resolving branches -/

section

open CompileM

variable {collection : Collection}

/-- The names of the fragments that a collection holds, which come first among its references. -/
abbrev expandedNames (collection : Collection) : List Name :=
  unionNames [] (collection.fragments.map Fragment.name)

/-- What is gathered for the fields of a collection comes after what it holds. -/
theorem ensures_expanded {recur : ResolveBelow collection.height} {parent : Name} :
    Ensures (fun _ => True) False
      (resolveFieldsAt settings collection recur parent (expandedNames collection))
      fun result => expandedNames collection ⊆ result.2 := by
  have eq := @resolveFields_unionNames settings _ recur (expandedNames collection) parent
    (applicableFields settings.schema parent collection)
    (fun _ mem _ ho => Collection.height_selections_lt (mem_occurrences_of_applicable mem ho)) []
  rw [resolveFieldsAt, show expandedNames collection = unionNames (expandedNames collection) []
    from rfl, eq]
  exact (ensures_true.mono fun result _ name mem => mem_unionNames.2 (.inl mem)).map

/-- **A branch** is what its object type resolves to, given the references that come before. -/
theorem resolveBranch_eq {object : Name}
    (concrete : settings.schema.isAbstract object = false) {references : List Name}
    (expanded : expandedNames collection ⊆ references) :
    resolveBranch settings collection (resolveBelow settings _) object references = do
      let resolved ← resolve settings object collection
      return ({
        typeCondition := object
        possibleTypes := settings.schema.concreteTypes object
        fields := resolved.selectionSet.fields
        fragmentSpreads := resolved.selectionSet.fragmentSpreads },
        unionNames references resolved.references) := by
  have before : references = unionNames references (expandedNames collection) :=
    (unionNames_of_subset expanded).symm
  rw [before, resolveBranch, resolve.eq_1, resolveWith, narrowedTypes_of_concrete concrete,
    resolveFieldsAt, resolveFields_unionNames, bind_map_left, bind_assoc, ← before]
  refine congrArg _ (funext fun first => ?_)
  simp only [resolveBranches, pure_bind, bind_assoc, spreadReferencesAt,
    spreadReferences_unionNames, bind_map_left]

end

/-- What is **left of a branch** as a selection set of its object type. -/
def Compiled.Branch.selectionSet (branch : Compiled.InlineFragment) : Compiled.SelectionSet where
  fields := branch.fields
  fragmentSpreads := branch.fragmentSpreads
  inlineFragments := []

section

open CompileM

variable {collection : Collection}

/-- A branch for an object type is the selection set that the object type resolves to. -/
private theorem ensures_branch_resolvesTo {object : Name}
    (isObject : settings.schema.isObject object) {references : List Name}
    (expanded : expandedNames collection ⊆ references) :
    Ensures (fun _ => True) False
      (resolveBranch settings collection (resolveBelow settings _) object references) fun result =>
        (result.1.typeCondition = object ∧
          ResolvesTo settings object collection result.1.selectionSet) ∧
        expandedNames collection ⊆ result.2 := by
  rw [resolveBranch_eq (Schema.not_isAbstract_of_isObject isObject) expanded]
  refine ensures_resolvesTo.bind fun resolved resolves => ensures_pure ⟨⟨rfl, ?_⟩, ?_⟩
  · have none := resolves.shape.inlineFragments_eq_nil isObject
    obtain ⟨⟨fields, spreads, branches⟩, names⟩ := resolved
    obtain rfl : branches = [] := none
    exact resolves
  · exact fun name mem => mem_unionNames.2 (.inl (expanded mem))

private theorem ensures_branches_resolveTo (objects references : List Name)
    (areObjects : ∀ object ∈ objects, settings.schema.isObject object)
    (expanded : expandedNames collection ⊆ references) :
    Ensures (fun _ => True) False
      (resolveBranches settings collection (resolveBelow settings _) objects references)
      fun result => ∀ branch ∈ result.1,
        ResolvesTo settings branch.typeCondition collection branch.selectionSet := by
  induction objects generalizing references with
  | nil => exact ensures_pure (List.forall_mem_nil _)
  | cons object rest ih =>
    obtain ⟨isObject, areObjects⟩ := List.forall_mem_cons.1 areObjects
    rw [resolveBranches]
    refine (ensures_branch_resolvesTo isObject expanded).bind fun first holds => ?_
    obtain ⟨⟨eq, resolves⟩, more⟩ := holds
    refine (ih _ areObjects more).bind fun others resolve => ?_
    exact ensures_pure (List.forall_mem_cons.2 ⟨eq ▸ resolves, resolve⟩)

/-- **The branches** of a compiled selection set are the selection sets that their object types
resolve to. -/
theorem ResolvesTo.branch {parent : Name} {selectionSet : Compiled.SelectionSet}
    (h : ResolvesTo settings parent collection selectionSet) {branch : Compiled.InlineFragment}
    (mem : branch ∈ selectionSet.inlineFragments) :
    ResolvesTo settings branch.typeCondition collection branch.selectionSet := by
  have areObjects : ∀ object ∈ narrowedTypes settings.schema parent collection,
      settings.schema.isObject object := fun object mem =>
    (Schema.isPossibleType_iff.1 (isPossibleType_of_mem_narrowedTypes mem)).1
  have branches : Ensures (fun _ => True) False (resolve settings parent collection) fun resolved =>
      ∀ branch ∈ resolved.selectionSet.inlineFragments,
        ResolvesTo settings branch.typeCondition collection branch.selectionSet := by
    rw [resolve.eq_1, resolveWith]
    refine ensures_expanded.bind fun fields expanded => ?_
    refine (ensures_branches_resolveTo _ _ areObjects expanded).bind fun branches resolve => ?_
    exact ensures_true.bind fun _ _ => ensures_pure resolve
  obtain ⟨state, after, resolved, run, rfl⟩ := h
  exact branches.holds state trivial resolved (by rw [run]) branch mem

end

/-! ### All branches -/

/-- **Branches are exactly the narrowed object types.** In a schema whose types have distinct names,
as every schema that was read has (`Schema.nodup_keys_of_parse?`), a selection set that a collection
resolves to at a type has one branch for each object type that is a possible type of the type, if
that is abstract, and that is contained in some type which something was recorded at and which does
not contain the type. A branch has its object type as the only possible type, and it is the
selection set that its object type resolves to, which has no branches of its own. -/
theorem mem_typeConditions_iff (distinct : settings.schema.types.keys.Nodup) {parent : Name}
    {collection : Collection} {selectionSet : Compiled.SelectionSet}
    (resolves : ResolvesTo settings parent collection selectionSet) :
    (∀ object, object ∈ selectionSet.inlineFragments.map Compiled.Branch.typeCondition ↔
      settings.schema.isAbstract parent ∧ settings.schema.isPossibleType parent object ∧
        ∃ typeName ∈ collection.recordedTypes, settings.schema.isSubtypeOf object typeName ∧
          settings.schema.isSubtypeOf parent typeName = false) ∧
    (selectionSet.inlineFragments.map Compiled.Branch.typeCondition).Nodup ∧
    ∀ branch ∈ selectionSet.inlineFragments,
      branch.possibleTypes = [branch.typeCondition] ∧
      ResolvesTo settings branch.typeCondition collection branch.selectionSet ∧
      ∀ other, ResolvesTo settings branch.typeCondition collection other →
        other.inlineFragments = [] := by
  have shape := resolves.shape
  have typeConditions : selectionSet.inlineFragments.map Compiled.Branch.typeCondition
      = narrowedTypes settings.schema parent collection := shape.typeConditions_eq
  rw [typeConditions]
  refine ⟨fun object => mem_narrowedTypes_iff distinct, nodup_narrowedTypes, fun branch mem => ?_⟩
  obtain ⟨object, narrowed, branchAt⟩ := exists_related_of_mem shape.inlineFragments.flip mem
  have isObject : settings.schema.isObject branch.typeCondition := by
    rw [branchAt.typeCondition_eq]
    exact (Schema.isPossibleType_iff.1 (isPossibleType_of_mem_narrowedTypes narrowed)).1
  refine ⟨?_, resolves.branch mem, fun other resolvesOther =>
    resolvesOther.shape.inlineFragments_eq_nil isObject⟩
  rw [branchAt.possibleTypes_eq, ← branchAt.typeCondition_eq, Schema.concreteTypes,
    Schema.not_isAbstract_of_isObject isObject]
  rfl

/-- What is selected of a pet: its name, that of mammals, and the kennel of the owner of a dog. -/
def narrowedSelections : List LinkedSelection :=
  link (fun _ => none) [plainField "name" [], plainInline "Mammal" [plainField "name" []],
    plainInline "Dog" [plainField "owner" [plainField "kennel" []]]]

/-- Pets are narrowed to dogs and cats, which are the mammals among them, and not to fish. -/
theorem mem_typeConditions_iff_mammals : ∃ collection selectionSet,
    collect { schema := petSchema, options := {} } "Pet" narrowedSelections {} = .ok collection ∧
    ResolvesTo { schema := petSchema, options := {} } "Pet" collection selectionSet ∧
    selectionSet.inlineFragments.map Compiled.Branch.typeCondition = ["Dog", "Cat"] ∧
    ∀ object, object ∈ ["Dog", "Cat"] ↔ petSchema.isAbstract "Pet" ∧
      petSchema.isPossibleType "Pet" object ∧
      ∃ typeName ∈ collection.recordedTypes, petSchema.isSubtypeOf object typeName ∧
        petSchema.isSubtypeOf "Pet" typeName = false := by
  obtain ⟨collection, resolved, after, collected, run, typeConditions⟩ :
      ∃ collection resolved after,
        collect { schema := petSchema, options := {} } "Pet" narrowedSelections {}
          = .ok collection ∧
        (resolve { schema := petSchema, options := {} } "Pet" collection).run {}
          = (.ok resolved, after) ∧
        resolved.selectionSet.inlineFragments.map Compiled.Branch.typeCondition
          = ["Dog", "Cat"] :=
    ⟨_, _, _, by cbv, by cbv, by cbv⟩
  have resolves : ResolvesTo { schema := petSchema, options := {} } "Pet" collection
      resolved.selectionSet := ⟨{}, after, resolved, run, rfl⟩
  refine ⟨collection, resolved.selectionSet, collected, resolves, typeConditions, fun object => ?_⟩
  rw [← typeConditions]
  exact (mem_typeConditions_iff (by decide +kernel) resolves).1 object
end GraphQLCompiler
