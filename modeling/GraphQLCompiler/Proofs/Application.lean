import GraphQLCompiler.Proofs.Containment
import GraphQLCompiler.Proofs.Gathering
import GraphQLCompiler.Resolution

/-!
# What applies at a type

Resolution chooses from a collection what was collected at a type or at a type that contains it.
For a collection that holds a list of mentions, what it chooses is told by the mentions: the
occurrences of each response name (`occurrencesAt`), the fragments, and the object types that get a
branch.

An object type that gets no branch sees the fields of the type itself, and nothing that was
collected for it is missing there: what was collected at a type that contains an object type but
not the abstract type around it makes a branch (`isSubtypeOf_of_not_mem_narrowedTo`).
-/

namespace GraphQLCompiler

/-! ### Narrowing -/

section

variable {schema : Schema} {parent object : Name}

/-- The type inside a type condition contains what both the type condition and the type around it
contain. -/
theorem Schema.isSubtypeOf_narrow {typeCondition : Name}
    (inside : schema.isSubtypeOf object parent)
    (contained : schema.isSubtypeOf object typeCondition) :
    schema.isSubtypeOf object (schema.narrow parent typeCondition) := by
  unfold Schema.narrow
  split
  · exact inside
  · exact contained

/-- A type condition that contains an object type applies where the type around it does. -/
theorem applies_narrow {typeCondition : Name} (ho : schema.isObject object)
    (inside : schema.isSubtypeOf object parent)
    (contained : schema.isSubtypeOf object typeCondition) :
    applies schema typeCondition (schema.narrow parent typeCondition) := by
  unfold applies Schema.narrow
  split
  · rename_i concrete
    rw [← Schema.eq_of_isSubtypeOf_object inside concrete,
      (Schema.isProperSupertype_iff_of_isObject ho).2 contained, Bool.or_true]
  · simp

end

/-! ### Occurrences -/

/-- The occurrences of a response name among mentions that apply at a type. -/
def occurrencesAt (schema : Schema) (parent responseName : Name) (mentions : List Mention) :
    List Occurrence :=
  (NameMap.valuesOf (mentions.filterMap Mention.field?) responseName).filter fun occurrence =>
    schema.isSubtypeOf parent occurrence.collectedAt

variable {schema : Schema} {collection : Collection} {mentions : List Mention} {parent : Name}

theorem mem_occurrencesAt {responseName : Name} {occurrence : Occurrence} :
    occurrence ∈ occurrencesAt schema parent responseName mentions ↔
      .field responseName occurrence ∈ mentions ∧
        schema.isSubtypeOf parent occurrence.collectedAt := by
  rw [occurrencesAt, List.mem_filter, NameMap.mem_valuesOf, List.mem_filterMap]
  simp

theorem SameFirsts.occurrencesAt {mentions' : List Mention} (h : SameFirsts mentions mentions')
    (parent responseName : Name) :
    SameFirsts (occurrencesAt schema parent responseName mentions)
      (GraphQLCompiler.occurrencesAt schema parent responseName mentions') :=
  (((h.filterMap _).filter _).map _).filter _

/-- The fields that apply at a type are those with their occurrences. -/
theorem Collection.Holds.mem_applicableFields (h : collection.Holds schema mentions)
    {field : ApplicableField} :
    field ∈ applicableFields schema parent collection ↔
      field.occurrences = occurrencesAt schema parent field.responseName mentions := by
  rw [applicableFields, h.groups_eq, NameMap.collate_eq, List.filterMap_map, List.mem_filterMap]
  simp only [List.mem_eraseDups, Function.comp_apply, applicableField?]
  constructor
  · rintro ⟨key, -, eq⟩
    split at eq
    · cases eq
    · rename_i first others filtered
      cases eq
      exact filtered.symm
  · intro eq
    have mem : field.first ∈ occurrencesAt schema parent field.responseName mentions := by
      rw [← eq]
      exact List.mem_cons_self
    refine ⟨field.responseName, ?_, ?_⟩
    · exact List.mem_map.2
        ⟨_, NameMap.mem_valuesOf.1 (List.mem_filter.1 mem).1, rfl⟩
    · have filtered : (NameMap.valuesOf (mentions.filterMap Mention.field?)
          field.responseName).filter
            (fun occurrence => schema.isSubtypeOf parent occurrence.collectedAt)
          = field.first :: field.others := eq.symm
      rw [filtered]

/-- The response names that apply at a type are those of the groups with an occurrence that does. -/
theorem responseNames_applicableFields (schema : Schema) (parent : Name) (collection : Collection) :
    (applicableFields schema parent collection).map ApplicableField.responseName
      = (collection.groups.filter fun group => group.2.any fun occurrence =>
          schema.isSubtypeOf parent occurrence.collectedAt).map Prod.fst := by
  unfold applicableFields
  induction collection.groups with
  | nil => rfl
  | cons group rest ih =>
    cases applies : group.2.filter fun occurrence =>
        schema.isSubtypeOf parent occurrence.collectedAt with
    | nil =>
      have field : applicableField? schema parent group = none := by
        rw [applicableField?, applies]
      have misses : (group.2.any fun occurrence =>
          schema.isSubtypeOf parent occurrence.collectedAt) = false := by
        simpa using List.filter_eq_nil_iff.1 applies
      rw [List.filterMap_cons_none field, ih, List.filter_cons, misses, if_neg Bool.false_ne_true]
    | cons first others =>
      have field : applicableField? schema parent group = some ⟨group.1, first, others⟩ := by
        rw [applicableField?, applies]
      have hits : (group.2.any fun occurrence =>
          schema.isSubtypeOf parent occurrence.collectedAt) = true := by
        have mem : first ∈ group.2.filter fun occurrence =>
            schema.isSubtypeOf parent occurrence.collectedAt := applies ▸ List.mem_cons_self
        exact List.any_eq_true.2 ⟨first, List.mem_filter.1 mem⟩
      rw [List.filterMap_cons_some field, List.map_cons, ih, List.filter_cons, hits, if_pos rfl]
      rfl

/-- No response name applies twice at a type. -/
theorem Collection.Holds.nodup_responseNames (h : collection.Holds schema mentions)
    (parent : Name) :
    ((applicableFields schema parent collection).map ApplicableField.responseName).Nodup := by
  rw [responseNames_applicableFields]
  have keys : collection.groups.keys.Nodup := by
    rw [h.groups_eq]
    exact NameMap.nodup_keys_collate _
  exact keys.sublist (List.filter_sublist.map Prod.fst)

/-- A response name applies at a type if an occurrence of it does. -/
theorem Collection.Holds.mem_responseNames (h : collection.Holds schema mentions) {name : Name} :
    name ∈ (applicableFields schema parent collection).map ApplicableField.responseName ↔
      ∃ occurrence, .field name occurrence ∈ mentions ∧
        schema.isSubtypeOf parent occurrence.collectedAt := by
  constructor
  · intro mem
    obtain ⟨field, applicable, rfl⟩ := List.mem_map.1 mem
    have first : field.first ∈ field.occurrences := List.mem_cons_self
    rw [h.mem_applicableFields.1 applicable] at first
    exact ⟨field.first, mem_occurrencesAt.1 first⟩
  · rintro ⟨occurrence, mem, sub⟩
    have present := mem_occurrencesAt.2 ⟨mem, sub⟩
    obtain ⟨first, others, eq⟩ := List.exists_cons_of_ne_nil (List.ne_nil_of_mem present)
    exact List.mem_map.2 ⟨⟨name, first, others⟩, h.mem_applicableFields.2 eq.symm, rfl⟩

/-! ### Fragments -/

private theorem mem_foldl_addFragment {fragment : Fragment} :
    ∀ (more fragments : List Fragment),
      (∀ first ∈ fragments ++ more, ∀ second ∈ fragments ++ more,
        first.name = second.name → first = second) →
      (fragment ∈ more.foldl addFragment fragments ↔ fragment ∈ fragments ∨ fragment ∈ more)
  | [], fragments, _ => by simp
  | first :: rest, fragments, unique => by
    have sub : addFragment fragments first ++ rest ⊆ fragments ++ first :: rest := by
      unfold addFragment
      split
      · exact fun other mem => (List.mem_append.1 mem).elim (List.mem_append_left _) fun mem =>
          List.mem_append_right _ (List.mem_cons_of_mem _ mem)
      · simp
    have step : fragment ∈ addFragment fragments first ↔
        fragment ∈ fragments ∨ fragment = first := by
      unfold addFragment
      split
      · rename_i present
        -- a fragment is left out for one of its name, which is the same fragment
        obtain ⟨other, mem, eq⟩ := List.any_eq_true.1 present
        have same : other = first := unique other (List.mem_append_left _ mem) first
          (List.mem_append_right _ List.mem_cons_self) (by simpa using eq)
        exact ⟨.inl, fun h => h.elim id fun eq => eq ▸ same ▸ mem⟩
      · simp
    rw [List.foldl_cons, mem_foldl_addFragment rest _ fun f hf g hg =>
      unique f (sub hf) g (sub hg), step, List.mem_cons, or_assoc]

/-- The fragments of a collection that were expanded at a type or at one that contains it are those
that are mentioned there. -/
private theorem Collection.Holds.mem_expandedAt (h : collection.Holds schema mentions)
    {fragment : Fragment} :
    fragment ∈ (collection.expansions.filter fun expansion =>
        schema.isSubtypeOf parent expansion.1).flatMap Prod.snd ↔
      ∃ typeName, .fragment typeName fragment ∈ mentions ∧
        schema.isSubtypeOf parent typeName := by
  simp only [List.mem_flatMap, List.mem_filter, ← h.comprises.fragment_iff]
  constructor
  · rintro ⟨⟨typeName, fragments⟩, ⟨expanded, sub⟩, mem⟩
    exact ⟨typeName, ⟨fragments, expanded, mem⟩, sub⟩
  · rintro ⟨typeName, ⟨fragments, expanded, mem⟩, sub⟩
    exact ⟨(typeName, fragments), ⟨expanded, sub⟩, mem⟩

/-- The fragments that apply at a type are those expanded at it or at a type that contains it. -/
theorem Collection.Holds.mem_fragmentsAt (h : collection.Holds schema mentions)
    (find : Name → Option Fragment)
    (named : ∀ typeName fragment, .fragment typeName fragment ∈ mentions →
      find fragment.name = some fragment) {fragment : Fragment} :
    fragment ∈ fragmentsAt schema parent collection ↔
      ∃ typeName, .fragment typeName fragment ∈ mentions ∧
        schema.isSubtypeOf parent typeName := by
  have chosen : fragmentsAt schema parent collection
      = ((collection.expansions.filter fun expansion =>
          schema.isSubtypeOf parent expansion.1).flatMap Prod.snd).foldl addFragment [] := rfl
  rw [chosen, ← h.mem_expandedAt, mem_foldl_addFragment]
  · simp
  · intro first memFirst second memSecond eq
    obtain ⟨_, mentioned, -⟩ := h.mem_expandedAt.1 memFirst
    obtain ⟨_, mentioned', -⟩ := h.mem_expandedAt.1 memSecond
    -- both fragments are what their common name stands for
    have found := named _ first mentioned
    rw [eq, named _ second mentioned'] at found
    exact (Option.some.inj found).symm

/-! ### Branches -/

/-- An object type gets a branch if something is mentioned at a type which it narrows the abstract
type to. -/
theorem Collection.Holds.mem_narrowedTypes (h : collection.Holds schema mentions) {object : Name} :
    object ∈ narrowedTypes schema parent collection ↔
      schema.isAbstract parent ∧ ∃ mention ∈ mentions,
        object ∈ narrowedTo schema parent mention.typeName := by
  have typeNames : ∀ typeName, typeName ∈ collection.occurrences.map Occurrence.collectedAt
      ++ collection.expansions.keys ↔ ∃ mention ∈ mentions, mention.typeName = typeName := by
    intro typeName
    rw [List.mem_append, List.mem_map, Collection.occurrences, h.groups_eq, h.expansions_eq,
      NameMap.mem_keys_collate]
    simp only [NameMap.mem_flatten_values_collate, List.mem_map, List.mem_filterMap]
    constructor
    · rintro (⟨occurrence, ⟨key, mention, mem, eq⟩, rfl⟩ | ⟨p, ⟨mention, mem, eq⟩, rfl⟩)
      · exact ⟨mention, mem, by rw [Mention.field?_eq_some.1 eq]; rfl⟩
      · exact ⟨mention, mem, by rw [Mention.fragment?_eq_some.1 eq]; rfl⟩
    · rintro ⟨mention, mem, rfl⟩
      cases mention with
      | field responseName occurrence =>
        exact .inl ⟨occurrence, ⟨responseName, _, mem, rfl⟩, rfl⟩
      | fragment typeName fragment => exact .inr ⟨(typeName, fragment), ⟨_, mem, rfl⟩, rfl⟩
  unfold narrowedTypes
  split
  · rename_i abstract
    rw [mem_unionNames, List.mem_flatMap]
    constructor
    · rintro (mem | ⟨typeName, mem, narrowed⟩)
      · cases mem
      · obtain ⟨mention, mentioned, rfl⟩ := (typeNames typeName).1 mem
        exact ⟨abstract, mention, mentioned, narrowed⟩
    · rintro ⟨-, mention, mem, narrowed⟩
      exact .inr ⟨_, (typeNames _).2 ⟨mention, mem, rfl⟩, narrowed⟩
  · rename_i concrete
    exact ⟨fun mem => (by cases mem), fun h => absurd h.1 concrete⟩

/-- A type that is not abstract gets no branches. -/
theorem narrowedTypes_of_concrete (concrete : schema.isAbstract parent = false) :
    narrowedTypes schema parent collection = [] := by
  rw [narrowedTypes, concrete]
  rfl

/-- The object types that a type is narrowed to are possible types of it. -/
theorem isPossibleType_of_mem_narrowedTo {typeName object : Name}
    (mem : object ∈ narrowedTo schema parent typeName) : schema.isPossibleType parent object := by
  unfold narrowedTo at mem
  split at mem
  · cases mem
  · split at mem
    · rename_i possible
      rwa [List.mem_singleton.1 mem]
    · split at mem
      · exact (List.mem_filter.1 mem).2
      · cases mem

/-- The object types that get a branch are possible types of the type. -/
theorem isPossibleType_of_mem_narrowedTypes {object : Name}
    (mem : object ∈ narrowedTypes schema parent collection) :
    schema.isPossibleType parent object := by
  unfold narrowedTypes at mem
  split at mem
  · obtain none | mem := mem_unionNames.1 mem
    · cases none
    · obtain ⟨_, -, narrowed⟩ := List.mem_flatMap.1 mem
      exact isPossibleType_of_mem_narrowedTo narrowed
  · cases mem

/-- The object types that get a branch are contained in the type. -/
theorem isSubtypeOf_of_mem_narrowedTypes {object : Name}
    (mem : object ∈ narrowedTypes schema parent collection) :
    schema.isSubtypeOf object parent :=
  Schema.isSubtypeOf_of_isSubtype
    (Schema.isPossibleType_iff.1 (isPossibleType_of_mem_narrowedTypes mem)).2

/-- **What makes no branch for an object type is kept**: if the type that something was collected at
contains the object type, and does not narrow the composite type around it to the object type, then
it contains the type around it. -/
theorem isSubtypeOf_of_not_mem_narrowedTo {typeName object : Name}
    (composite : schema.isComposite parent) (ho : schema.isObject object)
    (inside : schema.isSubtypeOf object parent) (contained : schema.isSubtypeOf object typeName)
    (h : schema.isAbstract parent → object ∉ narrowedTo schema parent typeName) :
    schema.isSubtypeOf parent typeName := by
  by_cases concrete : schema.isObject parent
  · rwa [← Schema.eq_of_isSubtypeOf_object inside concrete]
  have abstract := Schema.isAbstract_of_isComposite composite (by simpa using concrete)
  have possible : schema.isPossibleType parent object := by
    rcases (Schema.isSubtypeOf_iff_of_isObject ho).1 inside with rfl | possible
    · exact absurd ho concrete
    · exact possible
  have missing := h abstract
  unfold narrowedTo at missing
  split at missing
  · assumption
  · exfalso
    rcases (Schema.isSubtypeOf_iff_of_isObject ho).1 contained with rfl | possibleInside
    · rw [if_pos possible] at missing
      exact missing (List.mem_singleton_self _)
    · have abstractInside :=
        Schema.isAbstract_of_isSubtype (Schema.isPossibleType_iff.1 possibleInside).2
      split at missing
      · rename_i possibleType
        have objectInside := (Schema.isPossibleType_iff.1 possibleType).1
        rw [Schema.not_isAbstract_of_isObject objectInside] at abstractInside
        cases abstractInside
      · exact missing (List.mem_filter.2 ⟨Schema.mem_possibleTypes possibleInside, possible⟩)

/-- An object type without a branch misses nothing that is mentioned at a type that contains it. -/
theorem Collection.Holds.isSubtypeOf_typeName (h : collection.Holds schema mentions) {object : Name}
    (composite : schema.isComposite parent) (ho : schema.isObject object)
    (inside : schema.isSubtypeOf object parent)
    (noBranch : object ∉ narrowedTypes schema parent collection)
    {mention : Mention} (mem : mention ∈ mentions)
    (contained : schema.isSubtypeOf object mention.typeName) :
    schema.isSubtypeOf parent mention.typeName := by
  refine isSubtypeOf_of_not_mem_narrowedTo composite ho inside contained fun abstract narrowed => ?_
  exact noBranch (h.mem_narrowedTypes.2 ⟨abstract, mention, mem, narrowed⟩)

end GraphQLCompiler
