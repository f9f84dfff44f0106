import GraphQLCompiler.Proofs.Containment

/-!
# Subtypes and possible types agree

Collection asks whether a type condition applies with `Schema.isProperSupertype`, resolution keeps
what applies with `Schema.isSubtypeOf`, and branches come from the list `Schema.possibleTypes`. The
three walk through a schema in different ways, but in a schema where containment is an order they
give one answer (`Schema.subtypes_agree`): the listed possible types are the object types below an
abstract type, and they pass on from a type to every type that contains it.

Names are not repeated in a schema that is read from a text, neither among its types nor within one
of them (`Schema.distinct_of_parse?`). Without this a look-up would miss what a list has.
-/

namespace GraphQLCompiler

namespace Schema

variable {schema : Schema} {name super object : Name}

/-! ### Names that are not repeated -/

/-- Whether the names of types, and those of the members of each union, are **distinct**. -/
structure Distinct (schema : Schema) : Prop where
  names : schema.types.keys.Nodup
  members : ∀ name members, schema.find? name = some (.union members) → members.Nodup

theorem distinct_of_hasDistinctParts (names : schema.types.keys.Nodup)
    (parts : ∀ named ∈ schema.types, named.2.hasDistinctParts) : schema.Distinct where
  names
  members _ _ found := of_decide_eq_true (parts _ (NameMap.mem_of_find?_eq_some found))

/-- Whatever extensions add to the types of a schema, the parts of each type stay distinct. -/
private theorem hasDistinctParts_of_mem {definitions : List TypeSystemDefinition} :
    ∀ {types extended : NameMap TypeDefinition},
      types.mapM (extendedType? definitions) = some extended →
      ∀ named ∈ extended, named.2.hasDistinctParts
  | [], extended, h, named, mem => by
    cases h
    cases mem
  | first :: rest, extended, h, named, mem => by
    rw [List.mapM_cons] at h
    obtain ⟨firstExtended, extends_, h⟩ := Option.bind_eq_some_iff.1 h
    obtain ⟨others, extendsRest, h⟩ := Option.bind_eq_some_iff.1 h
    cases h
    rcases List.mem_cons.1 mem with rfl | mem
    · obtain ⟨type, -, h⟩ := Option.bind_eq_some_iff.1 extends_
      obtain ⟨_, guarded, h⟩ := Option.bind_eq_some_iff.1 h
      cases h
      exact (Option.guard_eq_some' _).1 guarded
    · exact hasDistinctParts_of_mem extendsRest named mem

/-- A schema that is **read from a text** repeats no names. -/
theorem distinct_of_parse? {text : String} (h : parse? text = some schema) :
    schema.Distinct := by
  refine distinct_of_hasDistinctParts (nodup_keys_of_parse? h) ?_
  obtain ⟨definitions, -, h⟩ := Option.bind_eq_some_iff.1 h
  obtain ⟨definitions, -, h⟩ := Option.bind_eq_some_iff.1 h
  obtain ⟨types, constructed, h⟩ := Option.bind_eq_some_iff.1 h
  obtain ⟨roots, -, h⟩ := Option.bind_eq_some_iff.1 h
  obtain ⟨-, -, h⟩ := Option.bind_eq_some_iff.1 h
  cases h
  obtain ⟨-, -, extended⟩ := Option.bind_eq_some_iff.1 constructed
  exact hasDistinctParts_of_mem extended

/-- Validation drops scalars only, so it repeats no names. -/
theorem distinct_of_parseValid? {text : String} (h : parseValid? text = some schema) :
    schema.Distinct where
  names := nodup_keys_of_parseValid? h
  members name members found := by
    obtain ⟨parsed, read, h⟩ := Option.bind_eq_some_iff.1 h
    have distinct := distinct_of_parse? read
    unfold validated? at h
    split at h
    · cases h
      have kept := (List.mem_filter.1 (NameMap.mem_of_find?_eq_some found)).1
      exact distinct.members name members (NameMap.find?_eq_some_of_mem distinct.names kept)
    · cases h

/-! ### Possible types -/

/-- What is listed as a possible type is an object type. -/
theorem isObject_of_mem_possibleTypes (distinct : schema.Distinct) (ordered : schema.Ordered)
    (mem : object ∈ schema.possibleTypes super) : schema.isObject object := by
  unfold possibleTypes at mem
  split at mem
  · rename_i members found
    exact ordered.membersAreObjects super members found object mem
  · obtain ⟨⟨_, definition⟩, listed, rfl⟩ := List.mem_map.1 mem
    obtain ⟨defined, checked⟩ := List.mem_filter.1 listed
    have kind := of_decide_eq_true ((Bool.and_eq_true _ _).mp checked).1
    have found := NameMap.find?_eq_some_of_mem distinct.names defined
    exact isObject_iff.2 (by rw [typeKind?, find?, found, Option.map_some, kind])
  · cases mem

/-- **The list of possible types** has those that are possible types. -/
theorem mem_possibleTypes_iff (distinct : schema.Distinct) (ordered : schema.Ordered) :
    object ∈ schema.possibleTypes super ↔ schema.isPossibleType super object := by
  refine ⟨fun mem => ?_, mem_possibleTypes⟩
  have ho := isObject_of_mem_possibleTypes distinct ordered mem
  exact isPossibleType_of_mem_possibleTypes distinct.names ho mem

/-- No possible type is listed twice. -/
theorem nodup_possibleTypes (distinct : schema.Distinct) (super : Name) :
    (schema.possibleTypes super).Nodup := by
  unfold possibleTypes
  split
  · rename_i members found
    exact distinct.members super members found
  · exact distinct.names.sublist (List.filter_sublist.map Prod.fst)
  · exact List.nodup_nil

/-- The possible types of a subtype are possible types of the type, if that is abstract. -/
theorem Ordered.possibleTypes_subset (ordered : schema.Ordered) (distinct : schema.Distinct)
    (abstract : schema.isAbstract super) (h : schema.isSubtypeOf name super) :
    schema.possibleTypes name ⊆ schema.possibleTypes super := by
  intro object mem
  obtain ⟨ho, sub⟩ := isPossibleType_iff.1 ((mem_possibleTypes_iff distinct ordered).1 mem)
  have contained := ordered.isSubtypeOf_trans (isSubtypeOf_of_isSubtype sub) h
  rcases (isSubtypeOf_iff_of_isObject ho).1 contained with rfl | possible
  · rw [not_isAbstract_of_isObject ho] at abstract
    cases abstract
  · exact mem_possibleTypes possible

/-! ### Agreement -/

/-- **The questions about subtypes agree.** In a schema that repeats no names, where the members of
unions are object types and implementation is transitive: the possible types of a type are listed,
without repetition, and they are object types; an object type is a subtype of a type if and only if
the type is a supertype of it, that is, if it is the type or one of its possible types; subtypes of
subtypes are subtypes; and an abstract type has the possible types of its abstract subtypes. -/
theorem subtypes_agree (distinct : schema.Distinct) (ordered : schema.Ordered) :
    (∀ super name, name ∈ schema.possibleTypes super ↔ schema.isPossibleType super name) ∧
    (∀ super, (schema.possibleTypes super).Nodup ∧
      ∀ name ∈ schema.possibleTypes super, schema.isObject name) ∧
    (∀ super object, schema.isObject object →
      (schema.isSubtypeOf object super ↔ schema.isProperSupertype super object) ∧
      (schema.isProperSupertype super object ↔
        super = object ∨ object ∈ schema.possibleTypes super)) ∧
    (∀ name middle super, schema.isSubtypeOf name middle → schema.isSubtypeOf middle super →
      schema.isSubtypeOf name super) ∧
    (∀ name super, schema.isAbstract name → schema.isAbstract super →
      schema.isSubtypeOf name super → ∀ object ∈ schema.possibleTypes name,
      object ∈ schema.possibleTypes super) := by
  refine ⟨fun super name => mem_possibleTypes_iff distinct ordered, fun super => ?_,
    fun super object ho => ?_, fun name middle super => ordered.isSubtypeOf_trans,
    fun name super _ abstract sub => ordered.possibleTypes_subset distinct abstract sub⟩
  · exact ⟨nodup_possibleTypes distinct super,
      fun name => isObject_of_mem_possibleTypes distinct ordered⟩
  · refine ⟨(isProperSupertype_iff_of_isObject ho).symm, ?_⟩
    rw [isProperSupertype_iff_of_isObject ho, isSubtypeOf_iff_of_isObject ho,
      mem_possibleTypes_iff distinct ordered, eq_comm]

end Schema

/-- A schema with an interface that implements another, and with a union. -/
def searchSchema : Schema where
  types := [
    ("String", .scalar), ("Int", .scalar),
    ("Query", .object [] [plain "search" "Found"]),
    ("Node", .interface [] [plain "key" "Int"]),
    ("Named", .interface ["Node"] [plain "key" "Int", plain "name" "String"]),
    ("Dog", .object ["Node", "Named"] [plain "key" "Int", plain "name" "String"]),
    ("Rock", .object ["Node"] [plain "key" "Int", plain "weight" "Int"]),
    ("Found", .union ["Rock", "Dog"])]
  roots := { query := some "Query" }
  directives := []
where
  /-- A field without arguments. -/
  plain (name type : Name) : FieldDefinition :=
    { description := none, name, arguments := [], type := .named type false }

/-- What has a name is a node: the possible types of the one are possible types of the other. -/
theorem subtypes_agree_search : searchSchema.Distinct ∧ searchSchema.Ordered ∧
    searchSchema.possibleTypes "Named" = ["Dog"] ∧
    searchSchema.possibleTypes "Node" = ["Dog", "Rock"] ∧
    (∀ object ∈ searchSchema.possibleTypes "Named", object ∈ searchSchema.possibleTypes "Node") ∧
    (searchSchema.isSubtypeOf "Rock" "Found" ↔ searchSchema.isProperSupertype "Found" "Rock") ∧
    (searchSchema.possibleTypes "Found").Nodup := by
  have distinct : searchSchema.Distinct :=
    Schema.distinct_of_hasDistinctParts (by decide +kernel) (by decide +kernel)
  have wellFormed : searchSchema.WellFormed := Schema.wellFormed_of_check (by decide +kernel)
  obtain ⟨-, listed, objects, -, inside⟩ := Schema.subtypes_agree distinct wellFormed.ordered
  exact ⟨distinct, wellFormed.ordered, by decide +kernel, by decide +kernel,
    inside "Named" "Node" (by decide +kernel) (by decide +kernel) (by decide +kernel),
    (objects "Found" "Rock" (by decide +kernel)).1, (listed "Found").1⟩

end GraphQLCompiler
