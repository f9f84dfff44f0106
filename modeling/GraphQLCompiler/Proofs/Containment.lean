import GraphQLCompiler.Proofs.FirstOccurrence
import GraphQLCompiler.Schema.Subtyping
import GraphQLCompiler.Schema.Validation
import Mathlib.Data.Option.Basic

/-!
# Containment of types

A value of an object type is a value of the interfaces and unions that the object type is a
possible type of. So an object type is **contained** in a type if it is that type or one of its
possible types, and for object types this is the same as being a subtype. What is written in a
selection set under type conditions is selected for the object types contained in all of them.

In a **well-formed** schema containment passes from type to type: what is contained in a subtype is
contained in the type (`Ordered.isSubtypeOf_trans`), and a subtype has the fields of the type
with the same or a narrower type (`WellFormed.exists_fieldDefinition`).
-/

namespace GraphQLCompiler

namespace Schema

variable {schema : Schema} {name super object : Name}

/-! ### Kinds -/

theorem isObject_iff : schema.isObject name ↔ schema.typeKind? name = some .object := by
  simp [isObject]

theorem not_isAbstract_of_isObject (h : schema.isObject name) : schema.isAbstract name = false := by
  simp [isAbstract, isObject_iff.1 h, TypeKind.isAbstract]

theorem isComposite_of_isObject (h : schema.isObject name) : schema.isComposite name := by
  simp [isComposite, isObject_iff.1 h, TypeKind.isComposite]

theorem isComposite_of_isAbstract (h : schema.isAbstract name) : schema.isComposite name := by
  obtain ⟨kind, known, abstract⟩ := (Option.any_eq_true _ _).1 h
  refine (Option.any_eq_true _ _).2 ⟨kind, known, ?_⟩
  cases kind with
  | interface | union => rfl
  | object | scalar | enum | inputObject => cases abstract

/-- A composite type is an object type or abstract. -/
theorem isAbstract_of_isComposite (h : schema.isComposite name)
    (h' : schema.isObject name = false) :
    schema.isAbstract name := by
  obtain ⟨kind, known, composite⟩ := (Option.any_eq_true _ _).1 h
  refine (Option.any_eq_true _ _).2 ⟨kind, known, ?_⟩
  cases kind with
  | object => rw [isObject_iff.2 known] at h'; cases h'
  | interface | union => rfl
  | scalar | enum | inputObject => cases composite

/-! ### Subtypes -/

theorem isSubtypeOf_iff : schema.isSubtypeOf name super ↔
    name = super ∨ schema.isSubtype super name := by
  simp [isSubtypeOf]

theorem isSubtypeOf_of_isSubtype (h : schema.isSubtype super name) :
    schema.isSubtypeOf name super :=
  isSubtypeOf_iff.2 (.inr h)

/-- Only interfaces and unions have subtypes besides themselves. -/
theorem isAbstract_of_isSubtype (h : schema.isSubtype super name) : schema.isAbstract super := by
  unfold isSubtype at h
  unfold isAbstract typeKind?
  split at h
  · rename_i found
    rw [found]
    rfl
  · rename_i found
    rw [found]
    rfl
  · cases h

theorem eq_of_isSubtypeOf (h : schema.isSubtypeOf name super)
    (notAbstract : schema.isAbstract super = false) : name = super := by
  rcases isSubtypeOf_iff.1 h with eq | sub
  · exact eq
  · rw [isAbstract_of_isSubtype sub] at notAbstract
    cases notAbstract

/-- An object type has no subtype but itself. -/
theorem eq_of_isSubtypeOf_object (h : schema.isSubtypeOf name super) (ho : schema.isObject super) :
    name = super :=
  eq_of_isSubtypeOf h (not_isAbstract_of_isObject ho)

/-! ### Possible types -/

theorem isPossibleType_iff : schema.isPossibleType super object ↔
    schema.isObject object ∧ schema.isSubtype super object := by
  simp [isPossibleType]

/-- The object types that a type contains are itself and its possible types. -/
theorem isSubtypeOf_iff_of_isObject (ho : schema.isObject object) :
    schema.isSubtypeOf object super ↔ object = super ∨ schema.isPossibleType super object := by
  rw [isSubtypeOf_iff, isPossibleType_iff]
  simp [ho]

/-- For object types the check of inline fragments is that of subtypes. -/
theorem isProperSupertype_iff_of_isObject (ho : schema.isObject object) :
    schema.isProperSupertype super object ↔ schema.isSubtypeOf object super := by
  rw [isSubtypeOf_iff_of_isObject ho]
  unfold isProperSupertype
  rw [Bool.or_eq_true, Bool.and_eq_true, decide_eq_true_iff, eq_comm]
  refine or_congr_right ⟨And.right, fun possible => ⟨?_, possible⟩⟩
  exact isAbstract_of_isSubtype (isPossibleType_iff.1 possible).2

/-- The possible types of a type are listed. -/
theorem mem_possibleTypes (h : schema.isPossibleType super object) :
    object ∈ schema.possibleTypes super := by
  obtain ⟨ho, sub⟩ := isPossibleType_iff.1 h
  unfold isSubtype at sub
  unfold possibleTypes
  split at sub
  · rename_i found
    simp only [found]
    -- the object type is defined, and lists the interface
    obtain ⟨definition, defined, lists⟩ := (Option.any_eq_true _ _).1 sub
    have kind : definition.kind = .object := by
      have known := isObject_iff.1 ho
      rw [typeKind?, defined] at known
      exact Option.some.inj known
    refine List.mem_map.2 ⟨(object, definition), List.mem_filter.2 ⟨?_, ?_⟩, rfl⟩
    · exact NameMap.mem_of_find?_eq_some defined
    · simp only [kind, decide_true, Bool.true_and]
      exact lists
  · rename_i found
    simp only [found]
    exact List.contains_iff_mem.1 sub
  · cases sub

/-- The object types among the listed possible types are possible types, if no name is that of two
types. -/
theorem isPossibleType_of_mem_possibleTypes (distinct : schema.types.keys.Nodup)
    (ho : schema.isObject object) (mem : object ∈ schema.possibleTypes super) :
    schema.isPossibleType super object := by
  refine isPossibleType_iff.2 ⟨ho, ?_⟩
  unfold possibleTypes at mem
  unfold isSubtype
  split at mem
  · rename_i found
    simp only [found]
    exact List.contains_iff_mem.2 mem
  · rename_i found
    simp only [found]
    obtain ⟨⟨_, definition⟩, listed, rfl⟩ := List.mem_map.1 mem
    obtain ⟨defined, lists⟩ := List.mem_filter.1 listed
    -- the definition that is listed is the one that the name stands for
    refine (Option.any_eq_true _ _).2
      ⟨definition, NameMap.find?_eq_some_of_mem distinct defined, ?_⟩
    exact ((Bool.and_eq_true _ _).mp lists).2
  · cases mem

/-! ### Well-formed schemas -/

/-- The field that a type defines with a name, meta-fields apart. -/
def ownField? (schema : Schema) (typeName fieldName : Name) : Option FieldDefinition :=
  (schema.find? typeName).bind fun definition => definition.fields.find? (·.name = fieldName)

theorem fieldDefinition?_of_ownField? {typeName fieldName : Name} {field : FieldDefinition}
    (h : schema.ownField? typeName fieldName = some field) :
    schema.fieldDefinition? typeName fieldName
      = some { type := field.type, description := field.description } := by
  obtain ⟨definition, found, own⟩ := Option.bind_eq_some_iff.1 h
  simp [fieldDefinition?, found, own]

theorem fieldDefinition?_of_ownField?_eq_none {typeName fieldName : Name}
    (h : schema.ownField? typeName fieldName = none) :
    schema.fieldDefinition? typeName fieldName
      = (schema.typeKind? typeName).bind fun kind =>
        schema.metaField? typeName kind fieldName := by
  unfold ownField? at h
  unfold fieldDefinition? typeKind?
  cases found : schema.find? typeName with
  | none => rfl
  | some definition =>
    rw [found, Option.bind_some] at h
    simp [h]

theorem metaField?_of_ne_root {typeName fieldName : Name} {kind : TypeKind}
    (h : schema.roots.query ≠ some typeName) :
    schema.metaField? typeName kind fieldName
      = if fieldName = "__typename" ∧ kind.isComposite then
          some { type := .named "String" true, description := none } else none := by
  rw [metaField?, if_pos h]

theorem isReservedName_typename : isReservedName "__typename" = true := by
  simp [isReservedName]

/-- An abstract type with fields is an interface, which its subtypes list. -/
theorem lists_of_ownField {fieldName : Name} {field : FieldDefinition}
    (h : schema.isSubtype super name) (own : schema.ownField? super fieldName = some field) :
    schema.lists name super := by
  unfold isSubtype at h
  split at h
  · exact h
  · rename_i found
    rw [ownField?, found] at own
    cases own
  · cases h

/-- Containment of types is an order if a schema is **ordered**: the members of its unions are
object types, and whatever implements an interface implements the interfaces that this one
implements. -/
structure Ordered (schema : Schema) : Prop where
  membersAreObjects : ∀ name members, schema.find? name = some (.union members) →
    ∀ member ∈ members, schema.isObject member
  listsTransitively : ∀ name middle super, schema.typeKind? middle = some .interface →
    schema.typeKind? super = some .interface → schema.lists name middle →
    schema.lists middle super → schema.lists name super

namespace Ordered

/-- A subtype of an abstract type that is abstract itself lists it. -/
theorem lists_of_isSubtype (ordered : schema.Ordered) (h : schema.isSubtype super name)
    (notObject : schema.isObject name = false) : schema.lists name super := by
  unfold isSubtype at h
  split at h
  · exact h
  · rename_i members found
    have member := ordered.membersAreObjects super members found name (List.contains_iff_mem.1 h)
    rw [notObject] at member
    cases member
  · cases h

/-- **Subtypes of subtypes** are subtypes. -/
theorem isSubtypeOf_trans (ordered : schema.Ordered) {middle : Name}
    (h : schema.isSubtypeOf name middle) (h' : schema.isSubtypeOf middle super) :
    schema.isSubtypeOf name super := by
  rcases isSubtypeOf_iff.1 h with rfl | sub
  · exact h'
  rcases isSubtypeOf_iff.1 h' with rfl | sub'
  · exact h
  -- a type with a subtype is no object type, so it is no member of a union: it lists the other
  have lists : schema.lists middle super := by
    refine ordered.lists_of_isSubtype sub' (Bool.eq_false_iff.2 fun ho => ?_)
    have abstract := isAbstract_of_isSubtype sub
    rw [not_isAbstract_of_isObject ho] at abstract
    cases abstract
  obtain ⟨definition, found, listsDefinition⟩ := (Option.any_eq_true _ _).1 lists
  unfold isSubtype at sub sub'
  rw [found] at sub
  split at sub
  · rename_i interfaces fields eq
    have middleKind : schema.typeKind? middle = some .interface := by
      rw [typeKind?, found, eq]
      rfl
    refine isSubtypeOf_of_isSubtype ?_
    split at sub'
    · rename_i foundSuper
      have superKind : schema.typeKind? super = some .interface := by
        rw [typeKind?, foundSuper]
        rfl
      unfold isSubtype
      rw [foundSuper]
      exact ordered.listsTransitively name middle super middleKind superKind sub lists
    · rename_i members foundSuper
      have member := ordered.membersAreObjects super members foundSuper middle
        (List.contains_iff_mem.1 sub')
      rw [isObject_iff, middleKind] at member
      cases member
    · cases sub'
  · rename_i members eq
    cases eq
    cases listsDefinition
  · cases sub

end Ordered

/-- What the validation of a schema guarantees about the types that selections are collected at: a
schema is **well-formed** if the members of its unions are object types, implementation is
transitive, and types have the fields of the interfaces that they implement, with the same or a
narrower type. -/
structure WellFormed (schema : Schema) : Prop where
  rootsAreObjects : ∀ operationType root, schema.rootType? operationType = some root →
    schema.isObject root
  membersAreObjects : ∀ name members, schema.find? name = some (.union members) →
    ∀ member ∈ members, schema.isObject member
  listsTransitively : ∀ name interfaceName other, schema.lists name interfaceName →
    schema.lists interfaceName other → schema.lists name other
  implementsFields : ∀ name interfaceName fieldName field, schema.lists name interfaceName →
    schema.ownField? interfaceName fieldName = some field →
    ∃ own, schema.ownField? name fieldName = some own ∧
      schema.isSubtypeOf own.type.bare field.type.bare
  fieldsUnreserved : ∀ name fieldName field, schema.ownField? name fieldName = some field →
    isReservedName fieldName = false

namespace WellFormed

theorem ordered (wf : schema.WellFormed) : schema.Ordered where
  membersAreObjects := wf.membersAreObjects
  listsTransitively name middle super _ _ := wf.listsTransitively name middle super

/-- Types that list an interface are object types or abstract. -/
theorem isComposite_of_lists (h : schema.lists name super) : schema.isComposite name := by
  obtain ⟨definition, found, lists⟩ := (Option.any_eq_true _ _).1 h
  unfold isComposite typeKind?
  rw [found]
  cases definition with
  | object | interface => rfl
  | union | scalar | enum | inputObject => cases lists

theorem isComposite_of_isSubtype (wf : schema.WellFormed) (h : schema.isSubtype super name) :
    schema.isComposite name := by
  by_cases ho : schema.isObject name
  · exact isComposite_of_isObject ho
  · exact isComposite_of_lists (wf.ordered.lists_of_isSubtype h (by simpa using ho))

theorem isSubtypeOf_trans (wf : schema.WellFormed) {middle : Name}
    (h : schema.isSubtypeOf name middle) (h' : schema.isSubtypeOf middle super) :
    schema.isSubtypeOf name super :=
  wf.ordered.isSubtypeOf_trans h h'

/-- A subtype has **the fields of the type**, with the same or a narrower type. -/
theorem exists_fieldDefinition (wf : schema.WellFormed) (h : schema.isSubtypeOf name super)
    {fieldName : Name} {field : FieldInfo}
    (found : schema.fieldDefinition? super fieldName = some field) :
    ∃ own, schema.fieldDefinition? name fieldName = some own ∧
      schema.isSubtypeOf own.type.bare field.type.bare := by
  rcases isSubtypeOf_iff.1 h with rfl | sub
  · exact ⟨field, found, isSubtypeOf_self _ _⟩
  have abstract := isAbstract_of_isSubtype sub
  cases own : schema.ownField? super fieldName with
  | some definition =>
    obtain ⟨ownField, ownFound, narrower⟩ := wf.implementsFields name super fieldName definition
      (lists_of_ownField sub own) own
    rw [fieldDefinition?_of_ownField? own] at found
    cases found
    exact ⟨_, fieldDefinition?_of_ownField? ownFound, narrower⟩
  | none =>
    -- the field is the type name, since no abstract type is the root type of queries
    have notRoot : schema.roots.query ≠ some super := by
      intro root
      rw [not_isAbstract_of_isObject (wf.rootsAreObjects .query super root)] at abstract
      cases abstract
    rw [fieldDefinition?_of_ownField?_eq_none own, Option.bind_eq_some_iff] at found
    obtain ⟨kind, -, found⟩ := found
    rw [metaField?_of_ne_root notRoot] at found
    split at found
    · rename_i typename
      cases found
      have ownNone : schema.ownField? name fieldName = none := by
        rw [Option.eq_none_iff_forall_not_mem]
        intro field mem
        have unreserved := wf.fieldsUnreserved name fieldName field mem
        rw [typename.1, isReservedName_typename] at unreserved
        cases unreserved
      obtain ⟨own, known, composite⟩ :=
        (Option.any_eq_true _ _).1 (wf.isComposite_of_isSubtype sub)
      refine ⟨_, ?_, isSubtypeOf_self _ _⟩
      rw [fieldDefinition?_of_ownField?_eq_none ownNone, known, Option.bind_some, metaField?,
        if_pos ⟨typename.1, composite⟩]
    · cases found

end WellFormed

/-! ### Names of types -/

/-- Extensions add to types and leave their names. -/
private theorem keys_extendedTypes {definitions : List TypeSystemDefinition} :
    ∀ {types extended : NameMap TypeDefinition},
      types.mapM (extendedType? definitions) = some extended → extended.keys = types.keys
  | [], extended, h => by
    cases h
    rfl
  | named :: rest, extended, h => by
    rw [List.mapM_cons] at h
    obtain ⟨first, extends_, h⟩ := Option.bind_eq_some_iff.1 h
    obtain ⟨others, extendsRest, h⟩ := Option.bind_eq_some_iff.1 h
    cases h
    have name_eq : first.1 = named.1 := by
      obtain ⟨type, -, h⟩ := Option.bind_eq_some_iff.1 extends_
      obtain ⟨-, -, h⟩ := Option.bind_eq_some_iff.1 h
      cases h
      rfl
    rw [NameMap.keys, NameMap.keys, List.map_cons, List.map_cons, name_eq]
    exact congrArg _ (keys_extendedTypes extendsRest)

/-- **The types of a schema** that is read from a text have distinct names. -/
theorem nodup_keys_of_parse? {text : String} {schema : Schema} (h : parse? text = some schema) :
    schema.types.keys.Nodup := by
  obtain ⟨definitions, -, h⟩ := Option.bind_eq_some_iff.1 h
  obtain ⟨definitions, -, h⟩ := Option.bind_eq_some_iff.1 h
  obtain ⟨types, constructed, h⟩ := Option.bind_eq_some_iff.1 h
  obtain ⟨roots, -, h⟩ := Option.bind_eq_some_iff.1 h
  obtain ⟨-, -, h⟩ := Option.bind_eq_some_iff.1 h
  cases h
  obtain ⟨_, guarded, extended⟩ := Option.bind_eq_some_iff.1 constructed
  have checked := (Option.guard_eq_some' _).1 guarded
  have nodup : (builtInTypes ++ definedTypes definitions).keys.Nodup :=
    of_decide_eq_true ((Bool.and_eq_true _ _).mp checked).1
  rwa [← keys_extendedTypes extended] at nodup

theorem nodup_keys_of_parseValid? {text : String} {schema : Schema}
    (h : parseValid? text = some schema) : schema.types.keys.Nodup := by
  obtain ⟨parsed, read, h⟩ := Option.bind_eq_some_iff.1 h
  unfold validated? at h
  split at h
  · cases h
    exact (nodup_keys_of_parse? read).sublist (List.filter_sublist.map Prod.fst)
  · cases h

/-! ### Valid schemas -/

/-- A **valid schema** is well-formed if implementation is transitive and narrows fields only. -/
theorem wellFormed_of_isValid (valid : schema.isValid)
    (listsTransitively : ∀ name interfaceName other, schema.lists name interfaceName →
      schema.lists interfaceName other → schema.lists name other)
    (implementsFields : ∀ name interfaceName fieldName field, schema.lists name interfaceName →
      schema.ownField? interfaceName fieldName = some field →
      ∃ own, schema.ownField? name fieldName = some own ∧
        schema.isSubtypeOf own.type.bare field.type.bare) : schema.WellFormed := by
  simp only [isValid, validRoots, Bool.and_eq_true] at valid
  obtain ⟨⟨⟨-, roots⟩, types⟩, -⟩ := valid
  have validType : ∀ {name definition}, schema.find? name = some definition →
      schema.validType definition := fun found =>
    ((Bool.and_eq_true _ _).mp
      (List.all_eq_true.1 types _ (NameMap.mem_of_find?_eq_some found))).2
  refine ⟨?_, ?_, listsTransitively, implementsFields, ?_⟩
  · intro operationType root found
    have checked := List.all_eq_true.1 roots operationType (by cases operationType <;> decide)
    rw [found] at checked
    exact checked
  · intro name members found member mem
    have checked := validType found
    simp only [Schema.validType, Bool.and_eq_true] at checked
    have object := List.all_eq_true.1 checked.2 member mem
    obtain ⟨kind, known, eq⟩ := (Option.any_eq_true _ _).1 object
    rw [decide_eq_true_iff] at eq
    exact isObject_iff.2 (eq ▸ known)
  · intro name fieldName field own
    obtain ⟨definition, found, ownDefinition⟩ := Option.bind_eq_some_iff.1 own
    have checked := validType found
    have mem := List.mem_of_find?_eq_some ownDefinition
    have named : field.name = fieldName := by simpa using List.find?_some ownDefinition
    have fields : schema.validFields definition.fields := by
      cases definition with
      | object | interface =>
        simp only [Schema.validType, Bool.and_eq_true] at checked
        exact checked.1.2
      | union | scalar | enum | inputObject => rfl
    have unreserved := List.all_eq_true.1 fields field mem
    simp only [Bool.and_eq_true, Bool.not_eq_true'] at unreserved
    exact named ▸ unreserved.1.1

/-- Whether a type has a field for each field of an interface, with the same or a narrower type. -/
def checkFields (schema : Schema) (name interfaceName : Name) : Bool :=
  (schema.find? interfaceName).all fun definition => definition.fields.all fun field =>
    (schema.ownField? name field.name).any fun own =>
      schema.isSubtypeOf own.type.bare field.type.bare

/-- Whether a type has the interfaces and the fields of the interfaces that it implements. -/
def checkInterfaces (schema : Schema) (name : Name) (definition : TypeDefinition) : Bool :=
  definition.interfaces.all fun interfaceName =>
    (schema.find? interfaceName).all (fun other => other.interfaces.all (schema.lists name)) &&
      schema.checkFields name interfaceName

/-- Whether a schema is valid and its types implement interfaces as a well-formed schema has it. -/
def checkWellFormed (schema : Schema) : Bool :=
  schema.isValid &&
    schema.types.all fun (name, definition) => schema.checkInterfaces name definition

theorem wellFormed_of_check (h : schema.checkWellFormed) : schema.WellFormed := by
  obtain ⟨valid, types⟩ := (Bool.and_eq_true _ _).mp h
  have check : ∀ {name interfaceName}, schema.lists name interfaceName →
      (schema.find? interfaceName).all (fun other => other.interfaces.all (schema.lists name)) ∧
        schema.checkFields name interfaceName := by
    intro name interfaceName lists
    obtain ⟨definition, found, lists⟩ := (Option.any_eq_true _ _).1 lists
    have checked := List.all_eq_true.1 types _ (NameMap.mem_of_find?_eq_some found)
    exact (Bool.and_eq_true _ _).mp
      (List.all_eq_true.1 checked interfaceName (List.contains_iff_mem.1 lists))
  refine wellFormed_of_isValid valid ?_ ?_
  · intro name interfaceName other lists listsOther
    obtain ⟨inner, foundInner, lists'⟩ := (Option.any_eq_true _ _).1 listsOther
    have checked := (check lists).1
    rw [foundInner, Option.all_some] at checked
    exact List.all_eq_true.1 checked other (List.contains_iff_mem.1 lists')
  · intro name interfaceName fieldName field lists own
    obtain ⟨inner, foundInner, ownInner⟩ := Option.bind_eq_some_iff.1 own
    have checked := (check lists).2
    rw [checkFields, foundInner, Option.all_some] at checked
    have named : field.name = fieldName := by simpa using List.find?_some ownInner
    have narrower := List.all_eq_true.1 checked field (List.mem_of_find?_eq_some ownInner)
    rw [named] at narrower
    exact (Option.any_eq_true _ _).1 narrower

end Schema

/-- A schema with two interfaces of which neither contains the other, and with a field that an
object type has with a narrower type than its interface. -/
def petSchema : Schema where
  types := [
    ("ID", .scalar), ("String", .scalar), ("Int", .scalar),
    ("Query", .object [] [plain "pet" "Pet", plain "dog" "Dog"]),
    ("Pet", .interface [] [plain "name" "String", plain "owner" "Owner"]),
    ("Mammal", .interface [] [plain "name" "String"]),
    ("Dog", .object ["Pet", "Mammal"] [plain "name" "String", plain "owner" "Breeder"]),
    ("Cat", .object ["Pet", "Mammal"]
      [plain "name" "String", plain "owner" "Owner", plain "lives" "Int"]),
    ("Fish", .object ["Pet"] [plain "name" "String", plain "owner" "Owner"]),
    ("Owner", .interface [] [plain "id" "ID"]),
    ("Breeder", .object ["Owner"] [plain "id" "ID", plain "kennel" "String"]),
    ("Person", .object ["Owner"] [plain "id" "ID"])]
  roots := { query := some "Query" }
  directives := []
where
  /-- A field without arguments. -/
  plain (name type : Name) : FieldDefinition :=
    { description := none, name, arguments := [], type := .named type false }

theorem petSchema_wellFormed : petSchema.WellFormed :=
  Schema.wellFormed_of_check (by decide +kernel)

/-- A field with nothing but its sub-selections. -/
def plainField (name : Name) (selections : WrittenSelections) : Selection Unit :=
  .field none name [] [] none selections

/-- An inline fragment without directives. -/
def plainInline (typeCondition : Name) (selections : WrittenSelections) : Selection Unit :=
  .inlineFragment (some typeCondition) [] none selections

/-- A spread without directives. -/
def plainSpread (name : Name) : Selection Unit := .spread name [] none ()

/-- A fragment without directives. -/
def plainFragment (name typeCondition : Name) (selections : WrittenSelections) :
    FragmentDefinition :=
  { name, typeCondition, directives := [], location := none, selections }

/-- A document with one query, named `Q`, and some fragments. -/
def queryDocument (selections : WrittenSelections) (fragments : List FragmentDefinition) :
    Document where
  sources := []
  definitions :=
    .operation {
      operationType := .query, name := some "Q", variableDefinitions := [], directives := []
      location := none, selections } :: fragments.map .fragment

end GraphQLCompiler
