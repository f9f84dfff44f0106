import GraphQLCompiler.Proofs.ResolvedAt

/-!
# The types of compiled fields

A compiled field has its type from the first of the selections that it merges, and its description
from the type that it is resolved at. The first selection may have been collected at a type that
contains this one, and an implementation may declare a narrower type than its interface. So the type
of a field is not always the one that the type around it declares: the owner of a dog is a breeder,
but where the owner of a pet is selected first, the branch of dogs has an owner of any kind
(`type_ne_own_dogOwner`).

What holds everywhere is that the type of a field is declared by a type that contains the one around
it, and that the one around it declares the same or a narrower type. The two are the same where the
first selection was collected at the type around, as everything is that is selected on an object
type (`typed_of_shows`).
-/

namespace GraphQLCompiler

variable {settings : Settings}

/-! ### The types that fields are collected at -/

/-- Whether a mention is at a type: at that type itself if it is an object type, and with the type
that the type of the mention declares if it is a field. -/
structure Mention.ReadAt (schema : Schema) (parent : Name) (mention : Mention) : Prop where
  typeName_eq : schema.isObject parent → mention.typeName = parent
  type_eq : ∀ responseName occurrence, mention = .field responseName occurrence →
    occurrence.type = schema.fieldType occurrence.collectedAt occurrence.name

/-- What is mentioned under a type condition is mentioned at the type around it. -/
theorem Mention.ReadAt.of_narrow {schema : Schema} {parent typeCondition : Name}
    {mention : Mention} (h : mention.ReadAt schema (schema.narrow parent typeCondition)) :
    mention.ReadAt schema parent where
  typeName_eq isObject := by
    have same : schema.narrow parent typeCondition = parent := if_pos isObject
    rw [same] at h
    exact h.typeName_eq isObject
  type_eq := h.type_eq

mutual

private theorem selection_readAt {mention : Mention} :
    ∀ (parent : Name) (selection : LinkedSelection),
      mention ∈ selection.reading settings parent → mention.ReadAt settings.schema parent
  | parent, .field _ _ _ _ _ _, mem => by
    rw [Selection.reading, List.mem_singleton] at mem
    subst mem
    refine ⟨fun _ => rfl, fun responseName occurrence eq => ?_⟩
    cases eq
    rfl
  | parent, .inlineFragment typeCondition _ _ selections, mem => by
    simp only [Selection.reading] at mem
    split at mem
    · exact (readAt _ selections mem).of_narrow
    · cases mem
  | _, .spread _ _ _ none, mem => by simp [Selection.reading] at mem
  | parent, .spread _ _ _ (some fragment), mem => by
    rw [Selection.reading] at mem
    exact fragment_readAt parent fragment mem

private theorem fragment_readAt {mention : Mention} :
    ∀ (parent : Name) (fragment : Fragment),
      mention ∈ fragment.reading settings parent → mention.ReadAt settings.schema parent
  | parent, ⟨name, typeCondition, location, selections⟩, mem => by
    rw [Fragment.reading_eq] at mem
    rcases List.mem_cons.1 mem with rfl | mem
    · exact ⟨fun isObject => if_pos isObject, nofun⟩
    · unfold readingInside at mem
      split at mem
      · exact (readAt _ selections mem).of_narrow
      · cases mem

/-- **Everything that selections mention at a type** is at that type if it is an object type, and
fields have the type that is declared where they are collected. -/
theorem readAt {mention : Mention} : ∀ (parent : Name) (selections : List LinkedSelection),
    mention ∈ reading settings parent selections → mention.ReadAt settings.schema parent
  | _, [], mem => by simp [reading] at mem
  | parent, selection :: rest, mem => by
    rw [reading] at mem
    rcases List.mem_append.1 mem with mem | mem
    · exact selection_readAt parent selection mem
    · exact readAt parent rest mem

end

/-! ### Compiled fields -/

/-- What is told about a field at a type by the first of the selections that it merges: its name and
its type are those of the first selection, at a type that contains this one, and this one declares
the field with its description and the same or a narrower type. -/
structure Compiled.Field.TypedBy (schema : Schema) (typeName : Name) (first : Occurrence)
    (field : Compiled.Field) : Prop where
  fieldName_eq : field.fieldName = first.name
  contained : schema.isSubtypeOf typeName first.collectedAt
  declared : ∃ declared, schema.fieldDefinition? first.collectedAt field.fieldName = some declared ∧
    field.type = declared.type
  own : ∃ own, schema.fieldDefinition? typeName field.fieldName = some own ∧
    field.description = own.description ∧
    schema.isSubtypeOf own.type.bare field.type.bare ∧
    (first.collectedAt = typeName → field.type = own.type)

/-- What a field that applies at a type is compiled to is typed by its first occurrence. -/
theorem ApplicableField.CompilesTo.typedBy (wf : settings.schema.WellFormed) {typeName : Name}
    {field : ApplicableField} {compiled : Compiled.Field}
    (compiles : field.CompilesTo settings typeName compiled)
    (contained : settings.schema.isSubtypeOf typeName field.first.collectedAt)
    (defined : (settings.schema.fieldDefinition? field.first.collectedAt field.first.name).isSome)
    (type : field.first.type
      = settings.schema.fieldType field.first.collectedAt field.first.name) :
    compiled.TypedBy settings.schema typeName field.first := by
  have fieldName : compiled.fieldName = field.first.name := by
    rw [← compiles.compile_eq]
    rfl
  have description : compiled.description
      = (settings.schema.fieldDefinition? typeName field.first.name).bind
          FieldInfo.description := by
    rw [← compiles.compile_eq]
    rfl
  obtain ⟨declared, found⟩ := Option.isSome_iff_exists.1 defined
  have declaredType : compiled.type = declared.type := by
    rw [compiles.type_eq, type, Schema.fieldType, found]
    rfl
  obtain ⟨own, foundOwn, narrower⟩ := wf.exists_fieldDefinition contained found
  refine ⟨fieldName, contained, ⟨declared, fieldName ▸ found, declaredType⟩,
    own, fieldName ▸ foundOwn, ?_, declaredType ▸ narrower, fun here => ?_⟩
  · rw [description, foundOwn]
    rfl
  · rw [here, foundOwn] at found
    rw [declaredType, Option.some.inj found]

/-- What a site is compiled to is typed by the selections of the site: at the types of its branches
and, if it is at an object type, at that type only. -/
theorem Site.CompilesTo.typedBy {find : Name → Option Fragment} (wf : settings.schema.WellFormed)
    {site : Site} {selectionSet : Compiled.SelectionSet}
    (h : site.CompilesTo settings find selectionSet) {typeName : Name} {field : Compiled.Field}
    (shows : selectionSet.Shows site.parent typeName field) :
    ∃ first others, site.occurrences settings typeName field.responseName = first :: others ∧
      field.TypedBy settings.schema typeName first ∧
      (settings.schema.isObject site.parent → first.collectedAt = typeName) := by
  obtain ⟨applicable, compiles, same, -⟩ := h.exists_field shows
  obtain ⟨collection, collected, resolves⟩ := h
  obtain ⟨mentions, holds, sameMentions⟩ := collected.gathers
  have first : applicable.first ∈ applicable.occurrences := List.mem_cons_self
  obtain ⟨mentioned, contained⟩ := mem_occurrencesAt.1 (same.mem_iff.1 first)
  have read := readAt site.parent site.selections mentioned
  have typed := compiles.typedBy wf contained
    (holds.defined _ (sameMentions.mem_iff.2 mentioned)) (read.type_eq _ _ rfl)
  -- the site has the same first occurrence as the field
  obtain ⟨others, eq⟩ := same.exists_eq_cons
  rw [← compiles.responseName_eq] at eq
  refine ⟨applicable.first, others, eq, typed, fun isObject => ?_⟩
  have here : typeName = site.parent := by
    cases shows with
    | own => rfl
    | branch mem =>
      rw [resolves.shape.inlineFragments_eq_nil isObject] at mem
      cases mem
  rw [here]
  exact read.typeName_eq isObject

/-! ### Compiled documents -/

/-- **A field's type is declared where its first selection was collected.** In a well-formed schema,
every selection set of a compiled document selects from a site of the type that it is resolved at,
and every field that it shows at a type is typed by the first of the selections of its response name
that apply at the type: it has the type that is declared where that selection was collected, at the
type or at one that contains it, and the type itself declares the field with its description and the
same or a narrower type. At an object type that is not that of a branch, this is the type of the
field. -/
theorem typed_of_shows {schema : Schema} {document : Document} {options : Options}
    {compiled : Compiled.Document} (wf : schema.WellFormed)
    (h : compileDocument schema document options = .ok compiled) :
    (∀ parent selectionSet, compiled.ResolvedAt parent selectionSet →
      ∃ site, site.parent = parent ∧
        compiled.Selects { schema, options } document site selectionSet) ∧
    ∀ site selectionSet, compiled.Selects { schema, options } document site selectionSet →
      ∀ typeName field, selectionSet.Shows site.parent typeName field →
        ∃ first others,
          site.occurrences { schema, options } typeName field.responseName = first :: others ∧
          field.TypedBy schema typeName first ∧
          (schema.isObject site.parent → first.collectedAt = typeName) := by
  obtain ⟨library, acyclic, whole⟩ := exists_compiledDocument h
  refine ⟨fun _ _ resolved => exists_selects_of_resolvedAt whole resolved,
    fun site selectionSet selects typeName field shows => ?_⟩
  obtain ⟨site', full, similar, compiles, all⟩ := exists_compilesTo_of_selects acyclic whole selects
  obtain ⟨fields, spreads, views, mem⟩ := Compiled.Selected.shows_iff.1 shows
  obtain ⟨_, -, viewsFull⟩ := all typeName fields spreads views
  rw [similar.parent_eq] at viewsFull
  obtain ⟨first, others, eq, typed, atObject⟩ :=
    compiles.typedBy wf (Compiled.Selected.shows_iff.2 ⟨_, _, viewsFull, mem⟩)
  -- a similar site has the same first occurrence
  have same : SameFirsts (site'.occurrences { schema, options } typeName field.responseName)
      (site.occurrences { schema, options } typeName field.responseName) :=
    similar.symm.mentions.occurrencesAt typeName field.responseName
  rw [eq] at same
  obtain ⟨others, eq⟩ := same.exists_eq_cons
  exact ⟨first, others, eq, typed, fun isObject => atObject (similar.parent_eq ▸ isObject)⟩

/-! ### Narrower types of implementations -/

mutual

/-- The fields in a selection at any depth, each with its response name and its name. -/
def Selection.writtenNames : Selection Unit → List (Name × Name)
  | .field aliasName name _ _ _ selections =>
    (responseName aliasName name, name) :: writtenNames selections
  | .inlineFragment _ _ _ selections => writtenNames selections
  | .spread _ _ _ _ => []

/-- The fields in selections at any depth, each with its response name and its name. -/
def writtenNames : WrittenSelections → List (Name × Name)
  | [] => []
  | selection :: rest => selection.writtenNames ++ writtenNames rest

end

/-- The fields of a document at any depth, each with its response name and its name. -/
def Document.writtenNames (document : Document) : List (Name × Name) :=
  (document.operations.map OperationDefinition.selections
    ++ document.fragments.map FragmentDefinition.selections).flatMap GraphQLCompiler.writtenNames

/-- Whether selections of a document with equal response names select equal field names. -/
def Document.NamesAgree (document : Document) : Prop :=
  ∀ first ∈ document.writtenNames, ∀ second ∈ document.writtenNames,
    first.1 = second.1 → first.2 = second.2

instance (document : Document) : Decidable document.NamesAgree :=
  inferInstanceAs (Decidable (∀ first ∈ document.writtenNames, ∀ second ∈ document.writtenNames,
    first.1 = second.1 → first.2 = second.2))

/-- The owner of a pet, and the name of a dog. -/
def dogOwner : Document :=
  queryDocument
    [plainField "pet" [plainField "owner" [plainField "id" []],
      plainInline "Dog" [plainField "name" []]]] []

/-- The owner in the branch of dogs is an owner of any kind, and that of a dog is a breeder. -/
private theorem exists_owner_of_dogOwner : ∃ compiled pet branch owner own,
    compileDocument petSchema dogOwner {} = .ok compiled ∧
    compiled.ResolvedAt "Pet" pet ∧ branch ∈ pet.inlineFragments ∧
    branch.typeCondition = "Dog" ∧ owner ∈ branch.fields ∧ owner.responseName = "owner" ∧
    petSchema.fieldDefinition? "Dog" owner.fieldName = some own ∧
    owner.type = .named "Owner" false ∧ own.type = .named "Breeder" false := by
  obtain ⟨compiled, operation, field, pet, branch, owner, name, own, h, values, fields, type,
      nested, branches, dog, branchFields, key, found, ownerType, ownType⟩ :
      ∃ compiled operation field pet branch owner name own,
        compileDocument petSchema dogOwner {} = .ok compiled ∧
        compiled.operations.values = [operation] ∧ operation.fields = [field] ∧
        field.type.bare = "Pet" ∧ field.selectionSet = some pet ∧
        pet.inlineFragments = [branch] ∧ branch.typeCondition = "Dog" ∧
        branch.fields = [owner, name] ∧ owner.responseName = "owner" ∧
        petSchema.fieldDefinition? "Dog" owner.fieldName = some own ∧
        owner.type = .named "Owner" false ∧ own.type = .named "Breeder" false :=
    ⟨_, _, _, _, _, _, _, _, by cbv, by cbv, by cbv, by cbv, by cbv, by cbv, by cbv, by cbv, by cbv,
      by cbv, by cbv, by cbv⟩
  have resolved := Compiled.Document.resolvedAt_of_fields values fields nested
  rw [type] at resolved
  refine ⟨compiled, pet, branch, owner, own, h, resolved, ?_, dog, ?_, key, found, ownerType,
    ownType⟩
  · rw [branches]
    exact List.mem_singleton_self _
  · rw [branchFields]
    exact List.mem_cons_self

/-- A field of a branch does not have the type that the object type of the branch declares, although
the schema is valid and equal response names select equal fields. -/
theorem type_ne_own_dogOwner :
    petSchema.isValid ∧ petSchema.WellFormed ∧ dogOwner.NamesAgree ∧
    ∃ compiled pet branch owner own, compileDocument petSchema dogOwner {} = .ok compiled ∧
      compiled.ResolvedAt "Pet" pet ∧ branch ∈ pet.inlineFragments ∧
      branch.typeCondition = "Dog" ∧ owner ∈ branch.fields ∧
      petSchema.fieldDefinition? "Dog" owner.fieldName = some own ∧ owner.type ≠ own.type := by
  obtain ⟨compiled, pet, branch, owner, own, h, resolved, memBranch, dog, mem, -, found, ownerType,
    ownType⟩ := exists_owner_of_dogOwner
  refine ⟨by decide +kernel, petSchema_wellFormed, by decide +kernel, compiled, pet, branch, owner,
    own, h, resolved, memBranch, dog, mem, found, ?_⟩
  rw [ownerType, ownType]
  decide

/-- The owner of a dog has the type of the owner of a pet, where it was collected first. -/
theorem typed_of_shows_dogOwner : ∃ compiled site pet owner first others,
    compileDocument petSchema dogOwner {} = .ok compiled ∧
    compiled.Selects { schema := petSchema, options := {} } dogOwner site pet ∧
    pet.Shows "Pet" "Dog" owner ∧ owner.type = .named "Owner" false ∧
    site.occurrences { schema := petSchema, options := {} } "Dog" "owner" = first :: others ∧
    owner.TypedBy petSchema "Dog" first := by
  obtain ⟨compiled, pet, branch, owner, own, h, resolved, memBranch, dog, mem, key, -, ownerType,
    -⟩ := exists_owner_of_dogOwner
  obtain ⟨everywhere, typed⟩ := typed_of_shows petSchema_wellFormed h
  obtain ⟨site, parent, selects⟩ := everywhere "Pet" pet resolved
  have shows : pet.Shows "Pet" "Dog" owner := dog ▸ .branch memBranch mem
  obtain ⟨first, others, eq, typedBy, -⟩ := typed site pet selects "Dog" owner (parent ▸ shows)
  rw [key] at eq
  exact ⟨compiled, site, pet, owner, first, others, h, selects, shows, ownerType, eq, typedBy⟩

end GraphQLCompiler
