import GraphQLCompiler.Proofs.Enclosures
import GraphQLCompiler.Proofs.Shape
import Mathlib

/-!
# Attribution of fields to object types

What a selection set selects for an object type is found by execution, and what the compiled
selection set shows for it by resolution. Where the two differ is told by the type conditions around
each field. Execution takes a field if all of them contain the object type. Collection **descends**
through them and keeps only the type that it ends at (`Schema.descend`), and resolution takes the
field if that type contains the object type.

A field whose type conditions all contain an object type is collected at a type that contains it. So
nothing that is selected is lost (`executedNames_subset_namesFor`). The converse fails: an abstract
type can readmit object types that a type condition further out has excluded, and inside an object
type the type conditions of fragments are not checked. These fields are all that is shown for an
object type though it was not selected (`namesFor_subset_executedNames_iff`).
-/

namespace GraphQLCompiler

/-! ### Descending through type conditions -/

/-- The type that selections inside a type condition are collected at, given the type around it.
Nothing is collected inside an inline fragment that cannot apply. -/
def Schema.enter (schema : Schema) (parent : Name) (enclosure : Enclosure) : Option Name :=
  let effective := schema.narrow parent enclosure.typeCondition
  if enclosure.isInline && !applies schema enclosure.typeCondition effective then none
  else some effective

/-- The type that a field inside type conditions is collected at, starting from a type. -/
def Schema.descend (schema : Schema) (parent : Name) (enclosures : List Enclosure) : Option Name :=
  enclosures.foldlM schema.enter parent

section

variable {schema : Schema} {parent object : Name}

@[simp] theorem Schema.descend_nil : schema.descend parent [] = some parent := rfl

theorem Schema.descend_cons {enclosure : Enclosure} {enclosures : List Enclosure} :
    schema.descend parent (enclosure :: enclosures)
      = (schema.enter parent enclosure).bind (schema.descend · enclosures) := rfl

/-- **Type conditions that contain an object type** lead to a type that contains it. -/
theorem exists_descend_of_allContain (ho : schema.isObject object) :
    ∀ {enclosures : List Enclosure} {parent : Name}, schema.isSubtypeOf object parent →
      AllContain schema object enclosures →
      ∃ typeName, schema.descend parent enclosures = some typeName ∧
        schema.isSubtypeOf object typeName
  | [], parent, inside, _ => ⟨parent, rfl, inside⟩
  | enclosure :: rest, parent, inside, contained => by
    obtain ⟨first, others⟩ := List.forall_mem_cons.1 contained
    have enters : schema.enter parent enclosure
        = some (schema.narrow parent enclosure.typeCondition) := by
      simp [Schema.enter, applies_narrow ho inside first]
    rw [Schema.descend_cons, enters]
    exact exists_descend_of_allContain ho (Schema.isSubtypeOf_narrow inside first) others

end

/-! ### Fields of readings -/

variable {settings : Settings}

/-- Whether a reading mentions a field with a response name that is collected at a type. -/
def Reads (mentions : List Mention) (name typeName : Name) : Prop :=
  ∃ occurrence, .field name occurrence ∈ mentions ∧ occurrence.collectedAt = typeName

private theorem reads_append {mentions more : List Mention} {name typeName : Name} :
    Reads (mentions ++ more) name typeName ↔
      Reads mentions name typeName ∨ Reads more name typeName := by
  unfold Reads
  simp only [List.mem_append, or_and_right, exists_or]

private theorem descend_within {typeName parent name : Name} {enclosure : Enclosure}
    {fields : List EnclosedField} :
    Occurs (fields.map (.within enclosure)) name
        (settings.schema.descend parent · = some typeName) ↔
      ∃ effective, settings.schema.enter parent enclosure = some effective ∧
        Occurs fields name (settings.schema.descend effective · = some typeName) := by
  rw [occurs_within]
  simp only [Schema.descend_cons]
  cases settings.schema.enter parent enclosure with
  | none => simp [Occurs]
  | some effective => simp

mutual

private theorem selection_reads_iff (merge : settings.options.mergeFragmentFields)
    {name typeName : Name} : ∀ (parent : Name) (selection : LinkedSelection),
      Reads (selection.reading settings parent) name typeName ↔
        Occurs selection.enclosedFields name
          (settings.schema.descend parent · = some typeName)
  | parent, .field aliasName fieldName _ _ _ _ => by
    rw [Selection.reading, Selection.enclosedFields, occurs_singleton, Schema.descend_nil,
      Option.some.injEq]
    constructor
    · rintro ⟨occurrence, mem, rfl⟩
      cases List.mem_singleton.1 mem
      exact ⟨rfl, rfl⟩
    · rintro ⟨rfl, rfl⟩
      exact ⟨_, List.mem_singleton_self _, rfl⟩
  | parent, .inlineFragment none _ _ selections => by
    have narrow : settings.schema.narrow parent parent = parent := by simp [Schema.narrow]
    have ap : applies settings.schema parent parent := by simp [applies]
    simp only [Selection.reading, Option.getD_none, narrow, if_pos ap]
    rw [Selection.enclosedFields]
    exact reads_iff merge parent selections
  | parent, .inlineFragment (some typeCondition) _ _ selections => by
    simp only [Selection.reading, Option.getD_some]
    rw [Selection.enclosedFields, descend_within]
    simp only [Schema.enter, Bool.true_and]
    split
    · rename_i ap
      simp only [ap, Bool.not_true, Bool.false_eq_true, if_false, Option.some.injEq,
        exists_eq_left']
      exact reads_iff merge _ selections
    · rename_i ap
      simp [ap, Reads]
  | parent, .spread _ _ _ none => by
    rw [Selection.reading, Selection.enclosedFields]
    simp [Reads, Occurs]
  | parent, .spread _ _ _ (some fragment) => by
    rw [Selection.reading, Selection.enclosedFields]
    exact fragment_reads_iff merge parent fragment

private theorem fragment_reads_iff (merge : settings.options.mergeFragmentFields)
    {name typeName : Name} : ∀ (parent : Name) (fragment : Fragment),
      Reads (fragment.reading settings parent) name typeName ↔
        Occurs fragment.enclosedFields name
          (settings.schema.descend parent · = some typeName)
  | parent, ⟨fragmentName, typeCondition, location, selections⟩ => by
    have skip : ∀ mention more, Reads (.fragment mention more :: readingInside settings mention
        more) name typeName ↔ Reads (readingInside settings mention more) name typeName := by
      intro mention more
      simp [Reads]
    rw [Fragment.reading_eq, skip, readingInside, if_pos merge, Fragment.enclosedFields,
      descend_within]
    simp only [Schema.enter, Bool.false_and, Bool.false_eq_true, if_false, Option.some.injEq,
      exists_eq_left']
    exact reads_iff merge _ selections

/-- The fields that a reading mentions are those that type conditions lead to. -/
theorem reads_iff (merge : settings.options.mergeFragmentFields)
    {name typeName : Name} : ∀ (parent : Name) (selections : List LinkedSelection),
      Reads (reading settings parent selections) name typeName ↔
        Occurs (enclosedFields selections) name
          (settings.schema.descend parent · = some typeName)
  | _, [] => by
    rw [reading, enclosedFields]
    simp [Reads, Occurs]
  | parent, selection :: rest => by
    rw [reading, enclosedFields, reads_append, occurs_append,
      selection_reads_iff merge parent selection, reads_iff merge parent rest]

end

/-! ### Attribution -/

/-- Whether type conditions lead from a type to one that contains an object type. -/
def LeadsTo (schema : Schema) (parent object : Name) (enclosures : List Enclosure) : Prop :=
  ∃ typeName, schema.descend parent enclosures = some typeName ∧
    schema.isSubtypeOf object typeName

section

variable {definitions : List FragmentDefinition} {library : FragmentLibrary}
  {sets : List WrittenSelections} {parent object name : Name} {collection : Collection}
  {mentions : List Mention}

private theorem linkedBy_flatMap_link
    (acyclic : (FragmentTable.ofList definitions).library = .ok library)
    (sets : List WrittenSelections) :
    LinkedBy library.find? (sets.flatMap (link library.find?)) :=
  linkedBy_flatMap fun selections _ =>
    FragmentTable.linkedBy_link acyclic (FragmentTable.isNamed_ofList definitions) selections

/-- What is collected together is held by the collection, up to repetitions. -/
theorem gathers_collectTogether
    (acyclic : (FragmentTable.ofList definitions).library = .ok library)
    (composite : settings.schema.isComposite parent)
    (collected : collectTogether settings parent (sets.map (link library.find?)) {}
      = .ok collection) :
    Gathers settings collection []
      (reading settings parent (sets.flatMap (link library.find?))) := by
  rw [collectTogether_eq composite, ← List.flatMap_def] at collected
  exact gathers_collect collected (linkedBy_flatMap_link acyclic sets)

/-- A response name applies at a type if type conditions lead to one that contains it. -/
theorem mem_responseNames_iff (merge : settings.options.mergeFragmentFields)
    {selections : List LinkedSelection} {typeName : Name}
    (gathered : Gathers settings collection [] (reading settings parent selections)) :
    name ∈ (applicableFields settings.schema typeName collection).map
        ApplicableField.responseName ↔
      Occurs (enclosedFields selections) name (LeadsTo settings.schema parent typeName) := by
  obtain ⟨mentions, holds, same⟩ := gathered
  rw [holds.mem_responseNames]
  constructor
  · rintro ⟨occurrence, mem, sub⟩
    obtain ⟨field, fieldMem, eq, leads⟩ :=
      (reads_iff merge parent selections).1 ⟨occurrence, same.mem_iff.1 mem, rfl⟩
    exact ⟨field, fieldMem, eq, _, leads, sub⟩
  · rintro ⟨field, fieldMem, eq, collectedAt, leads, sub⟩
    obtain ⟨occurrence, mem, rfl⟩ :=
      (reads_iff merge parent selections).2 ⟨field, fieldMem, eq, leads⟩
    exact ⟨occurrence, same.mem_iff.2 mem, sub⟩

variable {state after : CompilerState} {resolved : Resolved}

/-- A field that type conditions lead to is shown for the object types that its type contains. -/
private theorem mem_namesFor_of_occurs (merge : settings.options.mergeFragmentFields)
    {selections : List LinkedSelection} (composite : settings.schema.isComposite parent)
    (gathered : Gathers settings collection [] (reading settings parent selections))
    (h : (resolve settings parent collection).run state = (.ok resolved, after))
    (ho : settings.schema.isObject object) (inside : settings.schema.isSubtypeOf object parent)
    (occurs : Occurs (enclosedFields selections) name (LeadsTo settings.schema parent object)) :
    name ∈ Compiled.namesFor resolved.selectionSet object := by
  rw [namesFor_resolve h]
  split
  · exact (mem_responseNames_iff merge gathered).2 occurs
  · rename_i noBranch
    -- without a branch, whatever is collected for the object type applies to the type around it
    obtain ⟨mentions, holds, same⟩ := gathered
    obtain ⟨occurrence, mem, contained⟩ :=
      holds.mem_responseNames.1 ((mem_responseNames_iff merge ⟨mentions, holds, same⟩).2 occurs)
    exact holds.mem_responseNames.2 ⟨occurrence, mem,
      holds.isSubtypeOf_typeName composite ho inside noBranch mem contained⟩

/-- In a well-formed schema, only such fields are shown for an object type. -/
private theorem occurs_of_mem_namesFor (wf : settings.schema.WellFormed)
    (merge : settings.options.mergeFragmentFields) {selections : List LinkedSelection}
    (gathered : Gathers settings collection [] (reading settings parent selections))
    (h : (resolve settings parent collection).run state = (.ok resolved, after))
    (inside : settings.schema.isSubtypeOf object parent)
    (mem : name ∈ Compiled.namesFor resolved.selectionSet object) :
    Occurs (enclosedFields selections) name (LeadsTo settings.schema parent object) := by
  rw [namesFor_resolve h] at mem
  split at mem
  · exact (mem_responseNames_iff merge gathered).1 mem
  · -- without a branch the field is one of the type around, so its type contains that type
    obtain ⟨field, fieldMem, eq, typeName, leads, sub⟩ :=
      (mem_responseNames_iff merge gathered).1 mem
    exact ⟨field, fieldMem, eq, typeName, leads, wf.isSubtypeOf_trans inside sub⟩

/-- **No selected field is lost.** What selection sets that are collected together select for an
object type is shown for it by the compiled selection set. -/
theorem executedNames_subset_namesFor (merge : settings.options.mergeFragmentFields)
    (acyclic : (FragmentTable.ofList definitions).library = .ok library)
    (composite : settings.schema.isComposite parent)
    (collected : collectTogether settings parent (sets.map (link library.find?)) {}
      = .ok collection)
    (h : (resolve settings parent collection).run state = (.ok resolved, after))
    (ho : settings.schema.isObject object)
    (inside : object = parent ∨ settings.schema.isPossibleType parent object) :
    executedNames settings.schema object (sets.flatMap (link library.find?))
      ⊆ Compiled.namesFor resolved.selectionSet object := by
  intro name mem
  have inside := (Schema.isSubtypeOf_iff_of_isObject ho).2 inside
  have gathered := gathers_collectTogether acyclic composite collected
  obtain ⟨field, fieldMem, eq, contained⟩ :=
    (mem_executedNames_iff ho (linkedBy_flatMap_link acyclic sets)).1 mem
  exact mem_namesFor_of_occurs merge composite gathered h ho inside
    ⟨field, fieldMem, eq, exists_descend_of_allContain ho inside contained⟩

/-- A dog sees its own field, and the field of the fragment that its interface spreads. -/
theorem executedNames_subset_namesFor_dog :
    let settings : Settings := { schema := petSchema, options := {} }
    let sets := [[plainSpread "Names"], [plainInline "Dog" [plainField "owner" []]]]
    ∃ library collection resolved after,
      (FragmentTable.ofList [plainFragment "Names" "Mammal" [plainField "name" []]]).library
        = .ok library ∧
      collectTogether settings "Pet" (sets.map (link library.find?)) {} = .ok collection ∧
      (resolve settings "Pet" collection).run {} = (.ok resolved, after) ∧
      executedNames petSchema "Dog" (sets.flatMap (link library.find?)) = ["name", "owner"] ∧
      ["name", "owner"] ⊆ Compiled.namesFor resolved.selectionSet "Dog" := by
  intro settings sets
  obtain ⟨library, collection, resolved, after, acyclic, collected, resolves, executed⟩ :
      ∃ library collection resolved after,
        (FragmentTable.ofList [plainFragment "Names" "Mammal" [plainField "name" []]]).library
          = .ok library ∧
        collectTogether settings "Pet" (sets.map (link library.find?)) {} = .ok collection ∧
        (resolve settings "Pet" collection).run {} = (.ok resolved, after) ∧
        executedNames petSchema "Dog" (sets.flatMap (link library.find?)) = ["name", "owner"] :=
    ⟨_, _, _, _, by cbv, by cbv, by cbv, by cbv⟩
  refine ⟨library, collection, resolved, after, acyclic, collected, resolves, executed, ?_⟩
  rw [← executed]
  exact executedNames_subset_namesFor (by rfl) acyclic (by decide +kernel) collected resolves
    (by decide +kernel) (.inr (by decide +kernel))

/-- **Which fields are attributed wrongly.** The compiled selection set shows for an object type
only what is selected for it if and only if this holds of each field that type conditions lead to
though one of them does not contain the object type. -/
theorem namesFor_subset_executedNames_iff (wf : settings.schema.WellFormed)
    (merge : settings.options.mergeFragmentFields)
    (acyclic : (FragmentTable.ofList definitions).library = .ok library)
    (composite : settings.schema.isComposite parent)
    (collected : collectTogether settings parent (sets.map (link library.find?)) {}
      = .ok collection)
    (h : (resolve settings parent collection).run state = (.ok resolved, after))
    (ho : settings.schema.isObject object)
    (inside : object = parent ∨ settings.schema.isPossibleType parent object) :
    Compiled.namesFor resolved.selectionSet object
        ⊆ executedNames settings.schema object (sets.flatMap (link library.find?)) ↔
      ∀ field ∈ enclosedFields (sets.flatMap (link library.find?)),
        LeadsTo settings.schema parent object field.enclosures →
        ¬ AllContain settings.schema object field.enclosures →
        field.responseName ∈
          executedNames settings.schema object (sets.flatMap (link library.find?)) := by
  have inside := (Schema.isSubtypeOf_iff_of_isObject ho).2 inside
  have gathered := gathers_collectTogether acyclic composite collected
  constructor
  · intro sub field fieldMem leads _
    exact sub (mem_namesFor_of_occurs merge composite gathered h ho inside
      ⟨field, fieldMem, rfl, leads⟩)
  · intro harmless name mem
    obtain ⟨field, fieldMem, rfl, leads⟩ := occurs_of_mem_namesFor wf merge gathered h inside mem
    -- the conditions lead to the object type, but only execution asks each of them
    by_cases contained : AllContain settings.schema object field.enclosures
    · exact (mem_executedNames_iff ho (linkedBy_flatMap_link acyclic sets)).2
        ⟨field, fieldMem, rfl, contained⟩
    · exact harmless field fieldMem leads contained

/-- A fish sees the name that is selected for mammals only: the pets among the mammals readmit all
pets. -/
theorem namesFor_subset_executedNames_iff_fish :
    let settings : Settings := { schema := petSchema, options := {} }
    let sets := [[plainInline "Mammal" [plainInline "Pet" [plainField "name" []]]]]
    ∃ library collection resolved after,
      (FragmentTable.ofList []).library = .ok library ∧
      collectTogether settings "Pet" (sets.map (link library.find?)) {} = .ok collection ∧
      (resolve settings "Pet" collection).run {} = (.ok resolved, after) ∧
      Compiled.namesFor resolved.selectionSet "Fish" = ["name"] ∧
      executedNames petSchema "Fish" (sets.flatMap (link library.find?)) = [] ∧
      ∃ field ∈ enclosedFields (sets.flatMap (link library.find?)),
        LeadsTo petSchema "Pet" "Fish" field.enclosures ∧
        ¬ AllContain petSchema "Fish" field.enclosures := by
  intro settings sets
  obtain ⟨library, collection, resolved, after, acyclic, collected, resolves, shown, executed⟩ :
      ∃ library collection resolved after,
        (FragmentTable.ofList []).library = .ok library ∧
        collectTogether settings "Pet" (sets.map (link library.find?)) {} = .ok collection ∧
        (resolve settings "Pet" collection).run {} = (.ok resolved, after) ∧
        Compiled.namesFor resolved.selectionSet "Fish" = ["name"] ∧
        executedNames petSchema "Fish" (sets.flatMap (link library.find?)) = [] :=
    ⟨_, _, _, _, by cbv, by cbv, by cbv, by cbv, by cbv⟩
  refine ⟨library, collection, resolved, after, acyclic, collected, resolves, shown, executed, ?_⟩
  have fish : petSchema.isObject "Fish" := by decide +kernel
  by_contra none
  have harmless : ∀ field ∈ enclosedFields (sets.flatMap (link library.find?)),
      LeadsTo petSchema "Pet" "Fish" field.enclosures →
      ¬ AllContain petSchema "Fish" field.enclosures →
      field.responseName ∈
        executedNames petSchema "Fish" (sets.flatMap (link library.find?)) :=
    fun field mem leads outside => absurd ⟨field, mem, leads, outside⟩ none
  have sub := (namesFor_subset_executedNames_iff petSchema_wellFormed (by rfl) acyclic
    (by decide +kernel) collected resolves fish (.inr (by decide +kernel))).2 harmless
  rw [shown, executed] at sub
  cases sub List.mem_cons_self

end

end GraphQLCompiler
