import GraphQLCompiler.Proofs.Compilation
import GraphQLCompiler.Proofs.Execution
import Mathlib

/-!
# Conditional fields

A compiled field is marked as conditional if one of the selections that it is compiled from carries
`@skip` or `@include`. Such a directive can drop a field from a response, but it can also stand on a
fragment around the field, which leaves no mark.

An execution goes down a response from **position** to position (`Position.Step`): at each there is
an object, the fields that are compiled for its type and the selections that are executed on it.
Whatever is executed there is among what the fields were compiled from (`Position.At`). So no
directive of its own drops a field without the mark: it is in the response unless each selection of
it that is executed is inside a fragment that does not apply or is dropped
(`mem_names_iff_of_unconditional`).
-/

namespace GraphQLCompiler

/-! ### Assignments -/

/-- Values of the variables of an operation. -/
abbrev Assignment := Name → Bool

namespace Assignment

/-- The truth value that is given to the condition of a directive. -/
def condition? (assignment : Assignment) (directive : Directive) : Option Bool :=
  (directive.arguments.find? (·.name = "if")).bind fun argument =>
    match argument.value with
    | .boolean value => some value
    | .var name => some (assignment name)
    | _ => none

/-- Whether a directive lets a selection be executed. -/
def allows (assignment : Assignment) (directive : Directive) : Bool :=
  if directive.name = "skip" then assignment.condition? directive ≠ some true
  else if directive.name = "include" then assignment.condition? directive ≠ some false
  else true

/-- Whether all directives let a selection be executed. -/
def includes (assignment : Assignment) (directives : List Directive) : Bool :=
  directives.all assignment.allows

/-- A selection without `@skip` and `@include` is executed. -/
theorem includes_of_unconditional (assignment : Assignment) {directives : List Directive}
    (h : isConditional directives = false) : assignment.includes directives := by
  refine List.all_eq_true.2 fun directive mem => ?_
  have unmarked := List.any_eq_false.1 h directive mem
  simp only [Bool.or_eq_true, decide_eq_true_eq, not_or] at unmarked
  rw [allows, if_neg unmarked.1, if_neg unmarked.2]

end Assignment

/-! ### Positions -/

/-- A place in a response: the type of the object, the fields that are compiled for it and the
selections that are executed on it. -/
structure Position where
  object : Name
  fields : List Compiled.Field
  selections : List LinkedSelection

namespace Position

/-- What execution collects at a position. -/
def execution (schema : Schema) (assignment : Assignment) (position : Position) : Execution :=
  execute schema assignment.includes position.object position.selections {}

/-- A step down a response: to an object that is a value of a field. The sub-selections of all
fields that were collected for it are executed on the object. -/
inductive Step (schema : Schema) (assignment : Assignment) (position : Position) :
    Position → Prop where
  | field {field : Compiled.Field} {inner : Compiled.SelectionSet} {group : List LinkedSelection}
      {object : Name} (mem : field ∈ position.fields) (composite : field.selectionSet = some inner)
      (collected : (field.responseName, group) ∈ (position.execution schema assignment).groups)
      (isObject : schema.isObject object) (possible : schema.isSubtypeOf object field.type.bare) :
      Step schema assignment position
        ⟨object, Compiled.fieldsFor inner object, group.flatMap Selection.selections⟩

/-- The position at the root of a response to an operation. -/
def root (library : FragmentLibrary) (definition : OperationDefinition) (rootType : Name)
    (operation : Compiled.Operation) : Position where
  object := rootType
  fields := operation.fields
  selections := link library.find? definition.selections

end Position

/-! ### What is executed is collected -/

/-- Whether a reading mentions a field for an object. -/
private def MentionedFor (schema : Schema) (object : Name) (mentions : List Mention)
    (field : LinkedSelection) : Prop :=
  ∃ name occurrence, field.key? = some name ∧ .field name occurrence ∈ mentions ∧
    schema.isSubtypeOf object occurrence.collectedAt ∧
    occurrence.directives = field.directives ∧ occurrence.selections = field.selections

section

variable {settings : Settings} {includes : List Directive → Bool} {object : Name}
  {field : LinkedSelection}

private theorem MentionedFor.mono {mentions more : List Mention}
    (h : MentionedFor settings.schema object mentions field) (sub : mentions ⊆ more) :
    MentionedFor settings.schema object more field := by
  obtain ⟨name, occurrence, key, mem, rest⟩ := h
  exact ⟨name, occurrence, key, sub mem, rest⟩

mutual

private theorem mentionedFor_selection (merge : settings.options.mergeFragmentFields)
    (ho : settings.schema.isObject object) : ∀ (parent : Name) (selection : LinkedSelection),
    settings.schema.isSubtypeOf object parent →
    field ∈ selection.reached settings.schema includes object →
    MentionedFor settings.schema object (selection.reading settings parent) field
  | parent, .field aliasName name arguments directives location selections, inside, mem => by
    rw [Selection.reached, List.mem_singleton] at mem
    rw [Selection.reading, mem]
    exact ⟨_, _, rfl, List.mem_singleton_self _, inside, rfl, rfl⟩
  | parent, .inlineFragment typeCondition directives location selections, inside, mem => by
    rw [Selection.reached] at mem
    split at mem
    · rename_i included
      have contained : settings.schema.isSubtypeOf object (typeCondition.getD parent) := by
        cases typeCondition with
        | none => exact inside
        | some condition => exact (Schema.fragmentApplies_iff ho).1 included.2
      simp only [Selection.reading]
      rw [if_pos (applies_narrow ho inside contained)]
      exact mentionedFor_all merge ho _ selections (Schema.isSubtypeOf_narrow inside contained) mem
    · cases mem
  | parent, .spread name directives location none, inside, mem => by
    rw [Selection.reached] at mem
    cases mem
  | parent, .spread name directives location (some fragment), inside, mem => by
    rw [Selection.reached] at mem
    rw [Selection.reading]
    split at mem
    · exact mentionedFor_fragment merge ho parent fragment inside mem
    · cases mem

private theorem mentionedFor_fragment (merge : settings.options.mergeFragmentFields)
    (ho : settings.schema.isObject object) : ∀ (parent : Name) (fragment : Fragment),
    settings.schema.isSubtypeOf object parent →
    field ∈ fragment.reached settings.schema includes object →
    MentionedFor settings.schema object (fragment.reading settings parent) field
  | parent, ⟨name, typeCondition, location, selections⟩, inside, mem => by
    rw [Fragment.reached] at mem
    split at mem
    · rename_i applies
      have contained := (Schema.fragmentApplies_iff ho).1 applies
      have within := mentionedFor_all merge ho _ selections
        (Schema.isSubtypeOf_narrow inside contained) mem
      rw [Fragment.reading_eq, readingInside, if_pos merge]
      exact within.mono (List.subset_cons_self _ _)
    · cases mem

/-- **A field that is reached** for an object is mentioned at a type that contains the object. -/
private theorem mentionedFor_all (merge : settings.options.mergeFragmentFields)
    (ho : settings.schema.isObject object) : ∀ (parent : Name) (selections : List LinkedSelection),
    settings.schema.isSubtypeOf object parent →
    field ∈ reached settings.schema includes object selections →
    MentionedFor settings.schema object (reading settings parent selections) field
  | parent, [], inside, mem => by
    rw [reached] at mem
    cases mem
  | parent, selection :: rest, inside, mem => by
    rw [reached] at mem
    rw [reading]
    rcases List.mem_append.1 mem with mem | mem
    · exact (mentionedFor_selection merge ho parent selection inside mem).mono
        (List.subset_append_left _ _)
    · exact (mentionedFor_all merge ho parent rest inside mem).mono (List.subset_append_right _ _)

end

end

/-! ### What keeps positions at sites -/

section

variable {settings : Settings} {find : Name → Option Fragment} {site : Site}
  {position : Position} {assignment : Assignment}

/-- Whether a position is **at** a site: its fields are compiled from the site, for an object type
that the type of the site contains, and its selections are selections of the site. -/
structure Position.At (settings : Settings) (find : Name → Option Fragment) (position : Position)
    (site : Site) : Prop where
  compiled : ∃ selectionSet, site.CompilesTo settings find selectionSet ∧
    position.fields = Compiled.fieldsFor selectionSet position.object
  isObject : settings.schema.isObject position.object
  composite : settings.schema.isComposite site.parent
  inside : settings.schema.isSubtypeOf position.object site.parent
  selections : position.selections ⊆ site.selections

/-- The selections of a site are linked where something is compiled from it. -/
private theorem Position.At.linked (at' : position.At settings find site) :
    LinkedBy find position.selections := by
  obtain ⟨_, ⟨_, collected, -⟩, -⟩ := at'.compiled
  exact linkedBy_iff.2 fun selection mem => collected.linked selection (at'.selections mem)

/-- **A compiled field at a position** is compiled from a field that has the directives and
sub-selections of every selection that is reached there with its response name. -/
private theorem Position.At.exists_field (merge : settings.options.mergeFragmentFields)
    (at' : position.At settings find site) (assignment : Assignment) {compiled : Compiled.Field}
    (mem : compiled ∈ position.fields) :
    ∃ (typeName : Name) (field : ApplicableField), field.CompilesTo settings typeName compiled ∧
      (∀ inner, compiled.selectionSet = some inner →
        settings.schema.isComposite field.bareType ∧
          field.site.CompilesTo settings find inner) ∧
      ∀ selection ∈ reached settings.schema assignment.includes position.object position.selections,
        selection.key? = some compiled.responseName →
        ∃ occurrence ∈ field.occurrences, occurrence.directives = selection.directives ∧
          occurrence.selections = selection.selections := by
  obtain ⟨selectionSet, ⟨collection, collected, resolves⟩, fields⟩ := at'.compiled
  rw [fields] at mem
  obtain ⟨field, applicable, compiles⟩ :=
    exists_related_of_mem (resolves.shape.fieldsFor position.object).flip mem
  refine ⟨_, field, compiles, fun inner eq => collected.compilesTo_field applicable compiles eq, ?_⟩
  intro selection reaches key
  obtain ⟨name, occurrence, key', mentioned, contained, directives, selections⟩ :=
    mentionedFor_all merge at'.isObject site.parent position.selections at'.inside reaches
  cases key.symm.trans key'
  obtain ⟨mentions, holds, same⟩ := collected.gathers
  have onSite : .field compiled.responseName occurrence ∈ mentions := by
    refine same.mem_iff.2 ?_
    rw [reading_eq_flatMap, List.mem_flatMap] at mentioned
    obtain ⟨other, memOther, mem⟩ := mentioned
    exact reading_subset (at'.selections memOther) mem
  refine ⟨occurrence, ?_, directives, selections⟩
  rw [holds.mem_applicableFields.1 applicable, mem_occurrencesAt, ← compiles.responseName_eq]
  refine ⟨onSite, ?_⟩
  -- for an object type without a branch, what contains the object type contains the type around it
  split
  · exact contained
  · rename_i noBranch
    exact holds.isSubtypeOf_typeName at'.composite at'.isObject at'.inside noBranch onSite contained

/-- A step down a response goes from a position at a site to one at the site of a field. -/
theorem Position.Step.at (merge : settings.options.mergeFragmentFields)
    (at' : position.At settings find site) {next : Position}
    (step : position.Step settings.schema assignment next) :
    ∃ nextSite, next.At settings find nextSite := by
  obtain ⟨mem, composite, collected, isObject, possible⟩ := step
  obtain ⟨_, field, compiles, nested, executed⟩ :=
    at'.exists_field merge assignment mem
  obtain ⟨compositeType, compilesTo⟩ := nested _ composite
  refine ⟨field.site, ⟨_, compilesTo, rfl⟩, isObject, compositeType, ?_,
    fun selection memInside => ?_⟩
  · rw [compiles.type_eq] at possible
    exact possible
  · obtain ⟨executedField, memGroup, inside⟩ := List.mem_flatMap.1 memInside
    obtain ⟨reaches, key, -⟩ := (has_execute_iff at'.linked).1 ⟨_, collected, memGroup⟩
    obtain ⟨occurrence, memOccurrence, -, selections⟩ := executed executedField reaches key
    exact List.mem_flatMap.2 ⟨occurrence, memOccurrence, selections ▸ inside⟩

/-- Every position that an execution comes to from one at a site is at a site. -/
theorem Position.reaches_at (merge : settings.options.mergeFragmentFields)
    (at' : position.At settings find site) {last : Position}
    (reaches : Relation.ReflTransGen (Position.Step settings.schema assignment) position last) :
    ∃ lastSite, last.At settings find lastSite := by
  induction reaches with
  | refl => exact ⟨site, at'⟩
  | tail _ step ih =>
    obtain ⟨middle, atMiddle⟩ := ih
    exact step.at merge atMiddle

/-- At a position at a site, an unconditional field is in the response if it is reached. -/
theorem Position.At.mem_names_iff (merge : settings.options.mergeFragmentFields)
    (at' : position.At settings find site) {compiled : Compiled.Field}
    (mem : compiled ∈ position.fields) (unconditional : compiled.isConditional = false) :
    compiled.responseName ∈ (position.execution settings.schema assignment).names ↔
      ∃ selection ∈
        reached settings.schema assignment.includes position.object position.selections,
        selection.key? = some compiled.responseName := by
  rw [Position.execution, mem_names_execute_iff at'.linked]
  constructor
  · rintro ⟨selection, reaches, key, -⟩
    exact ⟨selection, reaches, key⟩
  · rintro ⟨selection, reaches, key⟩
    obtain ⟨_, field, compiles, -, executed⟩ := at'.exists_field merge assignment mem
    obtain ⟨occurrence, memOccurrence, directives, -⟩ := executed selection reaches key
    rw [compiles.isConditional_eq, List.any_eq_false] at unconditional
    have unmarked := unconditional occurrence memOccurrence
    rw [directives] at unmarked
    exact ⟨selection, reaches, key,
      assignment.includes_of_unconditional (by simpa using unmarked)⟩

/-- The root of a response is at the site of its operation, since an object type has no branches and
sees the fields of the operation. -/
private theorem Position.at_root {library : FragmentLibrary} {definition : OperationDefinition}
    {rootType : Name} {operation : Compiled.Operation} {selectionSet : Compiled.SelectionSet}
    (isObject : settings.schema.isObject rootType)
    (fields : operation.fields = selectionSet.fields)
    (compilesTo : (Site.start library rootType definition.selections).CompilesTo settings
      library.find? selectionSet) :
    (Position.root library definition rootType operation).At settings library.find?
      (.start library rootType definition.selections) := by
  obtain ⟨collection, collected, resolves⟩ := compilesTo
  have seen : Compiled.fieldsFor selectionSet rootType = operation.fields := by
    rw [fields, Compiled.fieldsFor, resolves.shape.inlineFragments_eq_nil isObject]
    rfl
  exact ⟨⟨selectionSet, ⟨collection, collected, resolves⟩, seen.symm⟩, isObject,
    Schema.isComposite_of_isObject isObject, Schema.isSubtypeOf_self _ _, List.Subset.refl _⟩

end

/-- **An unconditional field is there if it is reached.** At every position of a response to a
compiled operation, for every assignment to the variables, a compiled field without the mark is a
key of the response if and only if one of its selections is executed there that is inside no
fragments but such as apply to the object and are not dropped. -/
theorem mem_names_iff_of_unconditional {schema : Schema} {document : Document} {options : Options}
    {compiled : Compiled.Document} (wf : schema.WellFormed) (merge : options.mergeFragmentFields)
    (h : compileDocument schema document options = .ok compiled) :
    ∃ library, (FragmentTable.ofList document.fragments).library = .ok library ∧
      ∀ operation ∈ compiled.operations.values, ∃ definition ∈ document.operations, ∃ rootType,
        definition.name = some operation.name ∧
        schema.rootType? definition.operationType = some rootType ∧
        ∀ (assignment : Assignment) (position : Position),
          Relation.ReflTransGen (Position.Step schema assignment)
            (.root library definition rootType operation) position →
          ∀ field ∈ position.fields, field.isConditional = false →
            (field.responseName ∈ (position.execution schema assignment).names ↔
              ∃ selection ∈
                reached schema assignment.includes position.object position.selections,
                selection.key? = some field.responseName) := by
  have run : (Compiler.ofDocument schema document options).compile.run {} = (.ok compiled,
      ((Compiler.ofDocument schema document options).compile.run {}).2) := Prod.ext h rfl
  obtain ⟨library, acyclic⟩ := exists_library_of_compile rfl run
  refine ⟨library, acyclic, fun operation mem => ?_⟩
  obtain ⟨operations, all, eq⟩ := (compiledDocument_of_compileDocument acyclic h).operations
  rw [eq] at mem
  obtain ⟨definition, memDefinition, rootType, compiledOperation⟩ :=
    mem_of_mem_values_ofList all mem
  refine ⟨definition, memDefinition, rootType, compiledOperation.name_eq,
    compiledOperation.root_eq, fun assignment position reaches field memField unconditional => ?_⟩
  obtain ⟨selectionSet, fields, compilesTo⟩ := compiledOperation.compilesTo
  have isObject := wf.rootsAreObjects _ rootType compiledOperation.root_eq
  have atRoot : (Position.root library definition rootType operation).At { schema, options }
      library.find? (.start library rootType definition.selections) :=
    Position.at_root isObject fields compilesTo
  obtain ⟨site, atSite⟩ := Position.reaches_at merge atRoot reaches
  exact atSite.mem_names_iff merge memField unconditional

/-- The name of a pet inside a fragment that is dropped. -/
def droppedSelections : WrittenSelections :=
  [plainField "pet" [.inlineFragment none
    [{ name := "include", arguments := [{ name := "if", value := .boolean false }] }] none
    [plainField "name" []]]]

/-- The name of a dog is dropped with the fragment around it, although it is not conditional. -/
theorem mem_names_iff_of_unconditional_droppedName : ∃ compiled,
    compileDocument petSchema (queryDocument droppedSelections []) {} = .ok compiled ∧
    ∃ operation ∈ compiled.operations.values,
    ∃ definition ∈ (queryDocument droppedSelections []).operations,
    ∃ library rootType, ∀ assignment : Assignment, ∃ position : Position,
      Relation.ReflTransGen (Position.Step petSchema assignment)
        (.root library definition rootType operation) position ∧
      ∃ field ∈ position.fields, field.responseName = "name" ∧ field.isConditional = false ∧
        field.responseName ∉ (position.execution petSchema assignment).names ∧
        ¬ ∃ selection ∈
            reached petSchema assignment.includes position.object position.selections,
          selection.key? = some field.responseName := by
  obtain ⟨compiled, operation, pet, inner, name, h, operations, fields, key, type, nested, seen,
      named, unconditional⟩ :
      ∃ compiled operation pet inner name,
        compileDocument petSchema (queryDocument droppedSelections []) {} = .ok compiled ∧
        compiled.operations.values = [operation] ∧ operation.fields = [pet] ∧
        pet.responseName = "pet" ∧ pet.type = .named "Pet" false ∧
        pet.selectionSet = some inner ∧ Compiled.fieldsFor inner "Dog" = [name] ∧
        name.responseName = "name" ∧ name.isConditional = false :=
    ⟨_, _, _, _, _, by cbv, by cbv, by cbv, by cbv, by cbv, by cbv, by cbv, by cbv, by cbv⟩
  obtain ⟨library, acyclic, holds⟩ := mem_names_iff_of_unconditional petSchema_wellFormed (by rfl) h
  have memOperation : operation ∈ compiled.operations.values := by
    rw [operations]
    exact List.mem_singleton_self _
  obtain ⟨definition, memDefinition, rootType, -, root, iff⟩ := holds operation memOperation
  refine ⟨compiled, h, operation, memOperation, definition, memDefinition, library, rootType,
    fun assignment => ?_⟩
  cases List.mem_singleton.1 memDefinition
  cases root
  cases acyclic
  -- the only step is to the pet, here a dog
  have step : Position.Step petSchema assignment
      ⟨"Query", operation.fields, link (NameMap.find? []) droppedSelections⟩
      ⟨"Dog", Compiled.fieldsFor inner "Dog",
        (link (NameMap.find? []) droppedSelections).flatMap Selection.selections⟩ := by
    have memPet : pet ∈ operation.fields := fields ▸ List.mem_singleton_self pet
    refine .field memPet nested ?_ (by decide +kernel) (by rw [type]; decide +kernel)
    rw [key]
    exact List.mem_singleton_self _
  have memName : name ∈ Compiled.fieldsFor inner "Dog" := seen ▸ List.mem_singleton_self name
  have iffName := iff assignment _ (.single step) name memName unconditional
  refine ⟨_, .single step, name, memName, named, unconditional, fun mem => ?_, ?_⟩
  · obtain ⟨_, reaches, -⟩ := iffName.1 mem
    cases reaches
  · rintro ⟨_, reaches, -⟩
    cases reaches
end GraphQLCompiler
