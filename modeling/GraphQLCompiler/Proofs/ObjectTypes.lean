import GraphQLCompiler.Proofs.Attribution
import GraphQLCompiler.Proofs.Blame
import GraphQLCompiler.Proofs.Branches
import GraphQLCompiler.Proofs.Spreading

/-!
# Collecting at object types

Inside an object type, selections are collected at that type whatever type conditions are around
them: the conditions can only leave selections out. So collecting at an object type is a sequence of
**steps** at that type. Each adds an occurrence of a field that the type defines, or records a
fragment that was not expanded before, or notes that something was passed over (`steps_collect`).
What every step keeps is kept by collecting (`Collection.StaysAt.of_steps`).

A collection that stays at a type is resolved there as a whole: all of its groups apply with all of
their occurrences, so do all of its fragments, and nothing is left for branches
(`Collection.StaysAt.compilesWhole`). Resolution adds no errors of its own to those of the
sub-selections of its fields and of the selections of its fragments
(`Collection.StaysAt.resolve_blames_sites`).

## Main definitions

* `Collection.Step`: one step of collecting at a type.
* `Collection.StaysAt`: whether everything in a collection is at a type, and is there once.

## Main results

* `staysAt_of_collectTogether`: what is collected at an object type stays at it, and all of it is
  resolved there.
-/

namespace GraphQLCompiler

variable {settings : Settings}

/-! ### Steps -/

/-- One **step** of collecting at a type. -/
inductive Collection.Step (schema : Schema) (typeName : Name) (collection : Collection) :
    Collection → Prop where
  /-- Something is passed over. -/
  | note (event : LogEvent) : Step schema typeName collection (collection.note event)
  /-- A field of the type is selected. -/
  | field {name : Name} {definition : FieldInfo} (responseName : Name) (arguments : List Argument)
      (directives : List Directive) (selections : List LinkedSelection)
      (found : schema.fieldDefinition? typeName name = some definition) :
      Step schema typeName collection (collection.addField responseName {
        collectedAt := typeName, name, type := definition.type, arguments, directives, selections })
  /-- A fragment with a known type condition is expanded for the first time. -/
  | expansion {fragment : Fragment} (known : (schema.typeKind? fragment.typeCondition).isSome)
      (fresh : collection.hasExpanded typeName fragment.name = false) :
      Step schema typeName collection (collection.addExpansion typeName fragment)

/-- Any number of steps of collecting at a type. -/
abbrev Collection.Steps (schema : Schema) (typeName : Name) : Collection → Collection → Prop :=
  Relation.ReflTransGen (Collection.Step schema typeName)

section

variable {object : Name}

/-- Nothing narrows an object type. -/
private theorem effectiveType_object (typeCondition : Name) :
    effectiveType object .object typeCondition = object :=
  if_pos rfl

/-- The kind of an object type is found again below it. -/
private theorem eq_object_of_compositeKind {schema : Schema}
    (known : schema.typeKind? object = some .object) {collection : Collection} {kind : TypeKind}
    (h : compositeKind schema object collection = .ok kind) : kind = .object :=
  Option.some.inj ((compositeKind_eq_ok.1 h).1.symm.trans known)

mutual

private theorem steps_collectSelection (known : settings.schema.typeKind? object = some .object) :
    ∀ (selection : LinkedSelection) (collection : Collection) {result},
      collectSelection settings object .object selection collection = .ok result →
      Collection.Steps settings.schema object collection result
  | .field aliasName name arguments directives location selections, collection, result, h => by
    rw [collectSelection] at h
    split at h
    · cases h
    · rename_i definition found
      cases h
      exact .single (.field _ arguments directives selections found)
  | .inlineFragment typeCondition _ location selections, collection, result, h => by
    simp only [collectSelection, effectiveType_object] at h
    split at h
    · cases h
    · split at h
      · obtain ⟨kind, found, h⟩ := except_bind_eq_ok.1 h
        obtain rfl := eq_object_of_compositeKind known found
        exact steps_collectEach known selections collection h
      · cases h
        exact .single (.note _)
  | .spread name _ location none, collection, result, h => by
    rw [collectSelection] at h
    cases h
  | .spread name _ location (some fragment), collection, result, h => by
    rw [collectSelection] at h
    exact steps_collectFragment known fragment collection h

private theorem steps_collectFragment (known : settings.schema.typeKind? object = some .object) :
    ∀ (fragment : Fragment) (collection : Collection) {result},
      collectFragment settings object .object fragment collection = .ok result →
      Collection.Steps settings.schema object collection result
  | ⟨name, typeCondition, location, selections⟩, collection, result, h => by
    simp only [collectFragment, effectiveType_object] at h
    split at h
    · cases h
    · rename_i condition
      split at h
      · cases h
        exact .single (.note _)
      · -- a repeated fragment is recorded no second time, even if it is expanded again
        have recorded : Collection.Steps settings.schema object collection
            (if collection.hasExpanded object name then collection
              else collection.addExpansion object ⟨name, typeCondition, location, selections⟩) := by
          split
          · exact .refl
          · rename_i fresh
            exact .single (.expansion (Option.isSome_of_eq_some condition) (by simpa using fresh))
        split at h
        · obtain ⟨kind, found, h⟩ := except_bind_eq_ok.1 h
          obtain rfl := eq_object_of_compositeKind known found
          exact recorded.trans (steps_collectEach known selections _ h)
        · cases h
          exact recorded

private theorem steps_collectEach (known : settings.schema.typeKind? object = some .object) :
    ∀ (selections : List LinkedSelection) (collection : Collection) {result},
      collectEach settings object .object selections collection = .ok result →
      Collection.Steps settings.schema object collection result
  | [], collection, result, h => by
    rw [collectEach] at h
    cases h
    exact .refl
  | selection :: rest, collection, result, h => by
    rw [collectEach] at h
    obtain ⟨middle, first, h⟩ := except_bind_eq_ok.1 h
    exact (steps_collectSelection known selection collection first).trans
      (steps_collectEach known rest middle h)

end

variable (isObject : settings.schema.isObject object)

include isObject

/-- **Collecting at an object type** takes steps at that type only. -/
theorem steps_collect {selections : List LinkedSelection} {collection result : Collection}
    (h : collect settings object selections collection = .ok result) :
    Collection.Steps settings.schema object collection result := by
  have known : settings.schema.typeKind? object = some .object := by
    simpa [Schema.isObject] using isObject
  obtain ⟨kind, found, h⟩ := except_bind_eq_ok.1 h
  obtain rfl := eq_object_of_compositeKind known found
  exact steps_collectEach known selections collection h

/-- Collecting selection sets together at an object type takes steps at that type only. -/
theorem steps_collectTogether {sets : List (List LinkedSelection)} {collection result : Collection}
    (h : collectTogether settings object sets collection = .ok result) :
    Collection.Steps settings.schema object collection result := by
  rw [collectTogether_eq (Schema.isComposite_of_isObject isObject)] at h
  exact steps_collect isObject h

end

/-! ### What stays at a type -/

/-- A collection **stays at** a type if its groups have occurrences that were all collected at the
type, with the types of the fields that it defines, and its fragments were all expanded at the type.
Besides, no response name has two groups, and no fragment is recorded twice. -/
structure Collection.StaysAt (schema : Schema) (typeName : Name) (collection : Collection) :
    Prop where
  collectedAt_eq : ∀ occurrence ∈ collection.occurrences, occurrence.collectedAt = typeName
  declared : ∀ occurrence ∈ collection.occurrences, ∃ definition,
    schema.fieldDefinition? typeName occurrence.name = some definition ∧
      occurrence.type = definition.type
  occurs : ∀ group ∈ collection.groups, group.2 ≠ []
  nodup_groups : collection.groups.keys.Nodup
  expandedAt_eq : ∀ expandedAt ∈ collection.expansions.keys, expandedAt = typeName
  nodup_expansions : collection.expansions.keys.Nodup
  nodup_fragments : (collection.fragments.map Fragment.name).Nodup
  known : ∀ fragment ∈ collection.fragments, (schema.typeKind? fragment.typeCondition).isSome

namespace Collection.StaysAt

variable {schema : Schema} {typeName : Name} {collection next : Collection}

theorem empty (schema : Schema) (typeName : Name) : StaysAt schema typeName {} where
  collectedAt_eq _ mem := by cases mem
  declared _ mem := by cases mem
  occurs _ mem := by cases mem
  nodup_groups := List.nodup_nil
  expandedAt_eq _ mem := by cases mem
  nodup_expansions := List.nodup_nil
  nodup_fragments := List.nodup_nil
  known _ mem := by cases mem

theorem hasExpanded_eq (h : collection.StaysAt schema typeName) (name : Name) :
    collection.hasExpanded typeName name = collection.fragments.any (·.name = name) := by
  rcases NameMap.eq_nil_or_singleton h.nodup_expansions h.expandedAt_eq with eq | ⟨_, eq⟩ <;>
    simp [hasExpanded, fragments, eq, NameMap.find?, NameMap.values]

theorem fragments_addExpansion (h : collection.StaysAt schema typeName) (fragment : Fragment) :
    (collection.addExpansion typeName fragment).fragments = collection.fragments ++ [fragment] := by
  rcases NameMap.eq_nil_or_singleton h.nodup_expansions h.expandedAt_eq with eq | ⟨_, eq⟩ <;>
    simp [addExpansion, fragments, eq, NameMap.push, NameMap.values]

theorem note (h : collection.StaysAt schema typeName) (event : LogEvent) :
    (collection.note event).StaysAt schema typeName :=
  { h with }

theorem addField (h : collection.StaysAt schema typeName) (responseName : Name)
    {occurrence : Occurrence} {definition : FieldInfo} (here : occurrence.collectedAt = typeName)
    (found : schema.fieldDefinition? typeName occurrence.name = some definition)
    (type : occurrence.type = definition.type) :
    (collection.addField responseName occurrence).StaysAt schema typeName := by
  refine { h with collectedAt_eq := ?_, declared := ?_, occurs := ?_, nodup_groups := ?_ }
  · intro other mem
    rcases NameMap.mem_flatten_values_push.1 mem with mem | rfl
    · exact h.collectedAt_eq other mem
    · exact here
  · intro other mem
    rcases NameMap.mem_flatten_values_push.1 mem with mem | rfl
    · exact h.declared other mem
    · exact ⟨definition, found, type⟩
  · exact NameMap.ne_nil_of_mem_push h.occurs
  · exact NameMap.nodup_keys_push h.nodup_groups _ _

theorem addExpansion (h : collection.StaysAt schema typeName) {fragment : Fragment}
    (known : (schema.typeKind? fragment.typeCondition).isSome)
    (fresh : collection.hasExpanded typeName fragment.name = false) :
    (collection.addExpansion typeName fragment).StaysAt schema typeName := by
  have fragments_eq := h.fragments_addExpansion fragment
  refine { h with
    expandedAt_eq := ?_, nodup_expansions := ?_, nodup_fragments := ?_, known := ?_ }
  · intro expandedAt mem
    rw [Collection.addExpansion, NameMap.keys_push] at mem
    split at mem
    · exact h.expandedAt_eq expandedAt mem
    · rcases List.mem_append.1 mem with mem | mem
      · exact h.expandedAt_eq expandedAt mem
      · exact List.mem_singleton.1 mem
  · exact NameMap.nodup_keys_push h.nodup_expansions _ _
  · rw [fragments_eq, List.map_append, List.map_singleton, List.nodup_append]
    refine ⟨h.nodup_fragments, List.nodup_singleton _, fun name mem other memOther same => ?_⟩
    obtain ⟨old, memOld, rfl⟩ := List.mem_map.1 mem
    have repeated : old.name = fragment.name := same.trans (List.mem_singleton.1 memOther)
    rw [h.hasExpanded_eq, List.any_eq_false] at fresh
    exact fresh old memOld (decide_eq_true repeated)
  · rw [fragments_eq, List.forall_mem_append, List.forall_mem_singleton]
    exact ⟨h.known, known⟩

/-- **A step at a type** keeps a collection at the type. -/
theorem step (h : collection.StaysAt schema typeName)
    (step : Step schema typeName collection next) : next.StaysAt schema typeName := by
  cases step with
  | note event => exact h.note event
  | field responseName arguments directives selections found =>
    exact h.addField responseName rfl found rfl
  | expansion known fresh => exact h.addExpansion known fresh

/-- Steps at a type keep a collection at the type. -/
theorem of_steps (h : collection.StaysAt schema typeName)
    (steps : Steps schema typeName collection next) : next.StaysAt schema typeName := by
  induction steps with
  | refl => exact h
  | tail _ last ih => exact ih.step last

end Collection.StaysAt

/-! ### What applies -/

/-- Fragments with names of their own are all added to others with names of their own. -/
private theorem foldl_addFragment_of_nodup (fragments more : List Fragment)
    (nodup : ((fragments ++ more).map Fragment.name).Nodup) :
    more.foldl addFragment fragments = fragments ++ more := by
  induction more generalizing fragments with
  | nil => exact (List.append_nil fragments).symm
  | cons fragment rest ih =>
    have eq : fragments ++ fragment :: rest = fragments ++ [fragment] ++ rest := by simp
    rw [eq] at nodup ⊢
    have fresh : fragments.any (·.name = fragment.name) = false := by
      rw [List.map_append, List.map_append, List.nodup_append] at nodup
      obtain ⟨-, -, apart⟩ := List.nodup_append.1 nodup.1
      simp only [List.any_eq_false, decide_eq_true_eq]
      exact fun other mem => apart _ (List.mem_map_of_mem mem) _ List.mem_cons_self
    rw [List.foldl_cons, addFragment, if_neg (by simp [fresh]), ih _ nodup]

namespace Collection.StaysAt

variable {schema : Schema} {typeName : Name} {collection : Collection}
  (h : collection.StaysAt schema typeName)

include h

/-- A group applies, with all of its occurrences. -/
private theorem map_applicableField? {group : Name × List Occurrence}
    (mem : group ∈ collection.groups) :
    (applicableField? schema typeName group).map
      (fun field => (field.responseName, field.occurrences)) = some group := by
  have all : group.2.filter (fun occurrence =>
      schema.isSubtypeOf typeName occurrence.collectedAt) = group.2 := by
    refine List.filter_eq_self.2 fun occurrence memOccurrence => ?_
    have present : occurrence ∈ collection.occurrences :=
      List.mem_flatten.2 ⟨group.2, List.mem_map.2 ⟨group, mem, rfl⟩, memOccurrence⟩
    rw [h.collectedAt_eq occurrence present]
    exact Schema.isSubtypeOf_self schema typeName
  obtain ⟨first, others, eq⟩ := List.exists_cons_of_ne_nil (h.occurs group mem)
  rw [applicableField?, all, eq, Option.map_some, ApplicableField.occurrences, ← eq]

/-- All groups apply, with all of their occurrences. -/
theorem map_applicableFields :
    (applicableFields schema typeName collection).map
      (fun field => (field.responseName, field.occurrences)) = collection.groups := by
  rw [applicableFields, List.map_filterMap]
  exact (List.filterMap_congr fun group mem => h.map_applicableField? mem).trans
    List.filterMap_some

/-- All fragments apply. -/
theorem fragmentsAt_eq : fragmentsAt schema typeName collection = collection.fragments := by
  have all : collection.expansions.filter (fun expansion =>
      schema.isSubtypeOf typeName expansion.1) = collection.expansions := by
    refine List.filter_eq_self.2 fun expansion mem => ?_
    rw [h.expandedAt_eq expansion.1 (List.mem_map.2 ⟨expansion, mem, rfl⟩)]
    exact Schema.isSubtypeOf_self schema typeName
  have chosen : fragmentsAt schema typeName collection
      = ((collection.expansions.filter fun expansion =>
          schema.isSubtypeOf typeName expansion.1).flatMap Prod.snd).foldl addFragment [] := rfl
  rw [chosen, all, List.flatMap_def]
  exact foldl_addFragment_of_nodup [] _ h.nodup_fragments

/-- Nothing is narrowed. -/
theorem narrowedTypes_eq : narrowedTypes schema typeName collection = [] := by
  have recorded : ∀ other ∈ collection.recordedTypes, other = typeName := by
    intro other mem
    rcases List.mem_append.1 mem with mem | mem
    · obtain ⟨occurrence, present, rfl⟩ := List.mem_map.1 mem
      exact h.collectedAt_eq occurrence present
    · exact h.expandedAt_eq other mem
  have nothing : collection.recordedTypes.flatMap (narrowedTo schema typeName) = [] := by
    refine List.flatMap_eq_nil_iff.2 fun other mem => ?_
    rw [recorded other mem, narrowedTo_self]
  unfold narrowedTypes
  split
  · exact congrArg (unionNames []) nothing
  · rfl

end Collection.StaysAt

/-! ### Results -/

/-- Whether the occurrences of a group are compiled to a field, all of them together. -/
def GroupCompilesTo (settings : Settings) (typeName : Name) (group : Name × List Occurrence)
    (compiled : Compiled.Field) : Prop :=
  ∃ field : ApplicableField, (field.responseName, field.occurrences) = group ∧
    field.CompilesTo settings typeName compiled

/-- Whether a selection set is compiled from all groups and fragments of a collection: it has a
field for each group in order, spreads all fragments, and has no branches. -/
structure Collection.CompilesWhole (settings : Settings) (typeName : Name) (collection : Collection)
    (selectionSet : Compiled.SelectionSet) : Prop where
  fields : List.Forall₂ (GroupCompilesTo settings typeName) collection.groups selectionSet.fields
  fragmentSpreads_eq : selectionSet.fragmentSpreads = collection.fragments.map Fragment.name
  inlineFragments_eq : selectionSet.inlineFragments = []

/-- **What stays at a type is resolved there as a whole.** -/
theorem Collection.StaysAt.compilesWhole {typeName : Name} {collection : Collection}
    (h : collection.StaysAt settings.schema typeName) {selectionSet : Compiled.SelectionSet}
    (resolves : ResolvesTo settings typeName collection selectionSet) :
    collection.CompilesWhole settings typeName selectionSet where
  fields := by
    rw [← h.map_applicableFields, List.forall₂_map_left_iff]
    exact resolves.shape.fields.imp fun field compiled compiles => ⟨field, rfl, compiles⟩
  fragmentSpreads_eq := by
    rw [resolves.shape.fragmentSpreads_eq, spreadNamesAt, h.fragmentsAt_eq]
  inlineFragments_eq := by
    have branches := resolves.shape.inlineFragments
    rwa [h.narrowedTypes_eq, List.forall₂_nil_left_iff] at branches

/-! ### Errors -/

open CompileM

/-- Whether a computation stops with an error from some state. -/
def CompileM.StopsWith {α : Type} (m : CompileM α) (e : CompileError) : Prop :=
  ∃ state, (m.run state).1 = .error e

/-- A computation blames what it stops with. -/
theorem blames_of_stopsWith {α : Type} {blame : CompileError → Prop} {m : CompileM α}
    (h : ∀ e, StopsWith m e → blame e) : Blames (fun _ => True) blame m fun _ => True :=
  ⟨ensures_true, fun state _ e eq => h e ⟨state, eq⟩⟩

/-- Whether the resolution of one of some sites stops with an error. -/
def StopsAt (settings : Settings) (sites : List Site) (e : CompileError) : Prop :=
  ∃ site ∈ sites, StopsWith (site.resolution settings) e

section

variable {n : Nat} {sites : List Site}

private theorem resolution_blames_sites {site : Site} (mem : site ∈ sites) :
    Blames (fun _ => True) (StopsAt settings sites) (site.resolution settings) fun _ => True :=
  blames_of_stopsWith fun _ stops => ⟨site, mem, stops⟩

private theorem resolveField_blames_sites {parent : Name} {field : ApplicableField}
    (bound : ∀ occurrence ∈ field.occurrences, height occurrence.selections < n)
    (mem : settings.schema.isComposite field.bareType → field.site ∈ sites) :
    Blames (fun _ => True) (StopsAt settings sites)
      (resolveField settings (resolveBelow settings n) parent field bound) fun _ => True := by
  unfold resolveField
  refine blames_useType.bind fun _ _ => ?_
  dsimp only
  split
  · rename_i composite
    rw [resolveSubselections_eq settings composite, ← bind_pure_comp, bind_assoc]
    exact (resolution_blames_sites (mem composite)).bind fun _ _ => blames_pure trivial
  · have nothing : Blames (fun _ => True) (StopsAt settings sites)
        (pure none : CompileM (Option Resolved)) fun _ => True := blames_pure trivial
    exact nothing.bind fun _ _ => blames_pure trivial

private theorem resolveFields_blames_sites {parent : Name} :
    ∀ (fields : List ApplicableField) (bound : ∀ field ∈ fields,
      ∀ occurrence ∈ field.occurrences, height occurrence.selections < n) (references : List Name),
    fieldSites settings.schema fields ⊆ sites →
    Blames (fun _ => True) (StopsAt settings sites)
      (resolveFields settings (resolveBelow settings n) parent fields bound references)
      fun _ => True
  | [], _, _, _ => blames_pure trivial
  | field :: rest, bound, references, sub => by
    rw [fieldSites_cons] at sub
    rw [resolveFields]
    obtain ⟨subFirst, subRest⟩ := List.append_subset.1 sub
    have first : settings.schema.isComposite field.bareType → field.site ∈ sites :=
      fun composite => subFirst (List.mem_map.2
        ⟨field, List.mem_filter.2 ⟨List.mem_singleton_self _, composite⟩, rfl⟩)
    refine (resolveField_blames_sites _ first).bind fun own _ => ?_
    exact (resolveFields_blames_sites rest _ _ subRest).bind fun _ _ => blames_pure trivial

private theorem fragmentReferences_blames_sites {fragment : Fragment} (mem : fragment.site ∈ sites)
    (known : (settings.schema.typeKind? fragment.typeCondition).isSome) :
    Blames (fun _ => True) (StopsAt settings sites)
      (fragmentReferences settings fragment (resolveBelow settings _)) fun _ => True := by
  obtain ⟨kind, known⟩ := Option.isSome_iff_exists.1 known
  have looked : Ensures (fun _ => True) True (remembered? fragment.name) fun _ => True :=
    ensures_remembered?.mono fun _ _ => trivial
  have resolved : Blames (fun _ => True) (StopsAt settings sites)
      (resolveFragment settings fragment) fun _ => True := by
    rw [resolveFragment_eq known]
    refine (resolution_blames_sites mem).bind fun resolved _ => ?_
    have kept : Ensures (fun _ => True) True (remember fragment.name resolved.references)
        fun _ => True := ensures_remember fun _ => id
    exact kept.blames.bind fun _ _ => blames_pure trivial
  unfold fragmentReferences
  refine looked.blames.bind fun found _ => ?_
  cases found with
  | none => exact resolved.bind fun _ _ => blames_pure trivial
  | some references => exact blames_tell.bind fun _ _ => blames_pure trivial

private theorem spreadReferences_blames_sites :
    ∀ (fragments : List Fragment) (bound : ∀ fragment ∈ fragments, fragment.height ≤ n)
      (references : List Name),
    fragments.map Fragment.site ⊆ sites →
    (∀ fragment ∈ fragments, (settings.schema.typeKind? fragment.typeCondition).isSome) →
    Blames (fun _ => True) (StopsAt settings sites)
      (spreadReferences settings (resolveBelow settings n) fragments bound references)
      fun _ => True
  | [], _, _, _, _ => blames_pure trivial
  | fragment :: rest, bound, references, sub, known => by
    obtain ⟨mem, subRest⟩ := List.cons_subset.1 sub
    obtain ⟨knownFirst, knownRest⟩ := List.forall_mem_cons.1 known
    rw [spreadReferences]
    refine (fragmentReferences_blames_sites mem knownFirst).bind fun own _ => ?_
    exact spreadReferences_blames_sites rest _ _ subRest knownRest

end

/-- **Resolution stops with errors of its parts only**: if what stays at a type cannot be resolved
there, then neither can the sub-selections of one of its fields or the selections of one of its
fragments, from some state. -/
theorem Collection.StaysAt.resolve_blames_sites {typeName : Name} {collection : Collection}
    (h : collection.StaysAt settings.schema typeName) :
    Blames (fun _ => True) (StopsAt settings (sitesAt settings.schema collection typeName))
      (resolve settings typeName collection) fun _ => True := by
  have known : ∀ fragment ∈ fragmentsAt settings.schema typeName collection,
      (settings.schema.typeKind? fragment.typeCondition).isSome := by
    rw [h.fragmentsAt_eq]
    exact h.known
  rw [resolve.eq_1, resolveWith, h.narrowedTypes_eq]
  refine (resolveFields_blames_sites _ _ _ (List.subset_append_left _ _)).bind fun fields _ => ?_
  have branches : Blames (fun _ => True)
      (StopsAt settings (sitesAt settings.schema collection typeName))
      (resolveBranches settings collection (resolveBelow settings _) [] fields.2)
      fun _ => True := blames_pure trivial
  refine branches.bind fun branches _ => ?_
  exact (spreadReferences_blames_sites _ _ _ (List.subset_append_right _ _) known).bind
    fun references _ => blames_pure trivial

/-! ### Object types -/

/-- **Collecting at an object type stays at that type and loses nothing.** Let fragments spread one
another without cycles. If selection sets are collected together at an object type, starting from
nothing, then every occurrence of every group was collected at the object type and has the type of
the field that the object type defines, all fragments were expanded at the object type, no group is
empty and no response name has two. The collection comprises exactly what the selection sets mention
at the object type.

Whatever the collection resolves to at the object type has one field for each group, in order, which
is compiled from all of its occurrences, the spreads of all fragments, and no branches. Resolving it
stops only if resolving the sub-selections of one of its fields or one of its fragments does. -/
theorem staysAt_of_collectTogether {definitions : List FragmentDefinition}
    {library : FragmentLibrary} (acyclic : (FragmentTable.ofList definitions).library = .ok library)
    {object : Name} (isObject : settings.schema.isObject object)
    {sets : List WrittenSelections} {collection : Collection}
    (collected : collectTogether settings object (sets.map (link library.find?)) {}
      = .ok collection) :
    collection.StaysAt settings.schema object ∧
    collection.Comprises (reading settings object (sets.flatMap (link library.find?))) ∧
    (∀ selectionSet, ResolvesTo settings object collection selectionSet →
      collection.CompilesWhole settings object selectionSet) ∧
    ∀ e, StopsWith (resolve settings object collection) e →
      StopsAt settings (sitesAt settings.schema collection object) e := by
  have stays : collection.StaysAt settings.schema object :=
    (Collection.StaysAt.empty settings.schema object).of_steps
      (steps_collectTogether isObject collected)
  have gathered : Gathers settings collection []
      (reading settings object (sets.flatMap (link library.find?))) :=
    gathers_collectTogether acyclic (Schema.isComposite_of_isObject isObject) collected
  refine ⟨stays, gathered.comprises, fun _ resolves => stays.compilesWhole resolves, ?_⟩
  rintro e ⟨state, eq⟩
  exact stays.resolve_blames_sites.blames state trivial e eq

/-- A dog has its name three times, once under a condition on pets and once from a fragment on
mammals, and its owner; nothing is left of what is selected for fish. -/
theorem staysAt_of_collectTogether_dog :
    let settings : Settings := { schema := petSchema, options := {} }
    let names := plainFragment "Names" "Mammal" [plainField "name" []]
    let sets := [
      [plainInline "Pet" [plainField "name" [], plainSpread "Names"],
        plainInline "Fish" [plainField "lives" []]],
      [plainField "owner" [plainField "kennel" []], plainSpread "Names", plainField "name" []]]
    ∃ library collection resolved after,
      (FragmentTable.ofList [names]).library = .ok library ∧ petSchema.isObject "Dog" ∧
      collectTogether settings "Dog" (sets.map (link library.find?)) {} = .ok collection ∧
      (resolve settings "Dog" collection).run {} = (.ok resolved, after) ∧
      collection.groups.map (fun group => (group.1, group.2.length))
        = [("name", 3), ("owner", 1)] ∧
      resolved.selectionSet.fields.map Compiled.Field.responseName = ["name", "owner"] ∧
      resolved.selectionSet.fragmentSpreads = ["Names"] ∧
      collection.StaysAt petSchema "Dog" ∧
      collection.Comprises (reading settings "Dog" (sets.flatMap (link library.find?))) ∧
      collection.CompilesWhole settings "Dog" resolved.selectionSet := by
  intro settings names sets
  obtain ⟨library, collection, resolved, after, acyclic, collected, run, groups, fields, spreads⟩ :
      ∃ library collection resolved after,
        (FragmentTable.ofList [names]).library = .ok library ∧
        collectTogether settings "Dog" (sets.map (link library.find?)) {} = .ok collection ∧
        (resolve settings "Dog" collection).run {} = (.ok resolved, after) ∧
        collection.groups.map (fun group => (group.1, group.2.length))
          = [("name", 3), ("owner", 1)] ∧
        resolved.selectionSet.fields.map Compiled.Field.responseName = ["name", "owner"] ∧
        resolved.selectionSet.fragmentSpreads = ["Names"] :=
    ⟨_, _, _, _, by cbv, by cbv, by cbv, by cbv, by cbv, by cbv⟩
  have isObject : petSchema.isObject "Dog" := by decide +kernel
  obtain ⟨stays, comprises, whole, -⟩ :=
    staysAt_of_collectTogether acyclic isObject collected
  exact ⟨library, collection, resolved, after, acyclic, isObject, collected, run, groups, fields,
    spreads, stays, comprises, whole _ ⟨{}, after, resolved, run, rfl⟩⟩

end GraphQLCompiler
