import GraphQLCompiler.Proofs.Consistency
import GraphQLCompiler.Proofs.Determinacy
import Mathlib

/-!
# Spreading a fragment

Selections that are nothing but the spread of a fragment, at the type of the fragment, mention the
fragment and then what the fragment itself mentions. The additional mention makes no field, and no
branch either, since no type is narrowed to itself. So such a field compiles to the fields and
branches of the fragment, and spreads the fragment besides, at its type and in each branch
(`spreading_eq_fragment`).

A compiled document is walked from its definitions down (`Compiled.Document.Selects`): each selection
set in it comes from a site, which for a field has the sub-selections of all its occurrences.
-/

namespace GraphQLCompiler

variable {settings : Settings} {find : Name → Option Fragment}

/-! ### The spread of a fragment -/

/-- The site of the spread of a fragment at its own type. -/
def Fragment.spread (fragment : Fragment) : Site where
  parent := fragment.typeCondition
  selections := [.spread fragment.name [] none (some fragment)]

@[simp] theorem narrowedTo_self (schema : Schema) (typeName : Name) :
    narrowedTo schema typeName typeName = [] := by
  rw [narrowedTo, if_pos (Schema.isSubtypeOf_self schema typeName)]

/-- A spread mentions the fragment, and then what the fragment mentions. -/
private theorem reading_spread (merge : settings.options.mergeFragmentFields) (fragment : Fragment)
    (directives : List Directive) (location : Option Span) :
    (Selection.spread fragment.name directives location (some fragment)).reading settings
      fragment.typeCondition
      = .fragment fragment.typeCondition fragment :: fragment.site.mentions settings := by
  rw [Selection.reading, Fragment.reading_eq, Schema.narrow_self, readingInside, if_pos merge]
  rfl

theorem Fragment.mentions_spread (merge : settings.options.mergeFragmentFields)
    (fragment : Fragment) : fragment.spread.mentions settings
      = .fragment fragment.typeCondition fragment :: fragment.site.mentions settings := by
  have mentions : fragment.spread.mentions settings
      = (Selection.spread fragment.name [] none (some fragment)).reading settings
        fragment.typeCondition ++ [] := rfl
  rw [mentions, reading_spread merge, List.append_nil]

/-- A site at the type of a fragment that has nothing but spreads of it is similar to its spread. -/
theorem Fragment.similar_spread (merge : settings.options.mergeFragmentFields) {fragment : Fragment}
    {site : Site} (parent : site.parent = fragment.typeCondition) (nonempty : site.selections ≠ [])
    (spreads : ∀ selection ∈ site.selections, ∃ directives location,
      selection = .spread fragment.name directives location (some fragment)) :
    site.Similar settings fragment.spread := by
  refine ⟨parent, ?_⟩
  rw [fragment.mentions_spread merge, Site.mentions, reading_eq_flatMap, parent]
  obtain ⟨first, rest, eq⟩ := List.exists_cons_of_ne_nil nonempty
  rw [eq] at spreads ⊢
  have each : ∀ selection ∈ first :: rest,
      selection.reading settings fragment.typeCondition
        = .fragment fragment.typeCondition fragment :: fragment.site.mentions settings := by
    intro selection mem
    obtain ⟨directives, location, rfl⟩ := spreads selection mem
    exact reading_spread merge fragment directives location
  -- the later spreads mention what the first has mentioned
  rw [List.flatMap_cons, each first List.mem_cons_self]
  refine SameFirsts.append_of_subset fun mention mem => ?_
  obtain ⟨selection, memRest, mentioned⟩ := List.mem_flatMap.1 mem
  rwa [each selection (List.mem_cons_of_mem _ memRest)] at mentioned

section

variable (merge : settings.options.mergeFragmentFields) {fragment : Fragment}

include merge

private theorem resolvedAt_spread {typeName : Name} :
    fragment.spread.ResolvedAt settings typeName ↔ fragment.site.ResolvedAt settings typeName := by
  unfold Site.ResolvedAt
  refine or_congr_right (and_congr_right fun _ => ?_)
  rw [fragment.mentions_spread merge, List.exists_mem_cons_iff]
  refine or_iff_right fun narrowed => ?_
  have none : typeName ∈ narrowedTo settings.schema fragment.typeCondition fragment.typeCondition :=
    narrowed
  rw [narrowedTo_self] at none
  cases none

/-- A spread is followed to its fragment, and to where the fragment is followed to. -/
private theorem follows_spread_iff {next : Site} : fragment.spread.Follows settings next ↔
    next = fragment.site ∨ fragment.site.Follows settings next := by
  constructor
  · intro follows
    cases follows with
    | field field resolved applicable composite =>
      rw [fragment.mentions_spread merge] at applicable
      exact .inr (.field field ((resolvedAt_spread merge).1 resolved) applicable composite)
    | fragment other resolved mentioned applicable =>
      rw [fragment.mentions_spread merge] at mentioned
      rcases List.mem_cons.1 mentioned with eq | mentioned
      · cases eq
        exact .inl rfl
      · exact .inr (.fragment other ((resolvedAt_spread merge).1 resolved) mentioned applicable)
  · rintro (rfl | follows)
    · have here : fragment.spread.ResolvedAt settings fragment.typeCondition := .inl rfl
      refine .fragment fragment here ?_ (Schema.isSubtypeOf_self settings.schema _)
      rw [fragment.mentions_spread merge]
      exact List.mem_cons_self
    · cases follows with
      | field field resolved applicable composite =>
        refine .field field ((resolvedAt_spread merge).2 resolved) ?_ composite
        rw [fragment.mentions_spread merge]
        exact applicable
      | fragment other resolved mentioned applicable =>
        refine .fragment other ((resolvedAt_spread merge).2 resolved) ?_ applicable
        rw [fragment.mentions_spread merge]
        exact List.mem_cons_of_mem _ mentioned

/-- **A spread references** its fragment, and what the fragment references. -/
theorem Fragment.references_spread_iff {name : Name} : fragment.spread.References settings name ↔
    name = fragment.name ∨ fragment.site.References settings name := by
  have mentioned : fragment.spread.MentionsFragment settings name ↔
      name = fragment.name ∨ fragment.site.MentionsFragment settings name := by
    unfold Site.MentionsFragment
    rw [fragment.mentions_spread merge]
    constructor
    · rintro ⟨typeName, other, mem, rfl⟩
      rcases List.mem_cons.1 mem with eq | mem
      · cases eq
        exact .inl rfl
      · exact .inr ⟨typeName, other, mem, rfl⟩
    · rintro (rfl | ⟨typeName, other, mem, rfl⟩)
      · exact ⟨_, fragment, List.mem_cons_self, rfl⟩
      · exact ⟨typeName, other, List.mem_cons_of_mem _ mem, rfl⟩
  have own : fragment.site.References settings name ↔
      fragment.site.MentionsFragment settings name ∨
        ∃ next, fragment.site.Follows settings next ∧ next.References settings name :=
    Site.references_iff
  rw [Site.references_iff, mentioned]
  simp only [follows_spread_iff merge, or_and_right, exists_or, exists_eq_left]
  rw [own]
  tauto

end

/-! ### Collections of spreads -/

/-- A collection with the expansion of a fragment at a type before all others. -/
private def expandedFirst (own : Collection) (mentions : List Mention) (typeName : Name)
    (fragment : Fragment) : Collection :=
  { own with expansions := NameMap.collate ((typeName, fragment) ::
      mentions.filterMap Mention.fragment?) }

private theorem holds_expandedFirst {schema : Schema} {own : Collection} {mentions : List Mention}
    (holds : own.Holds schema mentions) (typeName : Name) (fragment : Fragment) :
    (expandedFirst own mentions typeName fragment).Holds schema
      (.fragment typeName fragment :: mentions) where
  groups_eq := holds.groups_eq
  expansions_eq := rfl
  defined := List.forall_mem_cons.2 ⟨trivial, holds.defined⟩

section

variable (merge : settings.options.mergeFragmentFields) {fragment : Fragment} {site : Site}
  {own collection : Collection} (similar : site.Similar settings fragment.spread)
  (collectedOwn : fragment.site.Collected settings find own)
  (collected : site.Collected settings find collection)

include merge similar collectedOwn collected

/-- The collection of a spread holds what that of the fragment does, after the fragment. -/
private theorem exists_holds_spread : ∃ mentions spread,
    own.Holds settings.schema mentions ∧ collection.Holds settings.schema spread ∧
      SameFirsts (.fragment fragment.typeCondition fragment :: mentions) spread := by
  obtain ⟨mentions, holds, same⟩ := collectedOwn.gathers
  obtain ⟨spread, holdsSpread, sameSpread⟩ := collected.gathers
  refine ⟨mentions, spread, holds, holdsSpread, SameFirsts.symm (sameSpread.trans ?_)⟩
  have mentioned := similar.mentions
  rw [fragment.mentions_spread merge] at mentioned
  exact mentioned.trans ((SameFirsts.refl [_]).append same.symm)

/-- **The same fields** apply for a spread as for the fragment, but for repetitions. -/
private theorem applicableFields_spread (typeName : Name) :
    List.Forall₂ ApplicableField.Same (applicableFields settings.schema typeName own)
      (applicableFields settings.schema typeName collection) := by
  obtain ⟨mentions, spread, holds, holdsSpread, same⟩ :=
    exists_holds_spread merge similar collectedOwn collected
  -- which fields apply is not changed by an expansion
  exact applicableFields_same (holds_expandedFirst holds fragment.typeCondition fragment) holdsSpread
    same typeName

/-- **The same object types** get branches for a spread as for the fragment, since a type is not
narrowed to itself. -/
private theorem narrowedTypes_spread :
    narrowedTypes settings.schema fragment.typeCondition own
      = narrowedTypes settings.schema fragment.typeCondition collection := by
  obtain ⟨mentions, spread, holds, holdsSpread, same⟩ :=
    exists_holds_spread merge similar collectedOwn collected
  have keys : (expandedFirst own mentions fragment.typeCondition fragment).expansions.keys
      = (fragment.typeCondition :: (mentions.filterMap Mention.fragment?).map Prod.fst).eraseDups :=
    NameMap.keys_collate _
  have narrowed : ∀ names : List Name, SameFirsts
      (((own.occurrences.map Occurrence.collectedAt) ++ names.eraseDups).flatMap
        (narrowedTo settings.schema fragment.typeCondition))
      (((own.occurrences.map Occurrence.collectedAt) ++ names).flatMap
        (narrowedTo settings.schema fragment.typeCondition)) := fun names =>
    ((SameFirsts.refl _).append (SameFirsts.eraseDups_self names)).flatMap _
  rw [← narrowedTypes_same (holds_expandedFirst holds fragment.typeCondition fragment) holdsSpread
    same]
  unfold narrowedTypes
  split
  · rw [keys, holds.expansions_eq, NameMap.keys_collate]
    refine SameFirsts.unionNames_eq ((narrowed _).trans (.symm ((narrowed _).trans ?_))) []
    rw [List.flatMap_append, List.flatMap_cons, narrowedTo_self, List.nil_append,
      ← List.flatMap_append]
  · rfl

/-- **The spreads** at a type that the fragment contains are those of the fragment, and it. -/
private theorem mem_spreadNamesAt_spread {typeName name : Name}
    (contained : settings.schema.isSubtypeOf typeName fragment.typeCondition) :
    name ∈ spreadNamesAt settings.schema typeName collection ↔
      name = fragment.name ∨ name ∈ spreadNamesAt settings.schema typeName own := by
  have mentioned : ∀ mention, mention ∈ site.mentions settings ↔
      mention = .fragment fragment.typeCondition fragment ∨
        mention ∈ fragment.site.mentions settings := by
    intro mention
    rw [similar.mentions.mem_iff, fragment.mentions_spread merge, List.mem_cons]
  simp only [spreadNamesAt, List.mem_map, collected.mem_fragmentsAt, collectedOwn.mem_fragmentsAt,
    mentioned]
  constructor
  · rintro ⟨other, ⟨expandedAt, eq | mem, sub⟩, rfl⟩
    · cases eq
      exact .inl rfl
    · exact .inr ⟨other, ⟨expandedAt, mem, sub⟩, rfl⟩
  · rintro (rfl | ⟨other, ⟨expandedAt, mem, sub⟩, rfl⟩)
    · exact ⟨fragment, ⟨_, .inl rfl, contained⟩, rfl⟩
    · exact ⟨other, ⟨expandedAt, .inr mem, sub⟩, rfl⟩

end

/-! ### Compiled spreads -/

namespace Compiled

/-- Whether a branch is that of a fragment, but for spreading the fragment besides. -/
structure SpreadBranch (name : Name) (own branch : InlineFragment) : Prop where
  typeCondition_eq : branch.typeCondition = own.typeCondition
  possibleTypes_eq : branch.possibleTypes = own.possibleTypes
  fields_eq : branch.fields = own.fields
  mem_fragmentSpreads_iff : ∀ other,
    other ∈ branch.fragmentSpreads ↔ other = name ∨ other ∈ own.fragmentSpreads

/-- Whether a selection set is that of a **spread** of a fragment: it has the fields of the fragment
and its branches, and spreads the fragment besides, at its type and in each branch. -/
structure Spread (name : Name) (own selectionSet : SelectionSet) : Prop where
  fields_eq : selectionSet.fields = own.fields
  mem_fragmentSpreads_iff : ∀ other,
    other ∈ selectionSet.fragmentSpreads ↔ other = name ∨ other ∈ own.fragmentSpreads
  inlineFragments :
    List.Forall₂ (SpreadBranch name) own.inlineFragments selectionSet.inlineFragments

end Compiled

/-- **What is similar to a spread** is compiled to a spread of the fragment. -/
theorem Site.Similar.spread (merge : settings.options.mergeFragmentFields) {fragment : Fragment}
    {site : Site} (similar : site.Similar settings fragment.spread)
    {ownSet selectionSet : Compiled.SelectionSet}
    (compilesOwn : fragment.site.CompilesTo settings find ownSet)
    (compiles : site.CompilesTo settings find selectionSet) :
    Compiled.Spread fragment.name ownSet selectionSet := by
  obtain ⟨own, collectedOwn, resolvesOwn⟩ := compilesOwn
  obtain ⟨collection, collected, resolves⟩ := compiles
  have shapeOwn : Shape settings fragment.typeCondition own ownSet := resolvesOwn.shape
  have shape : Shape settings fragment.typeCondition collection selectionSet := by
    have shape := resolves.shape
    rwa [similar.parent_eq] at shape
  have fields_eq : ∀ {typeName : Name} {fields fieldsOwn : List Compiled.Field},
      FieldsAt settings collection typeName fields → FieldsAt settings own typeName fieldsOwn →
      fields = fieldsOwn := fun compiles compilesOwn =>
    (compilesOwn.eq_of_same collectedOwn collected
      (applicableFields_spread merge similar collectedOwn collected _) compiles).symm
  have branches : ∀ {objects : List Name} {branchesOwn branches : List Compiled.InlineFragment},
      (∀ object ∈ objects, settings.schema.isSubtypeOf object fragment.typeCondition) →
      List.Forall₂ (BranchAt settings own) objects branchesOwn →
      List.Forall₂ (BranchAt settings collection) objects branches →
      List.Forall₂ (Compiled.SpreadBranch fragment.name) branchesOwn branches := by
    intro objects branchesOwn branches contained allOwn all
    induction allOwn generalizing branches with
    | nil =>
      cases all
      exact .nil
    | @cons object branchOwn objects branchesOwn firstOwn _ ih =>
      obtain _ | ⟨first, rest⟩ := all
      obtain ⟨containedFirst, containedRest⟩ := List.forall_mem_cons.1 contained
      refine .cons ⟨first.typeCondition_eq.trans firstOwn.typeCondition_eq.symm,
        first.possibleTypes_eq.trans firstOwn.possibleTypes_eq.symm,
        fields_eq first.fields firstOwn.fields, fun other => ?_⟩ (ih containedRest rest)
      rw [first.fragmentSpreads_eq, firstOwn.fragmentSpreads_eq]
      exact mem_spreadNamesAt_spread merge similar collectedOwn collected containedFirst
  refine ⟨fields_eq shape.fields shapeOwn.fields, fun other => ?_, ?_⟩
  · rw [shape.fragmentSpreads_eq, shapeOwn.fragmentSpreads_eq]
    exact mem_spreadNamesAt_spread merge similar collectedOwn collected
      (Schema.isSubtypeOf_self settings.schema fragment.typeCondition)
  · refine branches (fun object mem => isSubtypeOf_of_mem_narrowedTypes mem)
      shapeOwn.inlineFragments ?_
    rw [narrowedTypes_spread merge similar collectedOwn collected]
    exact shape.inlineFragments

/-! ### Walking a compiled document -/

/-- The operation of a name. Of several definitions the last counts. -/
def Document.operation? (document : Document) (name : Name) : Option OperationDefinition :=
  document.operations.reverse.find? fun definition => definition.name = some name

namespace Compiled

/-- What is seen of a selection set: the fields and spreads at its own type, and those at the object
types of its branches. -/
inductive Selected.Views (selectionSet : SelectionSet) (parent : Name) :
    Name → List Field → List Name → Prop where
  | own : Views selectionSet parent parent selectionSet.fields selectionSet.fragmentSpreads
  | branch {branch : InlineFragment} (mem : branch ∈ selectionSet.inlineFragments) :
    Views selectionSet parent branch.typeCondition branch.fields branch.fragmentSpreads

/-- The fields that a selection set **shows** at its own type, and at the object types of its
branches. -/
inductive Selected.Shows (selectionSet : SelectionSet) (parent : Name) : Name → Field → Prop where
  | own {field : Field} (mem : field ∈ selectionSet.fields) : Shows selectionSet parent parent field
  | branch {branch : InlineFragment} {field : Field}
      (memBranch : branch ∈ selectionSet.inlineFragments) (mem : field ∈ branch.fields) :
    Shows selectionSet parent branch.typeCondition field

theorem Selected.shows_iff {selectionSet : SelectionSet} {parent typeName : Name} {field : Field} :
    selectionSet.Shows parent typeName field ↔
      ∃ fields spreads, selectionSet.Views parent typeName fields spreads ∧ field ∈ fields := by
  constructor
  · rintro (mem | ⟨memBranch, mem⟩)
    · exact ⟨_, _, .own, mem⟩
    · exact ⟨_, _, .branch memBranch, mem⟩
  · rintro ⟨_, _, _ | memBranch, mem⟩
    · exact .own mem
    · exact .branch memBranch mem

end Compiled

namespace Site

variable (settings : Settings)

/-- The occurrences of a response name at a site that apply at a type. -/
def occurrences (site : Site) (typeName responseName : Name) : List Occurrence :=
  occurrencesAt settings.schema typeName responseName (site.mentions settings)

/-- The site of the sub-selections of a compiled field. -/
def below (site : Site) (typeName : Name) (field : Compiled.Field) : Site where
  parent := field.type.bare
  selections := (site.occurrences settings typeName field.responseName).flatMap
    Occurrence.selections

end Site

/-- The selection sets of a compiled document, each with the site that it **selects** from: those of
its operations and fragments, and those of the fields in them. -/
inductive Compiled.Document.Selects (settings : Settings) (document : GraphQLCompiler.Document)
    (compiled : Compiled.Document) : Site → SelectionSet → Prop where
  | operation {name root : Name} {definition : OperationDefinition} {operation : Operation}
      (found : compiled.operation? name = some operation)
      (defined : document.operation? name = some definition)
      (rooted : settings.schema.rootType? definition.operationType = some root) :
    Selects settings document compiled
      (.start (FragmentTable.ofList document.fragments).linked root definition.selections)
      operation.tree
  | fragment {name : Name} {definition : FragmentDefinition} {fragment : Fragment}
      (found : compiled.fragment? name = some fragment)
      (defined : document.fragment? name = some definition) :
    Selects settings document compiled
      (.start (FragmentTable.ofList document.fragments).linked definition.typeCondition
        definition.selections)
      fragment.selectionSet
  | field {site : Site} {selectionSet inner : SelectionSet} {typeName : Name} {field : Field}
      (selects : Selects settings document compiled site selectionSet)
      (shows : selectionSet.Shows site.parent typeName field)
      (composite : field.selectionSet = some inner) :
    Selects settings document compiled (site.below settings typeName field) inner

/-- What a compiled selection set shows at a type is compiled from a field with the occurrences that
the site has for it. -/
theorem Site.CompilesTo.exists_field {site : Site} {selectionSet : Compiled.SelectionSet}
    (compiles : site.CompilesTo settings find selectionSet) {typeName : Name}
    {compiled : Compiled.Field} (shows : selectionSet.Shows site.parent typeName compiled) :
    ∃ field : ApplicableField, field.CompilesTo settings typeName compiled ∧
      SameFirsts field.occurrences (site.occurrences settings typeName field.responseName) ∧
      ∀ inner, compiled.selectionSet = some inner → field.site.CompilesTo settings find inner := by
  obtain ⟨collection, collected, resolves⟩ := compiles
  have applicable : ∃ field ∈ applicableFields settings.schema typeName collection,
      field.CompilesTo settings typeName compiled := by
    cases shows with
    | own mem => exact exists_related_of_mem resolves.shape.fields.flip mem
    | branch memBranch mem =>
      obtain ⟨object, -, branchAt⟩ :=
        exists_related_of_mem resolves.shape.inlineFragments.flip memBranch
      rw [branchAt.typeCondition_eq]
      exact exists_related_of_mem branchAt.fields.flip mem
  obtain ⟨field, mem, compilesField⟩ := applicable
  exact ⟨field, compilesField, collected.sameFirsts mem,
    fun inner eq => (collected.compilesTo_field mem compilesField eq).2⟩

/-- The site below a field is similar to that of the field that it is compiled from. -/
private theorem Site.Similar.below {site site' : Site} (similar : site.Similar settings site')
    {typeName : Name} {field : ApplicableField} {compiled : Compiled.Field}
    (compiles : field.CompilesTo settings typeName compiled)
    (same : SameFirsts field.occurrences
      (site'.occurrences settings typeName field.responseName)) :
    (site.below settings typeName compiled).Similar settings field.site := by
  have sameHere : SameFirsts field.occurrences
      (site.occurrences settings typeName compiled.responseName) := by
    rw [compiles.responseName_eq]
    exact same.trans (similar.symm.mentions.occurrencesAt typeName field.responseName)
  obtain ⟨field', -, occurrences, bareType, similarField⟩ :=
    @exists_similar_field settings _ _ sameHere
  have below : site.below settings typeName compiled = field'.site := by
    rw [Site.below, ApplicableField.site, bareType, occurrences, compiles.type_eq]
    rfl
  rw [below]
  exact similarField.symm

section

variable {schema : Schema} {document : Document} {options : Options} {library : FragmentLibrary}
  {compiled : Compiled.Document}
  (acyclic : (FragmentTable.ofList document.fragments).library = .ok library)
  (whole : (Compiler.ofDocument schema document options).CompiledDocument library compiled)

include whole

/-- A compiled operation is compiled from the operation of its name. -/
theorem exists_definition_of_operation? {name : Name} {operation : Compiled.Operation}
    (found : compiled.operation? name = some operation) :
    ∃ definition root, document.operation? name = some definition ∧
      (Compiler.ofDocument schema document options).CompiledOperation library definition operation
        root := by
  obtain ⟨⟨operations, all, eq⟩, -⟩ := whole
  rw [Compiled.Document.operation?, eq] at found
  obtain ⟨definition, last, root, compiledOperation⟩ :=
    exists_related_of_find?_ofList all (fun definition => definition.name = some name)
      (fun definition operation ⟨_, compiledOperation⟩ => by simp [compiledOperation.name_eq]) found
  exact ⟨definition, root, last, compiledOperation⟩

/-- A compiled fragment is compiled from the fragment of its name. -/
theorem exists_definition_of_fragment? {name : Name} {fragment : Compiled.Fragment}
    (found : compiled.fragment? name = some fragment) :
    ∃ definition, document.fragment? name = some definition ∧ definition.name = name ∧
      (Compiler.ofDocument schema document options).CompiledFragment library definition
        fragment := by
  obtain ⟨-, fragments, all, eq⟩ := whole
  rw [Compiled.Document.fragment?, eq] at found
  obtain ⟨definition, last, compiledFragment⟩ :=
    exists_related_of_find?_ofList all (fun definition => definition.name = name)
      (fun definition fragment compiledFragment => by rw [compiledFragment.name_eq]) found
  have named : definition.name = name := by simpa using List.find?_some last
  have mem := List.mem_reverse.1 (List.mem_of_find?_eq_some last)
  have tabled := FragmentTable.find?_of_mem_values mem
  rw [FragmentTable.find?_ofList, named] at tabled
  exact ⟨definition, tabled, named, compiledFragment⟩

include acyclic

/-- **Every selection set of a compiled document** is seen as what is compiled from a site that is
similar to the one that it selects from. An operation does not tell its spreads. -/
theorem exists_compilesTo_of_selects {site : Site} {selectionSet : Compiled.SelectionSet}
    (selects : compiled.Selects { schema, options } document site selectionSet) :
    ∃ site' selectionSet', site.Similar { schema, options } site' ∧
      site'.CompilesTo { schema, options } library.find? selectionSet' ∧
      ∀ typeName fields spreads, selectionSet.Views site.parent typeName fields spreads →
        ∃ more, spreads ⊆ more ∧ selectionSet'.Views site.parent typeName fields more := by
  have linked := FragmentTable.linked_eq acyclic
  induction selects with
  | operation found defined rooted =>
    obtain ⟨definition, root, defined', compiledOperation⟩ :=
      exists_definition_of_operation? whole found
    cases defined.symm.trans defined'
    cases rooted.symm.trans compiledOperation.root_eq
    obtain ⟨full, fields, compiles⟩ := compiledOperation.compilesTo
    rw [linked]
    refine ⟨_, full, .refl _, compiles, fun typeName seen spreads views => ?_⟩
    cases views with
    | own =>
      refine ⟨full.fragmentSpreads, List.nil_subset _, ?_⟩
      rw [Compiled.Operation.tree, fields]
      exact .own
    | branch memBranch => cases memBranch
  | fragment found defined =>
    obtain ⟨definition, defined', -, compiledFragment⟩ := exists_definition_of_fragment? whole found
    cases defined.symm.trans defined'
    rw [linked]
    exact ⟨_, _, .refl _, compiledFragment.compilesTo, fun _ _ spreads views =>
      ⟨spreads, List.Subset.refl _, views⟩⟩
  | field _ shows composite ih =>
    obtain ⟨site', full, similar, compiles, all⟩ := ih
    obtain ⟨_, _, views, mem⟩ := Compiled.Selected.shows_iff.1 shows
    obtain ⟨_, -, viewsFull⟩ := all _ _ _ views
    rw [similar.parent_eq] at viewsFull
    obtain ⟨field, compilesField, same, compilesInner⟩ :=
      compiles.exists_field (Compiled.Selected.shows_iff.2 ⟨_, _, viewsFull, mem⟩)
    exact ⟨field.site, _, similar.below compilesField same, compilesInner _ composite,
      fun _ _ spreads views => ⟨spreads, List.Subset.refl _, views⟩⟩

end

/-- Linked selections that are spreads of a fragment hold it. -/
private theorem eq_spread_of_linkedBy {fragment : Fragment} (found : find fragment.name = some fragment)
    {directives : List Directive} {location : Option Span} {target : Option Fragment}
    (linked : (Selection.spread fragment.name directives location target).LinkedBy find) :
    target = some fragment := by
  cases target with
  | none =>
    rw [Selection.LinkedBy, found] at linked
    cases linked
  | some other =>
    rw [Selection.LinkedBy, found] at linked
    exact linked.1.symm

/-- A field whose occurrences select nothing but spreads of a fragment on its type is similar to the
spread. -/
private theorem ApplicableField.similar_spread (merge : settings.options.mergeFragmentFields)
    {field : ApplicableField} {fragment : Fragment} (found : find fragment.name = some fragment)
    (linked : ∀ selection ∈ field.site.selections, selection.LinkedBy find)
    (type : field.bareType = fragment.typeCondition)
    (spreads : ∀ occurrence ∈ field.occurrences, ∃ directives location target,
      occurrence.selections = [.spread fragment.name directives location target]) :
    field.site.Similar settings fragment.spread := by
  have nonempty : field.site.selections ≠ [] := by
    have first : field.first ∈ field.occurrences := List.mem_cons_self
    obtain ⟨directives, location, target, eq⟩ := spreads _ first
    exact List.ne_nil_of_mem (List.mem_flatMap.2 ⟨_, first, eq ▸ List.mem_singleton_self _⟩)
  refine fragment.similar_spread merge type nonempty fun selection mem => ?_
  have linkedSelection := linked selection mem
  obtain ⟨occurrence, memOccurrence, inside⟩ := List.mem_flatMap.1 mem
  obtain ⟨directives, location, target, eq⟩ := spreads occurrence memOccurrence
  rw [eq, List.mem_singleton] at inside
  subst inside
  exact ⟨directives, location, by rw [eq_spread_of_linkedBy found linkedSelection]⟩

/-- An operation that is nothing but the spread of a fragment on its root type is similar to the
spread. -/
private theorem Site.start_similar_spread (merge : settings.options.mergeFragmentFields)
    {library : FragmentLibrary} {fragment : Fragment}
    (found : library.find? fragment.name = some fragment) (directives : List Directive)
    (location : Option Span) :
    (Site.start library fragment.typeCondition
      [.spread fragment.name directives location ()]).Similar settings fragment.spread := by
  have selections : (Site.start library fragment.typeCondition
      [.spread fragment.name directives location ()]).selections
      = [.spread fragment.name directives location (some fragment)] := by
    change link library.find? _ = _
    rw [link, Selection.link, link, found]
  refine fragment.similar_spread merge rfl ?_ ?_
  · rw [selections]
    exact List.cons_ne_nil _ _
  · rw [selections]
    exact fun selection mem => ⟨directives, location, List.mem_singleton.1 mem⟩

section

variable {schema : Schema} {document : Document} {options : Options} {library : FragmentLibrary}
  {compiled : Compiled.Document}
  (acyclic : (FragmentTable.ofList document.fragments).library = .ok library)
  (whole : (Compiler.ofDocument schema document options).CompiledDocument library compiled)

include acyclic whole

/-- A compiled fragment is compiled from the fragment that the library has for its name. -/
theorem exists_linked_of_fragment? {name : Name} {definition : FragmentDefinition}
    {fragment : Compiled.Fragment} (defined : document.fragment? name = some definition)
    (found : compiled.fragment? name = some fragment) :
    ∃ own : Fragment, own.name = name ∧ own.typeCondition = definition.typeCondition ∧
      library.find? own.name = some own ∧
      own.site.CompilesTo { schema, options } library.find? fragment.selectionSet ∧
      own.site.Describes { schema, options } fragment.fragmentsReferenced := by
  obtain ⟨definition', defined', named, compiledFragment⟩ :=
    exists_definition_of_fragment? whole found
  cases defined.symm.trans defined'
  have tabled : (FragmentTable.ofList document.fragments).find? name = some definition :=
    (FragmentTable.find?_ofList _ _).trans defined
  refine ⟨definition.link library.find?, named, rfl, ?_, compiledFragment.compilesTo,
    compiledFragment.describes⟩
  have name_eq : (definition.link library.find?).name = name := named
  rw [name_eq, FragmentTable.find?_library acyclic, tabled]
  rfl

variable (merge : options.mergeFragmentFields) {own : Fragment}
  (foundOwn : library.find? own.name = some own) {ownSet : Compiled.SelectionSet}
  (compilesOwn : own.site.CompilesTo { schema, options } library.find? ownSet)

include merge foundOwn compilesOwn

/-- A field that selects nothing but spreads of a fragment on its type is compiled to a spread of
the fragment. -/
private theorem spread_of_selects {site : Site} {selectionSet inner : Compiled.SelectionSet}
    {typeName : Name} {field : Compiled.Field}
    (selects : compiled.Selects { schema, options } document site selectionSet)
    (shows : selectionSet.Shows site.parent typeName field)
    (composite : field.selectionSet = some inner) (type : field.type.bare = own.typeCondition)
    (spreads : ∀ occurrence ∈ site.occurrences { schema, options } typeName field.responseName,
      ∃ directives location target,
        occurrence.selections = [.spread own.name directives location target]) :
    Compiled.Spread own.name ownSet inner := by
  obtain ⟨site', full, similar, compiles, all⟩ := exists_compilesTo_of_selects acyclic whole selects
  obtain ⟨fields, spreadNames, views, mem⟩ := Compiled.Selected.shows_iff.1 shows
  obtain ⟨_, -, viewsFull⟩ := all typeName fields spreadNames views
  have showsFull := Compiled.Selected.shows_iff.2 ⟨_, _, viewsFull, mem⟩
  rw [similar.parent_eq] at showsFull
  obtain ⟨applicable, compilesField, same, compilesBelow⟩ := compiles.exists_field showsFull
  have compilesInner := compilesBelow inner composite
  obtain ⟨_, collected, -⟩ := compilesInner
  have type' : applicable.bareType = own.typeCondition := by
    rw [← type, compilesField.type_eq]
    rfl
  refine (applicable.similar_spread merge foundOwn collected.linked type' ?_).spread merge
    compilesOwn (compilesBelow inner composite)
  -- what the field is compiled from has no other occurrences than the site
  intro occurrence mem
  refine spreads occurrence ?_
  have here := same.trans (similar.symm.mentions.occurrencesAt typeName applicable.responseName)
  rw [compilesField.responseName_eq]
  exact here.mem_iff.1 mem

omit acyclic in
/-- An operation that is the spread of a fragment on its root type has the fields of the fragment,
and references it besides. -/
private theorem fields_eq_of_operation_spread {references : List Name}
    (describesOwn : own.site.Describes { schema, options } references) {operationName : Name}
    {operation : Compiled.Operation} {definition : OperationDefinition}
    (found : compiled.operation? operationName = some operation)
    (defined : document.operation? operationName = some definition)
    (rooted : schema.rootType? definition.operationType = some own.typeCondition)
    {directives : List Directive} {location : Option Span}
    (only : definition.selections = [.spread own.name directives location ()]) :
    operation.fields = ownSet.fields ∧
      ∀ other, other ∈ operation.fragmentsReferenced ↔ other = own.name ∨ other ∈ references := by
  obtain ⟨_, root, defined', compiledOperation⟩ := exists_definition_of_operation? whole found
  cases defined.symm.trans defined'
  cases rooted.symm.trans compiledOperation.root_eq
  obtain ⟨full, fields, compiles⟩ := compiledOperation.compilesTo
  have describes := compiledOperation.describes
  rw [only] at compiles describes
  have similar : (Site.start library own.typeCondition
      [.spread own.name directives location ()]).Similar { schema, options } own.spread :=
    Site.start_similar_spread merge foundOwn directives location
  refine ⟨fields.trans (similar.spread merge compilesOwn compiles).fields_eq, fun other => ?_⟩
  rw [describes.mem_iff, describesOwn.mem_iff, ← Fragment.references_spread_iff merge]
  exact ⟨similar.references, similar.symm.references⟩

end

/-- **Spreading a fragment and compiling it agree.** If all occurrences of a composite field of a
compiled document select nothing but the spread of a fragment on the type of the field, the field has
the fields and the branches of the compiled fragment, in order, and spreads it besides, at its type
and in each branch. An operation that is nothing but the spread of a fragment on its root type has
the fields of the compiled fragment, and references it besides. -/
theorem spreading_eq_fragment {schema : Schema} {document : Document} {options : Options}
    {compiled : Compiled.Document} (merge : options.mergeFragmentFields)
    (h : compileDocument schema document options = .ok compiled) {name : Name}
    {definition : FragmentDefinition} {fragment : Compiled.Fragment}
    (defined : document.fragment? name = some definition)
    (found : compiled.fragment? name = some fragment) :
    let settings : Settings := { schema, options }
    (∀ (site : Site) (selectionSet inner : Compiled.SelectionSet) (typeName : Name)
        (field : Compiled.Field),
      compiled.Selects settings document site selectionSet →
      selectionSet.Shows site.parent typeName field → field.selectionSet = some inner →
      field.type.bare = definition.typeCondition →
      (∀ occurrence ∈ site.occurrences settings typeName field.responseName,
        ∃ directives location target,
          occurrence.selections = [.spread name directives location target]) →
      Compiled.Spread name fragment.selectionSet inner) ∧
    ∀ (operationName : Name) (operation : Compiled.Operation)
        (operationDefinition : OperationDefinition),
      compiled.operation? operationName = some operation →
      document.operation? operationName = some operationDefinition →
      schema.rootType? operationDefinition.operationType = some definition.typeCondition →
      (∃ directives location,
        operationDefinition.selections = [.spread name directives location ()]) →
      operation.fields = fragment.selectionSet.fields ∧
        ∀ other, other ∈ operation.fragmentsReferenced ↔
          other = name ∨ other ∈ fragment.fragmentsReferenced := by
  intro settings
  have run : (Compiler.ofDocument schema document options).compile.run {} = (.ok compiled,
      ((Compiler.ofDocument schema document options).compile.run {}).2) := Prod.ext h rfl
  obtain ⟨library, acyclic⟩ := exists_library_of_compile rfl run
  have whole := compiledDocument_of_compileDocument acyclic h
  obtain ⟨own, rfl, type, foundOwn, compilesOwn, describesOwn⟩ :=
    exists_linked_of_fragment? acyclic whole defined found
  rw [← type]
  constructor
  · intro site selectionSet inner typeName field selects shows composite
    exact spread_of_selects acyclic whole merge foundOwn compilesOwn selects shows composite
  · rintro operationName operation operationDefinition foundOperation definedOperation rooted
      ⟨directives, location, only⟩
    exact fields_eq_of_operation_spread whole merge foundOwn compilesOwn describesOwn
      foundOperation definedOperation rooted only

/-- A query that is the spread of a fragment, of which the only field is the spread of another one,
which has a branch. -/
def spreadDocument : Document :=
  queryDocument [plainSpread "Start"] [
    plainFragment "Start" "Query" [plainField "pet" [plainSpread "Parts"]],
    plainFragment "Parts" "Pet" [plainField "name" [],
      plainInline "Dog" [plainField "owner" [plainField "kennel" []]]]]

/-- The query has the fields of the first fragment, and the pet those of the second with its
branch. -/
theorem spreading_eq_fragment_parts :
    ∃ compiled operation start parts pet inner,
      compileDocument petSchema spreadDocument {} = .ok compiled ∧
      compiled.operation? "Q" = some operation ∧ compiled.fragment? "Start" = some start ∧
      compiled.fragment? "Parts" = some parts ∧ start.selectionSet.fields = [pet] ∧
      pet.selectionSet = some inner ∧
      inner.inlineFragments.map Compiled.Branch.typeCondition = ["Dog"] ∧
      Compiled.Spread "Parts" parts.selectionSet inner ∧
      operation.fields = start.selectionSet.fields := by
  obtain ⟨compiled, operation, start, parts, pet, inner, h, foundOperation, foundStart, foundParts,
      fields, key, type, nested, branches⟩ : ∃ compiled operation start parts pet inner,
        compileDocument petSchema spreadDocument {} = .ok compiled ∧
        compiled.operation? "Q" = some operation ∧ compiled.fragment? "Start" = some start ∧
        compiled.fragment? "Parts" = some parts ∧ start.selectionSet.fields = [pet] ∧
        pet.responseName = "pet" ∧ pet.type.bare = "Pet" ∧ pet.selectionSet = some inner ∧
        inner.inlineFragments.map Compiled.Branch.typeCondition = ["Dog"] :=
    ⟨_, _, _, _, _, _, by cbv, by cbv, by cbv, by cbv, by cbv, by cbv, by cbv, by cbv, by cbv⟩
  refine ⟨compiled, operation, start, parts, pet, inner, h, foundOperation, foundStart, foundParts,
    fields, nested, branches, ?_, ?_⟩
  · have defined : spreadDocument.fragment? "Start"
        = some (plainFragment "Start" "Query" [plainField "pet" [plainSpread "Parts"]]) := rfl
    have selects : compiled.Selects { schema := petSchema, options := {} } spreadDocument _
        start.selectionSet := .fragment foundStart defined
    have shows : start.selectionSet.Shows "Query" "Query" pet :=
      .own (fields ▸ List.mem_singleton_self pet)
    refine (spreading_eq_fragment rfl h rfl foundParts).1 _ _ inner _ pet selects shows nested type ?_
    -- the pet has one occurrence, with the spread
    intro occurrence mem
    rw [key] at mem
    obtain ⟨mentioned, -⟩ := mem_occurrencesAt.1 mem
    cases List.mem_singleton.1 mentioned
    exact ⟨[], none, _, rfl⟩
  · exact ((spreading_eq_fragment rfl h rfl foundStart).2 "Q" operation _ foundOperation rfl rfl
      ⟨[], none, rfl⟩).1

end GraphQLCompiler
