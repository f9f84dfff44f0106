import GraphQLCompiler.Proofs.Agreement
import GraphQLCompiler.Proofs.Bounded
import GraphQLCompiler.Proofs.Branches
import GraphQLCompiler.Proofs.Cycles

/-!
# Termination

Compilation that follows spreads by name, with a depth that it must not exceed, ends as compilation
does if the depth suffices. A depth that suffices is computed from what is written
(`FragmentTable.depthBound`), whatever the schema is, and whether definitions are valid or not. So
compilation ends (`ends_of_reached`).

Following a field or a spread comes to lower collections, and collections that are resolved are no
higher than the fragments are nested. Following a branch comes to no lower collection, but to an
object type, and object types have no branches. So each step down in height takes a bounded depth
(`Suffices.succ`), and gathering takes no more depth than the nesting on each of them.
-/

namespace GraphQLCompiler

variable {settings : Settings} {table : FragmentTable} {library : FragmentLibrary}

/-- A **bound for the depth** at which selections are compiled against the fragments of a table. -/
def FragmentTable.depthBound (table : FragmentTable) (selections : WrittenSelections) : Nat :=
  6 * table.nestingBound selections + 8

namespace Bounded

open CompileM

/-! ### Parts -/

private theorem map_lift {α β : Type} (f : α → β) (m : CompileM α) :
    f <$> lift m = lift (f <$> m) := by
  rw [← bind_pure_comp, ← bind_pure_comp]
  exact bind_lift ensures_true fun _ _ => rfl

private theorem compile_recast (field : ApplicableField) (schema : Schema) (typeName : Name)
    (selectionSet : Option Compiled.SelectionSet) :
    (field.recast unlinking).compile schema typeName selectionSet
      = field.compile schema typeName selectionSet := by
  have conditional : ((field.recast unlinking).occurrences.any fun occurrence =>
      isConditional occurrence.directives)
      = field.occurrences.any fun occurrence => isConditional occurrence.directives := by
    rw [ApplicableField.occurrences_recast, List.any_map]
    rfl
  rw [ApplicableField.compile, ApplicableField.compile, conditional]
  rfl

section

variable {n : Nat} {inside : ApplicableField → BoundedM Resolved} {parent : Name}

private theorem resolveField_eq {field : ApplicableField}
    (h : settings.schema.isComposite field.bareType →
      inside (field.recast unlinking) = lift (field.site.resolution settings))
    (bound : ∀ occurrence ∈ field.occurrences, height occurrence.selections < n) :
    resolveField settings inside parent (field.recast unlinking)
      = lift (GraphQLCompiler.resolveField settings (resolveBelow settings n) parent field
          bound) := by
  have bareType : (field.recast unlinking).bareType = field.bareType := rfl
  rw [resolveField, GraphQLCompiler.resolveField, bareType]
  refine bind_lift ensures_true fun _ _ => ?_
  dsimp only
  split
  · rename_i composite
    rw [h composite, resolveSubselections_eq settings composite, map_lift]
    refine bind_lift ensures_true fun resolved _ => ?_
    rw [compile_recast]
    rfl
  · rw [pure_bind, pure_bind, compile_recast]
    rfl

private theorem resolveFields_eq : ∀ (fields : List ApplicableField) (bound : ∀ field ∈ fields,
      ∀ occurrence ∈ field.occurrences, height occurrence.selections < n) (references : List Name),
    (∀ field ∈ fields, settings.schema.isComposite field.bareType →
      inside (field.recast unlinking) = lift (field.site.resolution settings)) →
    resolveEach (resolveField settings inside parent)
        (fields.map (ApplicableField.recast unlinking)) references
      = lift (resolveFields settings (resolveBelow settings n) parent fields bound references)
  | [], _, _, _ => rfl
  | field :: rest, bound, references, h => by
    obtain ⟨first, others⟩ := List.forall_mem_cons.1 h
    rw [List.map_cons, resolveEach, resolveFields,
      resolveField_eq first (bound field List.mem_cons_self)]
    refine bind_lift ensures_true fun result _ => ?_
    dsimp only
    rw [resolveFields_eq rest _ _ others]
    exact bind_lift ensures_true fun _ _ => rfl

private theorem spreadReferences_eq {depth : Nat} : ∀ (fragments : List Fragment)
      (bound : ∀ fragment ∈ fragments, fragment.height ≤ n) (references : List Name),
    (∀ fragment ∈ fragments, referencesOf settings table depth fragment.name
      = lift (fragmentReferences settings fragment (resolveBelow settings _))) →
    (fragments.map Fragment.name).foldlM (fun references name =>
        unionNames references <$> referencesOf settings table depth name) references
      = lift (spreadReferences settings (resolveBelow settings n) fragments bound references)
  | [], _, _, _ => rfl
  | fragment :: rest, bound, references, h => by
    obtain ⟨first, others⟩ := List.forall_mem_cons.1 h
    rw [List.map_cons, List.foldlM_cons, spreadReferences, first, map_lift, ← bind_map_left]
    refine bind_lift ensures_true fun names _ => ?_
    exact spreadReferences_eq rest _ names others

end

/-- Branches are resolved anew, and their references are added to those that come before. -/
private theorem resolveBranches_eq {collection unlinked : Collection} {depth : Nat} :
    ∀ (objects references : List Name),
    (∀ object ∈ objects, settings.schema.isAbstract object = false ∧
      resolveSelectionSet settings table depth object unlinked
        = lift (resolve settings object collection)) →
    expandedNames collection ⊆ references →
    resolveEach (fun typeCondition => do
        let resolved ← resolveSelectionSet settings table depth typeCondition unlinked
        return (({
          typeCondition
          possibleTypes := settings.schema.concreteTypes typeCondition
          fields := resolved.selectionSet.fields
          fragmentSpreads := resolved.selectionSet.fragmentSpreads } : Compiled.InlineFragment),
          resolved.references)) objects references
      = lift (resolveBranches settings collection (resolveBelow settings _) objects references)
  | [], _, _, _ => rfl
  | object :: rest, references, h, expanded => by
    obtain ⟨⟨concrete, first⟩, others⟩ := List.forall_mem_cons.1 h
    rw [resolveEach, resolveBranches, resolveBranch_eq concrete expanded, bind_assoc, bind_assoc,
      first]
    refine bind_lift ensures_true fun resolved _ => ?_
    rw [pure_bind, pure_bind]
    dsimp only
    have more : expandedNames collection ⊆ unionNames references resolved.references :=
      fun name mem => mem_unionNames.2 (.inl (expanded mem))
    rw [resolveBranches_eq rest _ others more]
    exact bind_lift ensures_true fun _ _ => rfl

/-! ### Resolving at a sufficient depth -/

/-- Whether a depth **suffices** for the collections below a height that hold what is nested no
deeper than some number. -/
private def Suffices (settings : Settings) (table : FragmentTable) (library : FragmentLibrary)
    (nested n depth : Nat) : Prop :=
  ∀ (site : Site) (collection : Collection), site.Collected settings library.find? collection →
    (∀ selection ∈ site.selections, selection.nesting ≤ nested) → collection.height < n →
    ∀ typeName deeper, depth ≤ deeper →
      resolveSelectionSet settings table deeper typeName (collection.recast unlinking)
        = lift (resolve settings typeName collection)

/-- Resolving at a sufficient depth what was gathered gives what the resolution of a site gives. -/
private theorem resolution_eq (site : Site) {depth : Nat} {result : GatherM Collection}
    (gathers : result = knownUnlinked (collect settings site.parent site.selections {}))
    (resolves : ∀ collection, collect settings site.parent site.selections {} = .ok collection →
      resolveSelectionSet settings table depth site.parent (collection.recast unlinking)
        = lift (resolve settings site.parent collection)) :
    (do
        let collection ← gathered result
        resolveSelectionSet settings table depth site.parent collection)
      = lift (site.resolution settings) := by
  rw [gathers, Site.resolution]
  cases collected : collect settings site.parent site.selections {} with
  | error failure => rfl
  | ok collection =>
    have told : Ensures (fun _ => True) False
        (do tell collection.events; return collection.recast unlinking)
        fun unlinked => unlinked = collection.recast unlinking :=
      ensures_tell.bind fun _ _ => ensures_pure rfl
    have second : ∀ unlinked, unlinked = collection.recast unlinking →
        resolveSelectionSet settings table depth site.parent unlinked
          = lift (resolve settings site.parent collection) := by
      rintro _ rfl
      exact resolves collection collected
    refine (bind_lift told second).trans ?_
    rw [bind_assoc]
    rfl

section

variable {nested n depth : Nat}

section

variable (acyclic : table.library = .ok library) (named : table.IsNamed)
  (enough : Suffices settings table library nested n depth) (gathers : nested < depth)

include acyclic named enough gathers

/-- What is written is gathered and resolved at what suffices for the collections it makes. -/
private theorem resolution_written (parent : Name) {selections : WrittenSelections}
    (low : nesting (link library.find? selections) ≤ nested)
    (lower : height (link library.find? selections) < n) {deeper : Nat} (deep : depth ≤ deeper) :
    (do
        let collection ← gathered
          (gather settings table deeper parent (link (fun _ => none) selections) {})
        resolveSelectionSet settings table deeper parent collection)
      = lift ((Site.start library parent selections).resolution settings) := by
  have linked := FragmentTable.linkedBy_link acyclic named selections
  refine resolution_eq (Site.start library parent selections) ?_ fun collection collected => ?_
  · rw [← unlink_link library.find?]
    exact gather_eq acyclic linked (by omega) {}
  · have atSite := (Site.start library parent selections).collected_of_collect
      (linkedBy_iff.1 linked) collected
    have below : collection.height ≤ n - 1 :=
      height_collect_le collected (Nat.le_sub_one_of_lt lower) (Nat.zero_le _)
    exact enough _ collection atSite (nesting_le_iff.1 low) (by omega) parent deeper deep

/-- A fragment takes one more than what suffices for the collections that it makes. -/
private theorem resolveFragmentSpread_eq (definition : FragmentDefinition)
    (low : nesting (link library.find? definition.selections) ≤ nested)
    (lower : height (link library.find? definition.selections) < n) {deeper : Nat}
    (deep : depth < deeper) :
    resolveFragmentSpread settings table deeper definition
      = lift (resolveFragment settings (definition.link library.find?)) := by
  obtain ⟨deeper, rfl⟩ := Nat.exists_eq_succ_of_ne_zero (Nat.ne_zero_of_lt deep)
  have resolution := resolution_written acyclic named enough gathers definition.typeCondition low
    lower (Nat.le_of_lt_succ deep)
  rw [resolveFragmentSpread]
  cases known : settings.schema.typeKind? definition.typeCondition with
  | none =>
    rw [@resolveFragment_eq_throw settings (definition.link library.find?) known]
    rfl
  | some kind =>
    rw [@resolveFragment_eq settings (definition.link library.find?) kind known]
    dsimp only
    rw [← bind_assoc, resolution]
    refine bind_lift ensures_true fun resolved _ => ?_
    exact bind_lift ensures_true fun _ _ => rfl

/-- What a fragment refers to takes two more, if it is not remembered. -/
private theorem referencesOf_eq {fragment : Fragment}
    (found : library.find? fragment.name = some fragment)
    (low : fragment.nesting ≤ nested) (lower : fragment.height ≤ n) {deeper : Nat}
    (deep : depth + 1 < deeper) :
    referencesOf settings table deeper fragment.name
      = lift (fragmentReferences settings fragment (resolveBelow settings _)) := by
  obtain ⟨deeper, rfl⟩ := Nat.exists_eq_succ_of_ne_zero (Nat.ne_zero_of_lt deep)
  rw [referencesOf, fragmentReferences]
  refine bind_lift ensures_true fun remembered _ => ?_
  cases remembered with
  | some names => exact bind_lift ensures_true fun _ _ => rfl
  | none =>
    rw [FragmentTable.find?_library acyclic, Option.map_eq_some_iff] at found
    obtain ⟨definition, defined, rfl⟩ := found
    rw [Fragment.nesting_eq] at low
    rw [Fragment.height_eq] at lower
    have spread := resolveFragmentSpread_eq acyclic named enough gathers definition
      (Nat.le_of_succ_le low) lower (Nat.lt_of_succ_lt_succ deep)
    dsimp only [FragmentDefinition.link] at defined ⊢
    rw [defined]
    dsimp only
    rw [spread, map_lift, ← bind_pure_comp]
    rfl

section

variable {site : Site} {collection : Collection}
  (collected : site.Collected settings library.find? collection)
  (low : ∀ selection ∈ site.selections, selection.nesting ≤ nested) (lower : collection.height ≤ n)

include collected low lower

omit named in
/-- The sub-selections of a field that applies are gathered and resolved two below. -/
private theorem resolution_field {typeName : Name} {field : ApplicableField}
    (applicable : field ∈ applicableFields settings.schema typeName collection)
    (composite : settings.schema.isComposite field.bareType) {deeper : Nat}
    (deep : depth < deeper) :
    (do
        let below ← gathered (gatherMerged settings table deeper field.bareType
          (field.recast unlinking).occurrences)
        resolveSelectionSet settings table deeper field.bareType below)
      = lift (field.site.resolution settings) := by
  have linkedInside := collected.inherited_field (hereditary_linkedBy library.find?)
    collected.linked applicable
  have lowInside := collected.inherited_field (hereditary_nesting nested) low applicable
  refine resolution_eq field.site ?_ fun below collectedBelow => ?_
  · have occurrences : ∀ {property : LinkedSelection → Prop},
        (∀ selection ∈ field.site.selections, property selection) →
        ∀ occurrence ∈ field.occurrences, ∀ selection ∈ occurrence.selections,
          property selection := fun holds occurrence mem selection inside =>
      holds selection (List.mem_flatMap.2 ⟨occurrence, mem, inside⟩)
    rw [ApplicableField.occurrences_recast]
    refine (gatherMerged_eq acyclic (fun occurrence mem =>
      linkedBy_iff.2 (occurrences linkedInside occurrence mem)) (fun occurrence mem =>
      nesting_le_iff.2 (occurrences lowInside occurrence mem)) (by omega)).trans ?_
    rw [mergeSelections_eq composite]
    rfl
  · have atSite := field.site.collected_of_collect linkedInside collectedBelow
    have first := Collection.height_selections_lt
      (mem_occurrences_of_applicable applicable List.mem_cons_self)
    have inside : height field.site.selections < collection.height :=
      height_flatMap_lt (Nat.lt_of_le_of_lt (Nat.zero_le _) first) fun occurrence mem =>
        Collection.height_selections_lt (mem_occurrences_of_applicable applicable mem)
    have below_le : below.height ≤ collection.height - 1 :=
      height_collect_le collectedBelow (Nat.le_sub_one_of_lt inside) (Nat.zero_le _)
    exact enough _ below atSite lowInside (by omega) _ deeper (Nat.le_of_lt deep)

/-- A collection is resolved at a type if its branches are. -/
private theorem resolveSelectionSet_eq {typeName : Name} {deeper : Nat} (deep : depth + 1 < deeper)
    (branches : ∀ references, expandedNames collection ⊆ references →
      resolveInlineFragments settings table deeper typeName (collection.recast unlinking) references
        = lift (resolveBranches settings collection (resolveBelow settings _)
          (narrowedTypes settings.schema typeName collection) references)) :
    resolveSelectionSet settings table (deeper + 1) typeName (collection.recast unlinking)
      = lift (resolve settings typeName collection) := by
  have spreads : ∀ references, (spreadNamesAt settings.schema typeName collection).foldlM
      (fun references name => unionNames references <$> referencesOf settings table deeper name)
        references
      = lift (spreadReferencesAt settings collection (resolveBelow settings _) typeName
          references) := by
    refine fun references => spreadReferences_eq _ _ references fun fragment mem => ?_
    obtain ⟨expandedAt, mentioned, -⟩ := collected.mem_fragmentsAt.1 mem
    obtain ⟨_, _, _, nested_le⟩ := inherited (hereditary_nesting nested) site.parent
      site.selections low mentioned
    rw [Selection.nesting] at nested_le
    have lower_le := Collection.height_fragment_le (mem_fragments_of_mem_fragmentsAt mem)
    exact referencesOf_eq acyclic named enough gathers (collected.found mentioned).1 nested_le
      (Nat.le_trans lower_le lower) deep
  rw [resolveSelectionSet, resolve.eq_1, resolveWith, Collection.applicableFields_recast,
    Collection.expandedNames_recast, Collection.spreadNamesAt_recast, resolveFields_eq _ _ _
    fun field mem composite => resolution_field acyclic enough gathers collected low lower
      mem composite (Nat.lt_of_succ_lt deep)]
  refine bind_lift ensures_expanded fun fields expanded => ?_
  dsimp only
  rw [branches fields.2 expanded]
  refine bind_lift ensures_true fun inlineFragments _ => ?_
  rw [spreads inlineFragments.2]
  exact bind_lift ensures_true fun _ _ => rfl

/-- An object type has no branches, so that it is resolved three below. -/
private theorem resolveSelectionSet_eq_of_concrete {object : Name}
    (concrete : settings.schema.isAbstract object = false) {deeper : Nat}
    (deep : depth + 2 < deeper) :
    resolveSelectionSet settings table deeper object (collection.recast unlinking)
      = lift (resolve settings object collection) := by
  obtain ⟨deeper, rfl⟩ := Nat.exists_eq_succ_of_ne_zero (Nat.ne_zero_of_lt deep)
  have deep := Nat.lt_of_succ_lt_succ deep
  refine resolveSelectionSet_eq acyclic named enough gathers collected low lower deep
    fun references _ => ?_
  obtain ⟨deeper, rfl⟩ := Nat.exists_eq_succ_of_ne_zero (Nat.ne_zero_of_lt deep)
  rw [resolveInlineFragments, Collection.narrowedTypes_recast, narrowedTypes_of_concrete concrete]
  rfl

end

/-- **One more in height** takes five more in depth: a branch, and a fragment that is spread in
it. -/
private theorem Suffices.succ : Suffices settings table library nested (n + 1) (depth + 5) := by
  intro site collection collected low lower typeName deeper deep
  have lower : collection.height ≤ n := Nat.le_of_lt_succ lower
  obtain ⟨deeper, rfl⟩ := Nat.exists_eq_add_of_le' (Nat.le_trans (Nat.le_add_left 5 depth) deep)
  refine resolveSelectionSet_eq acyclic named enough gathers collected low lower (by omega)
    fun references expanded => ?_
  rw [resolveInlineFragments, Collection.narrowedTypes_recast]
  refine resolveBranches_eq _ references (fun object mem => ?_) expanded
  have possible := isPossibleType_of_mem_narrowedTypes mem
  have concrete :=
    Schema.not_isAbstract_of_isObject (Schema.isPossibleType_iff.1 possible).1
  exact ⟨concrete, resolveSelectionSet_eq_of_concrete acyclic named enough gathers collected low
    lower concrete (by omega)⟩

end

end

private theorem suffices_all (acyclic : table.library = .ok library) (named : table.IsNamed)
    (settings : Settings) (nested n : Nat) :
    Suffices settings table library nested n (5 * n + nested + 1) := by
  induction n with
  | zero => exact fun _ _ _ _ lower => absurd lower (Nat.not_lt_zero _)
  | succ n ih =>
    have next := Suffices.succ acyclic named ih (by omega)
    have eq : 5 * n + nested + 1 + 5 = 5 * (n + 1) + nested + 1 := by omega
    rwa [eq] at next

/-! ### Compiling at a sufficient depth -/

section

variable {compiler : Compiler} {selections : WrittenSelections} {depth : Nat}

private theorem length_lt_of_depthBound_le (deep : compiler.table.depthBound selections ≤ depth) :
    compiler.table.length < depth := by
  have length : compiler.table.length + 1 ≤ compiler.table.nestingBound selections :=
    Nat.le_mul_of_pos_left _ (Nat.succ_pos _)
  rw [FragmentTable.depthBound] at deep
  omega

/-- A search that finds a cycle ends everything. -/
private theorem run_searchOnce_bind {α : Type} {e : CompileError} {state : CompilerState}
    (cyclic : compiler.table.library = .error e) (checked : state.Checked compiler.table)
    (deep : compiler.table.depthBound selections ≤ depth) (next : Unit → BoundedM α) :
    (searchOnce compiler.table depth >>= next).run state = some (.error e, state) := by
  rw [searchOnce_eq (length_lt_of_depthBound_le deep), run_bind_lift, run_checkOnce checked, cyclic]

variable (acyclic : compiler.table.library = .ok library) (named : compiler.table.IsNamed)

include acyclic named

/-- The bound is above a depth that suffices for selections that are linked. -/
private theorem exists_suffices (deep : compiler.table.depthBound selections ≤ depth) :
    ∃ nested n enough, Suffices compiler.settings compiler.table library nested n enough ∧
      nested < enough ∧ enough < depth ∧ nesting (link library.find? selections) ≤ nested ∧
      height (link library.find? selections) < n := by
  have low := FragmentTable.nesting_link_le_nestingBound acyclic named selections
  have lower := Nat.lt_succ_of_le (Nat.le_trans (height_le_nesting _) low)
  rw [FragmentTable.depthBound] at deep
  exact ⟨_, _, _, suffices_all acyclic named compiler.settings _ _, by omega, by omega, low, lower⟩

private theorem compileOperation_eq (definition : OperationDefinition)
    (deep : compiler.table.depthBound definition.selections ≤ depth) :
    compileOperation compiler depth definition = lift (compiler.compileOperation definition) := by
  obtain ⟨_, _, _, enough, gathers, deeper, low, lower⟩ := exists_suffices acyclic named deep
  have search := searchOnce_eq (length_lt_of_depthBound_le deep)
  rw [compileOperation, Compiler.compileOperation, Compiler.library, search, bind_assoc]
  refine bind_lift ensures_true fun _ _ => ?_
  rw [pure_bind, FragmentTable.linked_eq acyclic]
  refine bind_lift ensures_true fun name _ => ?_
  refine bind_lift ensures_true fun _ _ => ?_
  refine bind_lift ensures_true fun variableDefinitions _ => ?_
  refine bind_lift ensures_true fun root _ => ?_
  have same : compiler.resolveSelections root (link library.find? definition.selections)
      = (Site.start library root definition.selections).resolution compiler.settings := rfl
  rw [same, ← bind_assoc, resolution_written acyclic named enough gathers root low lower
    (Nat.le_of_lt deeper)]
  refine bind_lift ensures_true fun resolved _ => ?_
  refine bind_lift ensures_true fun text _ => ?_
  exact bind_lift ensures_true fun _ _ => rfl

private theorem compileFragment_eq (definition : FragmentDefinition)
    (deep : compiler.table.depthBound definition.selections ≤ depth) :
    compileFragment compiler depth definition = lift (compiler.compileFragment definition) := by
  obtain ⟨_, _, _, enough, gathers, deeper, low, lower⟩ := exists_suffices acyclic named deep
  have search := searchOnce_eq (length_lt_of_depthBound_le deep)
  rw [compileFragment, Compiler.compileFragment, Compiler.library, search, bind_assoc]
  refine bind_lift ensures_true fun _ _ => ?_
  rw [pure_bind, FragmentTable.linked_eq acyclic, resolveFragmentSpread_eq acyclic named enough
    gathers definition low lower deeper]
  refine bind_lift ensures_true fun _ _ => ?_
  exact bind_lift ensures_true fun resolved _ => rfl

end

end Bounded

/-- **Compilation ends.** Whatever the schema and the document are, and whatever a compiler was asked
for before, the search for cycles ends if it is allowed to be deeper than there are fragments. An
operation or a fragment, of the document or not, is compiled or stops with an error at a depth that
is computed from what is written, and at every greater depth, as it does without a bound. Adding the
types that it uses ends if that is allowed to be deeper than there are types. -/
theorem ends_of_reached (schema : Schema) (document : Document) (options : Options)
    {state : CompilerState} (reached : (Compiler.ofDocument schema document options).Reached state) :
    let compiler := Compiler.ofDocument schema document options
    (∀ depth, compiler.table.length < depth →
      (Bounded.search compiler.table depth).run
        = some (compiler.table.library.map NameMap.keys)) ∧
    (∀ (definition : OperationDefinition) depth,
      compiler.table.depthBound definition.selections ≤ depth →
      (Bounded.compileOperation compiler depth definition).run state
        = some ((compiler.compileOperation definition).run state)) ∧
    (∀ (definition : FragmentDefinition) depth,
      compiler.table.depthBound definition.selections ≤ depth →
      (Bounded.compileFragment compiler depth definition).run state
        = some ((compiler.compileFragment definition).run state)) ∧
    ∀ depth, schema.types.length < depth → ∀ (used : TypesUsed) (name : Name),
      Bounded.addUsed schema depth used name = some (used.add schema name) := by
  intro compiler
  have named : compiler.table.IsNamed := FragmentTable.isNamed_ofList document.fragments
  refine ⟨fun depth deep => congrArg ExceptT.run (Bounded.search_eq deep), ?_, ?_,
    fun depth deep => Bounded.addUsed_eq deep⟩
  · intro definition depth deep
    cases found : compiler.table.library with
    | ok library =>
      exact congrFun (Bounded.compileOperation_eq found named definition deep) state
    | error e =>
      rw [run_compileOperation_of_cyclic found reached.checked]
      exact Bounded.run_searchOnce_bind found reached.checked deep _
  · intro definition depth deep
    cases found : compiler.table.library with
    | ok library =>
      exact congrFun (Bounded.compileFragment_eq found named definition deep) state
    | error e =>
      rw [run_compileFragment_of_cyclic found reached.checked]
      exact Bounded.run_searchOnce_bind found reached.checked deep _

/-- A query that comes to its second fragment through a field of its first. -/
def keepersDocument : Document :=
  queryDocument [plainField "pet" [plainSpread "Kept"]] [
    plainFragment "Keeper" "Owner" [plainField "id" []],
    plainFragment "Kept" "Pet" [plainField "owner" [plainSpread "Keeper"]]]

/-- When the query is compiled again, a depth of four is too small for it, and the depth that is
computed is not. -/
theorem ends_of_reached_keepers :
    let compiler := Compiler.ofDocument petSchema keepersDocument {}
    let definition := keepersDocument.operations.headD default
    ∃ state, compiler.Reached state ∧ state.references.contains "Kept" ∧
      ((Bounded.compileOperation compiler 4 definition).run state).isNone ∧
      compiler.table.depthBound definition.selections = 44 ∧
      ((Bounded.compileOperation compiler 44 definition).run state).isSome := by
  intro compiler definition
  have reached : compiler.Reached _ := .operation definition .fresh
  have bound : compiler.table.depthBound definition.selections = 44 := by decide
  have deep := (ends_of_reached petSchema keepersDocument {} reached).2.1 definition 44
    (Nat.le_of_eq bound)
  refine ⟨_, reached, ?_, ?_, bound, ?_⟩
  · cbv
  · cbv
  · rw [deep]
    rfl

end GraphQLCompiler
