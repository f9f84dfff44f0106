import GraphQLCompiler.Compiler
import GraphQLCompiler.Proofs.Nesting
import GraphQLCompiler.Proofs.Recasting
import GraphQLCompiler.Proofs.Shape
import GraphQLCompiler.Proofs.UsedTypes

/-!
# Compilation with a bounded depth

Linked fragments are finite trees, so that compilation is recursion on trees. This is compilation
without linking: a spread is followed by looking its name up among the definitions, whenever it is
met. Nothing about the definitions says that this ends, so each function has a **depth**, which is
one less in what it calls, and gives nothing when there is none left.

Six functions call one another: fields are gathered (`gather`) and those of several sub-selections
merged (`gatherMerged`), a selection set is resolved (`resolveSelectionSet`) with its branches
(`resolveInlineFragments`), and so are the fragments that it spreads (`referencesOf`,
`resolveFragmentSpread`). The search for cycles is bounded in the same way (`search`), and so is
adding a type that is used (`addUsed`).

Selections carry no fragments here. Gathering at a sufficient depth gives what collecting linked
selections gives, without the fragments (`gather_eq`). A search that is as deep as there are
fragments gives what linking gives (`search_eq`). Input objects that use one another are followed
from the types that are used, no deeper than there are types (`addUsed_eq`).
-/

namespace GraphQLCompiler

namespace Bounded

variable {α β : Type}

/-! ### Gathering -/

/-- Gathering at a depth that may not suffice. -/
abbrev GatherM := ExceptT Failure Option

/-- A result for which the depth suffices. -/
def known {ε : Type} (result : Except ε α) : ExceptT ε Option α := ExceptT.mk (some result)

section

variable (settings : Settings) (table : FragmentTable)

/-- Adds what a selection at a type selects. The selections inside it are gathered by a function
for this. -/
def gatherSelection (parent : Name) (kind : TypeKind)
    (inside : Name → List LinkedSelection → Collection → GatherM Collection)
    (collection : Collection) : LinkedSelection → GatherM Collection
  | .field aliasName name arguments directives location selections =>
    known <| collectSelection settings parent kind
      (.field aliasName name arguments directives location selections) collection
  | .inlineFragment typeCondition _ location selections =>
    let condition := typeCondition.getD parent
    let effective := effectiveType parent kind condition
    match settings.schema.typeKind? condition with
    | none => known (collection.stop (.unknownType condition location))
    | some _ =>
      if applies settings.schema condition effective then inside effective selections collection
      else known (.ok (collection.note (.inapplicable condition effective)))
  | .spread name _ location _ =>
    match table.find? name with
    | none => known (collection.stop (.unknownFragment name location))
    | some definition =>
      let effective := effectiveType parent kind definition.typeCondition
      match settings.schema.typeKind? definition.typeCondition with
      | none =>
        known (collection.stop (.unknownType definition.typeCondition definition.location))
      | some _ =>
        let repeated := collection.hasExpanded effective definition.name
        if repeated ∧ settings.repetition = .skipped then
          known (.ok (collection.note (.alreadyExpanded definition.name effective)))
        else
          let fragment := definition.link fun _ => none
          let recorded := if repeated then collection
            else collection.addExpansion effective fragment
          if settings.options.mergeFragmentFields then inside effective fragment.selections recorded
          else known (.ok recorded)

/-- Adds what selections at a type select. -/
def gather : Nat → Name → List LinkedSelection → Collection → GatherM Collection
  | 0, _, _, _ => ExceptT.mk none
  | depth + 1, parent, selections, collection => do
    let kind ← known (compositeKind settings.schema parent collection)
    selections.foldlM (gatherSelection settings table parent kind (gather depth)) collection

/-- What the sub-selections of the occurrences of a field select at a type. -/
def gatherMerged : Nat → Name → List Occurrence → GatherM Collection
  | 0, _, _ => ExceptT.mk none
  | depth + 1, parent, occurrences =>
    (occurrences.filter fun occurrence => !occurrence.selections.isEmpty).foldlM
      (fun collection occurrence =>
        gather settings table depth parent occurrence.selections collection) {}

end

/-! ### Resolving -/

/-- Compiling at a depth that may not suffice. -/
abbrev BoundedM := ExceptT CompileError (StateT CompilerState Option)

/-- A computation for which the depth suffices. -/
def lift (m : CompileM α) : BoundedM α := fun state => some (m.run state)

/-- A computation for which the depth does not suffice. -/
def exhausted : BoundedM α := fun _ => none

/-- The collection that was gathered, if the depth sufficed. -/
def gathered (result : GatherM Collection) : BoundedM Collection :=
  match result.run with
  | none => exhausted
  | some (.error failure) => lift (CompileM.fail failure)
  | some (.ok collection) => lift do
    CompileM.tell collection.events
    return collection

section

variable (settings : Settings) (table : FragmentTable)

/-- A compiled field, and the fragments that can be reached from it. Its sub-selections are resolved
by a function for this. -/
def resolveField (inside : ApplicableField → BoundedM Resolved) (parent : Name)
    (field : ApplicableField) : BoundedM (Compiled.Field × List Name) := do
  lift (CompileM.useType settings.schema field.bareType)
  let resolved ← if settings.schema.isComposite field.bareType then some <$> inside field
    else pure none
  return (field.compile settings.schema parent (resolved.map Resolved.selectionSet),
    resolved.elim [] Resolved.references)

/-- The results of a function for each of some things, and the fragments that can be reached from
them, added to others. -/
def resolveEach (resolveOne : α → BoundedM (β × List Name)) :
    List α → List Name → BoundedM (List β × List Name)
  | [], references => return ([], references)
  | x :: rest, references => do
    let (first, own) ← resolveOne x
    let (others, references) ← resolveEach resolveOne rest (unionNames references own)
    return (first :: others, references)

mutual

/-- The compiled selection set of a collection at a type. -/
def resolveSelectionSet : Nat → Name → Collection → BoundedM Resolved
  | 0, _, _ => exhausted
  | depth + 1, parent, collection => do
    let inside field := do
      let lower ← gathered (gatherMerged settings table depth field.bareType field.occurrences)
      resolveSelectionSet depth field.bareType lower
    let expanded := unionNames [] (collection.fragments.map Fragment.name)
    let (fields, references) ← resolveEach (resolveField settings inside parent)
      (applicableFields settings.schema parent collection) expanded
    let (inlineFragments, references) ←
      resolveInlineFragments depth parent collection references
    let fragmentSpreads := spreadNamesAt settings.schema parent collection
    let references ← fragmentSpreads.foldlM
      (fun references name => unionNames references <$> referencesOf depth name) references
    return {
      selectionSet := { fields, fragmentSpreads, inlineFragments }
      references }

/-- The branches of a collection at a type, and the fragments that can be reached from them, added
to others. -/
def resolveInlineFragments : Nat → Name → Collection → List Name →
    BoundedM (List Compiled.InlineFragment × List Name)
  | 0, _, _, _ => exhausted
  | depth + 1, parent, collection, references =>
    let branch typeCondition := do
      let resolved ← resolveSelectionSet depth typeCondition collection
      return ({
        typeCondition
        possibleTypes := settings.schema.concreteTypes typeCondition
        fields := resolved.selectionSet.fields
        fragmentSpreads := resolved.selectionSet.fragmentSpreads }, resolved.references)
    resolveEach branch (narrowedTypes settings.schema parent collection) references

/-- All fragments that can be reached from a fragment. -/
def referencesOf : Nat → Name → BoundedM (List Name)
  | 0, _ => exhausted
  | depth + 1, name => do
    match ← lift (CompileM.remembered? name) with
    | some references =>
      lift (CompileM.tell [.reusingReferences name])
      return references
    | none =>
      match table.find? name with
      | none => lift (throw (.unknownFragment name none))
      | some definition => Resolved.references <$> resolveFragmentSpread depth definition

/-- The compiled selection set of a fragment, whose references are remembered. -/
def resolveFragmentSpread : Nat → FragmentDefinition → BoundedM Resolved
  | 0, _ => exhausted
  | depth + 1, definition => do
    let parent := definition.typeCondition
    match settings.schema.typeKind? parent with
    | none => lift (throw (.unknownType parent definition.location))
    | some _ =>
      let collection ← gathered
        (gather settings table depth parent (link (fun _ => none) definition.selections) {})
      let resolved ← resolveSelectionSet depth parent collection
      lift (CompileM.remember definition.name resolved.references)
      return resolved

end

end

/-! ### Searching for cycles -/

/-- Visits a fragment and everything that it spreads, on a path of fragments that spread one another
down to it. The names of the fragments that have been visited are kept. -/
def visit (table : FragmentTable) : Nat → List Name → List Name → Name →
    ExceptT CompileError Option (List Name)
  | 0, _, _, _ => ExceptT.mk none
  | depth + 1, path, visited, name =>
    match table.find? name with
    | none => return visited
    | some definition =>
      if name ∈ visited then return visited
      else if name ∈ path then throw (.fragmentCycle name definition.location)
      else do
        let visited ← (spreadNames definition.selections).foldlM
          (visit table depth (name :: path)) visited
        return addName visited name

/-- Visits all fragments of a table. -/
def search (table : FragmentTable) (depth : Nat) : ExceptT CompileError Option (List Name) :=
  table.keys.foldlM (visit table depth []) []

/-- Searches for cycles, unless there were found to be none before. -/
def searchOnce (table : FragmentTable) (depth : Nat) : BoundedM Unit := do
  if (← lift get).cyclesChecked then return
  else
    match (search table depth).run with
    | none => exhausted
    | some result => lift do
      let _ ← CompileM.ofExcept result
      modify fun state => { state with cyclesChecked := true }

/-! ### Adding used types -/

/-- Adds a type and what it uses. A type that has been added before is left alone. -/
def addUsed (schema : Schema) : Nat → TypesUsed → Name → Option TypesUsed
  | 0, _, _ => none
  | depth + 1, used, name =>
    if schema.needsDeclaration name ∧ name ∉ used then
      (schema.inputFieldTypes name).foldlM (addUsed schema depth) (used ++ [name])
    else some used

/-! ### Compiling -/

/-- A compiled operation. -/
def compileOperation (compiler : Compiler) (depth : Nat) (definition : OperationDefinition) :
    BoundedM Compiled.Operation := do
  searchOnce compiler.table depth
  let name ← lift (Compiler.requireName definition)
  lift (CompileM.tell [.compilingOperation name])
  let variableDefinitions ← lift (definition.variableDefinitions.mapM compiler.compileVariable)
  let rootType ← lift (compiler.requireRoot definition)
  let collection ← gathered (gather compiler.settings compiler.table depth rootType
    (link (fun _ => none) definition.selections) {})
  let resolved ← resolveSelectionSet compiler.settings compiler.table depth rootType collection
  let source := compiler.printOperation definition
  let sourceWithFragments ← lift <| CompileM.ofExcept <|
    compiler.printWithFragments source resolved.references
  lift (CompileM.tell [.compiledOperation name resolved.selectionSet.fields.length
    resolved.references.length])
  return {
    filePath := compiler.sources.path? definition.location
    name
    operationType := definition.operationType
    rootType
    variableDefinitions
    source
    sourceWithFragments
    fields := resolved.selectionSet.fields
    fragmentsReferenced := resolved.references }

/-- A compiled fragment. -/
def compileFragment (compiler : Compiler) (depth : Nat) (definition : FragmentDefinition) :
    BoundedM Compiled.Fragment := do
  searchOnce compiler.table depth
  lift (CompileM.tell [.compilingFragment definition.name])
  let resolved ← resolveFragmentSpread compiler.settings compiler.table depth definition
  return {
    filePath := compiler.sources.path? definition.location
    name := definition.name
    source := compiler.printFragment definition
    typeCondition := definition.typeCondition
    possibleTypes := compiler.schema.concreteTypes definition.typeCondition
    selectionSet := resolved.selectionSet
    fragmentsReferenced := resolved.references }

end Bounded

/-! ### Selections without fragments -/

mutual

/-- A selection without the fragments of its spreads. -/
def Selection.unlink : LinkedSelection → LinkedSelection
  | .field aliasName name arguments directives location selections =>
    .field aliasName name arguments directives location (unlink selections)
  | .inlineFragment typeCondition directives location selections =>
    .inlineFragment typeCondition directives location (unlink selections)
  | .spread name directives location _ => .spread name directives location none

/-- Selections without the fragments of their spreads. -/
def unlink : List LinkedSelection → List LinkedSelection
  | [] => []
  | selection :: rest => selection.unlink :: unlink rest

end

/-- A fragment without the fragments of its spreads. -/
def Fragment.unlink (fragment : Fragment) : Fragment :=
  { fragment with selections := GraphQLCompiler.unlink fragment.selections }

/-- Unlinking as a recasting. -/
abbrev unlinking : Recasting where
  selections := unlink
  fragment := Fragment.unlink
  name_fragment _ := rfl

theorem unlink_eq_map (selections : List LinkedSelection) :
    unlink selections = selections.map Selection.unlink := by
  induction selections with
  | nil => rw [unlink, List.map_nil]
  | cons selection rest ih => rw [unlink, ih, List.map_cons]

mutual

private theorem selection_unlink_link (find : Name → Option Fragment) :
    ∀ selection : Selection Unit, (selection.link find).unlink = selection.link fun _ => none
  | .field _ _ _ _ _ selections => by
    rw [Selection.link, Selection.unlink, Selection.link, unlink_link find selections]
  | .inlineFragment _ _ _ selections => by
    rw [Selection.link, Selection.unlink, Selection.link, unlink_link find selections]
  | .spread _ _ _ _ => by rw [Selection.link, Selection.unlink, Selection.link]

/-- Whatever selections are linked to, unlinking leaves what is written. -/
theorem unlink_link (find : Name → Option Fragment) : ∀ selections : WrittenSelections,
    unlink (link find selections) = link (fun _ => none) selections
  | [] => by rw [link, unlink, link]
  | selection :: rest => by
    rw [link, unlink, link, selection_unlink_link find selection, unlink_link find rest]

end

theorem FragmentDefinition.unlink_link (definition : FragmentDefinition)
    (find : Name → Option Fragment) :
    (definition.link find).unlink = definition.link fun _ => none := by
  rw [FragmentDefinition.link, Fragment.unlink, GraphQLCompiler.unlink_link]
  rfl

namespace Bounded

open CompileM

/-! ### Sequences -/

section

variable {ε α β γ δ : Type}

private theorem bind_known {f : α → β} {g : γ → δ} {result : Except ε α} {next : α → Except ε γ}
    {next' : β → ExceptT ε Option δ}
    (h : ∀ a, result = .ok a → next' (f a) = known ((next a).map g)) :
    (known (result.map f) >>= next') = known ((result >>= next).map g) := by
  cases result with
  | error failure => rfl
  | ok a => exact h a rfl

private theorem foldlM_known {f : α → β} {step : α → γ → Except ε α}
    {step' : β → γ → ExceptT ε Option β} {xs : List γ}
    (h : ∀ x ∈ xs, ∀ a, step' (f a) x = known ((step a x).map f)) (a : α) :
    xs.foldlM step' (f a) = known ((xs.foldlM step a).map f) := by
  induction xs generalizing a with
  | nil => rfl
  | cons x rest ih =>
    obtain ⟨first, others⟩ := List.forall_mem_cons.1 h
    rw [List.foldlM_cons, List.foldlM_cons, first a]
    exact bind_known fun b _ => ih others b

/-- What a sequence gives after a computation for which the depth suffices. -/
theorem run_bind_lift (m : CompileM α) (next : α → BoundedM β) (state : CompilerState) :
    (lift m >>= next).run state = match m.run state with
      | (.ok a, after) => (next a).run after
      | (.error e, after) => some (.error e, after) := by
  change (lift m >>= next) state = _
  simp only [bind, ExceptT.bind, ExceptT.mk, StateT.bind, lift, Option.bind]
  rcases m.run state with ⟨_ | _, after⟩ <;> rfl

/-- The depth suffices for a sequence if it does for what comes second, given the results that what
comes first can have. -/
theorem bind_lift {m : CompileM α} {next : α → CompileM β} {next' : α → BoundedM β}
    {post : α → Prop} (h : Ensures (fun _ => True) False m post)
    (h' : ∀ a, post a → next' a = lift (next a)) : (lift m >>= next') = lift (m >>= next) := by
  funext state
  have holds := h.holds state trivial
  refine (run_bind_lift m next' state).trans ?_
  rw [lift, run_bind]
  rcases hm : m.run state with ⟨e | a, after⟩
  · rfl
  · rw [hm] at holds
    exact congrFun (h' a (holds a rfl)) after

end

/-! ### Gathering at a sufficient depth -/

section

variable {settings : Settings} {table : FragmentTable} {library : FragmentLibrary}

/-- A result of collecting, without fragments. -/
abbrev knownUnlinked (result : Except Failure Collection) : GatherM Collection :=
  known (result.map (Collection.recast unlinking))

/-- Types have the same kinds without fragments. -/
private theorem bind_compositeKind {typeName : Name} {collection : Collection}
    {next : TypeKind → Except Failure Collection} {next' : TypeKind → GatherM Collection}
    (h : ∀ kind, next' kind = knownUnlinked (next kind)) :
    (known (compositeKind settings.schema typeName (collection.recast unlinking)) >>= next')
      = knownUnlinked (compositeKind settings.schema typeName collection >>= next) := by
  rw [compositeKind, compositeKind]
  split
  · rfl
  · rename_i kind _
    split
    · exact h kind
    · rfl

mutual

private theorem gatherSelection_eq (acyclic : table.library = .ok library) {parent : Name}
    {kind : TypeKind} {depth : Nat} :
    ∀ (selection : LinkedSelection) (collection : Collection),
      selection.LinkedBy library.find? → selection.nesting ≤ depth →
      gatherSelection settings table parent kind (gather settings table depth)
          (collection.recast unlinking) selection.unlink
        = knownUnlinked (collectSelection settings parent kind selection collection)
  | .field aliasName name arguments directives location selections, collection, _, _ => by
    rw [Selection.unlink, gatherSelection, collectSelection, collectSelection]
    split
    · rfl
    · exact congrArg (fun collection => known (.ok collection))
        (collection.recast_addField unlinking (responseName aliasName name)
          ⟨parent, name, _, arguments, directives, selections⟩)
  | .inlineFragment typeCondition directives location selections, collection, linked, low => by
    rw [Selection.LinkedBy] at linked
    rw [Selection.nesting] at low
    rw [Selection.unlink]
    simp only [gatherSelection, collectSelection]
    cases settings.schema.typeKind? (typeCondition.getD parent) with
    | none => rfl
    | some _ =>
      dsimp only
      split
      · obtain ⟨depth, rfl⟩ := Nat.exists_eq_succ_of_ne_zero (Nat.ne_zero_of_lt low)
        rw [gather]
        exact bind_compositeKind fun inner =>
          foldlM_gatherSelection_eq acyclic selections collection linked (Nat.le_of_succ_le_succ low)
      · rfl
  | .spread name directives location none, collection, linked, _ => by
    rw [Selection.LinkedBy] at linked
    rw [FragmentTable.find?_library acyclic, Option.map_eq_none_iff] at linked
    rw [Selection.unlink, gatherSelection, collectSelection, linked]
    rfl
  | .spread name directives location (some fragment), collection, linked, low => by
    rw [Selection.LinkedBy] at linked
    obtain ⟨found, rfl, linkedFragment⟩ := linked
    rw [Selection.nesting] at low
    rw [Selection.unlink, collectSelection]
    exact gatherFragment_eq acyclic fragment collection found linkedFragment low

private theorem gatherFragment_eq (acyclic : table.library = .ok library) {parent : Name}
    {kind : TypeKind} {depth : Nat} {directives : List Directive} {location : Option Span} :
    ∀ (fragment : Fragment) (collection : Collection),
      library.find? fragment.name = some fragment → fragment.LinkedBy library.find? →
      fragment.nesting ≤ depth →
      gatherSelection settings table parent kind (gather settings table depth)
          (collection.recast unlinking) (.spread fragment.name directives location none)
        = knownUnlinked (collectFragment settings parent kind fragment collection)
  | ⟨name, typeCondition, place, selections⟩, collection, found, linked, low => by
    rw [Fragment.LinkedBy] at linked
    rw [Fragment.nesting] at low
    -- the definition of the name is the fragment as it is written
    rw [FragmentTable.find?_library acyclic, Option.map_eq_some_iff] at found
    obtain ⟨definition, defined, eq⟩ := found
    have written : (definition.link fun _ => none)
        = Fragment.unlink ⟨name, typeCondition, place, selections⟩ := by
      rw [← eq, definition.unlink_link]
    obtain ⟨rfl, rfl, rfl, -⟩ := Fragment.mk.inj eq
    have recorded : ∀ effective,
        (if collection.hasExpanded effective definition.name = true then
          collection.recast unlinking
        else (collection.recast unlinking).addExpansion effective (definition.link fun _ => none))
        = (if collection.hasExpanded effective definition.name = true then collection
          else collection.addExpansion effective ⟨definition.name, definition.typeCondition,
            definition.location, selections⟩).recast unlinking := by
      intro effective
      split
      · rfl
      · rw [written]
        exact collection.recast_addExpansion unlinking effective _
    simp only [gatherSelection, defined, collectFragment, Collection.hasExpanded_recast]
    cases settings.schema.typeKind? definition.typeCondition with
    | none => rfl
    | some _ =>
      dsimp only
      split
      · rfl
      · rw [recorded, written]
        split
        · obtain ⟨depth, rfl⟩ := Nat.exists_eq_succ_of_ne_zero (Nat.ne_zero_of_lt low)
          rw [gather]
          exact bind_compositeKind fun inner =>
            foldlM_gatherSelection_eq acyclic selections _ linked (Nat.le_of_succ_le_succ low)
        · rfl

private theorem foldlM_gatherSelection_eq (acyclic : table.library = .ok library) {parent : Name}
    {kind : TypeKind} {depth : Nat} :
    ∀ (selections : List LinkedSelection) (collection : Collection),
      LinkedBy library.find? selections → nesting selections ≤ depth →
      (unlink selections).foldlM
          (gatherSelection settings table parent kind (gather settings table depth))
          (collection.recast unlinking)
        = knownUnlinked (collectEach settings parent kind selections collection)
  | [], collection, _, _ => by
    rw [unlink, collectEach]
    rfl
  | selection :: rest, collection, linked, low => by
    rw [LinkedBy] at linked
    rw [nesting, Nat.max_le] at low
    rw [unlink, List.foldlM_cons, collectEach,
      gatherSelection_eq acyclic selection collection linked.1 low.1]
    exact bind_known fun first _ =>
      foldlM_gatherSelection_eq acyclic rest first linked.2 low.2

end

/-- **Gathering** at a depth above the nesting gives what collecting gives. -/
theorem gather_eq (acyclic : table.library = .ok library) {parent : Name}
    {selections : List LinkedSelection} {depth : Nat} (linked : LinkedBy library.find? selections)
    (low : nesting selections < depth) (collection : Collection) :
    gather settings table depth parent (unlink selections) (collection.recast unlinking)
      = knownUnlinked (collect settings parent selections collection) := by
  obtain ⟨depth, rfl⟩ := Nat.exists_eq_succ_of_ne_zero (Nat.ne_zero_of_lt low)
  rw [gather, collect]
  exact bind_compositeKind fun kind =>
    foldlM_gatherSelection_eq acyclic selections collection linked (Nat.le_of_lt_succ low)

/-- Gathering the sub-selections of a field gives what merging them gives. -/
theorem gatherMerged_eq (acyclic : table.library = .ok library) {parent : Name}
    {occurrences : List Occurrence} {n depth : Nat}
    (linked : ∀ occurrence ∈ occurrences, LinkedBy library.find? occurrence.selections)
    (low : ∀ occurrence ∈ occurrences, nesting occurrence.selections ≤ n) (deep : n + 2 ≤ depth) :
    gatherMerged settings table depth parent (occurrences.map (Occurrence.recast unlinking))
      = knownUnlinked (mergeSelections settings parent occurrences {}) := by
  obtain ⟨depth, rfl⟩ := Nat.exists_eq_add_of_le' (Nat.le_trans (Nat.le_add_left 2 n) deep)
  have kept : (fun occurrence : Occurrence => !occurrence.selections.isEmpty)
      ∘ Occurrence.recast unlinking = fun occurrence => !occurrence.selections.isEmpty := by
    funext occurrence
    have selections : (occurrence.recast unlinking).selections
        = occurrence.selections.map Selection.unlink := unlink_eq_map occurrence.selections
    rw [Function.comp_apply, selections, List.isEmpty_map]
  rw [gatherMerged, mergeSelections, List.filter_map, kept, List.foldlM_map]
  change List.foldlM _ (Collection.recast unlinking {}) _ = _
  refine foldlM_known (fun occurrence mem collection => ?_) _
  have given := (List.mem_filter.1 mem).1
  have inside := low occurrence given
  exact gather_eq acyclic (linked occurrence given) (by omega) collection

end

/-! ### Searching at a sufficient depth -/

private theorem countOutside_keys_le {α : Type} (m : NameMap α) (seen : List Name) :
    countOutside m.keys seen ≤ m.length := by
  have length : m.keys.length = m.length := List.length_map _
  exact length ▸ List.countP_le_length

section

variable {table : FragmentTable}

private theorem mem_keys_iff {library : FragmentLibrary} {name : Name} :
    name ∈ library.keys ↔ library.contains name := by
  induction library with
  | nil => simp [NameMap.keys, NameMap.contains]
  | cons entry rest ih =>
    by_cases eq : entry.1 = name
    · simp [NameMap.keys, NameMap.contains, NameMap.find?, eq]
    · have key : name ∈ NameMap.keys (entry :: rest) ↔ name ∈ NameMap.keys rest := by
        simp [NameMap.keys, Ne.symm eq]
      rw [key, ih, NameMap.contains, NameMap.contains, NameMap.find?, if_neg eq]

private theorem visit_eq (path : List Name) (library : FragmentLibrary) (name : Name) :
    ∀ depth, countOutside table.keys path < depth →
      visit table depth path library.keys name
        = known ((table.visit path library name).map NameMap.keys) := by
  refine FragmentTable.visit.induct table
    (fun path library name => ∀ depth, countOutside table.keys path < depth →
      visit table depth path library.keys name
        = known ((table.visit path library name).map NameMap.keys))
    (fun path library names => ∀ depth, countOutside table.keys path < depth →
      names.foldlM (visit table depth path) library.keys
        = known ((table.visitAll path library names).map NameMap.keys))
    ?undefined ?known ?cycle ?new ?nil ?cons path library name
  case undefined =>
    intro path library name missing depth deep
    obtain ⟨depth, rfl⟩ := Nat.exists_eq_succ_of_ne_zero (Nat.ne_zero_of_lt deep)
    rw [visit, FragmentTable.visit_of_undefined missing, missing]
    rfl
  case known =>
    intro path library name definition found has depth deep
    obtain ⟨depth, rfl⟩ := Nat.exists_eq_succ_of_ne_zero (Nat.ne_zero_of_lt deep)
    rw [visit, FragmentTable.visit_of_defined found, if_pos has, found]
    dsimp only
    rw [if_pos (mem_keys_iff.2 has)]
    rfl
  case cycle =>
    intro path library name definition found has mem depth deep
    obtain ⟨depth, rfl⟩ := Nat.exists_eq_succ_of_ne_zero (Nat.ne_zero_of_lt deep)
    rw [visit, FragmentTable.visit_of_defined found, if_neg has, if_pos mem, found]
    dsimp only
    rw [if_neg (mt mem_keys_iff.1 has), if_pos mem]
    rfl
  case new =>
    intro path library name definition found has notMem ih depth deep
    obtain ⟨depth, rfl⟩ := Nat.exists_eq_succ_of_ne_zero (Nat.ne_zero_of_lt deep)
    rw [visit, FragmentTable.visit_of_defined found, if_neg has, if_neg notMem, found]
    dsimp only
    rw [if_neg (mt mem_keys_iff.1 has), if_neg notMem]
    -- the name is on the path now, so that fewer names are left
    have key : name ∈ table.keys :=
      List.mem_map.2 ⟨_, NameMap.mem_of_find?_eq_some found, rfl⟩
    have fewer : countOutside table.keys (name :: path) < countOutside table.keys path :=
      countOutside_lt (List.subset_cons_self name path) key notMem List.mem_cons_self
    rw [ih depth (Nat.lt_of_lt_of_le fewer (Nat.le_of_lt_succ deep))]
    refine bind_known fun linked _ => ?_
    have keys : addName linked.keys name
        = (linked.insert name (definition.link linked.find?)).keys := by
      rw [NameMap.keys_insert, addName]
    rw [keys]
    rfl
  case nil =>
    intro path library depth deep
    rw [FragmentTable.visitAll]
    rfl
  case cons =>
    intro path library name rest ihFirst ihRest depth deep
    rw [List.foldlM_cons, FragmentTable.visitAll, ihFirst depth deep]
    refine bind_known fun middle _ => ?_
    exact ihRest middle depth deep

/-- **The search** that is deeper than there are fragments finds what linking finds. -/
theorem search_eq {depth : Nat} (deep : table.length < depth) :
    search table depth = known (table.library.map NameMap.keys) := by
  have all := countOutside_keys_le table []
  exact foldlM_known (fun name _ library =>
    visit_eq [] library name depth (Nat.lt_of_le_of_lt all deep)) ([] : FragmentLibrary)

/-- Searching at a sufficient depth, unless that was done before. -/
theorem searchOnce_eq {depth : Nat} (deep : table.length < depth) :
    searchOnce table depth = lift (CompileM.checkOnce table.library) := by
  rw [searchOnce, search_eq deep]
  refine bind_lift ensures_true fun state _ => ?_
  split
  · rfl
  · cases table.library <;> rfl

end

/-! ### Adding used types at a sufficient depth -/

section

open TypesUsed

variable {schema : Schema}

private theorem addAll_append (used : TypesUsed) (names more : List Name) :
    addAll schema used (names ++ more) = addAll schema (addAll schema used names) more := by
  induction used, names using addAll.induct schema with
  | case1 used => rw [List.nil_append, addAll]
  | case2 used name rest new ih =>
    rw [List.cons_append, addAll, if_pos new, addAll, if_pos new, ← List.append_assoc, ih]
  | case3 used name rest old ih =>
    rw [List.cons_append, addAll, if_neg old, addAll, if_neg old, ih]

private theorem foldlM_addUsed_eq (depth : Nat) (names : List Name) (used : TypesUsed)
    (deep : countOutside schema.types.keys used < depth) :
    names.foldlM (addUsed schema depth) used = some (addAll schema used names) := by
  induction depth generalizing names used with
  | zero => exact absurd deep (Nat.not_lt_zero _)
  | succ depth ihDepth =>
    induction names generalizing used with
    | nil => rw [addAll]; rfl
    | cons name rest ihRest =>
      have first : addUsed schema (depth + 1) used name = some (addAll schema used [name]) := by
        rw [addUsed, addAll]
        split
        · rename_i new
          -- the name is used now, so that fewer names are left
          have fewer : countOutside schema.types.keys (used ++ [name])
              < countOutside schema.types.keys used :=
            countOutside_lt (List.subset_append_left used [name])
              (schema.mem_keys_of_needsDeclaration new.1) new.2 (by simp)
          rw [List.append_nil]
          exact ihDepth _ _ (Nat.lt_of_lt_of_le fewer (Nat.le_of_lt_succ deep))
        · rw [addAll]
      have left := countOutside_le (@prefix_addAll schema used [name]).subset schema.types.keys
      have split : addAll schema used (name :: rest)
          = addAll schema (addAll schema used [name]) rest := addAll_append used [name] rest
      rw [List.foldlM_cons, first, split]
      exact ihRest _ (Nat.lt_of_le_of_lt left deep)

/-- **Adding a used type** needs no more depth than there are types. -/
theorem addUsed_eq {depth : Nat} (deep : schema.types.length < depth) (used : TypesUsed)
    (name : Name) : addUsed schema depth used name = some (used.add schema name) := by
  have all := countOutside_keys_le schema.types used
  have one := foldlM_addUsed_eq depth [name] used (Nat.lt_of_le_of_lt all deep)
  rwa [List.foldlM_cons, funext fun used => List.foldlM_nil, bind_pure] at one

end

end Bounded

end GraphQLCompiler
