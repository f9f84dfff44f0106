import GraphQLCompiler.Collection.Height
import GraphQLCompiler.Compiled.ArgumentValue
import GraphQLCompiler.TypesUsed

/-!
# Resolving collections

Resolution turns a collection into compiled fields. At the type of the collection it keeps what
was selected at that type or at a type that contains it. What was selected at narrower types makes
branches, one for each object type that is left; each branch is resolved from the same collection
at its object type, and repeats what it has in common with the others.

On the way resolution adds the types of fields to the used types, and remembers for each fragment
which fragments can be reached from it.

Resolving a field collects its sub-selections, and resolving a spread collects the selections of
the fragment. Both are lower than the collection that is being resolved, so resolution ends.

## Main definitions

* `CompileM`: computations that may stop with an error and keep a state.
* `Resolved`: a compiled selection set with the fragments that it references.
* `resolve`: the compiled selection set of a collection at a type.
* `resolveFragment`: the compiled selection set of a fragment.
-/

namespace GraphQLCompiler

/-! ### State -/

/-- What a compiler remembers from one definition to the next. -/
structure CompilerState where
  typesUsed : TypesUsed := []
  /-- The fragments that can be reached from a fragment, for those that were resolved. -/
  references : NameMap (List Name) := []
  /-- Whether the fragments have been found to spread one another without cycles. -/
  cyclesChecked : Bool := false
  log : List LogEvent := []
  deriving Inhabited

/-- Computations that may stop with an error. The state outlives an error. -/
abbrev CompileM := ExceptT CompileError (StateM CompilerState)

namespace CompileM

/-- Adds events to the log. -/
def tell (events : List LogEvent) : CompileM Unit :=
  modify fun state => { state with log := state.log ++ events }

/-- Adds a type to the used types. -/
def useType (schema : Schema) (name : Name) : CompileM Unit :=
  modify fun state => { state with typesUsed := state.typesUsed.add schema name }

/-- A result that does not need the state. -/
def ofExcept {α : Type} : Except CompileError α → CompileM α
  | .ok result => pure result
  | .error error => throw error

/-- Stops like a collection that failed. -/
def fail {α : Type} (failure : Failure) : CompileM α := do
  tell failure.events
  throw failure.error

/-- The fragments that can be reached from a fragment, if they are remembered. -/
def remembered? (fragmentName : Name) : CompileM (Option (List Name)) := do
  return (← get).references.find? fragmentName

/-- Remembers the fragments that can be reached from a fragment. -/
def remember (fragmentName : Name) (references : List Name) : CompileM Unit :=
  modify fun state =>
    { state with references := state.references.insert fragmentName references }

/-- Stops with an error that is found out about the fragments, unless there was none before. -/
def checkOnce {α : Type} (check : Except CompileError α) : CompileM Unit := do
  if (← get).cyclesChecked then return
  else
    let _ ← ofExcept check
    modify fun state => { state with cyclesChecked := true }

end CompileM

/-! ### What applies at a type -/

/-- The occurrences of a response name that apply at a type, of which the first decides what the
field is. -/
structure ApplicableField where
  responseName : Name
  first : Occurrence
  others : List Occurrence

namespace ApplicableField

/-- All occurrences in order. -/
def occurrences (field : ApplicableField) : List Occurrence := field.first :: field.others

/-- The named type of the field. -/
def bareType (field : ApplicableField) : Name := field.first.type.bare

end ApplicableField

/-- The occurrences of a group that apply at a type, if there are any. -/
def applicableField? (schema : Schema) (parent : Name) (group : Name × List Occurrence) :
    Option ApplicableField :=
  match group.2.filter fun occurrence => schema.isSubtypeOf parent occurrence.collectedAt with
  | [] => none
  | first :: others => some { responseName := group.1, first, others }

/-- The fields of a collection that apply at a type. -/
def applicableFields (schema : Schema) (parent : Name) (collection : Collection) :
    List ApplicableField :=
  collection.groups.filterMap (applicableField? schema parent)

/-- Adds a fragment unless there is one of its name. -/
def addFragment (fragments : List Fragment) (fragment : Fragment) : List Fragment :=
  if fragments.any (·.name = fragment.name) then fragments else fragments ++ [fragment]

/-- The fragments that were expanded at a type or at a type that contains it. -/
def fragmentsAt (schema : Schema) (parent : Name) (collection : Collection) : List Fragment :=
  ((collection.expansions.filter fun (typeName, _) =>
    schema.isSubtypeOf parent typeName).flatMap Prod.snd).foldl addFragment []

/-- The object types that a type leaves of an abstract type which it narrows. -/
def narrowedTo (schema : Schema) (parent typeName : Name) : List Name :=
  if schema.isSubtypeOf parent typeName then []
  else if schema.isPossibleType parent typeName then [typeName]
  else if schema.isAbstract typeName then
    (schema.possibleTypes typeName).filter (schema.isPossibleType parent)
  else []

/-- The object types that get a branch: those that the selections of an abstract type were narrowed
to. -/
def narrowedTypes (schema : Schema) (parent : Name) (collection : Collection) : List Name :=
  if schema.isAbstract parent then
    unionNames [] ((collection.occurrences.map Occurrence.collectedAt
      ++ collection.expansions.keys).flatMap (narrowedTo schema parent))
  else []

/-! ### Parts of collections -/

theorem mem_occurrences_of_applicable {schema : Schema} {parent : Name} {collection : Collection}
    {field : ApplicableField} (h : field ∈ applicableFields schema parent collection)
    {occurrence : Occurrence} (ho : occurrence ∈ field.occurrences) :
    occurrence ∈ collection.occurrences := by
  obtain ⟨group, mem, hf⟩ := List.mem_filterMap.1 h
  unfold applicableField? at hf
  split at hf
  · cases hf
  · rename_i first others eq
    cases hf
    rw [ApplicableField.occurrences, ← eq] at ho
    exact List.mem_flatten.2
      ⟨group.2, List.mem_map.2 ⟨group, mem, rfl⟩, (List.mem_filter.1 ho).1⟩

private theorem mem_of_mem_foldl_addFragment {fragment : Fragment} {more fragments : List Fragment}
    (h : fragment ∈ more.foldl addFragment fragments) : fragment ∈ fragments ∨ fragment ∈ more := by
  induction more generalizing fragments with
  | nil => exact .inl h
  | cons first rest ih =>
    rcases ih h with h | h
    · unfold addFragment at h
      split at h
      · exact .inl h
      · rcases List.mem_append.1 h with h | h
        · exact .inl h
        · exact .inr (List.mem_cons.2 (.inl (List.mem_singleton.1 h)))
    · exact .inr (List.mem_cons_of_mem _ h)

theorem mem_fragments_of_mem_fragmentsAt {schema : Schema} {parent : Name}
    {collection : Collection} {fragment : Fragment}
    (h : fragment ∈ fragmentsAt schema parent collection) : fragment ∈ collection.fragments := by
  rcases mem_of_mem_foldl_addFragment h with h | h
  · cases h
  · obtain ⟨expansion, mem, hf⟩ := List.mem_flatMap.1 h
    exact List.mem_flatten.2
      ⟨expansion.2, List.mem_map.2 ⟨expansion, (List.mem_filter.1 mem).1, rfl⟩, hf⟩

/-! ### Resolving -/

/-- A compiled selection set, and all fragments that can be reached by spreads. -/
structure Resolved where
  selectionSet : Compiled.SelectionSet
  references : List Name

/-- A way to resolve collections of less than some height. -/
abbrev ResolveBelow (n : Nat) :=
  (parent : Name) → (collection : Collection) → collection.height < n → CompileM Resolved

variable (settings : Settings)

/-- The compiled selection set of the sub-selections of a field. -/
def resolveSubselections {n : Nat} (recur : ResolveBelow n) (field : ApplicableField)
    (bound : ∀ occurrence ∈ field.occurrences, height occurrence.selections < n) :
    CompileM Resolved :=
  match h : mergeSelections settings field.bareType field.occurrences {} with
  | .error failure => CompileM.fail failure
  | .ok collection => do
    CompileM.tell collection.events
    recur field.bareType collection <| by
      have pos : 0 < n := Nat.lt_of_le_of_lt (Nat.zero_le _) (bound field.first (by
        simp [ApplicableField.occurrences]))
      have le : collection.height ≤ n - 1 := height_mergeSelections_le h
        (fun occurrence mem => by have := bound occurrence mem; omega) (by simp)
      omega

/-- A compiled field, and the fragments that can be reached from it. -/
def resolveField {n : Nat} (recur : ResolveBelow n) (parent : Name) (field : ApplicableField)
    (bound : ∀ occurrence ∈ field.occurrences, height occurrence.selections < n) :
    CompileM (Compiled.Field × List Name) := do
  CompileM.useType settings.schema field.bareType
  let resolved ←
    if settings.schema.isComposite field.bareType then
      some <$> resolveSubselections settings recur field bound
    else pure none
  return ({
    responseName := field.responseName
    fieldName := field.first.name
    type := field.first.type
    arguments := field.first.arguments.map Argument.compile
    isConditional := field.occurrences.any fun occurrence => isConditional occurrence.directives
    description := (settings.schema.fieldDefinition? parent field.first.name).bind
      FieldInfo.description
    selectionSet := resolved.map Resolved.selectionSet }, resolved.elim [] Resolved.references)

/-- Compiled fields, and the fragments that can be reached from them, added to others. -/
def resolveFields {n : Nat} (recur : ResolveBelow n) (parent : Name) :
    (fields : List ApplicableField) → (∀ field ∈ fields,
      ∀ occurrence ∈ field.occurrences, height occurrence.selections < n) →
    List Name → CompileM (List Compiled.Field × List Name)
  | [], _, references => return ([], references)
  | field :: rest, bound, references => do
    let (first, own) ← resolveField settings recur parent field
      (bound field List.mem_cons_self)
    let (others, references) ← resolveFields recur parent rest
      (fun other mem => bound other (List.mem_cons_of_mem _ mem)) (unionNames references own)
    return (first :: others, references)

/-- The compiled selection set of a fragment, whose references are remembered. -/
def resolveFragmentWith (fragment : Fragment) (recur : ResolveBelow fragment.height) :
    CompileM Resolved :=
  match settings.schema.typeKind? fragment.typeCondition with
  | none => throw (.unknownType fragment.typeCondition fragment.location)
  | some _ =>
    match h : collect settings fragment.typeCondition fragment.selections {} with
    | .error failure => CompileM.fail failure
    | .ok collection => do
      CompileM.tell collection.events
      let resolved ← recur fragment.typeCondition collection <| by
        rw [fragment.height_eq]
        exact Nat.lt_succ_of_le (height_collect_le h (Nat.le_refl _) (by simp))
      CompileM.remember fragment.name resolved.references
      return resolved

/-- All fragments that can be reached from a fragment. -/
def fragmentReferences (fragment : Fragment) (recur : ResolveBelow fragment.height) :
    CompileM (List Name) := do
  match ← CompileM.remembered? fragment.name with
  | some references =>
    CompileM.tell [.reusingReferences fragment.name]
    return references
  | none => return (← resolveFragmentWith settings fragment recur).references

/-- All fragments that can be reached from some fragments, added to others. -/
def spreadReferences {n : Nat} (recur : ResolveBelow n) :
    (fragments : List Fragment) → (∀ fragment ∈ fragments, fragment.height ≤ n) →
    List Name → CompileM (List Name)
  | [], _, references => return references
  | fragment :: rest, bound, references => do
    let own ← fragmentReferences settings fragment fun parent collection lt =>
      recur parent collection (Nat.lt_of_lt_of_le lt (bound fragment List.mem_cons_self))
    spreadReferences recur rest (fun other mem => bound other (List.mem_cons_of_mem _ mem))
      (unionNames references own)

/-- The fields of a collection that apply at a type, and the fragments that can be reached from
them, added to others. -/
def resolveFieldsAt (collection : Collection) (recur : ResolveBelow collection.height)
    (parent : Name) (references : List Name) : CompileM (List Compiled.Field × List Name) :=
  resolveFields settings recur parent (applicableFields settings.schema parent collection)
    (fun _ mem _ ho => Collection.height_selections_lt (mem_occurrences_of_applicable mem ho))
    references

/-- All fragments that can be reached from the fragments of a collection that apply at a type,
added to others. -/
def spreadReferencesAt (collection : Collection) (recur : ResolveBelow collection.height)
    (parent : Name) (references : List Name) : CompileM (List Name) :=
  spreadReferences settings recur (fragmentsAt settings.schema parent collection)
    (fun _ mem => Collection.height_fragment_le (mem_fragments_of_mem_fragmentsAt mem)) references

/-- The names of the fragments of a collection that apply at a type. -/
def spreadNamesAt (schema : Schema) (parent : Name) (collection : Collection) : List Name :=
  (fragmentsAt schema parent collection).map Fragment.name

/-- The branch for an object type, and the fragments that can be reached from it, added to
others. -/
def resolveBranch (collection : Collection) (recur : ResolveBelow collection.height)
    (typeCondition : Name) (references : List Name) :
    CompileM (Compiled.InlineFragment × List Name) := do
  let (fields, references) ←
    resolveFieldsAt settings collection recur typeCondition references
  let references ← spreadReferencesAt settings collection recur typeCondition references
  return ({
    typeCondition
    possibleTypes := settings.schema.concreteTypes typeCondition
    fields
    fragmentSpreads := spreadNamesAt settings.schema typeCondition collection }, references)

/-- The branches for object types, and the fragments that can be reached from them, added to
others. -/
def resolveBranches (collection : Collection) (recur : ResolveBelow collection.height) :
    List Name → List Name → CompileM (List Compiled.InlineFragment × List Name)
  | [], references => return ([], references)
  | typeCondition :: rest, references => do
    let (first, references) ← resolveBranch settings collection recur typeCondition references
    let (others, references) ← resolveBranches collection recur rest references
    return (first :: others, references)

/-- The compiled selection set of a collection at a type, given a way to resolve lower
collections. -/
def resolveWith (parent : Name) (collection : Collection)
    (recur : ResolveBelow collection.height) : CompileM Resolved := do
  let expanded := unionNames [] (collection.fragments.map Fragment.name)
  let (fields, references) ← resolveFieldsAt settings collection recur parent expanded
  let (inlineFragments, references) ← resolveBranches settings collection recur
    (narrowedTypes settings.schema parent collection) references
  let references ← spreadReferencesAt settings collection recur parent references
  return {
    selectionSet := {
      fields
      fragmentSpreads := spreadNamesAt settings.schema parent collection
      inlineFragments }
    references }

/-- The compiled selection set of a collection at a type. -/
def resolve (parent : Name) (collection : Collection) : CompileM Resolved :=
  resolveWith settings parent collection fun parent lower _ => resolve parent lower
termination_by collection.height

/-- The compiled selection set of a fragment, whose references are remembered. -/
def resolveFragment (fragment : Fragment) : CompileM Resolved :=
  resolveFragmentWith settings fragment fun parent collection _ =>
    resolve settings parent collection

end GraphQLCompiler
