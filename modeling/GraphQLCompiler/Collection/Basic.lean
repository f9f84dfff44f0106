import GraphQLCompiler.CompileError
import GraphQLCompiler.Log
import GraphQLCompiler.Fragment.Basic
import GraphQLCompiler.Schema.Subtyping

/-!
# Collecting fields

Collection gathers what the selections at a type select: the fields by response name, each with
the type that it was **collected at**, and the fragments that were expanded at each type.

Inside an object type everything is collected at that type. Inside an interface or union a type
condition narrows to its own type, and which object types that leaves is decided later. A fragment
is expanded once at each type.

## Main definitions

* `Collection`: what has been gathered.
* `collect`: gathers what some selections at a type select.
* `mergeSelections`: gathers what the sub-selections of several fields select together.
-/

namespace GraphQLCompiler

/-! ### Settings -/

/-- What a user may choose. -/
structure Options where
  /-- Whether printed definitions select the type name in every selection set below the root. -/
  addTypename : Bool := true
  /-- Whether the fields of a spread fragment are fields of the selection set around it. -/
  mergeFragmentFields : Bool := true
  deriving DecidableEq, Repr, Inhabited

/-- What happens when a fragment is spread again at a type. -/
inductive Repetition where
  /-- It is passed over, since what it selects has been gathered. -/
  | skipped
  /-- It is gathered again, as a plain reading of the selections would have it. -/
  | expanded
  deriving DecidableEq, Repr

/-- What collection works against. -/
structure Settings where
  schema : Schema
  options : Options
  repetition : Repetition := .skipped

/-! ### Collections -/

/-- One selection of a field, with the type that it was collected at. -/
structure Occurrence where
  collectedAt : Name
  name : Name
  type : TypeRef
  arguments : List Argument
  directives : List Directive
  selections : List LinkedSelection

/-- What has been gathered: the occurrences of each response name and the fragments expanded at
each type, all in the order of their first occurrence, and the events on the way. -/
structure Collection where
  groups : NameMap (List Occurrence) := []
  expansions : NameMap (List Fragment) := []
  events : List LogEvent := []

/-- Why collection stopped, and the events up to then. -/
structure Failure where
  error : CompileError
  events : List LogEvent

namespace Collection

/-- Stops with an error. -/
def stop {α : Type} (collection : Collection) (error : CompileError) : Except Failure α :=
  .error { error, events := collection.events }

/-- Adds an event. -/
def note (collection : Collection) (event : LogEvent) : Collection :=
  { collection with events := collection.events ++ [event] }

/-- Adds an occurrence of a response name. -/
def addField (collection : Collection) (responseName : Name) (occurrence : Occurrence) :
    Collection :=
  { collection with groups := collection.groups.push responseName occurrence }

/-- Whether a fragment has been expanded at a type. -/
def hasExpanded (collection : Collection) (typeName fragmentName : Name) : Bool :=
  (collection.expansions.find? typeName).any (·.any (·.name = fragmentName))

/-- Adds the expansion of a fragment at a type. -/
def addExpansion (collection : Collection) (typeName : Name) (fragment : Fragment) : Collection :=
  { collection with expansions := collection.expansions.push typeName fragment }

end Collection

/-! ### Collecting -/

/-- The kind of a type that takes selections. -/
def compositeKind (schema : Schema) (typeName : Name) (collection : Collection) :
    Except Failure TypeKind :=
  match schema.typeKind? typeName with
  | none => collection.stop (.unknownType typeName none)
  | some kind =>
    if kind.isComposite then .ok kind else collection.stop (.notCompositeType typeName none)

/-- The type that selections under a type condition are collected at. Only interfaces and unions
are narrowed. -/
def effectiveType (parent : Name) (kind : TypeKind) (typeCondition : Name) : Name :=
  if kind = .object then parent else typeCondition

/-- Whether an inline fragment can apply at the type that its selections would be collected at. -/
def applies (schema : Schema) (typeCondition effective : Name) : Bool :=
  typeCondition = effective || schema.isProperSupertype typeCondition effective

/-- The key of a field in a response. -/
def responseName (aliasName : Option Name) (name : Name) : Name := aliasName.getD name

mutual

/-- Adds what a selection at a type selects. -/
def collectSelection (settings : Settings) (parent : Name) (kind : TypeKind) :
    LinkedSelection → Collection → Except Failure Collection
  | .field aliasName name arguments directives location selections, collection =>
    match settings.schema.fieldDefinition? parent name with
    | none => collection.stop (.unknownField parent name location)
    | some definition =>
      .ok (collection.addField (responseName aliasName name) {
        collectedAt := parent, name, type := definition.type, arguments, directives, selections })
  | .inlineFragment typeCondition _ location selections, collection =>
    let condition := typeCondition.getD parent
    let effective := effectiveType parent kind condition
    match settings.schema.typeKind? condition with
    | none => collection.stop (.unknownType condition location)
    | some _ =>
      if applies settings.schema condition effective then do
        let kind ← compositeKind settings.schema effective collection
        collectEach settings effective kind selections collection
      else .ok (collection.note (.inapplicable condition effective))
  | .spread name _ location none, collection => collection.stop (.unknownFragment name location)
  | .spread _ _ _ (some fragment), collection =>
    collectFragment settings parent kind fragment collection

/-- Adds what a fragment that is spread at a type selects. -/
def collectFragment (settings : Settings) (parent : Name) (kind : TypeKind) :
    Fragment → Collection → Except Failure Collection
  | ⟨name, typeCondition, location, selections⟩, collection =>
    let effective := effectiveType parent kind typeCondition
    match settings.schema.typeKind? typeCondition with
    | none => collection.stop (.unknownType typeCondition location)
    | some _ =>
      let repeated := collection.hasExpanded effective name
      if repeated ∧ settings.repetition = .skipped then
        .ok (collection.note (.alreadyExpanded name effective))
      else
        let recorded := if repeated then collection
          else collection.addExpansion effective ⟨name, typeCondition, location, selections⟩
        if settings.options.mergeFragmentFields then do
          let kind ← compositeKind settings.schema effective recorded
          collectEach settings effective kind selections recorded
        else .ok recorded

/-- Adds what selections at a type select, one by one. -/
def collectEach (settings : Settings) (parent : Name) (kind : TypeKind) :
    List LinkedSelection → Collection → Except Failure Collection
  | [], collection => .ok collection
  | selection :: rest, collection => do
    collectEach settings parent kind rest
      (← collectSelection settings parent kind selection collection)

end

/-- Adds what selections at a type select. -/
def collect (settings : Settings) (parent : Name) (selections : List LinkedSelection)
    (collection : Collection) : Except Failure Collection := do
  let kind ← compositeKind settings.schema parent collection
  collectEach settings parent kind selections collection

/-- Adds what the sub-selections of the occurrences of a field select at a type. -/
def mergeSelections (settings : Settings) (parent : Name) (occurrences : List Occurrence)
    (collection : Collection) : Except Failure Collection :=
  (occurrences.filter fun occurrence => !occurrence.selections.isEmpty).foldlM
    (fun collection occurrence => collect settings parent occurrence.selections collection)
    collection

end GraphQLCompiler
