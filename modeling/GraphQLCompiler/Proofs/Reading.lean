import GraphQLCompiler.Collection.Basic
import GraphQLCompiler.Proofs.FirstOccurrence
import GraphQLCompiler.Proofs.Linking

/-!
# What selections mention

The **reading** of selections at a type lists what they mention, in order and as often as they
mention it: the fields, each with the type that it is collected at, and the spread fragments, each
with the type that it is expanded at. It knows no errors, no groups and nothing of what was met
before, so it is a list for each selection, one after the other (`reading_eq_flatMap`).

The reading of a fragment at a type is part of every reading that mentions the fragment at that
type (`readingInside_subset`). This is why a fragment that is met again at a type adds nothing.
-/

namespace GraphQLCompiler

/-! ### Mentions -/

/-- Something that selections mention. -/
inductive Mention where
  /-- A field with its response name. -/
  | field (responseName : Name) (occurrence : Occurrence)
  /-- A fragment that is expanded at a type. -/
  | fragment (typeName : Name) (fragment : Fragment)

namespace Mention

/-- The type that something is mentioned at. -/
def typeName : Mention → Name
  | .field _ occurrence => occurrence.collectedAt
  | .fragment typeName _ => typeName

/-- The field that is mentioned, with its response name. -/
def field? : Mention → Option (Name × Occurrence)
  | .field responseName occurrence => some (responseName, occurrence)
  | .fragment _ _ => none

/-- The fragment that is mentioned, with the type that it is expanded at. -/
def fragment? : Mention → Option (Name × Fragment)
  | .field _ _ => none
  | .fragment typeName expanded => some (typeName, expanded)

/-- Whether a field that is mentioned is defined on the type that it is collected at. -/
def Defined (schema : Schema) : Mention → Prop
  | .field _ occurrence => (schema.fieldDefinition? occurrence.collectedAt occurrence.name).isSome
  | .fragment _ _ => True

@[simp] theorem field?_eq_some {mention : Mention} {p : Name × Occurrence} :
    mention.field? = some p ↔ mention = .field p.1 p.2 := by
  cases mention <;> simp [field?, Prod.ext_iff]

@[simp] theorem fragment?_eq_some {mention : Mention} {p : Name × Fragment} :
    mention.fragment? = some p ↔ mention = .fragment p.1 p.2 := by
  cases mention <;> simp [fragment?, Prod.ext_iff]

end Mention

/-! ### Readings -/

/-- The type of a field, of no account if the field is not defined. -/
def Schema.fieldType (schema : Schema) (typeName fieldName : Name) : TypeRef :=
  (schema.fieldDefinition? typeName fieldName).elim default FieldInfo.type

/-- The type that selections under a type condition are collected at. -/
def Schema.narrow (schema : Schema) (parent typeCondition : Name) : Name :=
  if schema.isObject parent then parent else typeCondition

theorem Schema.narrow_eq {schema : Schema} {parent : Name} {kind : TypeKind}
    (h : schema.typeKind? parent = some kind) (typeCondition : Name) :
    effectiveType parent kind typeCondition = schema.narrow parent typeCondition := by
  simp [effectiveType, Schema.narrow, Schema.isObject, h]

@[simp] theorem Schema.narrow_self (schema : Schema) (typeName : Name) :
    schema.narrow typeName typeName = typeName :=
  ite_self typeName

variable (settings : Settings)

mutual

/-- What a selection at a type mentions. -/
def Selection.reading (parent : Name) : LinkedSelection → List Mention
  | .field aliasName name arguments directives _ selections =>
    [.field (responseName aliasName name) {
      collectedAt := parent, name, type := settings.schema.fieldType parent name
      arguments, directives, selections }]
  | .inlineFragment typeCondition _ _ selections =>
    let condition := typeCondition.getD parent
    let effective := settings.schema.narrow parent condition
    if applies settings.schema condition effective then reading effective selections else []
  | .spread _ _ _ none => []
  | .spread _ _ _ (some fragment) => fragment.reading parent

/-- What the spread of a fragment at a type mentions. -/
def Fragment.reading (parent : Name) : Fragment → List Mention
  | ⟨name, typeCondition, location, selections⟩ =>
    let effective := settings.schema.narrow parent typeCondition
    .fragment effective ⟨name, typeCondition, location, selections⟩ ::
      if settings.options.mergeFragmentFields then reading effective selections else []

/-- What selections at a type mention. -/
def reading (parent : Name) : List LinkedSelection → List Mention
  | [] => []
  | selection :: rest => selection.reading parent ++ reading parent rest

end

/-- What a fragment mentions besides itself when it is expanded at a type. -/
def readingInside (typeName : Name) (fragment : Fragment) : List Mention :=
  if settings.options.mergeFragmentFields then reading settings typeName fragment.selections else []

variable {settings}

theorem Fragment.reading_eq (parent : Name) (fragment : Fragment) :
    fragment.reading settings parent =
      .fragment (settings.schema.narrow parent fragment.typeCondition) fragment ::
        readingInside settings (settings.schema.narrow parent fragment.typeCondition) fragment := by
  cases fragment
  rw [Fragment.reading]
  rfl

theorem reading_eq_flatMap (parent : Name) (selections : List LinkedSelection) :
    reading settings parent selections
      = selections.flatMap (Selection.reading settings parent) := by
  induction selections with
  | nil => rw [reading, List.flatMap_nil]
  | cons selection rest ih => rw [reading, ih, List.flatMap_cons]

theorem reading_append (parent : Name) (selections more : List LinkedSelection) :
    reading settings parent (selections ++ more)
      = reading settings parent selections ++ reading settings parent more := by
  simp only [reading_eq_flatMap, List.flatMap_append]

theorem reading_singleton (parent : Name) (selection : LinkedSelection) :
    reading settings parent [selection] = selection.reading settings parent := by
  rw [reading, reading, List.append_nil]

theorem reading_flatMap {α : Type} (parent : Name) (xs : List α) (f : α → List LinkedSelection) :
    reading settings parent (xs.flatMap f)
      = xs.flatMap fun x => reading settings parent (f x) := by
  simp only [reading_eq_flatMap, List.flatMap_assoc]

theorem reading_subset {parent : Name} {selection : LinkedSelection}
    {selections : List LinkedSelection} (mem : selection ∈ selections) :
    selection.reading settings parent ⊆ reading settings parent selections := by
  rw [reading_eq_flatMap]
  exact fun mention h => List.mem_flatMap.2 ⟨selection, mem, h⟩

/-! ### Closure under expansion -/

mutual

private theorem selection_readingInside_subset {typeName : Name} {fragment : Fragment} :
    ∀ (parent : Name) (selection : LinkedSelection),
      .fragment typeName fragment ∈ selection.reading settings parent →
      readingInside settings typeName fragment ⊆ selection.reading settings parent
  | _, .field _ _ _ _ _ _, h => by simp [Selection.reading] at h
  | parent, .inlineFragment typeCondition _ _ selections, h => by
    simp only [Selection.reading] at h ⊢
    split at h
    · rename_i ap
      rw [if_pos ap]
      exact readingInside_subset _ selections h
    · cases h
  | _, .spread _ _ _ none, h => by simp [Selection.reading] at h
  | parent, .spread _ _ _ (some other), h => by
    rw [Selection.reading] at h ⊢
    exact fragment_readingInside_subset parent other h

private theorem fragment_readingInside_subset {typeName : Name} {fragment : Fragment} :
    ∀ (parent : Name) (other : Fragment),
      .fragment typeName fragment ∈ other.reading settings parent →
      readingInside settings typeName fragment ⊆ other.reading settings parent
  | parent, ⟨name, typeCondition, location, selections⟩, h => by
    rw [Fragment.reading_eq] at h ⊢
    rcases List.mem_cons.1 h with eq | h
    · cases eq
      exact List.subset_cons_self _ _
    · refine List.Subset.trans ?_ (List.subset_cons_self _ _)
      unfold readingInside at h
      split at h
      · rename_i merge
        rw [show readingInside settings _ ⟨name, typeCondition, location, selections⟩
          = reading settings _ selections from if_pos merge]
        exact readingInside_subset _ selections h
      · cases h

/-- A reading that mentions a fragment at a type has everything that the fragment mentions. -/
theorem readingInside_subset {typeName : Name} {fragment : Fragment} :
    ∀ (parent : Name) (selections : List LinkedSelection),
      .fragment typeName fragment ∈ reading settings parent selections →
      readingInside settings typeName fragment ⊆ reading settings parent selections
  | _, [], h => by simp [reading] at h
  | parent, selection :: rest, h => by
    rw [reading] at h ⊢
    rcases List.mem_append.1 h with h | h
    · exact List.Subset.trans (selection_readingInside_subset parent selection h)
        (List.subset_append_left _ _)
    · exact List.Subset.trans (readingInside_subset parent rest h) (List.subset_append_right _ _)

end

/-! ### What is inherited -/

/-- Whether a property of a selection holds of the selections inside it too. -/
structure Hereditary (property : LinkedSelection → Prop) : Prop where
  field : ∀ {aliasName name arguments directives location selections},
    property (.field aliasName name arguments directives location selections) →
    ∀ selection ∈ selections, property selection
  inlineFragment : ∀ {typeCondition directives location selections},
    property (.inlineFragment typeCondition directives location selections) →
    ∀ selection ∈ selections, property selection
  spread : ∀ {name directives location fragment},
    property (.spread name directives location (some fragment)) →
    ∀ selection ∈ fragment.selections, property selection

namespace Mention

/-- Whether a mention comes from a selection with a property. -/
def ComesFrom (property : LinkedSelection → Prop) : Mention → Prop
  | .field _ occurrence => ∃ aliasName name arguments directives location,
    property (.field aliasName name arguments directives location occurrence.selections)
  | .fragment _ expanded => ∃ name directives location,
    property (.spread name directives location (some expanded))

/-- The selections inside what is mentioned. -/
def selections : Mention → List LinkedSelection
  | .field _ occurrence => occurrence.selections
  | .fragment _ expanded => expanded.selections

theorem ComesFrom.inside {property : LinkedSelection → Prop} {mention : Mention}
    (hereditary : Hereditary property) (h : mention.ComesFrom property) :
    ∀ inner ∈ mention.selections, property inner := by
  cases mention with
  | field responseName occurrence =>
    obtain ⟨_, _, _, _, _, holds⟩ := h
    exact hereditary.field holds
  | fragment typeName expanded =>
    obtain ⟨_, _, _, holds⟩ := h
    exact hereditary.spread holds

end Mention

mutual

private theorem selection_inherited {property : LinkedSelection → Prop}
    (hereditary : Hereditary property) {mention : Mention} :
    ∀ (parent : Name) (selection : LinkedSelection), property selection →
      mention ∈ selection.reading settings parent → mention.ComesFrom property
  | _, .field _ _ _ _ _ _, holds, mem => by
    rw [Selection.reading, List.mem_singleton] at mem
    rw [mem]
    exact ⟨_, _, _, _, _, holds⟩
  | parent, .inlineFragment typeCondition _ _ selections, holds, mem => by
    simp only [Selection.reading] at mem
    split at mem
    · exact inherited hereditary _ selections (hereditary.inlineFragment holds) mem
    · cases mem
  | _, .spread _ _ _ none, _, mem => by simp [Selection.reading] at mem
  | parent, .spread _ _ _ (some fragment), holds, mem => by
    rw [Selection.reading] at mem
    exact fragment_inherited hereditary parent fragment ⟨_, _, _, holds⟩ mem

private theorem fragment_inherited {property : LinkedSelection → Prop}
    (hereditary : Hereditary property) {mention : Mention} :
    ∀ (parent : Name) (fragment : Fragment),
      (∃ name directives location,
        property (.spread name directives location (some fragment))) →
      mention ∈ fragment.reading settings parent → mention.ComesFrom property
  | parent, ⟨name, typeCondition, location, selections⟩, spread, mem => by
    rw [Fragment.reading_eq] at mem
    rcases List.mem_cons.1 mem with rfl | mem
    · exact spread
    · obtain ⟨_, _, _, holds⟩ := spread
      unfold readingInside at mem
      split at mem
      · exact inherited hereditary _ selections (hereditary.spread holds) mem
      · cases mem

/-- What holds of selections and is inherited holds of everything that they mention. -/
theorem inherited {property : LinkedSelection → Prop} (hereditary : Hereditary property)
    {mention : Mention} : ∀ (parent : Name) (selections : List LinkedSelection),
      (∀ selection ∈ selections, property selection) →
      mention ∈ reading settings parent selections → mention.ComesFrom property
  | _, [], _, mem => by simp [reading] at mem
  | parent, selection :: rest, holds, mem => by
    rw [reading] at mem
    obtain ⟨first, others⟩ := List.forall_mem_cons.1 holds
    rcases List.mem_append.1 mem with mem | mem
    · exact selection_inherited hereditary parent selection first mem
    · exact inherited hereditary parent rest others mem

end

/-! ### Linked readings -/

theorem hereditary_linkedBy (find : Name → Option Fragment) :
    Hereditary (Selection.LinkedBy find) where
  field h := linkedBy_iff.1 (by rwa [Selection.LinkedBy] at h)
  inlineFragment h := linkedBy_iff.1 (by rwa [Selection.LinkedBy] at h)
  spread h := by
    rw [Selection.LinkedBy] at h
    exact linkedBy_iff.1 (Fragment.linkedBy_iff.1 h.2.2)

/-- A fragment that linked selections mention is the one that its name stands for. -/
theorem linkedBy_of_mention {find : Name → Option Fragment} {typeName parent : Name}
    {fragment : Fragment} {selections : List LinkedSelection} (linked : LinkedBy find selections)
    (mem : .fragment typeName fragment ∈ reading settings parent selections) :
    find fragment.name = some fragment ∧ fragment.LinkedBy find := by
  obtain ⟨name, _, _, spread⟩ :=
    inherited (hereditary_linkedBy find) parent selections (linkedBy_iff.1 linked) mem
  rw [Selection.LinkedBy] at spread
  obtain ⟨found, rfl, linkedFragment⟩ := spread
  exact ⟨found, linkedFragment⟩

end GraphQLCompiler
