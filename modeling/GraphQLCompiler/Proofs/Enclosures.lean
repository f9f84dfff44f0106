import GraphQLCompiler.Proofs.Execution

/-!
# Enclosures of fields

The **enclosures** of a field are the type conditions around it, of inline fragments and of
fragments that are spread. With every `@skip` and `@include` taken as included, the response names
that selections give for an object are those of the fields whose enclosures all contain the type of
the object (`mem_executedNames_iff`).
-/

namespace GraphQLCompiler

/-! ### Enclosures -/

/-- A type condition around a selection: that of an inline fragment or that of a fragment that is
spread. -/
structure Enclosure where
  typeCondition : Name
  isInline : Bool
  deriving DecidableEq, Repr

/-- A field with its response name and the type conditions around it, the outermost first. -/
structure EnclosedField where
  responseName : Name
  enclosures : List Enclosure
  deriving DecidableEq, Repr

/-- A field inside another type condition. -/
def EnclosedField.within (enclosure : Enclosure) (field : EnclosedField) : EnclosedField :=
  { field with enclosures := enclosure :: field.enclosures }

mutual

/-- The fields of a selection with the type conditions around them. -/
def Selection.enclosedFields : LinkedSelection → List EnclosedField
  | .field aliasName name _ _ _ _ => [⟨responseName aliasName name, []⟩]
  | .inlineFragment none _ _ selections => enclosedFields selections
  | .inlineFragment (some typeCondition) _ _ selections =>
    (enclosedFields selections).map (.within ⟨typeCondition, true⟩)
  | .spread _ _ _ none => []
  | .spread _ _ _ (some fragment) => fragment.enclosedFields

/-- The fields of a fragment with the type conditions around them. -/
def Fragment.enclosedFields : Fragment → List EnclosedField
  | ⟨_, typeCondition, _, selections⟩ =>
    (GraphQLCompiler.enclosedFields selections).map (.within ⟨typeCondition, false⟩)

/-- The fields of selections with the type conditions around them. -/
def enclosedFields : List LinkedSelection → List EnclosedField
  | [] => []
  | selection :: rest => selection.enclosedFields ++ enclosedFields rest

end

/-- Whether a field with a response name occurs with enclosures that have a property. -/
def Occurs (fields : List EnclosedField) (name : Name) (property : List Enclosure → Prop) : Prop :=
  ∃ field ∈ fields, field.responseName = name ∧ property field.enclosures

section

variable {name : Name} {property : List Enclosure → Prop}

theorem not_occurs_nil : ¬ Occurs [] name property := fun ⟨_, mem, _⟩ => by cases mem

theorem occurs_singleton {responseName : Name} :
    Occurs [⟨responseName, []⟩] name property ↔ name = responseName ∧ property [] := by
  constructor
  · rintro ⟨field, mem, rfl, holds⟩
    rw [List.mem_singleton.1 mem] at holds ⊢
    exact ⟨rfl, holds⟩
  · rintro ⟨rfl, holds⟩
    exact ⟨_, List.mem_singleton_self _, rfl, holds⟩

theorem occurs_append {fields more : List EnclosedField} :
    Occurs (fields ++ more) name property ↔
      Occurs fields name property ∨ Occurs more name property := by
  constructor
  · rintro ⟨field, mem, h⟩
    exact (List.mem_append.1 mem).imp (fun mem => ⟨field, mem, h⟩) fun mem => ⟨field, mem, h⟩
  · rintro (⟨field, mem, h⟩ | ⟨field, mem, h⟩)
    · exact ⟨field, List.mem_append_left _ mem, h⟩
    · exact ⟨field, List.mem_append_right _ mem, h⟩

theorem occurs_within {enclosure : Enclosure} {fields : List EnclosedField} :
    Occurs (fields.map (.within enclosure)) name property ↔
      Occurs fields name fun enclosures => property (enclosure :: enclosures) := by
  constructor
  · rintro ⟨_, mem, eq, holds⟩
    obtain ⟨field, fieldMem, rfl⟩ := List.mem_map.1 mem
    exact ⟨field, fieldMem, eq, holds⟩
  · rintro ⟨field, mem, eq, holds⟩
    exact ⟨_, List.mem_map.2 ⟨field, mem, rfl⟩, eq, holds⟩

theorem occurs_and {condition : Prop} {fields : List EnclosedField} :
    (Occurs fields name fun enclosures => condition ∧ property enclosures) ↔
      condition ∧ Occurs fields name property := by
  constructor
  · rintro ⟨field, mem, eq, holds, h⟩
    exact ⟨holds, field, mem, eq, h⟩
  · rintro ⟨holds, field, mem, eq, h⟩
    exact ⟨field, mem, eq, holds, h⟩

end

/-- Whether type conditions all contain an object type. -/
def AllContain (schema : Schema) (object : Name) (enclosures : List Enclosure) : Prop :=
  ∀ enclosure ∈ enclosures, schema.isSubtypeOf object enclosure.typeCondition

/-- Whether a field with a response name is enclosed only by type conditions that contain an
object type. -/
def Selects (schema : Schema) (object : Name) (fields : List EnclosedField) (name : Name) : Prop :=
  Occurs fields name (AllContain schema object)

section

variable {schema : Schema} {object name : Name}

theorem selects_within {enclosure : Enclosure} {fields : List EnclosedField} :
    Selects schema object (fields.map (.within enclosure)) name ↔
      schema.isSubtypeOf object enclosure.typeCondition ∧ Selects schema object fields name := by
  unfold Selects AllContain
  rw [occurs_within, ← occurs_and]
  simp only [List.forall_mem_cons]

/-! ### What reaches a field -/

private theorem selects_nil : ¬ Selects schema object [] name := not_occurs_nil

mutual

private theorem exists_reached_selection_iff (ho : schema.isObject object) :
    ∀ selection : LinkedSelection,
    (∃ field ∈ selection.reached schema (fun _ => true) object, field.key? = some name) ↔
      Selects schema object selection.enclosedFields name
  | .field aliasName fieldName _ _ _ _ => by
    have contained : AllContain schema object [] := fun _ mem => by cases mem
    rw [Selection.reached, Selection.enclosedFields, Selects, occurs_singleton]
    simp only [List.mem_singleton, exists_eq_left, Selection.key?, Option.some.injEq, contained,
      and_true, @eq_comm _ name]
  | .inlineFragment none _ _ selections => by
    rw [Selection.reached, Selection.enclosedFields, if_pos (by simp)]
    exact exists_reached_iff ho selections
  | .inlineFragment (some typeCondition) _ _ selections => by
    rw [Selection.reached, Selection.enclosedFields, selects_within, Option.all_some]
    by_cases applies : schema.fragmentApplies object typeCondition
    · rw [if_pos ⟨rfl, applies⟩, exists_reached_iff ho selections]
      exact (and_iff_right ((Schema.fragmentApplies_iff ho).1 applies)).symm
    · rw [if_neg fun h => applies h.2, ← Schema.fragmentApplies_iff ho]
      simp [applies]
  | .spread _ _ _ none => by
    rw [Selection.reached, Selection.enclosedFields]
    exact iff_of_false (fun ⟨_, mem, _⟩ => by cases mem) selects_nil
  | .spread _ _ _ (some fragment) => by
    rw [Selection.reached, Selection.enclosedFields, if_pos rfl]
    exact exists_reached_fragment_iff ho fragment

private theorem exists_reached_fragment_iff (ho : schema.isObject object) :
    ∀ fragment : Fragment,
    (∃ field ∈ fragment.reached schema (fun _ => true) object, field.key? = some name) ↔
      Selects schema object fragment.enclosedFields name
  | ⟨_, typeCondition, _, selections⟩ => by
    rw [Fragment.reached, Fragment.enclosedFields, selects_within]
    by_cases applies : schema.fragmentApplies object typeCondition
    · rw [if_pos applies, exists_reached_iff ho selections]
      exact (and_iff_right ((Schema.fragmentApplies_iff ho).1 applies)).symm
    · rw [if_neg applies, ← Schema.fragmentApplies_iff ho]
      simp [applies]

private theorem exists_reached_iff (ho : schema.isObject object) :
    ∀ selections : List LinkedSelection,
    (∃ field ∈ reached schema (fun _ => true) object selections, field.key? = some name) ↔
      Selects schema object (enclosedFields selections) name
  | [] => by
    rw [reached, enclosedFields]
    exact iff_of_false (fun ⟨_, mem, _⟩ => by cases mem) selects_nil
  | selection :: rest => by
    have first := exists_reached_selection_iff ho selection
    have others := exists_reached_iff ho rest
    rw [reached, enclosedFields, Selects, occurs_append, ← Selects, ← Selects, ← first, ← others]
    simp only [List.mem_append, or_and_right, exists_or]

end

/-- **The response names of an execution** are those of the fields that are enclosed only by type
conditions that contain the type of the object. -/
theorem mem_executedNames_iff (ho : schema.isObject object) {find : Name → Option Fragment}
    {selections : List LinkedSelection} (linked : LinkedBy find selections) :
    name ∈ executedNames schema object selections ↔
      Selects schema object (enclosedFields selections) name := by
  rw [executedNames, mem_names_execute_iff linked, ← exists_reached_iff ho]
  simp [Selection.Gives]

end

end GraphQLCompiler
