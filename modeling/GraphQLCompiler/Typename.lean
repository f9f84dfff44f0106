import GraphQLCompiler.Schema.Basic

/-!
# Selecting type names

Responses tell the types of their objects if every selection set selects `__typename`. It is put
first into every selection set that has selections and does not start with it already. The
selection sets at root types of operations stay as they are, and so do those under fields that are
not defined.

## Main definitions

* `OperationDefinition.withTypename`, `FragmentDefinition.withTypename`: a definition with type
  names selected.
-/

namespace GraphQLCompiler

/-- The selection of a type name. -/
def typenameField : Selection Unit := .field none "__typename" [] [] none []

/-- Whether selections start with that of a type name under its own name. -/
def startsWithTypename : WrittenSelections → Bool
  | .field none name _ _ _ _ :: _ => name = "__typename"
  | _ => false

/-- Selections at a type with that of the type name in front, where it belongs. -/
def insertTypename (schema : Schema) (parent : Name) (selections : WrittenSelections) :
    WrittenSelections :=
  if selections.isEmpty || schema.isRootType parent || startsWithTypename selections then selections
  else typenameField :: selections

mutual

/-- A selection at a type with type names selected inside it. -/
def Selection.withTypename (schema : Schema) (parent : Name) : Selection Unit → Selection Unit
  | .field aliasName name arguments directives location selections =>
    match schema.fieldDefinition? parent name with
    | none => .field aliasName name arguments directives location selections
    | some definition =>
      let type := definition.type.bare
      .field aliasName name arguments directives location
        (insertTypename schema type (withTypenameInside schema type selections))
  | .inlineFragment typeCondition directives location selections =>
    let type := typeCondition.getD parent
    .inlineFragment typeCondition directives location
      (insertTypename schema type (withTypenameInside schema type selections))
  | .spread name directives location target => .spread name directives location target

/-- Selections at a type with type names selected inside each of them. -/
def withTypenameInside (schema : Schema) (parent : Name) :
    List (Selection Unit) → List (Selection Unit)
  | [] => []
  | selection :: rest =>
    selection.withTypename schema parent :: withTypenameInside schema parent rest

end

theorem isEmpty_withTypenameInside (schema : Schema) (parent : Name)
    (selections : WrittenSelections) :
    (withTypenameInside schema parent selections).isEmpty = selections.isEmpty := by
  cases selections <;> rfl

/-- Selections at a type with type names selected. -/
def withTypename (schema : Schema) (parent : Name) (selections : WrittenSelections) :
    WrittenSelections :=
  insertTypename schema parent (withTypenameInside schema parent selections)

/-- An operation with type names selected. An operation without a root type stays as it is. -/
def OperationDefinition.withTypename (schema : Schema) (definition : OperationDefinition) :
    OperationDefinition :=
  match schema.rootType? definition.operationType with
  | none => definition
  | some root =>
    { definition with selections := GraphQLCompiler.withTypename schema root definition.selections }

/-- A fragment with type names selected. -/
def FragmentDefinition.withTypename (schema : Schema) (definition : FragmentDefinition) :
    FragmentDefinition :=
  { definition with
    selections :=
      GraphQLCompiler.withTypename schema definition.typeCondition definition.selections }

end GraphQLCompiler
