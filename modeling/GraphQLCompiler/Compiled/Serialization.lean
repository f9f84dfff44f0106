import GraphQLCompiler.Compiled.Basic

/-!
# Compiled documents in JSON

Types are strings as they are written. What is absent, empty or false by default is left out, and
the selection set of a field stands among the members of the field.

## Main definitions

* `Compiled.Document.toJson`: the JSON of a document.
-/

namespace GraphQLCompiler

namespace Compiled

/-! ### Fields -/

/-- The JSON of an argument. -/
def Argument.toJson (a : Argument) : Json :=
  .object [("name", .string a.name), ("value", a.value)]

/-- The members that tell about a field itself. -/
def Field.ownMembers (field : Field) : List (String × Json) :=
  [("responseName", .string field.responseName), ("fieldName", .string field.fieldName),
    ("type", .string field.type.print)] ++
  (if field.arguments.isEmpty then []
    else [("args", .array (field.arguments.map Argument.toJson))]) ++
  (if field.isConditional then [("isConditional", .bool true)] else []) ++
  Json.optionalMember "description" (field.description.map .string)

mutual

/-- The JSON of a field. -/
def Field.toJson : Field → Json
  | ⟨responseName, fieldName, type, arguments, isConditional, description, selectionSet⟩ =>
    .object
      (Field.ownMembers ⟨responseName, fieldName, type, arguments, isConditional, description, none⟩
        ++ optionalMembers selectionSet)

/-- The members for the selection set of a field that may have one. -/
def optionalMembers : Option (Selected Field) → List (String × Json)
  | none => []
  | some selectionSet => SelectionSet.members selectionSet

/-- The members for a selection set. -/
def SelectionSet.members : Selected Field → List (String × Json)
  | ⟨fields, fragmentSpreads, inlineFragments⟩ =>
    [("fields", .array (fieldsToJson fields)), ("fragmentSpreads", .strings fragmentSpreads),
      ("inlineFragments", .array (inlineFragmentsToJson inlineFragments))]

/-- The JSON of a branch. -/
def InlineFragment.toJson : Branch Field → Json
  | ⟨typeCondition, possibleTypes, fields, fragmentSpreads⟩ =>
    .object [
      ("typeCondition", .string typeCondition), ("possibleTypes", .strings possibleTypes),
      ("fields", .array (fieldsToJson fields)), ("fragmentSpreads", .strings fragmentSpreads)]

/-- The JSON of fields. -/
def fieldsToJson : List Field → List Json
  | [] => []
  | field :: rest => field.toJson :: fieldsToJson rest

/-- The JSON of branches. -/
def inlineFragmentsToJson : List (Branch Field) → List Json
  | [] => []
  | branch :: rest => InlineFragment.toJson branch :: inlineFragmentsToJson rest

end

/-! ### Definitions -/

/-- The JSON of a variable. -/
def Variable.toJson (v : Variable) : Json :=
  .object [("name", .string v.name), ("type", .string v.type.print)]

/-- The JSON of an operation. -/
def Operation.toJson (o : Operation) : Json :=
  .object <| Json.optionalMember "filePath" (o.filePath.map .string) ++ [
    ("operationName", .string o.name),
    ("operationType", .string o.operationType.keyword),
    ("rootType", .string o.rootType),
    ("variables", .array (o.variableDefinitions.map Variable.toJson)),
    ("source", .string o.source),
    ("sourceWithFragments", .string o.sourceWithFragments),
    ("fields", .array (fieldsToJson o.fields)),
    ("fragmentsReferenced", .strings o.fragmentsReferenced)]

/-- The JSON of a fragment. -/
def Fragment.toJson (f : Fragment) : Json :=
  .object <| Json.optionalMember "filePath" (f.filePath.map .string) ++ [
    ("fragmentName", .string f.name),
    ("source", .string f.source),
    ("typeCondition", .string f.typeCondition),
    ("possibleTypes", .strings f.possibleTypes)] ++
    SelectionSet.members f.selectionSet ++
    [("fragmentsReferenced", .strings f.fragmentsReferenced)]

/-- The JSON of a document. -/
def Document.toJson (d : Document) : Json :=
  .object [
    ("operations", .object (d.operations.map fun (name, o) => (name, o.toJson))),
    ("fragments", .object (d.fragments.map fun (name, f) => (name, f.toJson))),
    ("typesUsed", .strings d.typesUsed)]

end Compiled

end GraphQLCompiler
