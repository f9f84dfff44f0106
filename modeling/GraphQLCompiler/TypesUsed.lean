import GraphQLCompiler.Schema.Basic

/-!
# Used types

Generated code needs declarations for the enums, the input objects and the scalars other than the
built-in ones that a document uses. An input object uses the types of its fields too. Used types
are in the order in which they were first met.

## Main definitions

* `TypesUsed.add`: adds a type and what it uses.
-/

namespace GraphQLCompiler

/-- Names of used types, without repetition. -/
abbrev TypesUsed := List Name

/-- Whether a name stands for a type that needs a declaration. -/
def Schema.needsDeclaration (schema : Schema) (name : Name) : Bool :=
  match schema.typeKind? name with
  | some .enum | some .inputObject => true
  | some .scalar => !Schema.isBuiltInScalar name
  | _ => false

theorem Schema.mem_keys_of_needsDeclaration {schema : Schema} {name : Name}
    (h : schema.needsDeclaration name) : name ∈ schema.types.keys := by
  unfold Schema.needsDeclaration Schema.typeKind? Schema.find? at h
  cases hf : schema.types.find? name with
  | none => simp [hf] at h
  | some definition => exact List.mem_map.2 ⟨_, NameMap.mem_of_find?_eq_some hf, rfl⟩

namespace TypesUsed

/-- Adds types and what they use, depth first. A type that has been added before is left alone, so
types that use themselves do no harm. -/
def addAll (schema : Schema) (used : TypesUsed) : List Name → TypesUsed
  | [] => used
  | name :: rest =>
    if schema.needsDeclaration name ∧ name ∉ used then
      addAll schema (used ++ [name]) (schema.inputFieldTypes name ++ rest)
    else addAll schema used rest
termination_by names => (countOutside schema.types.keys used, names.length)
decreasing_by
  · have new : schema.needsDeclaration name ∧ name ∉ used := ‹_›
    exact .left _ _ (countOutside_lt (by simp) (schema.mem_keys_of_needsDeclaration new.1) new.2
      (by simp))
  · exact .right _ (by simp)

/-- Adds a type and what it uses. -/
def add (schema : Schema) (used : TypesUsed) (name : Name) : TypesUsed :=
  addAll schema used [name]

end TypesUsed

end GraphQLCompiler
