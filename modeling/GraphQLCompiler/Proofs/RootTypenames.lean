import GraphQLCompiler.Proofs.Cycles
import GraphQLCompiler.Proofs.Containment
import GraphQLCompiler.Proofs.Execution
import GraphQLCompiler.Typename

/-!
# Type names at the root of operations

Type names are meant to be selected everywhere but at the root of operations. Whether a selection
set is one of the root is told by its static type. But the root object of an operation also executes
selection sets of other static types, those of interfaces and unions that contain its type. So an
operation with type names selected gives the response names that it gives as written, and besides
`__typename` if one of the selection sets that are executed has a static type that is no root type
(`mem_executedNames_withTypename_iff`).

The proof follows the selections as written. What each of them reaches is compared with what it
reaches with type names selected (`Extends`), and fragments are compared by induction along the
spreads.
-/

namespace GraphQLCompiler

/-! ### Static types of what is executed -/

section

variable (schema : Schema) (object : Name)

mutual

/-- The static types of the selection sets inside a selection at a type that are executed for an
object, of those that are not empty. -/
def Selection.executedTypes (parent : Name) : LinkedSelection → List Name
  | .field _ _ _ _ _ _ => []
  | .inlineFragment typeCondition _ _ selections =>
    if typeCondition.all (schema.fragmentApplies object) then
      let type := typeCondition.getD parent
      if selections.isEmpty then [] else type :: executedTypesInside type selections
    else []
  | .spread _ _ _ none => []
  | .spread _ _ _ (some fragment) => fragment.executedTypes

/-- The static types of the selection sets of a fragment that are executed for an object. -/
def Fragment.executedTypes : Fragment → List Name
  | ⟨_, typeCondition, _, selections⟩ =>
    if schema.fragmentApplies object typeCondition then
      if selections.isEmpty then [] else
        typeCondition :: executedTypesInside typeCondition selections
    else []

/-- The static types of the selection sets inside selections at a type that are executed for an
object. -/
def executedTypesInside (parent : Name) : List LinkedSelection → List Name
  | [] => []
  | selection :: rest => selection.executedTypes parent ++ executedTypesInside parent rest

end

/-- The static types of the selection sets that are executed for an object, starting from selections
at a type, of those that are not empty. -/
def executedTypes (parent : Name) (selections : List LinkedSelection) : List Name :=
  if selections.isEmpty then [] else parent :: executedTypesInside schema object parent selections

/-- The keys of the fields that selections reach for an object, whatever their directives. -/
def reachedKeys (selections : List LinkedSelection) : List Name :=
  (reached schema (fun _ => true) object selections).filterMap Selection.key?

end

section

variable {schema : Schema} {object parent : Name}

theorem Fragment.executedTypes_eq (fragment : Fragment) :
    fragment.executedTypes schema object
      = if schema.fragmentApplies object fragment.typeCondition then
          GraphQLCompiler.executedTypes schema object fragment.typeCondition fragment.selections
        else [] := by
  cases fragment
  rw [executedTypes]
  rfl

/-- The response names of an execution are the keys that are reached. -/
theorem mem_executedNames_iff_mem_reachedKeys {find : Name → Option Fragment}
    {selections : List LinkedSelection} (linked : LinkedBy find selections) {name : Name} :
    name ∈ executedNames schema object selections ↔ name ∈ reachedKeys schema object selections := by
  rw [executedNames, mem_names_execute_iff linked, reachedKeys, List.mem_filterMap]
  simp only [Selection.Gives, and_true]

theorem reachedKeys_cons (selection : LinkedSelection) (rest : List LinkedSelection) :
    reachedKeys schema object (selection :: rest)
      = reachedKeys schema object [selection] ++ reachedKeys schema object rest := by
  simp only [reachedKeys, reached, List.filterMap_append, List.append_nil]

theorem reachedKeys_field {aliasName : Option Name} {name : Name} {arguments : List Argument}
    {directives : List Directive} {location : Option Span} {selections : List LinkedSelection} :
    reachedKeys schema object [.field aliasName name arguments directives location selections]
      = [responseName aliasName name] := by
  rw [reachedKeys, reached, reached, Selection.reached]
  rfl

theorem reachedKeys_inlineFragment {typeCondition : Option Name} {directives : List Directive}
    {location : Option Span} {selections : List LinkedSelection} :
    reachedKeys schema object [.inlineFragment typeCondition directives location selections]
      = if typeCondition.all (schema.fragmentApplies object) then
          reachedKeys schema object selections else [] := by
  rw [reachedKeys, reached, reached, Selection.reached, List.append_nil]
  simp only [true_and]
  split
  · rfl
  · rfl

theorem reachedKeys_spread {name : Name} {directives : List Directive} {location : Option Span}
    {fragment : Fragment} :
    reachedKeys schema object [.spread name directives location (some fragment)]
      = if schema.fragmentApplies object fragment.typeCondition then
          reachedKeys schema object fragment.selections else [] := by
  rw [reachedKeys, reached, reached, Selection.reached, List.append_nil, if_pos rfl]
  cases fragment
  rw [Fragment.reached]
  split
  · rfl
  · rfl

end

/-! ### What selecting type names adds -/

section

variable {schema : Schema} {object : Name}

/-- Whether names are extended by `__typename`, if one of some types is no root type, and by nothing
else. -/
def Extends (schema : Schema) (types before after : List Name) : Prop :=
  ∀ name, name ∈ after ↔
    name ∈ before ∨ name = "__typename" ∧ ∃ type ∈ types, schema.isRootType type = false

private theorem extends_refl (names : List Name) : Extends schema [] names names := by
  intro name
  simp

private theorem Extends.append {types types' before before' after after' : List Name}
    (h : Extends schema types before after) (h' : Extends schema types' before' after') :
    Extends schema (types ++ types') (before ++ before') (after ++ after') := by
  intro name
  simp only [List.mem_append, h name, h' name, or_and_right, exists_or, and_or_left]
  exact or_or_or_comm

/-- Whether a fragment gives for an object what another gives, extended by `__typename` where that is
selected. -/
structure Fragment.ExtendsTo (schema : Schema) (object : Name) (fragment fragment' : Fragment) :
    Prop where
  typeCondition_eq : fragment.typeCondition = fragment'.typeCondition
  keys : Extends schema
    (GraphQLCompiler.executedTypes schema object fragment.typeCondition fragment.selections)
    (reachedKeys schema object fragment.selections)
    (reachedKeys schema object fragment'.selections)

variable {find find' : Name → Option Fragment}

private theorem isEmpty_link (selections : WrittenSelections) :
    (link find selections).isEmpty = selections.isEmpty := by
  cases selections <;> rfl

/-- The type name is reached where it is selected first. -/
private theorem mem_reachedKeys_of_startsWithTypename {selections : WrittenSelections}
    (starts : startsWithTypename selections) :
    "__typename" ∈ reachedKeys schema object (link find selections) := by
  unfold startsWithTypename at starts
  split at starts
  · rw [link, Selection.link, reachedKeys_cons, reachedKeys_field, responseName,
      of_decide_eq_true starts]
    exact List.mem_append_left _ (List.mem_singleton_self _)
  · cases starts

/-- What is added inside selections and in front of them. -/
private theorem Extends.insertTypename {parent : Name} {selections : WrittenSelections}
    (inside : Extends schema (executedTypesInside schema object parent (link find selections))
      (reachedKeys schema object (link find selections))
      (reachedKeys schema object (link find' (withTypenameInside schema parent selections)))) :
    Extends schema (executedTypes schema object parent (link find selections))
      (reachedKeys schema object (link find selections))
      (reachedKeys schema object (link find' (withTypename schema parent selections))) := by
  rw [executedTypes, isEmpty_link, withTypename, GraphQLCompiler.insertTypename,
    isEmpty_withTypenameInside]
  by_cases empty : selections.isEmpty
  · obtain rfl := List.isEmpty_iff.1 empty
    exact extends_refl _
  rw [if_neg empty]
  by_cases root : schema.isRootType parent
  · -- a root type selects no type name, and does not count
    rw [if_pos (by simp [root])]
    intro name
    rw [inside name]
    simp [root]
  · have typename : ∃ type ∈ parent :: executedTypesInside schema object parent
        (link find selections), schema.isRootType type = false :=
      ⟨parent, List.mem_cons_self, by simpa using root⟩
    have others : ∀ name, name ≠ "__typename" →
        (name ∈ reachedKeys schema object
            (link find' (withTypenameInside schema parent selections)) ↔
          name ∈ reachedKeys schema object (link find selections)) := fun name ne => by
      rw [inside name]
      simp [ne]
    split
    · rename_i kept
      have starts : startsWithTypename (withTypenameInside schema parent selections) := by
        simpa [empty, root] using kept
      intro name
      by_cases eq : name = "__typename"
      · subst eq
        exact iff_of_true (mem_reachedKeys_of_startsWithTypename starts) (.inr ⟨rfl, typename⟩)
      · rw [others name eq]
        simp [eq]
    · intro name
      rw [link, reachedKeys_cons, typenameField, Selection.link, reachedKeys_field,
        List.mem_append, List.mem_singleton]
      by_cases eq : name = "__typename"
      · exact iff_of_true (.inl eq) (.inr ⟨eq, typename⟩)
      · rw [others name eq]
        simp [eq, responseName]

mutual

private theorem selection_extends (parent : Name) : ∀ selection : Selection Unit,
    (∀ name ∈ selection.spreadNames,
      Option.Rel (Fragment.ExtendsTo schema object) (find name) (find' name)) →
    Extends schema ((selection.link find).executedTypes schema object parent)
      (reachedKeys schema object [selection.link find])
      (reachedKeys schema object [(selection.withTypename schema parent).link find'])
  | .field aliasName name arguments directives location selections, _ => by
    have key : reachedKeys schema object [((Selection.field aliasName name arguments directives
        location selections).withTypename schema parent).link find']
        = [responseName aliasName name] := by
      rw [Selection.withTypename]
      split <;> exact reachedKeys_field
    rw [key, Selection.link, reachedKeys_field, Selection.executedTypes]
    exact extends_refl _
  | .inlineFragment typeCondition _ _ selections, fragments => by
    simp only [mem_spreadNames_inlineFragment] at fragments
    rw [Selection.withTypename, Selection.link, Selection.link, reachedKeys_inlineFragment,
      reachedKeys_inlineFragment, Selection.executedTypes]
    split
    · exact (inside_extends _ selections fragments).insertTypename
    · exact extends_refl _
  | .spread name _ _ _, fragments => by
    have related := fragments name (mem_spreadNames_spread.2 rfl)
    rw [Selection.withTypename, Selection.link, Selection.link]
    generalize find name = target, find' name = target' at related ⊢
    cases related with
    | none =>
      rw [Selection.executedTypes]
      exact extends_refl _
    | @some fragment fragment' related =>
      rw [Selection.executedTypes, fragment.executedTypes_eq, reachedKeys_spread,
        reachedKeys_spread, ← related.typeCondition_eq]
      split
      · exact related.keys
      · exact extends_refl _

private theorem inside_extends (parent : Name) : ∀ selections : WrittenSelections,
    (∀ name ∈ spreadNames selections,
      Option.Rel (Fragment.ExtendsTo schema object) (find name) (find' name)) →
    Extends schema (executedTypesInside schema object parent (link find selections))
      (reachedKeys schema object (link find selections))
      (reachedKeys schema object (link find' (withTypenameInside schema parent selections)))
  | [], _ => by
    rw [withTypenameInside, link, link, executedTypesInside]
    exact extends_refl _
  | selection :: rest, fragments => by
    simp only [mem_spreadNames_cons, or_imp, forall_and] at fragments
    rw [withTypenameInside, link, link, executedTypesInside, reachedKeys_cons,
      reachedKeys_cons (selection.withTypename schema parent |>.link find')]
    exact (selection_extends parent selection fragments.1).append
      (inside_extends parent rest fragments.2)

end

end

/-! ### Documents -/

section

variable {schema : Schema}

private theorem mem_spreadNames_insertTypename {name : Name} (parent : Name)
    (selections : WrittenSelections) :
    name ∈ spreadNames (insertTypename schema parent selections) ↔
      name ∈ spreadNames selections := by
  unfold insertTypename
  split
  · rfl
  · simp [typenameField]

mutual

private theorem mem_spreadNames_selection_withTypename {name : Name} (parent : Name) :
    ∀ selection : Selection Unit,
      name ∈ (selection.withTypename schema parent).spreadNames ↔ name ∈ selection.spreadNames
  | .field _ _ _ _ _ selections => by
    rw [Selection.withTypename]
    split
    · rfl
    · dsimp only
      rw [mem_spreadNames_field, mem_spreadNames_field, mem_spreadNames_insertTypename,
        mem_spreadNames_withTypenameInside _ selections]
  | .inlineFragment _ _ _ selections => by
    rw [Selection.withTypename, mem_spreadNames_inlineFragment, mem_spreadNames_inlineFragment,
      mem_spreadNames_insertTypename, mem_spreadNames_withTypenameInside _ selections]
  | .spread _ _ _ _ => by rw [Selection.withTypename]

private theorem mem_spreadNames_withTypenameInside {name : Name} (parent : Name) :
    ∀ selections : WrittenSelections,
      name ∈ spreadNames (withTypenameInside schema parent selections) ↔
        name ∈ spreadNames selections
  | [] => by rw [withTypenameInside]
  | selection :: rest => by
    rw [withTypenameInside, mem_spreadNames_cons, mem_spreadNames_cons,
      mem_spreadNames_selection_withTypename parent selection,
      mem_spreadNames_withTypenameInside parent rest]

end

private theorem mem_spreadNames_withTypename {name : Name} (parent : Name)
    (selections : WrittenSelections) :
    name ∈ spreadNames (withTypename schema parent selections) ↔ name ∈ spreadNames selections := by
  rw [withTypename, mem_spreadNames_insertTypename, mem_spreadNames_withTypenameInside]

variable {definitions : List FragmentDefinition} {library : FragmentLibrary}

/-- The fragments of each name with type names selected. -/
private theorem find?_ofList_withTypename (definitions : List FragmentDefinition) (name : Name) :
    (FragmentTable.ofList (definitions.map (FragmentDefinition.withTypename schema))).find? name
      = ((FragmentTable.ofList definitions).find? name).map
          (FragmentDefinition.withTypename schema) := by
  rw [FragmentTable.find?_ofList, FragmentTable.find?_ofList, ← List.map_reverse, List.find?_map]
  rfl

/-- Selecting type names makes no cycles. -/
private theorem exists_library_withTypename
    (acyclic : (FragmentTable.ofList definitions).library = .ok library) :
    ∃ library', (FragmentTable.ofList
      (definitions.map (FragmentDefinition.withTypename schema))).library = .ok library' := by
  rw [FragmentTable.exists_library_iff]
  have spreads : ∀ name other, (FragmentTable.ofList
      (definitions.map (FragmentDefinition.withTypename schema))).Spreads name other →
        (FragmentTable.ofList definitions).Spreads name other := by
    rintro name other ⟨_, found, mem⟩
    rw [find?_ofList_withTypename, Option.map_eq_some_iff] at found
    obtain ⟨definition, found, rfl⟩ := found
    exact ⟨definition, found, (mem_spreadNames_withTypename _ _).1 mem⟩
  exact fun name loop => FragmentTable.exists_library_iff.1 ⟨library, acyclic⟩ name
    (Relation.TransGen.mono spreads _ _ loop)

/-- The linked fragments of a name give the same but for type names. -/
private theorem extendsTo_library {library' : FragmentLibrary}
    (acyclic : (FragmentTable.ofList definitions).library = .ok library)
    (acyclic' : (FragmentTable.ofList
      (definitions.map (FragmentDefinition.withTypename schema))).library = .ok library')
    (object name : Name) :
    Option.Rel (Fragment.ExtendsTo schema object) (library.find? name) (library'.find? name) := by
  refine FragmentTable.find?_library_induction acyclic (fun name target =>
    Option.Rel (Fragment.ExtendsTo schema object) target (library'.find? name)) ?_ ?_ name
  · intro name missing
    rw [FragmentTable.find?_library acyclic', find?_ofList_withTypename, missing]
    exact .none
  · intro name definition found below
    rw [FragmentTable.find?_library acyclic', find?_ofList_withTypename, found]
    exact .some ⟨rfl, (inside_extends _ definition.selections below).insertTypename⟩

/-- **What selecting type names adds at the root of an operation.** Definitions with type names
selected have no cycles if they have none as written. An operation with type names selected then
gives for its root object the response names that it gives as written, and besides `__typename` if a
selection set that is executed for the root object has a static type that is no root type. So the
names stay the same exactly if `__typename` is among them anyway, or if all static types are root
types. -/
theorem mem_executedNames_withTypename_iff {definition : OperationDefinition} {root : Name}
    (acyclic : (FragmentTable.ofList definitions).library = .ok library)
    (rooted : schema.rootType? definition.operationType = some root) :
    ∃ library', (FragmentTable.ofList
        (definitions.map (FragmentDefinition.withTypename schema))).library = .ok library' ∧
      let before := executedNames schema root (link library.find? definition.selections)
      let after := executedNames schema root
        (link library'.find? (definition.withTypename schema).selections)
      let types := executedTypes schema root root (link library.find? definition.selections)
      (∀ name, name ∈ after ↔
        name ∈ before ∨ name = "__typename" ∧ ∃ type ∈ types, schema.isRootType type = false) ∧
      ((∀ name, name ∈ after ↔ name ∈ before) ↔
        "__typename" ∈ before ∨ ∀ type ∈ types, schema.isRootType type) := by
  obtain ⟨library', acyclic'⟩ : ∃ library', (FragmentTable.ofList
      (definitions.map (FragmentDefinition.withTypename schema))).library = .ok library' :=
    exists_library_withTypename acyclic
  refine ⟨library', acyclic', ?_⟩
  intro before after types
  have named := FragmentTable.isNamed_ofList definitions
  have adds : ∀ name, name ∈ after ↔
      name ∈ before ∨ name = "__typename" ∧ ∃ type ∈ types, schema.isRootType type = false := by
    intro name
    have linked := FragmentTable.linkedBy_link acyclic named definition.selections
    have linked' := FragmentTable.linkedBy_link acyclic' (FragmentTable.isNamed_ofList _)
      (definition.withTypename schema).selections
    rw [mem_executedNames_iff_mem_reachedKeys linked, mem_executedNames_iff_mem_reachedKeys linked',
      OperationDefinition.withTypename, rooted]
    exact (inside_extends root definition.selections fun name _ =>
      extendsTo_library acyclic acyclic' root name).insertTypename name
  refine ⟨adds, ?_, ?_⟩
  · intro same
    by_cases rootTypes : ∀ type ∈ types, schema.isRootType type
    · exact .inr rootTypes
    · push Not at rootTypes
      obtain ⟨type, mem, other⟩ := rootTypes
      exact .inl ((same _).1 ((adds _).2 (.inr ⟨rfl, type, mem, by simpa using other⟩)))
  · rintro (selected | rootTypes) name
    · rw [adds, or_iff_left_iff_imp]
      rintro ⟨rfl, -⟩
      exact selected
    · rw [adds, or_iff_left_iff_imp]
      rintro ⟨-, type, mem, other⟩
      rw [rootTypes type mem] at other
      cases other

/-- A schema whose root types implement an interface. -/
def nodeSchema : Schema where
  types := [("ID", .scalar), ("Query", .object ["Node"] [id]),
    ("Subscription", .object ["Node"] [id]), ("Node", .interface [] [id])]
  roots := { query := some "Query", subscription := some "Subscription" }
  directives := []
where
  /-- The identifier of a node. -/
  id : FieldDefinition :=
    { description := none, name := "id", arguments := [], type := .named "ID" false }

/-- A subscription to the identifier of nodes. -/
def nodeSubscription : OperationDefinition where
  operationType := .subscription
  name := some "S"
  variableDefinitions := []
  directives := []
  location := none
  selections := [plainInline "Node" [plainField "id" []]]

/-- The subscription has one field at its root, and two with type names selected: nodes are no root
type, though what is executed for them is executed for the root. -/
theorem mem_executedNames_withTypename_iff_nodeSubscription :
    ∃ library library', (FragmentTable.ofList []).library = .ok library ∧
      (FragmentTable.ofList
        (([] : List FragmentDefinition).map (·.withTypename nodeSchema))).library = .ok library' ∧
      executedNames nodeSchema "Subscription" (link library.find? nodeSubscription.selections)
        = ["id"] ∧
      "__typename" ∈ executedNames nodeSchema "Subscription"
        (link library'.find? (nodeSubscription.withTypename nodeSchema).selections) := by
  obtain ⟨library, acyclic, before, types⟩ : ∃ library,
      (FragmentTable.ofList []).library = .ok library ∧
      executedNames nodeSchema "Subscription" (link library.find? nodeSubscription.selections)
        = ["id"] ∧
      executedTypes nodeSchema "Subscription" "Subscription"
        (link library.find? nodeSubscription.selections) = ["Subscription", "Node"] :=
    ⟨_, by cbv, by cbv, by cbv⟩
  have rooted : nodeSchema.rootType? nodeSubscription.operationType = some "Subscription" := rfl
  obtain ⟨library', acyclic', adds, -⟩ := mem_executedNames_withTypename_iff acyclic rooted
  refine ⟨library, library', acyclic, acyclic', before, (adds "__typename").2 (.inr ⟨rfl, ?_⟩)⟩
  rw [types]
  exact ⟨"Node", by simp, by decide +kernel⟩

end

end GraphQLCompiler
