import GraphQLCompiler.Typename
import GraphQLCompiler.Syntax.Document
import Mathlib.Data.List.Basic

/-!
# Where type names are selected

A definition is read as the list of its selection sets in preorder: those that have selections,
each with its static type and with the selections themselves, less what is inside them. Such a
selection set is a **level** of the definition. The levels of a definition with type names selected
are the levels of the definition, some of them with the selection of a type name in front, and
which of them is decided level by level.

Nothing is lost in this view. A level says of each of its selections whether it has sub-selections,
so the levels of a definition can be read back as prefix notation is, and two definitions with the
same levels and the same parts outside of selections are the same. This is why the list of levels
determines the definition with type names selected, and why selecting type names twice changes
nothing the second time.

## Main definitions

* `SelectionHead`, `Level`: a selection without what is inside, a selection set of such.
* `Definition.levels`: the selection sets of a definition that have selections, in preorder.
* `Level.lacksTypename`: whether the selection of a type name belongs in front of a level.

## Main results

* `levels_withTypename`: selecting type names acts on each level by itself.
* `eq_of_levels_eq`: levels determine selections.
* `eq_withTypename_iff`: what selecting type names inserts, and that it inserts nothing more.
-/

namespace GraphQLCompiler

/-! ### Levels of a definition -/

/-- A selection with everything but what is inside: the selection without sub-selections, and
whether it has any. -/
structure SelectionHead where
  selection : Selection Unit
  nested : Bool

/-- A selection less its sub-selections. -/
def Selection.head : Selection Unit → SelectionHead
  | .field aliasName name arguments directives location selections =>
    ⟨.field aliasName name arguments directives location [], !selections.isEmpty⟩
  | .inlineFragment typeCondition directives location selections =>
    ⟨.inlineFragment typeCondition directives location [], !selections.isEmpty⟩
  | .spread name directives location target => ⟨.spread name directives location target, false⟩

/-- A selection set of a definition: its **static type**, if it has one, whether it is **reached**,
that is, whether the root type of the definition exists and every field around the selection set is
defined on the static type that it is selected on, and its selections. -/
structure Level where
  type : Option Name
  reached : Bool
  heads : List SelectionHead

namespace Level

variable (schema : Schema)

/-- Whether the first selection of a level is that of a type name under its own name. -/
def startsWithTypename (level : Level) : Bool :=
  GraphQLCompiler.startsWithTypename (level.heads.map SelectionHead.selection)

/-- Whether the selection of a type name belongs in front of a level: it is reached, its static type
is not a root type, and it does not start so already. -/
def lacksTypename (level : Level) : Bool :=
  level.reached && level.type.any (fun type => !schema.isRootType type) &&
    !level.startsWithTypename

/-- A level with the selection of a type name in front, where it belongs. -/
def withTypename (level : Level) : Level :=
  if level.lacksTypename schema then { level with heads := typenameField.head :: level.heads }
  else level

end Level

/-- Puts selections as a level before the levels inside them, unless there are none. -/
def Level.push (type : Option Name) (reached : Bool) (selections : WrittenSelections)
    (inside : List Level) : List Level :=
  if selections.isEmpty then inside else ⟨type, reached, selections.map Selection.head⟩ :: inside

mutual

/-- The levels inside a selection at a static type. The sub-selections of a field are at the bare
type that the field is defined with, those of an inline fragment at its type condition, or at the
type around it if it has none. -/
def Selection.levels (schema : Schema) (type : Option Name) (reached : Bool) :
    Selection Unit → List Level
  | .field _ name _ _ _ selections =>
    let definition := type.bind (schema.fieldDefinition? · name)
    let inner := definition.map (·.type.bare)
    let innerReached := reached && definition.isSome
    Level.push inner innerReached selections (levelsInside schema inner innerReached selections)
  | .inlineFragment typeCondition _ _ selections =>
    let inner := typeCondition.or type
    Level.push inner reached selections (levelsInside schema inner reached selections)
  | .spread _ _ _ _ => []

/-- The levels inside some selections at a static type, in order. -/
def levelsInside (schema : Schema) (type : Option Name) (reached : Bool) :
    List (Selection Unit) → List Level
  | [] => []
  | selection :: rest =>
    selection.levels schema type reached ++ levelsInside schema type reached rest

end

/-- The levels of selections at a static type: the selections themselves and what is inside. -/
def levels (schema : Schema) (type : Option Name) (reached : Bool)
    (selections : WrittenSelections) : List Level :=
  Level.push type reached selections (levelsInside schema type reached selections)

namespace Definition

variable (schema : Schema)

/-- A definition with type names selected, if it can be executed. -/
def withTypename : Definition → Definition
  | operation definition => operation (definition.withTypename schema)
  | fragment definition => fragment (definition.withTypename schema)
  | typeSystem definition => typeSystem definition

/-- The levels of a definition. Those of an operation without a root type are not reached. -/
def levels : Definition → List Level
  | operation definition =>
    let root := schema.rootType? definition.operationType
    GraphQLCompiler.levels schema root root.isSome definition.selections
  | fragment definition =>
    GraphQLCompiler.levels schema (some definition.typeCondition) true definition.selections
  | typeSystem _ => []

/-- A definition without selections. -/
def withoutSelections : Definition → Definition
  | operation definition => operation { definition with selections := [] }
  | fragment definition => fragment { definition with selections := [] }
  | typeSystem definition => typeSystem definition

end Definition

variable {schema : Schema}

/-! ### Selecting type names, level by level -/

private theorem isEmpty_insertTypename (parent : Name) (selections : WrittenSelections) :
    (insertTypename schema parent selections).isEmpty = selections.isEmpty := by
  unfold insertTypename
  split <;> simp_all

/-- Type names selected inside a selection do not show at its own level. -/
private theorem head_withTypename (parent : Name) (selection : Selection Unit) :
    (selection.withTypename schema parent).head = selection.head := by
  cases selection with
  | field aliasName name arguments directives location selections =>
    rw [Selection.withTypename]
    split
    · rfl
    · rw [Selection.head, Selection.head, isEmpty_insertTypename, isEmpty_withTypenameInside]
  | inlineFragment typeCondition directives location selections =>
    rw [Selection.withTypename, Selection.head, Selection.head, isEmpty_insertTypename,
      isEmpty_withTypenameInside]
  | spread name directives location target => rfl

private theorem heads_withTypenameInside (parent : Name) :
    ∀ selections : WrittenSelections,
      (withTypenameInside schema parent selections).map Selection.head
        = selections.map Selection.head
  | [] => rfl
  | selection :: rest => by
    rw [withTypenameInside, List.map_cons, List.map_cons, head_withTypename,
      heads_withTypenameInside parent rest]

private theorem startsWithTypename_heads (selections : WrittenSelections) :
    startsWithTypename ((selections.map Selection.head).map SelectionHead.selection)
      = startsWithTypename selections := by
  match selections with
  | [] => rfl
  | .field none name _ _ _ _ :: _ => rfl
  | .field (some _) name _ _ _ _ :: _ => rfl
  | .inlineFragment _ _ _ _ :: _ => rfl
  | .spread _ _ _ _ :: _ => rfl

private theorem levelsInside_typenameField_cons (type : Option Name) (reached : Bool)
    (selections : WrittenSelections) :
    levelsInside schema type reached (typenameField :: selections)
      = levelsInside schema type reached selections := by
  rw [levelsInside, typenameField, Selection.levels]
  rfl

/-- Inserting a type name into selections inserts it into their level. -/
private theorem push_insertTypename (parent : Name) (selections : WrittenSelections)
    (inside : List Level) :
    Level.push (some parent) true (insertTypename schema parent selections) inside
      = (Level.push (some parent) true selections []).map (Level.withTypename schema)
        ++ inside := by
  cases selections with
  | nil => rfl
  | cons selection rest =>
    have hempty : (selection :: rest).isEmpty = false := rfl
    have hlacks : Level.lacksTypename schema
        ⟨some parent, true, (selection :: rest).map Selection.head⟩
        = !(schema.isRootType parent || startsWithTypename (selection :: rest)) := by
      rw [Level.lacksTypename, Level.startsWithTypename, startsWithTypename_heads]
      simp
    unfold insertTypename
    rw [hempty, Bool.false_or]
    by_cases hstays : (schema.isRootType parent || startsWithTypename (selection :: rest)) = true
    · rw [if_pos hstays, Level.push, Level.push, hempty, if_neg Bool.false_ne_true,
        if_neg Bool.false_ne_true, List.map_singleton, Level.withTypename, hlacks, hstays]
      rfl
    · rw [if_neg hstays, Level.push, Level.push, hempty, if_neg Bool.false_ne_true,
        List.map_singleton, Level.withTypename, hlacks, Bool.eq_false_iff.mpr hstays]
      rfl

private theorem push_eq_append (type : Option Name) (reached : Bool)
    (selections : WrittenSelections) (inside : List Level) :
    Level.push type reached selections inside
      = Level.push type reached selections [] ++ inside := by
  unfold Level.push
  split <;> rfl

private theorem push_withTypenameInside (type : Option Name) (reached : Bool) (parent : Name)
    (selections : WrittenSelections) (inside : List Level) :
    Level.push type reached (withTypenameInside schema parent selections) inside
      = Level.push type reached selections inside := by
  rw [Level.push, Level.push, heads_withTypenameInside, isEmpty_withTypenameInside]

private theorem levelsInside_insertTypename (parent : Name) (type : Option Name) (reached : Bool)
    (selections : WrittenSelections) :
    levelsInside schema type reached (insertTypename schema parent selections)
      = levelsInside schema type reached selections := by
  unfold insertTypename
  split
  · rfl
  · exact levelsInside_typenameField_cons type reached selections

/-- Levels that are not reached stay as they are. -/
private theorem withTypename_of_not_reached {level : Level} (hreached : level.reached = false) :
    level.withTypename schema = level := by
  rw [Level.withTypename, Level.lacksTypename, hreached]
  rfl

private theorem reached_of_mem_push {type : Option Name} {selections : WrittenSelections}
    {inside : List Level} (hinside : ∀ level ∈ inside, level.reached = false) :
    ∀ level ∈ Level.push type false selections inside, level.reached = false := by
  intro level hlevel
  unfold Level.push at hlevel
  split at hlevel
  · exact hinside level hlevel
  · rcases List.mem_cons.mp hlevel with rfl | hmem
    · rfl
    · exact hinside level hmem

mutual

/-- Nothing is reached inside what is not reached itself. -/
private theorem Selection.not_reached (type : Option Name) :
    ∀ selection : Selection Unit, ∀ level ∈ selection.levels schema type false,
      level.reached = false
  | .field _ name _ _ _ selections => by
    rw [Selection.levels, Bool.false_and]
    exact reached_of_mem_push (not_reached_inside _ selections)
  | .inlineFragment _ _ _ selections => by
    rw [Selection.levels]
    exact reached_of_mem_push (not_reached_inside _ selections)
  | .spread _ _ _ _ => by
    rw [Selection.levels]
    exact fun level hlevel => absurd hlevel List.not_mem_nil

private theorem not_reached_inside (type : Option Name) :
    ∀ selections : List (Selection Unit), ∀ level ∈ levelsInside schema type false selections,
      level.reached = false
  | [] => fun level hlevel => absurd hlevel List.not_mem_nil
  | selection :: rest => by
    intro level hlevel
    rw [levelsInside] at hlevel
    rcases List.mem_append.mp hlevel with hmem | hmem
    · exact Selection.not_reached type selection level hmem
    · exact not_reached_inside type rest level hmem

end

private theorem not_reached (type : Option Name) (selections : WrittenSelections) :
    ∀ level ∈ levels schema type false selections, level.reached = false :=
  reached_of_mem_push (not_reached_inside type selections)

private theorem map_withTypename_of_not_reached {list : List Level}
    (hlist : ∀ level ∈ list, level.reached = false) :
    list.map (Level.withTypename schema) = list := by
  rw [List.map_congr_left fun level hlevel => withTypename_of_not_reached (hlist level hlevel),
    List.map_id']

/-- Selections with type names selected, given what selecting them inside does to the levels
there. -/
private theorem levels_withTypename_of_inside {parent : Name} {selections : WrittenSelections}
    (hinside : levelsInside schema (some parent) true (withTypenameInside schema parent selections)
      = (levelsInside schema (some parent) true selections).map (Level.withTypename schema)) :
    levels schema (some parent) true (withTypename schema parent selections)
      = (levels schema (some parent) true selections).map (Level.withTypename schema) := by
  rw [levels, levels, withTypename, push_insertTypename, push_withTypenameInside,
    levelsInside_insertTypename, hinside, ← List.map_append, ← push_eq_append]

mutual

/-- The levels inside a selection with type names selected. The induction is on the selection; the
sub-selections of a field that is not defined stay as they are, and so do their levels. -/
private theorem Selection.levels_withTypename (parent : Name) :
    ∀ selection : Selection Unit,
      (selection.withTypename schema parent).levels schema (some parent) true
        = (selection.levels schema (some parent) true).map (Level.withTypename schema)
  | .field _ name _ _ _ selections => by
    rw [Selection.withTypename]
    cases hdefinition : schema.fieldDefinition? parent name with
    | none =>
      rw [Selection.levels, Option.bind_some, hdefinition]
      exact (map_withTypename_of_not_reached (not_reached none selections)).symm
    | some definition =>
      simp only [Selection.levels, Option.bind_some, hdefinition, Option.map_some,
        Option.isSome_some, Bool.and_self]
      exact levels_withTypename_of_inside
        (levelsInside_withTypenameInside definition.type.bare selections)
  | .inlineFragment typeCondition _ _ selections => by
    have htype : typeCondition.or (some parent) = some (typeCondition.getD parent) := by
      cases typeCondition <;> rfl
    rw [Selection.withTypename, Selection.levels, Selection.levels, htype]
    exact levels_withTypename_of_inside
      (levelsInside_withTypenameInside (typeCondition.getD parent) selections)
  | .spread _ _ _ _ => by rw [Selection.withTypename, Selection.levels, List.map_nil]

private theorem levelsInside_withTypenameInside (parent : Name) :
    ∀ selections : List (Selection Unit),
      levelsInside schema (some parent) true (withTypenameInside schema parent selections)
        = (levelsInside schema (some parent) true selections).map (Level.withTypename schema)
  | [] => rfl
  | selection :: rest => by
    rw [withTypenameInside, levelsInside, levelsInside, List.map_append,
      Selection.levels_withTypename parent selection, levelsInside_withTypenameInside parent rest]

end

/-- **Selecting type names acts on each level by itself**: of selections at a type, the levels get
the selection of a type name in front where it belongs, and there are no other changes. -/
theorem levels_withTypename (parent : Name) (selections : WrittenSelections) :
    levels schema (some parent) true (withTypename schema parent selections)
      = (levels schema (some parent) true selections).map (Level.withTypename schema) :=
  levels_withTypename_of_inside (levelsInside_withTypenameInside parent selections)

/-! ### Levels determine selections -/

private theorem push_cons_eq (type : Option Name) (reached : Bool) (selections : WrittenSelections)
    (inside : List Level) (hselections : selections.isEmpty = false) :
    Level.push type reached selections inside
      = ⟨type, reached, selections.map Selection.head⟩ :: inside := by
  rw [Level.push, hselections, if_neg Bool.false_ne_true]

/-- The levels of two lists that are both empty or both not begin with the same selections, and go
on with the levels inside. -/
private theorem heads_eq_of_push_eq {type type' : Option Name} {reached reached' : Bool}
    {selections selections' : WrittenSelections} {rest rest' : List Level}
    (hempty : selections.isEmpty = selections'.isEmpty)
    (hlevels : levels schema type reached selections ++ rest
      = levels schema type' reached' selections' ++ rest') :
    selections.map Selection.head = selections'.map Selection.head ∧
      levelsInside schema type reached selections ++ rest
        = levelsInside schema type' reached' selections' ++ rest' := by
  cases hselections : selections.isEmpty with
  | true =>
    obtain rfl := List.isEmpty_iff.mp hselections
    obtain rfl := List.isEmpty_iff.mp (hempty ▸ hselections)
    exact ⟨rfl, hlevels⟩
  | false =>
    rw [levels, levels, push_cons_eq _ _ _ _ hselections,
      push_cons_eq _ _ _ _ (hempty ▸ hselections), List.cons_append, List.cons_append,
      List.cons.injEq, Level.mk.injEq] at hlevels
    exact ⟨hlevels.1.2.2, hlevels.2⟩

mutual

/-- The levels inside a selection are a prefix of any list that begins with them, as in prefix
notation: they and the selection itself can be read off, and so can what follows. -/
private theorem Selection.eq_of_levels_append_eq {type type' : Option Name}
    {reached reached' : Bool} {rest rest' : List Level} :
    ∀ selection selection' : Selection Unit, selection.head = selection'.head →
    selection.levels schema type reached ++ rest
      = selection'.levels schema type' reached' ++ rest' →
    selection = selection' ∧ rest = rest'
  | .field _ _ _ _ _ selections, selection', hhead, hlevels => by
    cases selection' with
    | field aliasName' name' arguments' directives' location' selections' =>
      simp only [Selection.head, SelectionHead.mk.injEq, Selection.field.injEq, and_true,
        Bool.not_inj_iff] at hhead
      obtain ⟨⟨rfl, rfl, rfl, rfl, rfl⟩, hempty⟩ := hhead
      rw [Selection.levels, Selection.levels] at hlevels
      obtain ⟨hheads, hinside⟩ := heads_eq_of_push_eq hempty hlevels
      obtain ⟨rfl, rfl⟩ := eq_of_levelsInside_append_eq selections selections' hheads hinside
      exact ⟨rfl, rfl⟩
    | inlineFragment => simp [Selection.head] at hhead
    | spread => simp [Selection.head] at hhead
  | .inlineFragment _ _ _ selections, selection', hhead, hlevels => by
    cases selection' with
    | field => simp [Selection.head] at hhead
    | inlineFragment typeCondition' directives' location' selections' =>
      simp only [Selection.head, SelectionHead.mk.injEq, Selection.inlineFragment.injEq, and_true,
        Bool.not_inj_iff] at hhead
      obtain ⟨⟨rfl, rfl, rfl⟩, hempty⟩ := hhead
      rw [Selection.levels, Selection.levels] at hlevels
      obtain ⟨hheads, hinside⟩ := heads_eq_of_push_eq hempty hlevels
      obtain ⟨rfl, rfl⟩ := eq_of_levelsInside_append_eq selections selections' hheads hinside
      exact ⟨rfl, rfl⟩
    | spread => simp [Selection.head] at hhead
  | .spread _ _ _ _, selection', hhead, hlevels => by
    cases selection' with
    | field => simp [Selection.head] at hhead
    | inlineFragment => simp [Selection.head] at hhead
    | spread name' directives' location' target' =>
      simp only [Selection.head, SelectionHead.mk.injEq, and_true] at hhead
      exact ⟨hhead, hlevels⟩

private theorem eq_of_levelsInside_append_eq {type type' : Option Name} {reached reached' : Bool}
    {rest rest' : List Level} : ∀ selections selections' : List (Selection Unit),
    selections.map Selection.head = selections'.map Selection.head →
    levelsInside schema type reached selections ++ rest
      = levelsInside schema type' reached' selections' ++ rest' →
    selections = selections' ∧ rest = rest'
  | [], selections', hheads, hlevels => by
    obtain rfl := List.map_eq_nil_iff.mp hheads.symm
    exact ⟨rfl, hlevels⟩
  | selection :: selections, selections', hheads, hlevels => by
    obtain ⟨selection', selections', rfl, hhead, htails⟩ := List.map_eq_cons_iff.mp hheads.symm
    rw [levelsInside, levelsInside, List.append_assoc, List.append_assoc] at hlevels
    obtain ⟨rfl, hrest⟩ :=
      Selection.eq_of_levels_append_eq selection selection' hhead.symm hlevels
    obtain ⟨rfl, rfl⟩ := eq_of_levelsInside_append_eq selections selections' htails.symm hrest
    exact ⟨rfl, rfl⟩

end

private theorem isEmpty_levels (schema : Schema) (type : Option Name) (reached : Bool) :
    ∀ selections : WrittenSelections,
      (levels schema type reached selections).isEmpty = selections.isEmpty
  | [] => rfl
  | _ :: _ => rfl

/-- **Levels determine selections**, whatever types the levels are at. -/
theorem eq_of_levels_eq {type type' : Option Name} {reached reached' : Bool}
    {selections selections' : WrittenSelections}
    (hlevels : levels schema type reached selections = levels schema type' reached' selections') :
    selections = selections' := by
  have hempty : selections.isEmpty = selections'.isEmpty := by
    rw [← isEmpty_levels schema type reached selections, hlevels, isEmpty_levels]
  have hlevels := congrArg (· ++ []) hlevels
  obtain ⟨hheads, hinside⟩ := heads_eq_of_push_eq hempty hlevels
  exact (eq_of_levelsInside_append_eq selections selections' hheads hinside).1

/-! ### Definitions -/

/-- Definitions with the same levels that are the same apart from selections are the same. -/
private theorem Definition.eq_of_levels_eq (schema : Schema) {definition definition' : Definition}
    (hwithout : definition.withoutSelections = definition'.withoutSelections)
    (hlevels : definition.levels schema = definition'.levels schema) :
    definition = definition' := by
  cases definition with
  | operation operation =>
    cases definition' with
    | operation operation' =>
      obtain ⟨operationType, name, inputs, directives, location, selections⟩ := operation
      obtain ⟨operationType', name', inputs', directives', location', selections'⟩ := operation'
      rw [withoutSelections, withoutSelections] at hwithout
      cases hwithout
      exact congrArg (fun selections => Definition.operation
        ⟨operationType, name, inputs, directives, location, selections⟩)
        (GraphQLCompiler.eq_of_levels_eq hlevels)
    | fragment => cases hwithout
    | typeSystem => cases hwithout
  | fragment fragment =>
    cases definition' with
    | operation => cases hwithout
    | fragment fragment' =>
      obtain ⟨name, typeCondition, directives, location, selections⟩ := fragment
      obtain ⟨name', typeCondition', directives', location', selections'⟩ := fragment'
      rw [withoutSelections, withoutSelections] at hwithout
      cases hwithout
      exact congrArg (fun selections => Definition.fragment
        ⟨name, typeCondition, directives, location, selections⟩)
        (GraphQLCompiler.eq_of_levels_eq hlevels)
    | typeSystem => cases hwithout
  | typeSystem =>
    cases definition' with
    | operation => cases hwithout
    | fragment => cases hwithout
    | typeSystem => exact hwithout

@[simp] private theorem Definition.withoutSelections_withTypename (definition : Definition) :
    (definition.withTypename schema).withoutSelections = definition.withoutSelections := by
  cases definition with
  | operation operation =>
    rw [withTypename, OperationDefinition.withTypename]
    split <;> rfl
  | fragment fragment => rfl
  | typeSystem typeSystem => rfl

/-- The levels of a definition with type names selected are its levels with type names selected. -/
theorem Definition.levels_withTypename (definition : Definition) :
    (definition.withTypename schema).levels schema
      = (definition.levels schema).map (Level.withTypename schema) := by
  cases definition with
  | operation operation =>
    rw [withTypename, OperationDefinition.withTypename]
    split
    · rename_i hroot
      rw [levels, hroot]
      exact (map_withTypename_of_not_reached (not_reached none operation.selections)).symm
    · rename_i root hroot
      rw [levels, levels, hroot]
      exact GraphQLCompiler.levels_withTypename root operation.selections
  | fragment fragment =>
    exact GraphQLCompiler.levels_withTypename fragment.typeCondition fragment.selections
  | typeSystem typeSystem => rfl

/-! ### Levels with type names selected -/

/-- The selection of a type name is wanted at most once. -/
private theorem Level.withTypename_withTypename (level : Level) :
    (level.withTypename schema).withTypename schema = level.withTypename schema := by
  cases hlacks : level.lacksTypename schema with
  | false =>
    have hstays : level.withTypename schema = level := by
      rw [withTypename, hlacks, if_neg Bool.false_ne_true]
    rw [hstays, hstays]
  | true =>
    have hstarts : (level.withTypename schema).startsWithTypename = true := by
      rw [withTypename, hlacks, if_pos rfl]
      rfl
    conv_lhs => rw [withTypename, lacksTypename, hstarts]
    rw [Bool.not_true, Bool.and_false, if_neg Bool.false_ne_true]

private theorem exists_type_of_mem_push {type : Option Name} {reached : Bool}
    {selections : WrittenSelections} {inside : List Level} (htype : reached → type.isSome)
    (hinside : ∀ level ∈ inside, level.reached → level.type.isSome) :
    ∀ level ∈ Level.push type reached selections inside, level.reached → level.type.isSome := by
  intro level hlevel
  unfold Level.push at hlevel
  split at hlevel
  · exact hinside level hlevel
  · rcases List.mem_cons.mp hlevel with rfl | hmem
    · exact htype
    · exact hinside level hmem

mutual

private theorem Selection.exists_type_of_reached {type : Option Name} {reached : Bool}
    (htype : reached → type.isSome) : ∀ selection : Selection Unit,
    ∀ level ∈ selection.levels schema type reached, level.reached → level.type.isSome
  | .field _ name _ _ _ selections => by
    rw [Selection.levels]
    have hinner : (reached && (type.bind (schema.fieldDefinition? · name)).isSome) = true →
        ((type.bind (schema.fieldDefinition? · name)).map (·.type.bare)).isSome = true := by
      intro hreached
      rw [Option.isSome_map]
      exact (Bool.and_eq_true_iff.mp hreached).2
    exact exists_type_of_mem_push hinner (exists_type_of_reached_inside hinner selections)
  | .inlineFragment typeCondition _ _ selections => by
    rw [Selection.levels]
    have hinner : reached = true → (typeCondition.or type).isSome = true := by
      intro hreached
      rw [Option.isSome_or, htype hreached, Bool.or_true]
    exact exists_type_of_mem_push hinner (exists_type_of_reached_inside hinner selections)
  | .spread _ _ _ _ => by
    rw [Selection.levels]
    exact fun level hlevel => absurd hlevel List.not_mem_nil

private theorem exists_type_of_reached_inside {type : Option Name} {reached : Bool}
    (htype : reached → type.isSome) : ∀ selections : List (Selection Unit),
    ∀ level ∈ levelsInside schema type reached selections, level.reached → level.type.isSome
  | [] => fun level hlevel => absurd hlevel List.not_mem_nil
  | selection :: rest => by
    intro level hlevel
    rw [levelsInside] at hlevel
    rcases List.mem_append.mp hlevel with hmem | hmem
    · exact Selection.exists_type_of_reached htype selection level hmem
    · exact exists_type_of_reached_inside htype rest level hmem

end

/-- A level that is reached has a static type. -/
theorem Definition.exists_type_of_reached {definition : Definition} {level : Level}
    (hlevel : level ∈ definition.levels schema) (hreached : level.reached) :
    ∃ type, level.type = some type := by
  rw [← Option.isSome_iff_exists]
  cases definition with
  | operation operation =>
    exact exists_type_of_mem_push id (exists_type_of_reached_inside id _) level hlevel hreached
  | fragment fragment =>
    exact exists_type_of_mem_push (fun _ => rfl) (exists_type_of_reached_inside (fun _ => rfl) _)
      level hlevel hreached
  | typeSystem typeSystem => exact absurd hlevel List.not_mem_nil

/-- A level of known type that is not a root type starts with a type name once it is selected. -/
private theorem Level.startsWithTypename_withTypename {level : Level} {type : Name}
    (hreached : level.reached) (htype : level.type = some type)
    (hroot : schema.isRootType type = false) :
    (level.withTypename schema).startsWithTypename := by
  cases hstarts : level.startsWithTypename with
  | true =>
    rw [withTypename, lacksTypename, hstarts, Bool.not_true, Bool.and_false,
      if_neg Bool.false_ne_true]
    exact hstarts
  | false =>
    have hlacks : level.lacksTypename schema = true := by
      rw [lacksTypename, hreached, htype, hstarts]
      simp [hroot]
    rw [withTypename, hlacks, if_pos rfl]
    rfl

@[simp] private theorem Level.reached_withTypename (level : Level) :
    (level.withTypename schema).reached = level.reached := by
  rw [withTypename]
  split <;> rfl

@[simp] private theorem Level.type_withTypename (level : Level) :
    (level.withTypename schema).type = level.type := by
  rw [withTypename]
  split <;> rfl

/-- **Selecting type names only inserts, in exactly the right places.** A definition is another one
with type names selected exactly if the two are the same apart from selections and its levels are
those of the other one, with the selection of a type name in front of those that lack it. Selecting
type names once more changes nothing; and once they are selected, every level that is reached and
whose static type is not a root type starts with one. -/
theorem eq_withTypename_iff (schema : Schema) (definition result : Definition) :
    (result = definition.withTypename schema ↔
      result.withoutSelections = definition.withoutSelections ∧
        result.levels schema = (definition.levels schema).map (Level.withTypename schema)) ∧
    (definition.withTypename schema).withTypename schema = definition.withTypename schema ∧
    ∀ level ∈ (definition.withTypename schema).levels schema, level.reached →
      ∃ type, level.type = some type ∧ (schema.isRootType type ∨ level.startsWithTypename) := by
  refine ⟨⟨?_, ?_⟩, ?_, ?_⟩
  · rintro rfl
    exact ⟨definition.withoutSelections_withTypename, definition.levels_withTypename⟩
  · rintro ⟨hwithout, hlevels⟩
    exact Definition.eq_of_levels_eq schema
      (hwithout.trans definition.withoutSelections_withTypename.symm)
      (hlevels.trans definition.levels_withTypename.symm)
  · refine Definition.eq_of_levels_eq schema
      (Definition.withoutSelections_withTypename _) ?_
    rw [Definition.levels_withTypename, definition.levels_withTypename, List.map_map]
    exact List.map_congr_left fun level _ => level.withTypename_withTypename
  · intro level hlevel hreached
    rw [definition.levels_withTypename] at hlevel
    obtain ⟨level, hmem, rfl⟩ := List.mem_map.mp hlevel
    rw [Level.reached_withTypename] at hreached
    obtain ⟨type, htype⟩ := Definition.exists_type_of_reached hmem hreached
    refine ⟨type, (level.type_withTypename).trans htype, ?_⟩
    cases hroot : schema.isRootType type with
    | true => exact .inl rfl
    | false => exact .inr (Level.startsWithTypename_withTypename hreached htype hroot)

end GraphQLCompiler
