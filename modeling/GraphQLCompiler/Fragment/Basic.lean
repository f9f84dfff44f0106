import GraphQLCompiler.Syntax.Document

/-!
# Linked fragments

A **linked** selection holds, at each spread, the fragment that the name stands for, or nothing if
the name is not defined. Fragments that can be linked in this way have no cycles, so what is done
with linked selections can be done by recursion on them.

The **height** of a selection counts how deep fields and spreads are nested in it.

## Main definitions

* `Fragment`: a fragment with linked selections.
* `link`: links selections to the fragments that some function finds.
* `height`, `Fragment.height`: the nesting of fields and spreads.
-/

namespace GraphQLCompiler

/-- A fragment whose selections are linked. -/
structure Fragment where
  name : Name
  typeCondition : Name
  location : Option Span
  selections : List (Selection (Option Fragment))

/-- A selection with the fragment of each spread. -/
abbrev LinkedSelection := Selection (Option Fragment)

/-! ### Linking -/

mutual

/-- Links a selection. -/
def Selection.link (find : Name → Option Fragment) : Selection Unit → LinkedSelection
  | .field aliasName name arguments directives location selections =>
    .field aliasName name arguments directives location (link find selections)
  | .inlineFragment typeCondition directives location selections =>
    .inlineFragment typeCondition directives location (link find selections)
  | .spread name directives location _ => .spread name directives location (find name)

/-- Links selections to the fragments that a function finds. -/
def link (find : Name → Option Fragment) : List (Selection Unit) → List LinkedSelection
  | [] => []
  | selection :: rest => selection.link find :: link find rest

end

/-- The fragment of a definition. -/
def FragmentDefinition.link (definition : FragmentDefinition) (find : Name → Option Fragment) :
    Fragment where
  name := definition.name
  typeCondition := definition.typeCondition
  location := definition.location
  selections := GraphQLCompiler.link find definition.selections

/-! ### Heights -/

mutual

/-- The height of a selection. -/
def Selection.height : LinkedSelection → Nat
  | .field _ _ _ _ _ selections => height selections + 1
  | .inlineFragment _ _ _ selections => height selections
  | .spread _ _ _ none => 0
  | .spread _ _ _ (some fragment) => fragment.height

/-- The height of a fragment, which is above that of its selections. -/
def Fragment.height : Fragment → Nat
  | ⟨_, _, _, selections⟩ => GraphQLCompiler.height selections + 1

/-- The greatest height of some selections. -/
def height : List LinkedSelection → Nat
  | [] => 0
  | selection :: rest => max selection.height (height rest)

end

theorem Fragment.height_eq (fragment : Fragment) :
    fragment.height = GraphQLCompiler.height fragment.selections + 1 := by
  cases fragment; rw [Fragment.height]

end GraphQLCompiler
