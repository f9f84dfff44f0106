import GraphQLCompiler.Source
import GraphQLCompiler.NameMap
import GraphQLCompiler.Syntax.Value

/-!
# Selections

A selection is a field, an inline fragment or the spread of a named fragment. The type of
selections has a parameter for what a spread carries besides the name: `Unit` for selections as
written, and the fragment that the name stands for once the names are linked.

## Main definitions

* `Selection`: one selection.
* `Selection.responseName`: the key of a field in the response.
* `spreadNames`: the names of all fragments spread at any depth, in order of first occurrence.
-/

namespace GraphQLCompiler

/-- One selection of a selection set. A field without sub-selections has none in its list. -/
inductive Selection (τ : Type) where
  | field (aliasName : Option Name) (name : Name) (arguments : List Argument)
      (directives : List Directive) (location : Option Span) (selections : List (Selection τ))
  | inlineFragment (typeCondition : Option Name) (directives : List Directive)
      (location : Option Span) (selections : List (Selection τ))
  | spread (name : Name) (directives : List Directive) (location : Option Span) (target : τ)
  deriving Inhabited

/-- The selections of a selection set as written. -/
abbrev WrittenSelections := List (Selection Unit)

variable {τ : Type}

mutual

/-- Adds the names of the fragments spread in a selection to a set. -/
def Selection.addSpreadNames : Selection τ → List Name → List Name
  | .field _ _ _ _ _ selections, names => addSpreadNamesOf selections names
  | .inlineFragment _ _ _ selections, names => addSpreadNamesOf selections names
  | .spread name _ _ _, names => addName names name

/-- Adds the names of the fragments spread in any of some selections to a set. -/
def addSpreadNamesOf : List (Selection τ) → List Name → List Name
  | [], names => names
  | selection :: rest, names => addSpreadNamesOf rest (selection.addSpreadNames names)

end

/-- The names of all fragments spread in some selections, at any depth. -/
def spreadNames (selections : List (Selection τ)) : List Name := addSpreadNamesOf selections []

end GraphQLCompiler
