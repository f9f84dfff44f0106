import GraphQLCompiler.CompileError
import GraphQLCompiler.Fragment.Basic

/-!
# The library of a document

The library of a document holds its fragments, linked to each other. Of several definitions of one
name the last counts. The library is made by a depth-first search along the spreads: a fragment is
linked once everything that it spreads is, and a fragment that is met again before it is linked
lies on a cycle.

## Main definitions

* `FragmentTable.ofList`: fragment definitions by name.
* `FragmentTable.library`: the linked fragments, or the first cycle.
* `FragmentTable.linked`: the linked fragments where cycles have been excluded.
-/

namespace GraphQLCompiler

/-- The fragment definitions of a document by name. -/
abbrev FragmentTable := NameMap FragmentDefinition

/-- Linked fragments by name. -/
abbrev FragmentLibrary := NameMap Fragment

namespace FragmentTable

/-- The table of some definitions. A later definition of a name takes the place of an earlier. -/
def ofList (definitions : List FragmentDefinition) : FragmentTable :=
  NameMap.ofList (definitions.map fun definition => (definition.name, definition))

mutual

/-- Adds a fragment and everything that it spreads to a library, on a path of fragments that
spread one another down to it. Names that are not defined add nothing. -/
def visit (table : FragmentTable) (path : List Name) (library : FragmentLibrary) (name : Name) :
    Except CompileError FragmentLibrary :=
  match _found : table.find? name with
  | none => .ok library
  | some definition =>
    if library.contains name then .ok library
    else if name ∈ path then .error (.fragmentCycle name definition.location)
    else do
      let linked ← visitAll table (name :: path) library (spreadNames definition.selections)
      return linked.insert name (definition.link linked.find?)
termination_by (countOutside table.keys path, 0)
decreasing_by
  have mem := NameMap.mem_of_find?_eq_some ‹_›
  exact .left _ _ (countOutside_lt (by simp) (List.mem_map.2 ⟨_, mem, rfl⟩) ‹_› (by simp))

/-- Adds fragments one by one. -/
def visitAll (table : FragmentTable) (path : List Name) (library : FragmentLibrary) :
    List Name → Except CompileError FragmentLibrary
  | [] => .ok library
  | name :: rest => do visitAll table path (← visit table path library name) rest
termination_by names => (countOutside table.keys path, names.length + 1)
decreasing_by
  · exact .right _ (by simp)
  · exact .right _ (by simp)

end

/-- The linked fragments of a table, or an error that names a fragment on a cycle. -/
def library (table : FragmentTable) : Except CompileError FragmentLibrary :=
  table.keys.foldlM (visit table []) []

/-- The linked fragments of a table without cycles. -/
def linked (table : FragmentTable) : FragmentLibrary := table.library.toOption.getD []

end FragmentTable

end GraphQLCompiler
