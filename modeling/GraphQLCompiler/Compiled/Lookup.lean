import GraphQLCompiler.Compiled.Basic

/-!
# Finding parts of a compiled document

The parts of a compiled document are found step by step. Each step goes from a part to one of the
parts inside it, by the kind and the name of that part.

## Main definitions

* `Compiled.Part`: a part of a compiled document.
* `Compiled.Part.follow?`: the part at the end of a path.
-/

namespace GraphQLCompiler

namespace Compiled

/-- A kind of step to a part inside another. -/
inductive Accessor where
  | operation
  | fragment
  | field
  | inlineFragment
  deriving DecidableEq, Repr

/-- A part of a compiled document. -/
inductive Part where
  | document (document : Document)
  | operation (operation : Operation)
  | fragment (fragment : Fragment)
  | field (field : Field)
  | inlineFragment (branch : InlineFragment)

namespace Part

/-- The part inside another that has a kind and a name. -/
def step? : Part → Accessor → Name → Option Part
  | document d, .operation, name => (d.operation? name).map operation
  | document d, .fragment, name => (d.fragment? name).map fragment
  | operation o, .field, name => (o.field? name).map field
  | fragment f, .field, name => (f.field? name).map field
  | fragment f, .inlineFragment, name => (f.inlineFragment? name).map inlineFragment
  | field f, .field, name => (f.field? name).map field
  | field f, .inlineFragment, name => (f.inlineFragment? name).map inlineFragment
  | inlineFragment b, .field, name => (b.field? name).map field
  | _, _, _ => none

/-- The part at the end of a path. -/
def follow? (part : Part) (path : List (Accessor × Name)) : Option Part :=
  path.foldlM (fun part step => part.step? step.1 step.2) part

end Part

end Compiled

end GraphQLCompiler
