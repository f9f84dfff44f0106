import GraphQLCompiler.Syntax.Name

/-!
# The log of compilation

Compilation tells what it is doing. The milestones are for everyone who looks for errors; the
decisions about single selections and fragments are finer.

## Main definitions

* `LogEvent`: what there is to tell.
* `LogEvent.level`, `LogEvent.message`: how it is told.
-/

namespace GraphQLCompiler

/-- The detail of an event. -/
inductive LogLevel where
  | debug
  | trace
  deriving DecidableEq, Repr

/-- Something that happens during compilation. -/
inductive LogEvent where
  | compilingOperation (name : Name)
  | compiledOperation (name : Name) (fieldCount fragmentCount : Nat)
  | compilingFragment (name : Name)
  | inapplicable (typeCondition effectiveType : Name)
  | alreadyExpanded (fragment effectiveType : Name)
  | reusingReferences (fragment : Name)
  deriving DecidableEq, Repr

namespace LogEvent

/-- The detail of an event. -/
def level : LogEvent → LogLevel
  | compilingOperation _ | compiledOperation _ _ _ | compilingFragment _ => .debug
  | inapplicable _ _ | alreadyExpanded _ _ | reusingReferences _ => .trace

/-- The text of an event. -/
def message : LogEvent → String
  | compilingOperation name => s!"compiling operation `{name}`"
  | compiledOperation name fieldCount fragmentCount =>
    s!"compiled operation `{name}`: {fieldCount} fields, {fragmentCount} fragments referenced"
  | compilingFragment name => s!"compiling fragment `{name}`"
  | inapplicable typeCondition effectiveType =>
    s!"inline fragment on `{typeCondition}` does not apply to `{effectiveType}`"
  | alreadyExpanded fragment effectiveType =>
    s!"fragment `{fragment}` already expanded at `{effectiveType}`"
  | reusingReferences fragment => s!"reusing references of fragment `{fragment}`"

end LogEvent

end GraphQLCompiler
