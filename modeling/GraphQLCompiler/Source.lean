/-!
# Places in source files

A document may be put together from several files. Every file has a number, a **span** names a
file and a range of byte offsets in it, and a **source map** gives the paths of the files that a
document keeps track of.

## Main definitions

* `Span`: the bytes of one syntax node.
* `SourceMap`: paths by file number.
-/

namespace GraphQLCompiler

/-- The number of a source file. -/
abbrev FileId := Nat

/-- The bytes of a syntax node: from the first byte of its first token to after the last byte of
its last token, in UTF-8. -/
structure Span where
  file : FileId
  start : Nat
  stop : Nat
  deriving DecidableEq, Repr, Inhabited

/-- The paths of the files that a document keeps track of. -/
abbrev SourceMap := List (FileId × String)

/-- The path of the file that a node lies in, for a node with a span in a file of the map. -/
def SourceMap.path? (sources : SourceMap) (location : Option Span) : Option String := do
  sources.lookup (← location).file

end GraphQLCompiler
