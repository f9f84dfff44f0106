import GraphQLCompiler.Compiler
import GraphQLCompiler.Proofs.Agreement
import GraphQLCompiler.Proofs.Containment
import Mathlib

/-!
# Skipping repeated fragments

A compiler expands a fragment once at each type. A **naive** compiler expands it every time it is
spread, so it gathers longer lists of occurrences at every level, in which later ones repeat earlier
ones. All definitions compile to the same with both, or with the same error
(`compile_eq_compile_naive`).

The two compilers agree on each part of a definition, since their resolutions agree
(`agree_compileOperation`, `agree_compileFragment`).
-/

namespace GraphQLCompiler

open CompileM

namespace Compiler

/-- A compiler with another way to treat fragments that are spread again. -/
abbrev repeating (compiler : Compiler) (repetition : Repetition) : Compiler :=
  { compiler with repetition }

/-- The compiler that expands a fragment every time it is spread. -/
abbrev naive (compiler : Compiler) : Compiler := compiler.repeating .expanded

end Compiler

/-! ### Definitions -/

section

variable {compiler : Compiler} {repetition : Repetition}

/-- Whether compilers agree that treat repeated fragments in different ways. -/
private abbrev CompilersAgree (compiler : Compiler) (repetition : Repetition) {α : Type}
    (m m' : CompileM α) : Prop :=
  Agree compiler.settings (compiler.repeating repetition).settings compiler.table m m'

private theorem gives_library (settings : Settings) (compiler : Compiler) :
    Gives settings compiler.table compiler.library
      ⟨compiler.table.library.map fun _ => compiler.table.linked, ∅⟩ := by
  have check : Gives settings compiler.table (checkOnce compiler.table.library) _ := gives_checkOnce
  have looked := check.map fun _ => compiler.table.linked
  rw [map_eq_pure_bind] at looked
  have result_eq : (compiler.table.library.map fun _ => ()).map (fun _ => compiler.table.linked)
      = compiler.table.library.map fun _ => compiler.table.linked := by
    cases compiler.table.library <;> rfl
  rw [← result_eq]
  exact looked

/-- What follows the search for cycles may count on its result. -/
private theorem agree_library {α : Type} {next next' : FragmentLibrary → CompileM α}
    (h : ∀ library, compiler.table.library = .ok library →
      CompilersAgree compiler repetition (next library) (next' library)) :
    CompilersAgree compiler repetition (compiler.library >>= next)
      ((compiler.repeating repetition).library >>= next') := by
  have gives := fun settings => gives_library settings compiler
  cases eq : compiler.table.library with
  | error e =>
    rw [eq] at gives
    exact ⟨_, (gives _).stop, (gives _).stop⟩
  | ok library =>
    rw [FragmentTable.linked, eq] at gives
    obtain ⟨outcome, givesNext, givesNext'⟩ := h library eq
    exact ⟨_, (gives _).bind givesNext, (gives _).bind givesNext'⟩

private theorem agree_requireName (definition : OperationDefinition) :
    CompilersAgree compiler repetition (Compiler.requireName definition)
      (Compiler.requireName definition) := by
  rw [Compiler.requireName]
  split
  · exact agree_pure _
  · exact agree_throw _

private theorem agree_requireRoot (definition : OperationDefinition) :
    CompilersAgree compiler repetition (compiler.requireRoot definition)
      (compiler.requireRoot definition) := by
  rw [Compiler.requireRoot]
  split
  · exact agree_pure _
  · exact agree_throw _

private theorem agree_compileVariable (definition : VariableDefinition) :
    CompilersAgree compiler repetition (compiler.compileVariable definition)
      (compiler.compileVariable definition) := by
  rw [Compiler.compileVariable]
  split
  · exact agree_throw _
  · exact Agree.bind ⟨_, gives_useType _, gives_useType _⟩ fun _ => agree_pure _

/-- **Operations compile alike**, whatever happens to repeated fragments. -/
theorem agree_compileOperation (named : compiler.table.IsNamed)
    (definition : OperationDefinition) :
    Agree compiler.settings (compiler.repeating repetition).settings compiler.table
      (compiler.compileOperation definition)
      ((compiler.repeating repetition).compileOperation definition) := by
  rw [Compiler.compileOperation, Compiler.compileOperation]
  refine agree_library fun library acyclic => ?_
  refine (agree_requireName definition).bind fun name => (agree_tell _ _).bind fun _ => ?_
  refine (agree_mapM _ fun variableDefinition _ => agree_compileVariable variableDefinition).bind
    fun variableDefinitions => ?_
  refine (agree_requireRoot definition).bind fun root => ?_
  obtain rfl := FragmentTable.linked_eq acyclic
  have linked := FragmentTable.linkedBy_link acyclic named definition.selections
  -- both compilers resolve the site of the operation
  have resolution : CompilersAgree compiler repetition
      (compiler.resolveSelections root (link compiler.table.linked.find? definition.selections))
      ((compiler.repeating repetition).resolveSelections root
        (link compiler.table.linked.find? definition.selections)) :=
    agree_resolution (.refl (.start _ root definition.selections)) (linkedBy_iff.1 linked)
  refine Agree.bind resolution fun resolved => ?_
  exact Agree.bind ⟨_, gives_ofExcept _, gives_ofExcept _⟩ fun text =>
    (agree_tell _ _).bind fun _ => agree_pure _

/-- **Fragments compile alike**, whatever happens to repeated fragments. -/
theorem agree_compileFragment (named : compiler.table.IsNamed) {definition : FragmentDefinition}
    (found : compiler.table.find? definition.name = some definition) :
    Agree compiler.settings (compiler.repeating repetition).settings compiler.table
      (compiler.compileFragment definition)
      ((compiler.repeating repetition).compileFragment definition) := by
  rw [Compiler.compileFragment, Compiler.compileFragment]
  refine agree_library fun library acyclic => (agree_tell _ _).bind fun _ => ?_
  obtain rfl := FragmentTable.linked_eq acyclic
  have foundLinked : compiler.table.linked.find? definition.name
      = some (definition.link compiler.table.linked.find?) := by
    rw [FragmentTable.find?_library acyclic, found]
    rfl
  have linked := FragmentTable.linkedBy_of_find?_library acyclic named foundLinked
  exact (agree_resolveFragment_of_linked foundLinked linked).bind fun resolved => agree_pure _

end

/-! ### Skipping -/

/-- **Skipping is not seen.** Every operation, and every fragment of the document, compiles to the
same or stops with the same error if fragments are expanded every time they are spread. -/
theorem compile_eq_compile_naive (schema : Schema) (document : Document) (options : Options) :
    let compiler := Compiler.ofDocument schema document options
    (∀ definition : OperationDefinition,
      ((compiler.compileOperation definition).run {}).1
        = ((compiler.naive.compileOperation definition).run {}).1) ∧
    ∀ definition ∈ compiler.fragments,
      ((compiler.compileFragment definition).run {}).1
        = ((compiler.naive.compileFragment definition).run {}).1 := by
  intro compiler
  have named : compiler.table.IsNamed := FragmentTable.isNamed_ofList document.fragments
  refine ⟨fun definition => ?_, fun definition mem => ?_⟩
  · exact congrArg Outcome.result (agree_compileOperation named definition).fresh_eq
  · have found := FragmentTable.find?_of_mem_values mem
    exact congrArg Outcome.result (agree_compileFragment named found).fresh_eq

/-- A fragment that spreads another one twice. -/
def spreadTwice : FragmentDefinition :=
  plainFragment "Twice" "Pet" [plainSpread "Names", plainSpread "Names"]

/-- A document with that fragment, and the one that it spreads. -/
def twiceDocument : Document :=
  queryDocument [] [spreadTwice, plainFragment "Names" "Pet" [plainField "name" []]]

/-- The fragment that is spread twice is expanded twice by the naive compiler, which compiles to the
same. -/
theorem compile_eq_compile_naive_spreadTwice :
    let compiler := Compiler.ofDocument petSchema twiceDocument {}
    ∃ fragment, fragment.fragmentsReferenced = ["Names"] ∧
      ((compiler.naive.compileFragment spreadTwice).run {}).1 = .ok fragment ∧
      ((compiler.compileFragment spreadTwice).run {}).1 = .ok fragment := by
  intro compiler
  obtain ⟨fragment, eq, references⟩ : ∃ fragment,
      ((compiler.naive.compileFragment spreadTwice).run {}).1 = .ok fragment ∧
      fragment.fragmentsReferenced = ["Names"] := ⟨_, by cbv, by cbv⟩
  have mem : spreadTwice ∈ compiler.fragments := List.mem_cons_self
  refine ⟨fragment, references, eq, ?_⟩
  exact ((compile_eq_compile_naive petSchema twiceDocument {}).2 spreadTwice mem).trans eq

end GraphQLCompiler
