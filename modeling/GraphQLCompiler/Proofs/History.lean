import GraphQLCompiler.Proofs.Skipping

/-!
# History

A compiler keeps a state from one definition to the next: the used types, what it remembers of
fragments, and whether it has looked for cycles. It keeps it when a definition does not compile,
too. A **session** compiles some definitions one after the other. Every definition of a session
compiles as it would on a fresh compiler, and the used types are those of the fresh compilers taken
together. So a document compiles exactly if its definitions do on their own, and otherwise stops
with the error of the first that does not (`session_eq_fresh`).
-/

namespace GraphQLCompiler

open CompileM

namespace Compiler

/-! ### Sessions -/

/-- Something that a compiler is asked for: any operation, or one of its own fragments. -/
inductive Call (compiler : Compiler) where
  | operation (definition : OperationDefinition)
  | fragment (definition : { definition // definition ∈ compiler.fragments })

/-- A compiled definition. -/
inductive Answer where
  | operation (compiled : Compiled.Operation)
  | fragment (compiled : Compiled.Fragment)

/-- Compiles a definition. -/
def perform (compiler : Compiler) : compiler.Call → CompileM Answer
  | .operation definition => Answer.operation <$> compiler.compileOperation definition
  | .fragment definition => Answer.fragment <$> compiler.compileFragment definition.1

/-- The answers to some calls one after the other, and the state that is left. A call that stops
with an error does not stop the session. -/
def session (compiler : Compiler) : List compiler.Call → CompilerState →
    List (Except CompileError Answer) × CompilerState
  | [], state => ([], state)
  | call :: rest, state =>
    let (answer, after) := (compiler.perform call).run state
    let (answers, last) := session compiler rest after
    (answer :: answers, last)

/-- The calls for the definitions of the document: its operations, then its fragments. -/
def ownCalls (compiler : Compiler) : List compiler.Call :=
  compiler.operations.map .operation ++ compiler.fragments.attach.map .fragment

theorem session_cons {compiler : Compiler} (call : compiler.Call) (rest : List compiler.Call)
    (state : CompilerState) : compiler.session (call :: rest) state =
      let first := (compiler.perform call).run state
      let others := compiler.session rest first.2
      (first.1 :: others.1, others.2) := rfl

end Compiler

/-! ### Fresh compilers -/

section

variable {compiler : Compiler}

/-- Whether every call has the outcome that it has on a fresh compiler. -/
private def Steady (compiler : Compiler) : Prop :=
  ∀ call : compiler.Call,
    Gives compiler.settings compiler.table (compiler.perform call) (fresh (compiler.perform call))

private theorem gives_compileOperation (named : compiler.table.IsNamed)
    (definition : OperationDefinition) :
    Gives compiler.settings compiler.table (compiler.compileOperation definition)
      (fresh (compiler.compileOperation definition)) := by
  -- a compiler agrees with itself, as one that treats repeated fragments in the same way
  have agree : Agree compiler.settings (compiler.repeating compiler.repetition).settings
      compiler.table (compiler.compileOperation definition)
      ((compiler.repeating compiler.repetition).compileOperation definition) :=
    agree_compileOperation named definition
  exact agree.gives_fresh

private theorem gives_compileFragment (named : compiler.table.IsNamed)
    {definition : FragmentDefinition}
    (found : compiler.table.find? definition.name = some definition) :
    Gives compiler.settings compiler.table (compiler.compileFragment definition)
      (fresh (compiler.compileFragment definition)) := by
  have agree : Agree compiler.settings (compiler.repeating compiler.repetition).settings
      compiler.table (compiler.compileFragment definition)
      ((compiler.repeating compiler.repetition).compileFragment definition) :=
    agree_compileFragment named found
  exact agree.gives_fresh

private theorem steady (named : compiler.table.IsNamed)
    (found : ∀ definition ∈ compiler.fragments,
      compiler.table.find? definition.name = some definition) : Steady compiler := by
  intro call
  cases call with
  | operation definition =>
    have gives := (gives_compileOperation named definition).map Compiler.Answer.operation
    exact gives.eq_fresh ▸ gives
  | fragment definition =>
    have own := found definition.1 definition.2
    have gives := (gives_compileFragment named own).map Compiler.Answer.fragment
    exact gives.eq_fresh ▸ gives

/-- What a session answers and uses is what fresh compilers do. -/
private theorem Steady.session_eq (steady : Steady compiler) (calls : List compiler.Call)
    (before : CompilerState) (sound : before.Sound compiler.settings compiler.table) :
    (compiler.session calls before).1
        = calls.map (fun call => (fresh (compiler.perform call)).result) ∧
      ∀ name, name ∈ (compiler.session calls before).2.typesUsed ↔ name ∈ before.typesUsed ∨
        ∃ call ∈ calls, name ∈ (fresh (compiler.perform call)).used := by
  induction calls generalizing before with
  | nil => exact ⟨rfl, fun name => by simp [Compiler.session]⟩
  | cons call rest ih =>
    obtain ⟨after, run, extended⟩ := steady call before sound
    obtain ⟨answers, used⟩ := ih after extended.sound
    rw [Compiler.session_cons, run]
    refine ⟨?_, fun name => ?_⟩
    · rw [List.map_cons, ← answers]
    · rw [used, extended.mem_typesUsed, or_assoc, List.exists_mem_cons_iff]

/-! ### The first error -/

/-- The error of a computation that stopped. -/
private def error? {α : Type} : Except CompileError α → Option CompileError
  | .error e => some e
  | .ok _ => none

private theorem error?_eq_some {α : Type} {result : Except CompileError α} {e : CompileError} :
    error? result = some e ↔ result = .error e := by
  cases result <;> simp [error?]

private theorem error?_eq_none {α : Type} {result : Except CompileError α} :
    error? result = none ↔ ∃ a, result = .ok a := by
  cases result <;> simp [error?]

/-- Several computations stop with the first error that one of them has. -/
private theorem exists_gives_mapM {α β : Type} {f : α → CompileM β} (xs : List α)
    (h : ∀ x ∈ xs, Gives compiler.settings compiler.table (f x) (fresh (f x))) :
    ∃ outcome, Gives compiler.settings compiler.table (xs.mapM f) outcome ∧
      error? outcome.result = xs.findSome? fun x => error? (fresh (f x)).result := by
  induction xs with
  | nil => exact ⟨_, gives_pure [], rfl⟩
  | cons x rest ih =>
    obtain ⟨first, others⟩ := List.forall_mem_cons.1 h
    obtain ⟨⟨result, more⟩, gives, eq⟩ := ih others
    rw [List.mapM_cons, List.findSome?_cons]
    generalize fresh (f x) = outcome at first ⊢
    obtain ⟨e | y, used⟩ := outcome
    · exact ⟨_, first.stop, rfl⟩
    · have tail := gives.map (y :: ·)
      rw [map_eq_pure_bind] at tail
      refine ⟨_, first.bind tail, ?_⟩
      cases result <;> exact eq

/-- **A document stops** with the error of the first of its definitions that has one on a fresh
compiler. -/
private theorem error?_compile (named : compiler.table.IsNamed)
    (found : ∀ definition ∈ compiler.fragments,
      compiler.table.find? definition.name = some definition) :
    error? (compiler.compile.run {}).1
      = compiler.ownCalls.findSome? fun call => error? ((compiler.perform call).run {}).1 := by
  have error?_map : ∀ {α : Type} (m : CompileM α) (f : α → Compiler.Answer),
      error? ((f <$> m).run {}).1 = error? (fresh m).result := by
    intro α m f
    rw [← bind_pure_comp, run_bind, fresh]
    rcases m.run {} with ⟨e | a, after⟩ <;> rfl
  obtain ⟨⟨operations, used⟩, gives, eq⟩ := exists_gives_mapM compiler.operations
    fun definition _ => gives_compileOperation named definition
  obtain ⟨⟨fragments, more⟩, gives', eq'⟩ := exists_gives_mapM compiler.fragments
    fun definition mem => gives_compileFragment named (found definition mem)
  have own : (compiler.ownCalls.findSome? fun call => error? ((compiler.perform call).run {}).1)
      = (error? operations).or (error? fragments) := by
    rw [Compiler.ownCalls, List.findSome?_append, List.findSome?_map, List.findSome?_map, eq, eq']
    congr 1
    · exact congrArg (List.findSome? · _) (funext fun definition => error?_map _ _)
    · refine (List.findSome?_subtype fun definition _ =>
        error?_map (compiler.compileFragment definition) Compiler.Answer.fragment).trans ?_
      rw [List.unattach_attach]
  -- the fragments are compiled with the state that the operations leave
  obtain ⟨middle, first, extended⟩ :=
    gives {} (CompilerState.sound_empty compiler.settings compiler.table)
  obtain ⟨after, second, -⟩ := gives' middle extended.sound
  rw [own, Compiler.compile, run_bind, first]
  cases operations with
  | error e => rfl
  | ok operations =>
    dsimp only
    rw [run_bind, second]
    cases fragments <;> rfl

/-! ### Sessions and documents -/

/-- **Compilation does not depend on history.** Every call of a session has the answer that it has
on a fresh compiler, and the types that are used in the end are those that the fresh compilers use.
A document compiles if all its definitions compile on fresh compilers, and otherwise stops with the
error of the first, operations before fragments, that does not. -/
theorem session_eq_fresh (schema : Schema) (document : Document) (options : Options) :
    let compiler := Compiler.ofDocument schema document options
    let answer := fun call : compiler.Call => ((compiler.perform call).run {}).1
    (∀ calls, (compiler.session calls {}).1 = calls.map answer ∧
      ∀ name, name ∈ (compiler.session calls {}).2.typesUsed ↔
        ∃ call ∈ calls, name ∈ ((compiler.perform call).run {}).2.typesUsed) ∧
    ((∃ compiled, compileDocument schema document options = .ok compiled) ↔
      ∀ call ∈ compiler.ownCalls, ∃ compiled, answer call = .ok compiled) ∧
    ∀ e, compileDocument schema document options = .error e ↔
      ∃ before call after, compiler.ownCalls = before ++ call :: after ∧
        answer call = .error e ∧ ∀ earlier ∈ before, ∃ compiled, answer earlier = .ok compiled := by
  intro compiler answer
  have named : compiler.table.IsNamed := FragmentTable.isNamed_ofList document.fragments
  have found : ∀ definition ∈ compiler.fragments,
      compiler.table.find? definition.name = some definition :=
    fun definition mem => FragmentTable.find?_of_mem_values mem
  have document_error : error? (compileDocument schema document options)
      = compiler.ownCalls.findSome? fun call => error? (answer call) :=
    error?_compile named found
  refine ⟨fun calls => ?_, ?_, fun e => ?_⟩
  · obtain ⟨answers, used⟩ := (steady named found).session_eq calls {}
      (CompilerState.sound_empty compiler.settings compiler.table)
    exact ⟨answers, fun name => (used name).trans (or_iff_right List.not_mem_nil)⟩
  · rw [← error?_eq_none, document_error, List.findSome?_eq_none_iff]
    simp only [error?_eq_none]
  · rw [← error?_eq_some, document_error, List.findSome?_eq_some_iff]
    simp only [error?_eq_some, error?_eq_none]
    rfl

end

end GraphQLCompiler
