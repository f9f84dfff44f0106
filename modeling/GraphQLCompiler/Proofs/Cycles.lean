import GraphQLCompiler.Proofs.Containment
import GraphQLCompiler.Proofs.Truthfulness

/-!
# Cycles of fragments

A fragment is on a **cycle** of a document if spreads lead from it back to it, at whatever depth of
the selections they stand. Whatever a compiler is asked for, and whatever it was asked for before, it
reports a cycle exactly if the document has one, and the fragment that it names is on a cycle
(`reportsCycles_of_reached`).

That nothing else is reported of a document with cycles is read off the order of the work. That no
cycle is reported of another document, and that the fragment is on a cycle, holds since compilers are
truthful in every state that they come to (`Compiler.Reached.checked`).
-/

namespace GraphQLCompiler

open CompileM

variable {α τ : Type}

/-! ### The graph of a document -/

/-- Whether a selection spreads a fragment, at any depth. -/
inductive Selection.HasSpread (fragmentName : Name) : Selection τ → Prop where
  | spread (directives : List Directive) (location : Option Span) (target : τ) :
    HasSpread fragmentName (.spread fragmentName directives location target)
  | field {aliasName : Option Name} {name : Name} {arguments : List Argument}
      {directives : List Directive} {location : Option Span} {selections : List (Selection τ)}
      {inner : Selection τ} (mem : inner ∈ selections) (within : inner.HasSpread fragmentName) :
    HasSpread fragmentName (.field aliasName name arguments directives location selections)
  | inlineFragment {typeCondition : Option Name} {directives : List Directive}
      {location : Option Span} {selections : List (Selection τ)} {inner : Selection τ}
      (mem : inner ∈ selections) (within : inner.HasSpread fragmentName) :
    HasSpread fragmentName (.inlineFragment typeCondition directives location selections)

namespace Document

/-- The fragment of a name. Of several definitions the last counts. -/
def fragment? (document : Document) (name : Name) : Option FragmentDefinition :=
  document.fragments.reverse.find? fun definition => definition.name = name

/-- Whether a fragment of a document spreads another one, at any depth. -/
def Spreads (document : Document) (name other : Name) : Prop :=
  ∃ definition, document.fragment? name = some definition ∧
    (∃ selection ∈ definition.selections, selection.HasSpread other) ∧
    (document.fragment? other).isSome

/-- Whether spreads lead from a fragment back to it. -/
def OnCycle (document : Document) (name : Name) : Prop :=
  Relation.TransGen document.Spreads name name

/-- Whether a result **reports cycles**: it is the error for a cycle exactly if there is one, and the
error names a fragment on a cycle and points at the definition of it. -/
structure ReportsCycles (document : Document) (result : Except CompileError α) : Prop where
  error_iff : (∃ name location, result = .error (.fragmentCycle name location)) ↔
    ∃ name, document.OnCycle name
  onCycle : ∀ name location, result = .error (.fragmentCycle name location) →
    document.OnCycle name ∧
      ∃ definition, document.fragment? name = some definition ∧ definition.location = location

end Document

/-! ### The graph and the table -/

private theorem hasSpread_of_mem {name : Name} : ∀ selection : Selection τ,
    name ∈ selection.spreadNames → selection.HasSpread name
  | .field _ _ _ _ _ selections, h => by
    obtain ⟨inner, mem, spread⟩ := mem_spreadNames_iff.1 (mem_spreadNames_field.1 h)
    exact .field mem (hasSpread_of_mem inner spread)
  | .inlineFragment _ _ _ selections, h => by
    obtain ⟨inner, mem, spread⟩ := mem_spreadNames_iff.1 (mem_spreadNames_inlineFragment.1 h)
    exact .inlineFragment mem (hasSpread_of_mem inner spread)
  | .spread _ directives location target, h => by
    cases mem_spreadNames_spread.1 h
    exact .spread directives location target

theorem mem_spreadNames_iff_hasSpread {name : Name} {selection : Selection τ} :
    name ∈ selection.spreadNames ↔ selection.HasSpread name := by
  refine ⟨hasSpread_of_mem selection, fun h => ?_⟩
  induction h with
  | spread => exact mem_spreadNames_spread.2 rfl
  | field mem _ ih => exact mem_spreadNames_field.2 (mem_spreadNames_iff.2 ⟨_, mem, ih⟩)
  | inlineFragment mem _ ih =>
    exact mem_spreadNames_inlineFragment.2 (mem_spreadNames_iff.2 ⟨_, mem, ih⟩)

theorem FragmentTable.find?_ofList (definitions : List FragmentDefinition) (name : Name) :
    (ofList definitions).find? name
      = definitions.reverse.find? fun definition => definition.name = name := by
  rw [ofList, NameMap.find?_ofList, ← List.map_reverse, List.find?_map, Option.map_map]
  simp [Function.comp_def]

/-- A fragment is on a cycle exactly if it reaches itself in the table. The spreads of fragments
that are not defined lead nowhere. -/
theorem Document.onCycle_iff {document : Document} {name : Name} :
    document.OnCycle name ↔
      Relation.TransGen (FragmentTable.ofList document.fragments).Spreads name name := by
  have spreads_iff : ∀ from_ other, document.Spreads from_ other ↔
      (FragmentTable.ofList document.fragments).Spreads from_ other ∧
        (document.fragment? other).isSome := by
    intro from_ other
    simp only [Document.Spreads, FragmentTable.Spreads, FragmentTable.find?_ofList,
      mem_spreadNames_iff, mem_spreadNames_iff_hasSpread]
    exact ⟨fun ⟨definition, found, spread, defined⟩ => ⟨⟨definition, found, spread⟩, defined⟩,
      fun ⟨⟨definition, found, spread⟩, defined⟩ => ⟨definition, found, spread, defined⟩⟩
  constructor
  · exact Relation.TransGen.mono (fun from_ other h => ((spreads_iff from_ other).1 h).1) _ _
  · intro loop
    -- what leads on to another fragment is defined, so only the last could be undefined
    have defined : (document.fragment? name).isSome := by
      obtain ⟨_, ⟨definition, found, -⟩, -⟩ := Relation.TransGen.head'_iff.1 loop
      rw [FragmentTable.find?_ofList] at found
      exact Option.isSome_iff_exists.2 ⟨definition, found⟩
    have leads : ∀ last, Relation.TransGen
        (FragmentTable.ofList document.fragments).Spreads name last →
        (document.fragment? last).isSome → Relation.TransGen document.Spreads name last := by
      intro last path
      induction path with
      | single spread => exact fun known => .single ((spreads_iff _ _).2 ⟨spread, known⟩)
      | tail _ spread ih =>
        intro known
        obtain ⟨definition, found, mem⟩ := spread
        have middle := found
        rw [FragmentTable.find?_ofList] at middle
        exact (ih (Option.isSome_iff_exists.2 ⟨definition, middle⟩)).tail
          ((spreads_iff _ _).2 ⟨⟨definition, found, mem⟩, known⟩)
    exact leads name loop defined

/-! ### Documents with cycles -/

section

variable {compiler : Compiler} {e : CompileError} {state : CompilerState}
  (cyclic : compiler.table.library = .error e) (checked : state.Checked compiler.table)

include cyclic checked

/-- The search comes before everything else that is done for an operation. -/
theorem run_compileOperation_of_cyclic (definition : OperationDefinition) :
    (compiler.compileOperation definition).run state = (.error e, state) := by
  rw [Compiler.compileOperation, run_bind, run_library checked, cyclic]

/-- The search comes before everything else that is done for a fragment. -/
theorem run_compileFragment_of_cyclic (definition : FragmentDefinition) :
    (compiler.compileFragment definition).run state = (.error e, state) := by
  rw [Compiler.compileFragment, run_bind, run_library checked, cyclic]

/-- A document with a cycle has a definition, and the first that is compiled finds the cycle. -/
theorem run_compile_of_cyclic : compiler.compile.run state = (.error e, state) := by
  rw [Compiler.compile, run_bind]
  cases operations : compiler.operations with
  | cons definition rest =>
    rw [List.mapM_cons, run_bind, run_compileOperation_of_cyclic cyclic checked]
  | nil =>
    rw [List.mapM_nil, show (pure [] : CompileM (List Compiled.Operation)).run state
      = (.ok [], state) from rfl]
    dsimp only
    rw [run_bind]
    cases fragments : compiler.fragments with
    | cons definition rest =>
      rw [List.mapM_cons, run_bind, run_compileFragment_of_cyclic cyclic checked]
    | nil =>
      have empty : compiler.table = [] := List.map_eq_nil_iff.1 fragments
      rw [empty] at cyclic
      cases cyclic

end

/-! ### Compilers in use -/

/-- The states that a compiler **comes to** when it is asked for definitions, its own or others,
whether they compile or not. -/
inductive Compiler.Reached (compiler : Compiler) : CompilerState → Prop where
  | fresh : compiler.Reached {}
  | operation {state : CompilerState} (definition : OperationDefinition)
      (before : compiler.Reached state) :
    compiler.Reached ((compiler.compileOperation definition).run state).2
  | fragment {state : CompilerState} (definition : FragmentDefinition)
      (before : compiler.Reached state) :
    compiler.Reached ((compiler.compileFragment definition).run state).2

/-- A compiler never takes its fragments to be free of cycles when they are not. -/
theorem Compiler.Reached.checked {compiler : Compiler} {state : CompilerState}
    (reached : compiler.Reached state) : state.Checked compiler.table := by
  induction reached with
  | fresh => exact fun known => by cases known
  | operation definition _ ih => exact (truthful_compileOperation definition).kept _ ih
  | fragment definition _ ih => exact (truthful_compileFragment definition).kept _ ih

/-- A truthful computation that stops with what the search finds reports cycles. -/
private theorem reportsCycles_of_truthful {table : FragmentTable} {document : Document}
    (table_eq : table = FragmentTable.ofList document.fragments) {m : CompileM α}
    {state : CompilerState} (truthful : Truthful table m) (checked : state.Checked table)
    (stops : ∀ e, table.library = .error e → m.run state = (.error e, state)) :
    document.ReportsCycles (m.run state).1 := by
  subst table_eq
  have onCycle : ∀ name location, (m.run state).1 = .error (.fragmentCycle name location) →
      document.OnCycle name ∧
        ∃ definition, document.fragment? name = some definition ∧
          definition.location = location := by
    intro name location eq
    obtain ⟨_, definition, same, found, loop⟩ := truthful.justified state checked _ eq trivial
    cases same
    rw [FragmentTable.find?_ofList] at found
    exact ⟨Document.onCycle_iff.2 loop, definition, found, rfl⟩
  refine ⟨⟨?_, ?_⟩, onCycle⟩
  · rintro ⟨name, location, eq⟩
    exact ⟨name, (onCycle name location eq).1⟩
  · rintro ⟨name, loop⟩
    cases found : (FragmentTable.ofList document.fragments).library with
    | ok library =>
      have acyclic := FragmentTable.exists_library_iff.1 ⟨library, found⟩
      exact absurd (Document.onCycle_iff.1 loop) (acyclic name)
    | error e =>
      obtain ⟨cyclic, definition, rfl, -⟩ := FragmentTable.justifies_of_library_eq_error found
      rw [stops _ found]
      exact ⟨cyclic, definition.location, rfl⟩

/-- **The search for cycles is exact.** Whatever a compiler was asked for before, the compilation of
any operation, of any fragment and of the document stops with the error for a cycle exactly if
fragments of the document spread one another in a cycle, whatever else is wrong. The fragment that
the error names is on a cycle. -/
theorem reportsCycles_of_reached (schema : Schema) (document : Document) (options : Options)
    {state : CompilerState} (reached : (Compiler.ofDocument schema document options).Reached state) :
    let compiler := Compiler.ofDocument schema document options
    (∀ definition : OperationDefinition,
      document.ReportsCycles ((compiler.compileOperation definition).run state).1) ∧
    (∀ definition : FragmentDefinition,
      document.ReportsCycles ((compiler.compileFragment definition).run state).1) ∧
    document.ReportsCycles (compiler.compile.run state).1 := by
  intro compiler
  have checked := reached.checked
  have table_eq : compiler.table = FragmentTable.ofList document.fragments := rfl
  refine ⟨fun definition => ?_, fun definition => ?_, ?_⟩
  · exact reportsCycles_of_truthful table_eq (truthful_compileOperation definition) checked
      fun e cyclic => run_compileOperation_of_cyclic cyclic checked definition
  · exact reportsCycles_of_truthful table_eq (truthful_compileFragment definition) checked
      fun e cyclic => run_compileFragment_of_cyclic cyclic checked definition
  · exact reportsCycles_of_truthful table_eq truthful_compile checked
      fun e cyclic => run_compile_of_cyclic cyclic checked

/-- Two fragments that spread each other inside a field and an inline fragment, and an earlier
definition of one that does not. No operation spreads them. -/
def hiddenCycle : Document :=
  queryDocument [plainField "pet" [plainField "name" []]] [
    plainFragment "Keeper" "Owner" [plainField "id" []],
    plainFragment "Keeper" "Owner" [plainInline "Breeder" [plainField "kennel" [],
      plainSpread "Kept"]],
    plainFragment "Kept" "Pet" [plainField "owner" [plainField "id" [], plainSpread "Keeper"]]]

/-- After the query of the document did not compile, the cycle is reported again for an operation
that spreads nothing and has no name. -/
theorem reportsCycles_of_reached_hiddenCycle :
    let compiler := Compiler.ofDocument petSchema hiddenCycle {}
    ∃ state, compiler.Reached state ∧ hiddenCycle.OnCycle "Kept" ∧
      ∃ name location, ((compiler.compileOperation {
        operationType := .query, name := none, variableDefinitions := [], directives := []
        location := none, selections := [] }).run state).1 = .error (.fragmentCycle name location) := by
  intro compiler
  have reached : compiler.Reached _ :=
    .operation (hiddenCycle.operations.headD default) .fresh
  have onCycle : hiddenCycle.OnCycle "Kept" := by
    have keeps : hiddenCycle.Spreads "Kept" "Keeper" :=
      ⟨_, rfl, ⟨_, List.mem_cons_self, .field (.tail _ (.head _)) (.spread _ _ _)⟩, rfl⟩
    have kept : hiddenCycle.Spreads "Keeper" "Kept" :=
      ⟨_, rfl, ⟨_, List.mem_cons_self, .inlineFragment (.tail _ (.head _)) (.spread _ _ _)⟩, rfl⟩
    exact .tail (.single keeps) kept
  refine ⟨_, reached, onCycle, ?_⟩
  exact ((reportsCycles_of_reached petSchema hiddenCycle {} reached).1 _).error_iff.2 ⟨_, onCycle⟩

end GraphQLCompiler
