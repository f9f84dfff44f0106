import GraphQLCompiler.Compiler
import GraphQLCompiler.Proofs.Computation

/-!
# Truthful computations

The search for cycles is made once, and comes before everything else that a compiler does. Two things
are kept while it works: the cycles that are reported are there, and the compiler does not take the
fragments to be free of cycles when they are not. This is one judgement about computations
(`CompileM.Truthful`). What comes after the search reports no cycles, and leaves alone what the
search has found out, so everything that a compiler can be asked for is truthful.
-/

namespace GraphQLCompiler

open CompileM

variable {α β : Type}

/-! ### Reports that are right -/

/-- Whether a state takes the fragments to be free of cycles only where they are. -/
def CompilerState.Checked (table : FragmentTable) (state : CompilerState) : Prop :=
  state.cyclesChecked → table.Acyclic

/-- Whether an error reports a cycle. -/
def CompileError.IsCycle : CompileError → Prop
  | .fragmentCycle _ _ => True
  | _ => False

/-- A computation is **truthful** if the cycles that it reports are there, and what it leaves takes
the fragments to be free of cycles only where they are. -/
structure CompileM.Truthful (table : FragmentTable) (m : CompileM α) : Prop where
  kept : ∀ state : CompilerState, state.Checked table → (m.run state).2.Checked table
  justified : ∀ state : CompilerState, state.Checked table →
    ∀ e, (m.run state).1 = .error e → e.IsCycle → table.Justifies e

section

variable {table : FragmentTable}

namespace CompileM

theorem truthful_pure (a : α) : Truthful table (pure a : CompileM α) :=
  ⟨fun _ checked => checked, fun _ _ _ eq => by cases eq⟩

theorem truthful_throw {e : CompileError} (h : e.IsCycle → table.Justifies e) :
    Truthful table (throw e : CompileM α) := by
  refine ⟨fun _ checked => checked, fun _ _ _ eq => ?_⟩
  cases eq
  exact h

theorem Truthful.bind {m : CompileM α} {next : α → CompileM β} (h : Truthful table m)
    (h' : ∀ a, Truthful table (next a)) : Truthful table (m >>= next) := by
  refine ⟨fun state checked => ?_, fun state checked => ?_⟩
  all_goals
    have kept := h.kept state checked
    have justified := h.justified state checked
    rw [run_bind]
    rcases hm : m.run state with ⟨e | a, after⟩
    all_goals rw [hm] at kept justified
  · exact kept
  · exact (h' a).kept after kept
  · intro e eq
    cases eq
    exact justified _ rfl
  · exact (h' a).justified after kept

theorem Truthful.map {m : CompileM α} (h : Truthful table m) (f : α → β) :
    Truthful table (f <$> m) := by
  rw [← bind_pure_comp]
  exact h.bind fun a => truthful_pure (f a)

theorem truthful_mapM {f : α → CompileM β} (xs : List α) (h : ∀ x, Truthful table (f x)) :
    Truthful table (xs.mapM f) := by
  induction xs with
  | nil =>
    rw [List.mapM_nil]
    exact truthful_pure []
  | cons x rest ih =>
    rw [List.mapM_cons]
    exact (h x).bind fun y => ih.bind fun ys => truthful_pure (y :: ys)

/-- Changes to the state that leave alone what is known of cycles are truthful. -/
theorem truthful_modify {f : CompilerState → CompilerState}
    (h : ∀ state, (f state).cyclesChecked = state.cyclesChecked) :
    Truthful table (modify f : CompileM PUnit) :=
  ⟨fun state checked eq => checked ((h state).symm.trans eq), fun _ _ _ eq => by cases eq⟩

theorem truthful_tell (events : List LogEvent) : Truthful table (tell events) :=
  truthful_modify fun _ => rfl

theorem truthful_useType (schema : Schema) (name : Name) : Truthful table (useType schema name) :=
  truthful_modify fun _ => rfl

theorem truthful_remember (name : Name) (names : List Name) :
    Truthful table (remember name names) :=
  truthful_modify fun _ => rfl

theorem truthful_remembered? (name : Name) : Truthful table (remembered? name) :=
  ⟨fun _ checked => checked, fun _ _ _ eq => by cases eq⟩

theorem truthful_fail {failure : Failure} (h : ¬ failure.error.IsCycle) :
    Truthful table (fail failure : CompileM α) :=
  (truthful_tell _).bind fun _ => truthful_throw fun cycle => absurd cycle h

theorem truthful_ofExcept {result : Except CompileError α}
    (h : ∀ e, result = .error e → e.IsCycle → table.Justifies e) :
    Truthful table (ofExcept result) := by
  cases result with
  | error e => exact truthful_throw (h e rfl)
  | ok a => exact truthful_pure a

/-- What the search for cycles finds decides how it ends, unless it was made before. -/
theorem run_checkOnce {state : CompilerState} (checked : state.Checked table) :
    (checkOnce table.library).run state = match table.library with
      | .ok _ => (.ok (), { state with cyclesChecked := true })
      | .error e => (.error e, state) := by
  rw [checkOnce, run_bind, show (get : CompileM CompilerState).run state = (.ok state, state)
    from rfl]
  dsimp only
  split
  · rename_i known
    obtain ⟨library, found⟩ := FragmentTable.exists_library_iff.2 (checked known)
    have same : { state with cyclesChecked := true } = state := by rw [← known]
    rw [found, same]
    rfl
  · cases table.library <;> rfl

theorem truthful_checkOnce : Truthful table (checkOnce table.library) := by
  refine ⟨fun state checked => ?_, fun state checked e => ?_⟩
  all_goals
    rw [run_checkOnce checked]
    cases found : table.library with
    | error e => _
    | ok library => _
  · exact checked
  · exact fun _ => FragmentTable.exists_library_iff.1 ⟨library, found⟩
  · intro eq _
    cases eq
    exact FragmentTable.justifies_of_library_eq_error found
  · intro eq
    cases eq

end CompileM

/-! ### What comes after the search -/

variable {settings : Settings}

private theorem not_isCycle_compositeKind {schema : Schema} {typeName : Name}
    {collection : Collection} {failure : Failure}
    (h : compositeKind schema typeName collection = .error failure) : ¬ failure.error.IsCycle := by
  unfold compositeKind at h
  split at h
  · cases h
    exact id
  · split at h
    · cases h
    · cases h
      exact id

mutual

private theorem not_isCycle_collectSelection {parent : Name} {kind : TypeKind}
    {failure : Failure} : ∀ (selection : LinkedSelection) (collection : Collection),
    collectSelection settings parent kind selection collection = .error failure →
      ¬ failure.error.IsCycle
  | .field _ _ _ _ _ _, collection, h => by
    rw [collectSelection] at h
    split at h
    · cases h
      exact id
    · cases h
  | .inlineFragment _ _ _ selections, collection, h => by
    simp only [collectSelection] at h
    split at h
    · cases h
      exact id
    · split at h
      · rcases except_bind_eq_error.1 h with h | ⟨inner, _, h⟩
        · exact not_isCycle_compositeKind h
        · exact not_isCycle_collectEach selections collection h
      · cases h
  | .spread _ _ _ none, collection, h => by
    rw [collectSelection] at h
    cases h
    exact id
  | .spread _ _ _ (some fragment), collection, h => by
    rw [collectSelection] at h
    exact not_isCycle_collectFragment fragment collection h

private theorem not_isCycle_collectFragment {parent : Name} {kind : TypeKind}
    {failure : Failure} : ∀ (fragment : Fragment) (collection : Collection),
    collectFragment settings parent kind fragment collection = .error failure →
      ¬ failure.error.IsCycle
  | ⟨_, _, _, selections⟩, collection, h => by
    simp only [collectFragment] at h
    split at h
    · cases h
      exact id
    · split at h
      · cases h
      · split at h
        · rcases except_bind_eq_error.1 h with h | ⟨inner, _, h⟩
          · exact not_isCycle_compositeKind h
          · exact not_isCycle_collectEach selections _ h
        · cases h

private theorem not_isCycle_collectEach {parent : Name} {kind : TypeKind} {failure : Failure} :
    ∀ (selections : List LinkedSelection) (collection : Collection),
      collectEach settings parent kind selections collection = .error failure →
        ¬ failure.error.IsCycle
  | [], collection, h => by
    rw [collectEach] at h
    cases h
  | selection :: rest, collection, h => by
    rw [collectEach] at h
    rcases except_bind_eq_error.1 h with h | ⟨first, _, h⟩
    · exact not_isCycle_collectSelection selection collection h
    · exact not_isCycle_collectEach rest first h

end

/-- Collection reports no cycles. -/
theorem not_isCycle_collect {parent : Name} {selections : List LinkedSelection}
    {collection : Collection} {failure : Failure}
    (h : collect settings parent selections collection = .error failure) :
    ¬ failure.error.IsCycle := by
  rw [collect] at h
  rcases except_bind_eq_error.1 h with h | ⟨kind, _, h⟩
  · exact not_isCycle_compositeKind h
  · exact not_isCycle_collectEach selections collection h

private theorem not_isCycle_mergeSelections {parent : Name} {occurrences : List Occurrence}
    {failure : Failure} {collection : Collection}
    (h : mergeSelections settings parent occurrences collection = .error failure) :
    ¬ failure.error.IsCycle := by
  unfold mergeSelections at h
  generalize (occurrences.filter fun occurrence => !occurrence.selections.isEmpty) = kept at h
  induction kept generalizing collection with
  | nil => cases h
  | cons first rest ih =>
    rw [List.foldlM_cons] at h
    rcases except_bind_eq_error.1 h with h | ⟨next, _, h⟩
    · exact not_isCycle_collect h
    · exact ih h

private theorem truthful_resolveFragmentWith {fragment : Fragment}
    {recur : ResolveBelow fragment.height}
    (truthful : ∀ parent collection lt, Truthful table (recur parent collection lt)) :
    Truthful table (resolveFragmentWith settings fragment recur) := by
  unfold resolveFragmentWith
  split
  · exact truthful_throw False.elim
  · split
    · rename_i collected
      exact truthful_fail (not_isCycle_collect collected)
    · refine (truthful_tell _).bind fun _ => (truthful _ _ _).bind fun resolved => ?_
      exact (truthful_remember _ _).bind fun _ => truthful_pure resolved

section

variable {n : Nat} {recur : ResolveBelow n}
  (truthful : ∀ parent collection lt, Truthful table (recur parent collection lt))

include truthful

private theorem truthful_resolveField (parent : Name) (field : ApplicableField)
    (bound : ∀ occurrence ∈ field.occurrences, height occurrence.selections < n) :
    Truthful table (resolveField settings recur parent field bound) := by
  have subselections : Truthful table (resolveSubselections settings recur field bound) := by
    unfold resolveSubselections
    split
    · rename_i merged
      exact truthful_fail (not_isCycle_mergeSelections merged)
    · exact (truthful_tell _).bind fun _ => truthful _ _ _
  refine (truthful_useType _ _).bind fun _ => ?_
  dsimp only
  split
  · exact (subselections.map some).bind fun resolved => truthful_pure _
  · exact (truthful_pure none).bind fun resolved => truthful_pure _

private theorem truthful_resolveFields (parent : Name) : ∀ (fields : List ApplicableField) bound
    (references : List Name),
    Truthful table (resolveFields settings recur parent fields bound references)
  | [], _, _ => truthful_pure _
  | field :: rest, _, _ =>
    (truthful_resolveField truthful parent field _).bind fun _ =>
      (truthful_resolveFields parent rest _ _).bind fun _ => truthful_pure _

private theorem truthful_spreadReferences : ∀ (fragments : List Fragment) bound
    (references : List Name),
    Truthful table (spreadReferences settings recur fragments bound references)
  | [], _, _ => truthful_pure _
  | fragment :: rest, _, _ => by
    refine Truthful.bind ?_ fun own => truthful_spreadReferences rest _ _
    refine (truthful_remembered? _).bind fun remembered => ?_
    cases remembered with
    | some names => exact (truthful_tell _).bind fun _ => truthful_pure names
    | none =>
      refine Truthful.bind ?_ fun resolved => truthful_pure resolved.references
      exact truthful_resolveFragmentWith fun _ _ _ => truthful _ _ _

end

section

variable {collection : Collection} {recur : ResolveBelow collection.height}
  (truthful : ∀ parent lower lt, Truthful table (recur parent lower lt))

include truthful

private theorem truthful_resolveBranches : ∀ objects references : List Name,
    Truthful table (resolveBranches settings collection recur objects references)
  | [], _ => truthful_pure _
  | object :: rest, _ => by
    refine Truthful.bind ?_ fun first =>
      (truthful_resolveBranches rest _).bind fun others => truthful_pure _
    exact (truthful_resolveFields truthful object _ _ _).bind fun fields =>
      (truthful_spreadReferences truthful _ _ _).bind fun references => truthful_pure _

private theorem truthful_resolveWith (parent : Name) :
    Truthful table (resolveWith settings parent collection recur) := by
  refine (truthful_resolveFields truthful parent _ _ _).bind fun fields => ?_
  refine (truthful_resolveBranches truthful _ _).bind fun branches => ?_
  exact (truthful_spreadReferences truthful _ _ _).bind fun references => truthful_pure _

end

/-- Resolution reports no cycles. -/
theorem truthful_resolve (parent : Name) (collection : Collection) :
    Truthful table (resolve settings parent collection) := by
  induction parent, collection using resolve.induct with
  | case1 parent collection ih =>
    rw [resolve.eq_1]
    exact truthful_resolveWith ih parent

theorem truthful_resolveFragment (fragment : Fragment) :
    Truthful table (resolveFragment settings fragment) :=
  truthful_resolveFragmentWith fun _ _ _ => truthful_resolve _ _

/-! ### Definitions and documents -/

variable {compiler : Compiler}

/-- How the search for cycles ends. -/
theorem run_library {state : CompilerState} (checked : state.Checked compiler.table) :
    compiler.library.run state = match compiler.table.library with
      | .ok library => (.ok library, { state with cyclesChecked := true })
      | .error e => (.error e, state) := by
  rw [Compiler.library, run_bind, run_checkOnce checked]
  cases found : compiler.table.library with
  | error e => rfl
  | ok library =>
    rw [FragmentTable.linked_eq found]
    rfl

private theorem truthful_library : Truthful compiler.table compiler.library :=
  truthful_checkOnce.bind fun _ => truthful_pure _

private theorem truthful_compileVariable (definition : VariableDefinition) :
    Truthful compiler.table (compiler.compileVariable definition) := by
  unfold Compiler.compileVariable
  dsimp only
  split
  · exact truthful_throw False.elim
  · exact (truthful_useType _ _).bind fun _ => truthful_pure _

private theorem not_isCycle_printWithFragments {source : String} {names : List Name}
    {e : CompileError} (h : compiler.printWithFragments source names = .error e) :
    ¬ e.IsCycle := by
  have texts : ∀ names : List Name, names.mapM compiler.printNamedFragment = .error e →
      ¬ e.IsCycle := by
    intro names
    induction names with
    | nil =>
      intro h
      cases h
    | cons name rest ih =>
      intro h
      rw [List.mapM_cons] at h
      rcases except_bind_eq_error.1 h with h | ⟨_, _, h⟩
      · unfold Compiler.printNamedFragment at h
        split at h
        · cases h
        · cases h
          exact id
      · rcases except_bind_eq_error.1 h with h | ⟨_, _, h⟩
        · exact ih h
        · cases h
  rcases except_bind_eq_error.1 h with h | ⟨_, _, h⟩
  · exact texts names h
  · cases h

theorem truthful_compileOperation (definition : OperationDefinition) :
    Truthful compiler.table (compiler.compileOperation definition) := by
  refine truthful_library.bind fun library => ?_
  have name : Truthful compiler.table (Compiler.requireName definition) := by
    unfold Compiler.requireName
    split
    · exact truthful_pure _
    · exact truthful_throw False.elim
  have root : Truthful compiler.table (compiler.requireRoot definition) := by
    unfold Compiler.requireRoot
    split
    · exact truthful_pure _
    · exact truthful_throw False.elim
  have selections : ∀ parent selections,
      Truthful compiler.table (compiler.resolveSelections parent selections) := by
    intro parent selections
    unfold Compiler.resolveSelections
    split
    · rename_i collected
      exact truthful_fail (not_isCycle_collect collected)
    · exact (truthful_tell _).bind fun _ => truthful_resolve _ _
  refine name.bind fun name => (truthful_tell _).bind fun _ => ?_
  refine (truthful_mapM _ truthful_compileVariable).bind fun compiled => ?_
  refine root.bind fun root => (selections root _).bind fun resolved => ?_
  refine (truthful_ofExcept fun e eq cycle => ?_).bind fun text =>
    (truthful_tell _).bind fun _ => truthful_pure _
  exact absurd cycle (not_isCycle_printWithFragments eq)

theorem truthful_compileFragment (definition : FragmentDefinition) :
    Truthful compiler.table (compiler.compileFragment definition) :=
  truthful_library.bind fun _ => (truthful_tell _).bind fun _ =>
    (truthful_resolveFragment _).bind fun _ => truthful_pure _

theorem truthful_compile : Truthful compiler.table compiler.compile := by
  refine (truthful_mapM _ truthful_compileOperation).bind fun operations => ?_
  refine (truthful_mapM _ truthful_compileFragment).bind fun fragments => ?_
  have read : Truthful compiler.table (get : CompileM CompilerState) :=
    ⟨fun _ checked => checked, fun _ _ _ eq => by cases eq⟩
  exact read.bind fun _ => truthful_pure _

end

end GraphQLCompiler
