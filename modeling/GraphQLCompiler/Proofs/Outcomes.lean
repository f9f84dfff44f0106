import GraphQLCompiler.Proofs.Computation
import GraphQLCompiler.Proofs.UsedTypes
import Mathlib.Data.Set.Basic

/-!
# Outcomes

A compiler remembers from one definition to the next, and what it remembers is meant to make no
difference. So most computations have an **outcome**: from every state that is sound they end with
the same result or the same error, and use the same types besides those that were used before
(`CompileM.Gives`).

A state is **sound** if what is remembered for a fragment is what resolving it anew would give, and
the types that this would use are used already (`CompilerState.Sound`). A fresh compiler is sound,
so an outcome is the one that a computation has on a fresh compiler (`Gives.eq_fresh`).

Two computations **agree** if they have the same outcome, perhaps with different settings.
-/

namespace GraphQLCompiler

variable {α β : Type}

/-- How a computation ends, and the types that it uses. -/
structure Outcome (α : Type) where
  result : Except CompileError α
  used : Set Name

section

variable (settings : Settings) (table : FragmentTable)

/-- A state is **sound** if it remembers what resolving fragments anew gives, if the types that this
uses are used, and if cycles have been excluded only where there are none. -/
structure CompilerState.Sound (state : CompilerState) : Prop where
  remembered : ∀ name names, state.references.find? name = some names →
    ∃ fragment resolved after, table.linked.find? name = some fragment ∧
      (resolveFragment settings fragment).run {} = (.ok resolved, after) ∧
      resolved.references = names ∧ after.typesUsed ⊆ state.typesUsed
  closed : TypesUsed.Closed settings.schema state.typesUsed
  acyclic : state.cyclesChecked → ∃ library, table.library = .ok library

/-- Whether a sound state has the used types of another and some more. -/
structure CompilerState.Extends (before : CompilerState) (used : Set Name)
    (after : CompilerState) : Prop where
  sound : after.Sound settings table
  mem_typesUsed : ∀ name, name ∈ after.typesUsed ↔ name ∈ before.typesUsed ∨ name ∈ used

/-- A computation **gives** an outcome if it ends with the result from every sound state, and adds
the used types to the state. -/
def CompileM.Gives (m : CompileM α) (outcome : Outcome α) : Prop :=
  ∀ before : CompilerState, before.Sound settings table →
    ∃ after, m.run before = (outcome.result, after) ∧
      before.Extends settings table outcome.used after

/-- The outcome that a computation has on a fresh compiler. -/
def CompileM.fresh (m : CompileM α) : Outcome α where
  result := (m.run {}).1
  used := { name | name ∈ (m.run {}).2.typesUsed }

theorem CompilerState.sound_empty : CompilerState.Sound settings table {} where
  remembered _ _ known := by cases known
  closed := TypesUsed.closed_nil
  acyclic checked := by cases checked

end

namespace CompileM

variable {settings : Settings} {table : FragmentTable} {before : CompilerState}

/-- What makes no difference to a sound state adds nothing to it. -/
private theorem extends_log (sound : before.Sound settings table) (log : List LogEvent) :
    before.Extends settings table ∅ { before with log } where
  sound := ⟨sound.remembered, sound.closed, sound.acyclic⟩
  mem_typesUsed name := (or_iff_left (Set.notMem_empty name)).symm

/-- A computation has no other outcome than on a fresh compiler. -/
theorem Gives.eq_fresh {m : CompileM α} {outcome : Outcome α} (h : Gives settings table m outcome) :
    outcome = fresh m := by
  obtain ⟨result, used⟩ := outcome
  obtain ⟨after, run, extended⟩ := h {} (CompilerState.sound_empty settings table)
  have used_eq : used = { name | name ∈ after.typesUsed } := by
    ext name
    exact ((extended.mem_typesUsed name).trans (or_iff_right List.not_mem_nil)).symm
  rw [fresh, run, used_eq]

/-! ### Results and errors -/

theorem gives_pure (a : α) : Gives settings table (pure a) ⟨.ok a, ∅⟩ :=
  fun before sound => ⟨before, rfl, extends_log sound before.log⟩

theorem gives_throw (e : CompileError) :
    Gives settings table (throw e : CompileM α) ⟨.error e, ∅⟩ :=
  fun before sound => ⟨before, rfl, extends_log sound before.log⟩

theorem gives_fail (failure : Failure) :
    Gives settings table (fail failure : CompileM α) ⟨.error failure.error, ∅⟩ :=
  fun _ sound => ⟨_, rfl, extends_log sound _⟩

theorem gives_tell (events : List LogEvent) : Gives settings table (tell events) ⟨.ok (), ∅⟩ :=
  fun _ sound => ⟨_, rfl, extends_log sound _⟩

theorem gives_ofExcept (result : Except CompileError α) :
    Gives settings table (ofExcept result) ⟨result, ∅⟩ := by
  cases result with
  | error e => exact gives_throw e
  | ok a => exact gives_pure a

/-! ### Sequences -/

/-- What follows a computation that stops is not run. -/
theorem Gives.stop {m : CompileM α} {next : α → CompileM β} {e : CompileError} {used : Set Name}
    (h : Gives settings table m ⟨.error e, used⟩) :
    Gives settings table (m >>= next) ⟨.error e, used⟩ := by
  intro before sound
  obtain ⟨after, run, extended⟩ := h before sound
  refine ⟨after, ?_, extended⟩
  rw [run_bind, run]

/-- What follows a computation with a result uses more types. -/
theorem Gives.bind {m : CompileM α} {next : α → CompileM β} {a : α} {used more : Set Name}
    {result : Except CompileError β} (h : Gives settings table m ⟨.ok a, used⟩)
    (h' : Gives settings table (next a) ⟨result, more⟩) :
    Gives settings table (m >>= next) ⟨result, used ∪ more⟩ := by
  intro before sound
  obtain ⟨middle, first, extended⟩ := h before sound
  obtain ⟨after, second, extendedAgain⟩ := h' middle extended.sound
  refine ⟨after, ?_, extendedAgain.sound, fun name => ?_⟩
  · rw [run_bind, first]
    exact second
  · rw [extendedAgain.mem_typesUsed, extended.mem_typesUsed, or_assoc]
    rfl

/-- What is done with the result of a computation uses nothing. -/
theorem Gives.map {m : CompileM α} {outcome : Outcome α} (h : Gives settings table m outcome)
    (f : α → β) : Gives settings table (f <$> m) ⟨outcome.result.map f, outcome.used⟩ := by
  rw [← bind_pure_comp]
  obtain ⟨e | a, used⟩ := outcome
  · exact h.stop
  · rw [← Set.union_empty used]
    exact h.bind (gives_pure (f a))

/-! ### The state -/

theorem gives_useType (name : Name) : Gives settings table (useType settings.schema name)
    ⟨.ok (), { other | settings.schema.Uses name other }⟩ := by
  intro before sound
  refine ⟨_, rfl, ⟨fun known names eq => ?_, sound.closed.add, sound.acyclic⟩, fun _ =>
    TypesUsed.mem_add_iff sound.closed⟩
  obtain ⟨fragment, resolved, after, found, run, references, used⟩ :=
    sound.remembered known names eq
  exact ⟨fragment, resolved, after, found, run, references, fun other mem =>
    (TypesUsed.mem_add_iff sound.closed).2 (.inl (used mem))⟩

/-- Cycles are found, whether they have been looked for before or not. -/
theorem gives_checkOnce :
    Gives settings table (checkOnce table.library) ⟨table.library.map fun _ => (), ∅⟩ := by
  intro before sound
  have unchanged := extends_log sound before.log
  rw [checkOnce, run_bind, show (get : CompileM CompilerState).run before = (.ok before, before)
    from rfl]
  dsimp only
  split
  · rename_i checked
    obtain ⟨library, eq⟩ := sound.acyclic checked
    rw [eq]
    exact ⟨before, rfl, unchanged⟩
  · cases eq : table.library with
    | error e => exact ⟨before, rfl, unchanged⟩
    | ok library =>
      have acyclic : ∃ library, table.library = .ok library := ⟨library, eq⟩
      exact ⟨_, rfl, ⟨sound.remembered, sound.closed, fun _ => acyclic⟩, unchanged.mem_typesUsed⟩

/-! ### Agreement -/

/-- Computations **agree** if they have the same outcome, each with its settings. -/
def Agree (settings settings' : Settings) (table : FragmentTable) (m m' : CompileM α) : Prop :=
  ∃ outcome, Gives settings table m outcome ∧ Gives settings' table m' outcome

variable {settings' : Settings} {m m' : CompileM α}

theorem agree_pure (a : α) : Agree settings settings' table (pure a) (pure a) :=
  ⟨_, gives_pure a, gives_pure a⟩

theorem agree_throw (e : CompileError) :
    Agree settings settings' table (throw e : CompileM α) (throw e) :=
  ⟨_, gives_throw e, gives_throw e⟩

theorem agree_tell (events events' : List LogEvent) :
    Agree settings settings' table (tell events) (tell events') :=
  ⟨_, gives_tell events, gives_tell events'⟩

theorem Agree.bind {next next' : α → CompileM β} (h : Agree settings settings' table m m')
    (h' : ∀ a, Agree settings settings' table (next a) (next' a)) :
    Agree settings settings' table (m >>= next) (m' >>= next') := by
  obtain ⟨⟨e | a, used⟩, gives, gives'⟩ := h
  · exact ⟨_, gives.stop, gives'.stop⟩
  · obtain ⟨⟨result, more⟩, givesNext, givesNext'⟩ := h' a
    exact ⟨_, gives.bind givesNext, gives'.bind givesNext'⟩

theorem Agree.map (h : Agree settings settings' table m m') (f : α → β) :
    Agree settings settings' table (f <$> m) (f <$> m') := by
  obtain ⟨outcome, gives, gives'⟩ := h
  exact ⟨_, gives.map f, gives'.map f⟩

theorem agree_mapM {f f' : α → CompileM β} (xs : List α)
    (h : ∀ x ∈ xs, Agree settings settings' table (f x) (f' x)) :
    Agree settings settings' table (xs.mapM f) (xs.mapM f') := by
  induction xs with
  | nil => exact agree_pure []
  | cons x rest ih =>
    obtain ⟨first, others⟩ := List.forall_mem_cons.1 h
    rw [List.mapM_cons, List.mapM_cons]
    exact first.bind fun y => (ih others).bind fun ys => agree_pure (y :: ys)

/-- Computations that agree have the same outcome on fresh compilers. -/
theorem Agree.fresh_eq (h : Agree settings settings' table m m') : fresh m = fresh m' := by
  obtain ⟨outcome, gives, gives'⟩ := h
  exact gives.eq_fresh.symm.trans gives'.eq_fresh

/-- A computation that agrees with another has an outcome. -/
theorem Agree.gives_fresh (h : Agree settings settings' table m m') :
    Gives settings table m (fresh m) := by
  obtain ⟨outcome, gives, -⟩ := h
  exact gives.eq_fresh ▸ gives

end CompileM

end GraphQLCompiler
