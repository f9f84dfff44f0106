import GraphQLCompiler.TypesUsed
import Mathlib.Logic.Relation

/-!
# What used types contain

A type **uses** another if it leads to it from input object to input object, and the other needs a
declaration (`Schema.Uses`). Adding a type walks depth first and marks a type before it goes on to
the types of its fields, so in the middle of the walk a marked type may have fields that are still
pending. Once nothing is pending the used types are **closed** again, and what was added is exactly
what the type uses (`TypesUsed.mem_add_iff`).
-/

namespace GraphQLCompiler

/-- A step from an input object to the type of one of its fields. -/
def Schema.HasInput (schema : Schema) (name other : Name) : Prop :=
  schema.needsDeclaration name ∧ other ∈ schema.inputFieldTypes name

/-- Whether a type **uses** a type that needs a declaration: itself, or one that its fields lead
to. -/
def Schema.Uses (schema : Schema) (name other : Name) : Prop :=
  Relation.ReflTransGen schema.HasInput name other ∧ schema.needsDeclaration other

variable {schema : Schema} {name other : Name}

theorem Schema.uses_iff : schema.Uses name other ↔ schema.needsDeclaration name ∧
    (other = name ∨ ∃ next ∈ schema.inputFieldTypes name, schema.Uses next other) := by
  constructor
  · rintro ⟨path, needs⟩
    rcases Relation.ReflTransGen.cases_head path with rfl | ⟨next, step, path⟩
    · exact ⟨needs, .inl rfl⟩
    · exact ⟨step.1, .inr ⟨next, step.2, path, needs⟩⟩
  · rintro ⟨needs, rfl | ⟨next, mem, path, needsOther⟩⟩
    · exact ⟨.refl, needs⟩
    · exact ⟨.head ⟨needs, mem⟩ path, needsOther⟩

namespace TypesUsed

/-- Whether used types are **closed** but for some pending types: the types of the fields of a used
input object are used too, or pending. -/
def ClosedUpTo (schema : Schema) (pending : List Name) (used : TypesUsed) : Prop :=
  ∀ name ∈ used, ∀ other ∈ schema.inputFieldTypes name, schema.needsDeclaration other →
    other ∈ used ∨ other ∈ pending

/-- Whether used types are closed. -/
abbrev Closed (schema : Schema) (used : TypesUsed) : Prop := ClosedUpTo schema [] used

variable {used : TypesUsed} {pending : List Name}

theorem closed_nil : Closed schema [] := fun _ mem => by cases mem

/-- What a used type uses is used, or used by a type that is pending. -/
private theorem ClosedUpTo.mem_of_uses (closed : ClosedUpTo schema pending used)
    (mem : name ∈ used) (uses : schema.Uses name other) :
    other ∈ used ∨ ∃ next ∈ pending, schema.Uses next other := by
  obtain ⟨path, needs⟩ := uses
  induction path using Relation.ReflTransGen.head_induction_on with
  | refl => exact .inl mem
  | @head name next step path ih =>
    have usesNext : schema.Uses next other := ⟨path, needs⟩
    rcases closed name mem next step.2 (Schema.uses_iff.1 usesNext).1 with memNext | memPending
    · exact ih memNext
    · exact .inr ⟨next, memPending, usesNext⟩

/-- What adding types makes of used types that are closed but for them. -/
private theorem addAll_spec (used : TypesUsed) (names : List Name)
    (closed : ClosedUpTo schema names used) :
    Closed schema (addAll schema used names) ∧ ∀ other, other ∈ addAll schema used names ↔
      other ∈ used ∨ ∃ name ∈ names, schema.Uses name other := by
  induction used, names using addAll.induct schema with
  | case1 used =>
    rw [addAll]
    exact ⟨closed, fun other => by simp⟩
  | case2 used name rest new ih =>
    have closedNow : ClosedUpTo schema (schema.inputFieldTypes name ++ rest) (used ++ [name]) := by
      intro first mem next memNext needs
      rcases List.mem_append.1 mem with mem | mem
      · rcases closed first mem next memNext needs with old | waiting
        · exact .inl (List.mem_append_left _ old)
        · rcases List.mem_cons.1 waiting with rfl | waiting
          · exact .inl (List.mem_append_right _ (List.mem_singleton_self _))
          · exact .inr (List.mem_append_right _ waiting)
      · rw [List.mem_singleton.1 mem] at memNext
        exact .inr (List.mem_append_left _ memNext)
    obtain ⟨closedAfter, mem_iff⟩ := ih closedNow
    rw [addAll, if_pos new]
    refine ⟨closedAfter, fun other => ?_⟩
    -- the type is marked now and its fields are pending, which is all that it uses
    have usesName : schema.Uses name other ↔ other = name ∨
        ∃ next ∈ schema.inputFieldTypes name, schema.Uses next other := by
      rw [Schema.uses_iff, and_iff_right new.1]
    rw [mem_iff]
    simp only [List.mem_append, List.mem_cons, List.not_mem_nil, or_false, or_and_right, exists_or,
      exists_eq_left, usesName, or_assoc]
  | case3 used name rest old ih =>
    -- the type is marked already, or it needs no declaration and uses nothing
    have marked : schema.needsDeclaration name → name ∈ used := fun needs =>
      Decidable.byContradiction fun fresh => old ⟨needs, fresh⟩
    have closedNow : ClosedUpTo schema rest used := by
      intro first mem next memNext needs
      rcases closed first mem next memNext needs with used | waiting
      · exact .inl used
      · rcases List.mem_cons.1 waiting with rfl | waiting
        · exact .inl (marked needs)
        · exact .inr waiting
    obtain ⟨closedAfter, mem_iff⟩ := ih closedNow
    rw [addAll, if_neg old]
    refine ⟨closedAfter, fun other => ?_⟩
    rw [mem_iff]
    constructor
    · rintro (mem | ⟨next, mem, uses⟩)
      · exact .inl mem
      · exact .inr ⟨next, List.mem_cons_of_mem _ mem, uses⟩
    · rintro (mem | ⟨next, mem, uses⟩)
      · exact .inl mem
      · rcases List.mem_cons.1 mem with rfl | mem
        · exact closedNow.mem_of_uses (marked (Schema.uses_iff.1 uses).1) uses
        · exact .inr ⟨next, mem, uses⟩

/-- Adding types leaves those that were used before at the front. -/
theorem prefix_addAll (used : TypesUsed) (names : List Name) :
    used <+: addAll schema used names := by
  induction used, names using addAll.induct schema with
  | case1 used =>
    have nothing : addAll schema used [] = used := by rw [addAll]
    exact nothing.symm ▸ List.prefix_rfl
  | case2 used name rest new ih =>
    rw [addAll, if_pos new]
    exact (List.prefix_append used [name]).trans ih
  | case3 used name rest old ih =>
    rw [addAll, if_neg old]
    exact ih

/-- Used types that are closed stay so whatever is pending. -/
private theorem Closed.upTo (closed : Closed schema used) (pending : List Name) :
    ClosedUpTo schema pending used := fun first mem next memNext needs =>
  (closed first mem next memNext needs).imp_right fun waiting => by cases waiting

/-- **Adding a type** to closed used types adds what the type uses. -/
theorem mem_add_iff (closed : Closed schema used) :
    other ∈ used.add schema name ↔ other ∈ used ∨ schema.Uses name other := by
  rw [add, (addAll_spec used [name] (closed.upTo [name])).2]
  simp

theorem Closed.add (closed : Closed schema used) : Closed schema (used.add schema name) :=
  (addAll_spec used [name] (closed.upTo [name])).1

private theorem nodup_addAll (used : TypesUsed) (names : List Name) (nodup : used.Nodup) :
    (addAll schema used names).Nodup := by
  induction used, names using addAll.induct schema with
  | case1 used =>
    rw [addAll]
    exact nodup
  | case2 used name rest new ih =>
    rw [addAll, if_pos new]
    refine ih (List.nodup_append.2 ⟨nodup, by simp, ?_⟩)
    rintro other mem _ last rfl
    exact new.2 (List.mem_singleton.1 last ▸ mem)
  | case3 used name rest old ih =>
    rw [addAll, if_neg old]
    exact ih nodup

/-- Adding a type repeats none. -/
theorem nodup_add (nodup : used.Nodup) : (used.add schema name).Nodup :=
  nodup_addAll used [name] nodup

end TypesUsed

end GraphQLCompiler
