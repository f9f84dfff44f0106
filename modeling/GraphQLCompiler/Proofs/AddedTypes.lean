import GraphQLCompiler.Proofs.Bounded

/-!
# Adding used types one after another

Types are added to the used types one by one, each with all that it uses. Between two additions
nothing is pending, so the used types are closed each time, and what they contain is what the types
that were added use (`TypesUsed.mem_foldl_add_iff`): the order of the additions decides about the
order of the used types only.

An addition follows the fields of input objects depth first. It goes no deeper than there are types
in the schema, since every step down marks one of them that was not marked before, however input
objects refer to each other (`Bounded.addUsed_eq`).
-/

namespace GraphQLCompiler

namespace TypesUsed

variable {schema : Schema} {used : TypesUsed}

theorem closed_foldl_add (closed : Closed schema used) (names : List Name) :
    Closed schema (names.foldl (add schema) used) := by
  induction names generalizing used with
  | nil => exact closed
  | cons name rest ih => exact ih closed.add

theorem nodup_foldl_add (nodup : used.Nodup) (names : List Name) :
    (names.foldl (add schema) used).Nodup := by
  induction names generalizing used with
  | nil => exact nodup
  | cons name rest ih => exact ih (nodup_add nodup)

/-- **Adding types** one after another to closed used types adds what each of them uses. -/
theorem mem_foldl_add_iff (closed : Closed schema used) (names : List Name) {other : Name} :
    other ∈ names.foldl (add schema) used ↔
      other ∈ used ∨ ∃ name ∈ names, schema.Uses name other := by
  induction names generalizing used with
  | nil => simp
  | cons name rest ih =>
    rw [List.foldl_cons, ih closed.add, mem_add_iff closed, or_assoc]
    simp only [List.mem_cons, or_and_right, exists_or, exists_eq_left]

/-- Following the fields of input objects to a depth of the count of types makes all additions. -/
theorem foldlM_addUsed_eq_foldl_add (used : TypesUsed) (names : List Name) :
    names.foldlM (Bounded.addUsed schema (schema.types.length + 1)) used
      = some (names.foldl (add schema) used) := by
  have each : Bounded.addUsed schema (schema.types.length + 1)
      = fun used name => some (used.add schema name) :=
    funext₂ fun used name => Bounded.addUsed_eq (Nat.lt_succ_self _) used name
  rw [each]
  exact List.foldlM_pure

/-- **Additions make a closure.** Types that are added one after another to none, each by following
the fields of input objects depth first, are all added before a depth of the count of the types of
the schema is exceeded. An addition leaves what is there at the front. The used types are then
those that need a declaration and that the added types lead to from input object to input object,
without repetition, and so they are closed under the fields of input objects and the same types
whatever the order of the additions is. -/
theorem adds_closure (schema : Schema) (names : List Name) :
    names.foldlM (Bounded.addUsed schema (schema.types.length + 1)) []
      = some (names.foldl (add schema) []) ∧
    (∀ name, names.foldl (add schema) [] <+: (names ++ [name]).foldl (add schema) []) ∧
    (names.foldl (add schema) []).Nodup ∧
    (∀ other, other ∈ names.foldl (add schema) [] ↔ ∃ name ∈ names, schema.Uses name other) ∧
    (∀ name ∈ names.foldl (add schema) [], ∀ other ∈ schema.inputFieldTypes name,
      schema.needsDeclaration other → other ∈ names.foldl (add schema) []) ∧
    ∀ others : List Name, others.Perm names → ∀ other,
      other ∈ others.foldl (add schema) [] ↔ other ∈ names.foldl (add schema) [] := by
  have mem_iff : ∀ (names : List Name) other, other ∈ names.foldl (add schema) [] ↔
      ∃ name ∈ names, schema.Uses name other := fun names other => by
    rw [mem_foldl_add_iff closed_nil, or_iff_right List.not_mem_nil]
  refine ⟨foldlM_addUsed_eq_foldl_add [] names, fun name => ?_,
    nodup_foldl_add List.nodup_nil names, mem_iff names, ?_, ?_⟩
  · rw [List.foldl_append, List.foldl_cons, List.foldl_nil]
    exact prefix_addAll _ [name]
  · intro name mem other memOther needs
    exact (closed_foldl_add closed_nil names name mem other memOther needs).resolve_right
      List.not_mem_nil
  · intro others perm other
    simp only [mem_iff, perm.mem_iff]

end TypesUsed

/-- A schema with two input objects that refer to each other, one of them also to itself. -/
def mutualSchema : Schema where
  types := [
    ("Int", .scalar), ("Side", .enum ["LEFT", "RIGHT"]),
    ("Left", .inputObject [input "count" "Int", input "right" "Right"]),
    ("Right", .inputObject [input "right" "Right", input "left" "Left", input "side" "Side"])]
  roots := {}
  directives := []
where
  /-- An input field without a default value. -/
  input (name type : Name) : InputValueDefinition :=
    { description := none, name, type := .named type false, defaultValue := none }

/-- Either input object leads to the other and to the enum, and adding the enum first changes only
the order. -/
theorem adds_closure_mutual :
    ["Left"].foldl (TypesUsed.add mutualSchema) [] = ["Left", "Right", "Side"] ∧
    ["Side", "Left"].foldl (TypesUsed.add mutualSchema) [] = ["Side", "Left", "Right"] ∧
    (∀ other, other ∈ ["Left", "Right", "Side"] ↔ mutualSchema.Uses "Left" other) ∧
    ∀ other, other ∈ ["Left", "Side"].foldl (TypesUsed.add mutualSchema) [] ↔
      other ∈ ["Side", "Left"].foldl (TypesUsed.add mutualSchema) [] := by
  have left : ["Left"].foldl (TypesUsed.add mutualSchema) [] = ["Left", "Right", "Side"] := by cbv
  refine ⟨left, by cbv, fun other => ?_, ?_⟩
  · rw [← left, (TypesUsed.adds_closure mutualSchema ["Left"]).2.2.2.1 other]
    simp
  · have order := (TypesUsed.adds_closure mutualSchema ["Side", "Left"]).2.2.2.2.2
    exact order ["Left", "Side"] (List.Perm.swap "Side" "Left" [])

end GraphQLCompiler
