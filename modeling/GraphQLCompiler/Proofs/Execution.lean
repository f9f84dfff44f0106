import GraphQLCompiler.Collection.Basic
import GraphQLCompiler.Proofs.Containment
import GraphQLCompiler.Proofs.Linking

/-!
# What an execution collects

When selections are executed on an object, the fields that apply to it are collected by response
name (`execute`). Selections whose directives do not include them are passed over, and so are type
conditions that do not contain the type of the object and fragments that have been visited before.

Visiting a fragment once is enough, since what it selects for the object does not depend on where
it is spread. So what is collected are the fields that selections **reach**, through fragments that
apply to the object and are included (`has_execute_iff`).
-/

namespace GraphQLCompiler

/-! ### Selections -/

/-- The directives of a selection. -/
def Selection.directives {τ : Type} : Selection τ → List Directive
  | .field _ _ _ directives _ _ => directives
  | .inlineFragment _ directives _ _ => directives
  | .spread _ directives _ _ => directives

/-- The key of a selection in a response, if it is a field. -/
def Selection.key? {τ : Type} : Selection τ → Option Name
  | .field aliasName name _ _ _ _ => some (responseName aliasName name)
  | .inlineFragment _ _ _ _ => none
  | .spread _ _ _ _ => none

/-- The selections that are written inside a selection. -/
def Selection.selections {τ : Type} : Selection τ → List (Selection τ)
  | .field _ _ _ _ _ selections => selections
  | .inlineFragment _ _ _ selections => selections
  | .spread _ _ _ _ => []

/-- Whether a selection is a field with a response name that its directives include. -/
def Selection.Gives {τ : Type} (includes : List Directive → Bool) (selection : Selection τ)
    (name : Name) : Prop :=
  selection.key? = some name ∧ includes selection.directives

/-! ### Execution -/

/-- Whether a type condition applies to an object: it is the type of the object, an interface that
the type implements or a union that it is a member of. -/
def Schema.fragmentApplies (schema : Schema) (object typeCondition : Name) : Bool :=
  match schema.find? typeCondition with
  | some (.object _ _) => object = typeCondition
  | some (.interface _ _) => schema.lists object typeCondition
  | some (.union members) => members.contains object
  | _ => false

/-- For object types, type conditions apply to what they contain. -/
theorem Schema.fragmentApplies_iff {schema : Schema} {object : Name} (ho : schema.isObject object)
    {typeCondition : Name} :
    schema.fragmentApplies object typeCondition ↔ schema.isSubtypeOf object typeCondition := by
  have kind : ∀ {definition}, schema.find? typeCondition = some definition →
      definition.kind ≠ .object → object ≠ typeCondition := by
    rintro definition found ne rfl
    rw [isObject_iff, typeKind?, found] at ho
    exact ne (Option.some.inj ho)
  have missing : schema.find? typeCondition = none → object ≠ typeCondition := by
    rintro found rfl
    rw [isObject_iff, typeKind?, found] at ho
    cases ho
  unfold fragmentApplies
  rw [isSubtypeOf_iff, isSubtype]
  cases found : schema.find? typeCondition with
  | none => simp [missing found]
  | some definition =>
    cases definition with
    | object => simp
    | interface => simp [kind found (by simp [TypeDefinition.kind])]
    | union => simp [kind found (by simp [TypeDefinition.kind])]
    | scalar | enum | inputObject => simp [kind found (by simp [TypeDefinition.kind])]

/-- What has been collected for an object: the fields by response name, and the fragments that have
been visited. -/
structure Execution where
  visited : List Name := []
  groups : NameMap (List LinkedSelection) := []

namespace Execution

/-- Adds a field of a response name. -/
def addField (execution : Execution) (responseName : Name) (field : LinkedSelection) : Execution :=
  { execution with groups := execution.groups.push responseName field }

/-- Adds a fragment that is visited. -/
def visit (execution : Execution) (name : Name) : Execution :=
  { execution with visited := execution.visited ++ [name] }

/-- The response names in the order of their first field. -/
def names (execution : Execution) : List Name := execution.groups.keys

end Execution

section

variable (schema : Schema) (includes : List Directive → Bool) (object : Name)

mutual

/-- Adds what a selection selects for an object. -/
def Selection.execute : LinkedSelection → Execution → Execution
  | .field aliasName name arguments directives location selections, execution =>
    if includes directives then execution.addField (responseName aliasName name)
      (.field aliasName name arguments directives location selections)
    else execution
  | .inlineFragment typeCondition directives _ selections, execution =>
    if includes directives ∧ typeCondition.all (schema.fragmentApplies object) then
      execute selections execution
    else execution
  | .spread name directives _ none, execution =>
    if includes directives ∧ name ∉ execution.visited then execution.visit name else execution
  | .spread name directives _ (some fragment), execution =>
    if includes directives ∧ name ∉ execution.visited then
      fragment.execute (execution.visit name)
    else execution

/-- Adds what a fragment selects for an object. -/
def Fragment.execute : Fragment → Execution → Execution
  | ⟨_, typeCondition, _, selections⟩, execution =>
    if schema.fragmentApplies object typeCondition then GraphQLCompiler.execute selections execution
    else execution

/-- Adds what selections select for an object, one by one. -/
def execute : List LinkedSelection → Execution → Execution
  | [], execution => execution
  | selection :: rest, execution => execute rest (selection.execute execution)

end

end

/-- The response names that selections give for an object, with every `@skip` and `@include` taken
as included. -/
def executedNames (schema : Schema) (object : Name) (selections : List LinkedSelection) :
    List Name :=
  (execute schema (fun _ => true) object selections {}).names

/-! ### Collected fields -/

namespace Execution

variable {execution : Execution} {name : Name} {field : LinkedSelection}

/-- Whether a field has been collected with a response name. -/
def Has (execution : Execution) (name : Name) (field : LinkedSelection) : Prop :=
  ∃ group, (name, group) ∈ execution.groups ∧ field ∈ group

/-- Whether each response name has a field. -/
def Filled (execution : Execution) : Prop :=
  ∀ name ∈ execution.names, ∃ field, execution.Has name field

theorem has_addField {key : Name} {added : LinkedSelection} :
    (execution.addField key added).Has name field ↔
      execution.Has name field ∨ name = key ∧ field = added := by
  obtain ⟨visited, groups⟩ := execution
  unfold Has addField
  induction groups with
  | nil => simp [NameMap.push]
  | cons group rest ih =>
    by_cases eq : group.1 = key
    · simp only [NameMap.push, eq, if_true, List.mem_cons, Prod.ext_iff]
      grind
    · simp only [NameMap.push, eq, if_false, List.mem_cons]
      grind

theorem mem_names_of_has (h : execution.Has name field) : name ∈ execution.names := by
  obtain ⟨group, mem, -⟩ := h
  exact List.mem_map.2 ⟨_, mem, rfl⟩

theorem Filled.addField (h : execution.Filled) (key : Name) (added : LinkedSelection) :
    (execution.addField key added).Filled := by
  intro name mem
  have key_or : name = key ∨ name ∈ execution.names := by
    unfold names Execution.addField at mem
    rw [NameMap.keys_push] at mem
    unfold names
    grind
  rcases key_or with rfl | mem
  · exact ⟨added, has_addField.2 (.inr ⟨rfl, rfl⟩)⟩
  · obtain ⟨field, has⟩ := h name mem
    exact ⟨field, has_addField.2 (.inl has)⟩

end Execution

/-! ### Reached fields -/

section

variable (schema : Schema) (includes : List Directive → Bool) (object : Name)

mutual

/-- The fields that a selection **reaches** for an object: those that are inside no fragments but
such as apply to the object and are included. -/
def Selection.reached : LinkedSelection → List LinkedSelection
  | .field aliasName name arguments directives location selections =>
    [.field aliasName name arguments directives location selections]
  | .inlineFragment typeCondition directives _ selections =>
    if includes directives ∧ typeCondition.all (schema.fragmentApplies object) then
      reached selections
    else []
  | .spread _ _ _ none => []
  | .spread _ directives _ (some fragment) => if includes directives then fragment.reached else []

/-- The fields that a fragment reaches for an object. -/
def Fragment.reached : Fragment → List LinkedSelection
  | ⟨_, typeCondition, _, selections⟩ =>
    if schema.fragmentApplies object typeCondition then GraphQLCompiler.reached selections else []

/-- The fields that selections reach for an object. -/
def reached : List LinkedSelection → List LinkedSelection
  | [] => []
  | selection :: rest => selection.reached ++ reached rest

end

end

/-! ### Visiting once is enough -/

section

variable {schema : Schema} {includes : List Directive → Bool} {object : Name}
  {find : Name → Option Fragment}

/-- Whether what visited fragments of a height at most reach for an object has been collected. -/
def Execution.Complete (schema : Schema) (includes : List Directive → Bool) (object : Name)
    (find : Name → Option Fragment) (n : Nat) (execution : Execution) : Prop :=
  ∀ name ∈ execution.visited, ∀ fragment, find name = some fragment → fragment.height ≤ n →
    ∀ field ∈ fragment.reached schema includes object, ∀ response,
      field.Gives includes response → execution.Has response field

/-- What an execution of selections of a height at most adds. -/
structure Executes (schema : Schema) (includes : List Directive → Bool) (object : Name)
    (find : Name → Option Fragment) (n : Nat) (before after : Execution)
    (fields : List LinkedSelection) : Prop where
  has_iff : ∀ response field, after.Has response field ↔
    before.Has response field ∨ field ∈ fields ∧ field.Gives includes response
  filled : before.Filled → after.Filled
  visits : ∀ name ∈ after.visited, name ∈ before.visited ∨
    ∀ fragment, find name = some fragment → fragment.height ≤ n
  complete : after.Complete schema includes object find n

private theorem executes_refl {n : Nat} {execution : Execution} {fields : List LinkedSelection}
    (complete : execution.Complete schema includes object find n)
    (present : ∀ field ∈ fields, ∀ response, field.Gives includes response →
      execution.Has response field) :
    Executes schema includes object find n execution execution fields where
  has_iff response field := ⟨.inl, fun h => h.elim id fun ⟨mem, gives⟩ =>
    present field mem response gives⟩
  filled := id
  visits _ mem := .inl mem
  complete := complete

/-- A selection that is passed over adds nothing. -/
private theorem executes_nil {n : Nat} {execution : Execution}
    (complete : execution.Complete schema includes object find n) :
    Executes schema includes object find n execution execution [] :=
  executes_refl complete fun _ mem => by cases mem

/-- A field that is included is added with its key. -/
private theorem executes_addField {n : Nat} {execution : Execution}
    (complete : execution.Complete schema includes object find n) {field : LinkedSelection}
    {key : Name} (hasKey : field.key? = some key) (included : includes field.directives) :
    Executes schema includes object find n execution (execution.addField key field) [field] := by
  have has_iff : ∀ response other, (execution.addField key field).Has response other ↔
      execution.Has response other ∨ other ∈ [field] ∧ other.Gives includes response := by
    intro response other
    rw [Execution.has_addField, List.mem_singleton]
    refine or_congr_right ⟨?_, ?_⟩
    · rintro ⟨rfl, rfl⟩
      exact ⟨rfl, hasKey, included⟩
    · rintro ⟨rfl, key, -⟩
      exact ⟨Option.some.inj (key.symm.trans hasKey), rfl⟩
  refine ⟨has_iff, fun filled => filled.addField _ _, fun _ mem => .inl mem, ?_⟩
  intro name mem fragment found low other reaches response gives
  exact (has_iff response other).2
    (.inl (complete name mem fragment found low other reaches response gives))

/-- A visited name that stands for no fragment has nothing that could be missing. -/
private theorem executes_visit_undefined {n : Nat} {execution : Execution}
    (complete : execution.Complete schema includes object find n) {name : Name}
    (undefined : find name = none) :
    Executes schema includes object find n execution (execution.visit name) [] := by
  have visited : ∀ other ∈ (execution.visit name).visited, other ∈ execution.visited ∨
      find other = none := by
    intro other mem
    refine (List.mem_append.1 mem).imp_right fun eq => ?_
    rwa [List.mem_singleton.1 eq]
  have nothing : ∀ response field, (execution.visit name).Has response field ↔
      execution.Has response field ∨ field ∈ [] ∧ field.Gives includes response :=
    fun _ _ => ⟨.inl, fun h => h.elim id fun absent => by cases absent.1⟩
  refine ⟨nothing, id, fun other mem => ?_, fun other mem fragment found => ?_⟩
  · refine (visited other mem).imp_right fun missing fragment found => ?_
    rw [missing] at found
    cases found
  · rcases visited other mem with old | missing
    · exact complete other old fragment found
    · rw [missing] at found
      cases found

/-- A visited fragment adds what its execution adds. -/
private theorem executes_visit {m n : Nat} {before after : Execution} {fragment : Fragment}
    (found : find fragment.name = some fragment)
    (low : fragment.height ≤ n) (le : m ≤ n)
    (complete : before.Complete schema includes object find n)
    (h : Executes schema includes object find m (before.visit fragment.name) after
      (fragment.reached schema includes object)) :
    Executes schema includes object find n before after
      (fragment.reached schema includes object) where
  has_iff := h.has_iff
  filled := h.filled
  visits name mem := by
    rcases h.visits name mem with old | new
    · rcases List.mem_append.1 old with old | eq
      · exact .inl old
      · rw [List.mem_singleton.1 eq]
        refine .inr fun other foundOther => ?_
        rw [found] at foundOther
        cases foundOther
        exact low
    · exact .inr fun other foundOther => Nat.le_trans (new other foundOther) le
  complete name mem other foundOther lowOther field reaches response gives := by
    -- the name was visited before, or it is that of the fragment, or it was visited inside it
    rcases h.visits name mem with old | new
    · rcases List.mem_append.1 old with old | eq
      · exact (h.has_iff response field).2
          (.inl (complete name old other foundOther lowOther field reaches response gives))
      · rw [List.mem_singleton.1 eq, found] at foundOther
        cases foundOther
        exact (h.has_iff response field).2 (.inr ⟨reaches, gives⟩)
    · exact h.complete name mem other foundOther (new other foundOther) field reaches response gives

mutual

private theorem executes_selection {n : Nat} : ∀ (selection : LinkedSelection)
    (execution : Execution), selection.LinkedBy find → selection.height ≤ n →
    execution.Complete schema includes object find n →
    Executes schema includes object find n execution
      (selection.execute schema includes object execution)
      (selection.reached schema includes object)
  | .field aliasName name arguments directives location selections, execution, _, _, complete => by
    rw [Selection.execute, Selection.reached]
    split
    · rename_i included
      exact executes_addField complete rfl included
    · rename_i excluded
      refine executes_refl complete fun field mem response gives => absurd ?_ excluded
      rw [List.mem_singleton.1 mem] at gives
      exact gives.2
  | .inlineFragment typeCondition directives _ selections, execution, linked, low, complete => by
    rw [Selection.LinkedBy] at linked
    rw [Selection.height] at low
    rw [Selection.execute, Selection.reached]
    split
    · exact executes_all selections execution linked low complete
    · exact executes_nil complete
  | .spread name directives _ none, execution, linked, _, complete => by
    rw [Selection.LinkedBy] at linked
    rw [Selection.execute, Selection.reached]
    split
    · exact executes_visit_undefined complete linked
    · exact executes_nil complete
  | .spread name directives _ (some fragment), execution, linked, low, complete => by
    rw [Selection.LinkedBy] at linked
    rw [Selection.height] at low
    rw [Selection.execute, Selection.reached]
    obtain ⟨found, rfl, linked⟩ := linked
    by_cases included : includes directives
    · rw [if_pos included]
      split
      · exact executes_fragment fragment execution found linked low complete
      · rename_i passed
        -- what the fragment reaches was collected when it was visited first
        have visited : fragment.name ∈ execution.visited := by
          by_contra fresh
          exact passed ⟨included, fresh⟩
        exact executes_refl complete (complete _ visited fragment found low)
    · rw [if_neg included, if_neg fun h => included h.1]
      exact executes_nil complete

private theorem executes_fragment {n : Nat} : ∀ (fragment : Fragment) (execution : Execution),
    find fragment.name = some fragment → fragment.LinkedBy find → fragment.height ≤ n →
    execution.Complete schema includes object find n →
    Executes schema includes object find n execution
      (fragment.execute schema includes object (execution.visit fragment.name))
      (fragment.reached schema includes object)
  | ⟨name, typeCondition, location, selections⟩, execution, found, linked, low, complete => by
    have lower : height selections < n := by rwa [Fragment.height] at low
    -- the fragment is higher than what it selects, so it counts as not visited below it
    have completeBelow : (execution.visit name).Complete schema includes object find
        (height selections) := by
      intro other mem fragment foundOther lowOther field reaches response gives
      rcases List.mem_append.1 mem with old | eq
      · exact complete other old fragment foundOther
          (Nat.le_trans lowOther (Nat.le_of_lt lower)) field reaches response gives
      · rw [List.mem_singleton.1 eq] at foundOther
        cases foundOther.symm.trans found
        rw [Fragment.height] at lowOther
        exact absurd lowOther (Nat.not_succ_le_self _)
    refine executes_visit found low (Nat.le_of_lt lower) complete ?_
    rw [Fragment.execute, Fragment.reached]
    split
    · exact executes_all selections _ (Fragment.linkedBy_iff.1 linked) (Nat.le_refl _)
        completeBelow
    · exact executes_nil completeBelow

private theorem executes_all {n : Nat} : ∀ (selections : List LinkedSelection)
    (execution : Execution), LinkedBy find selections → height selections ≤ n →
    execution.Complete schema includes object find n →
    Executes schema includes object find n execution
      (execute schema includes object selections execution)
      (reached schema includes object selections)
  | [], execution, _, _, complete => by
    rw [execute, reached]
    exact executes_nil complete
  | selection :: rest, execution, linked, low, complete => by
    rw [LinkedBy] at linked
    rw [height, Nat.max_le] at low
    have first := executes_selection selection execution linked.1 low.1 complete
    have others := executes_all rest _ linked.2 low.2 first.complete
    rw [execute, reached]
    refine ⟨fun response field => ?_, others.filled ∘ first.filled, fun name mem => ?_,
      others.complete⟩
    · rw [others.has_iff, first.has_iff, List.mem_append, or_and_right, or_assoc]
    · exact (others.visits name mem).elim (first.visits name) .inr

end

private theorem executes_execute {selections : List LinkedSelection}
    (linked : LinkedBy find selections) :
    Executes schema includes object find (height selections) {}
      (execute schema includes object selections {})
      (reached schema includes object selections) :=
  executes_all selections {} linked (Nat.le_refl _) fun _ mem => by cases mem

/-- **What an execution collects** are the fields that the selections reach and that are included
themselves. -/
theorem has_execute_iff {selections : List LinkedSelection} (linked : LinkedBy find selections)
    {name : Name} {field : LinkedSelection} :
    (execute schema includes object selections {}).Has name field ↔
      field ∈ reached schema includes object selections ∧ field.Gives includes name := by
  rw [(executes_execute linked).has_iff]
  refine ⟨fun h => h.elim ?_ id, .inr⟩
  rintro ⟨group, mem, -⟩
  cases mem

/-- The response names of an execution are those of the fields that are collected. -/
theorem mem_names_execute_iff {selections : List LinkedSelection}
    (linked : LinkedBy find selections) {name : Name} :
    name ∈ (execute schema includes object selections {}).names ↔
      ∃ field ∈ reached schema includes object selections, field.Gives includes name := by
  constructor
  · intro mem
    have filled : (execute schema includes object selections {}).Filled :=
      (executes_execute linked).filled fun _ mem => by cases mem
    obtain ⟨field, has⟩ := filled name mem
    exact ⟨field, (has_execute_iff linked).1 has⟩
  · rintro ⟨field, gives⟩
    exact Execution.mem_names_of_has ((has_execute_iff linked).2 gives)

end

end GraphQLCompiler
