import GraphQLCompiler.Proofs.FirstOccurrence
import GraphQLCompiler.Proofs.Tree
import Mathlib.Data.List.Sort
import Mathlib.Data.String.Basic

/-!
# The order of members

The members of a JSON object have an order, but objects are often meant to be equal whatever it is.
A **rearrangement** brings maps into some order by their keys. It rearranges JSON values at every
depth, and compiled documents, which have maps of operations, of fragments and in the values of
arguments.

Leaving everything as it is is one rearrangement. Sorting is another, and it forgets the order:
maps with distinct keys have the same values if and only if they are equal when sorted
(`NameMap.sorted_eq_sorted_iff`).
-/

namespace GraphQLCompiler

namespace NameMap

variable {α β : Type}

/-- The map with other values. -/
def mapValues (f : α → β) (m : NameMap α) : NameMap β := m.map fun p => (p.1, f p.2)

theorem find?_mapValues (f : α → β) (m : NameMap α) (key : String) :
    (m.mapValues f).find? key = (m.find? key).map f := by
  induction m with
  | nil => rfl
  | cons p rest ih =>
    rw [mapValues, List.map_cons, find?, find?, ← mapValues, ih]
    split <;> rfl

theorem find?_append (m m' : NameMap α) (key : String) :
    find? (m ++ m') key = (m.find? key).or (m'.find? key) := by
  induction m with
  | nil => rfl
  | cons p rest ih =>
    rw [List.cons_append, find?, find?, ih]
    split <;> rfl

theorem find?_ite {c : Prop} [Decidable c] (m m' : NameMap α) (key : String) :
    find? (if c then m else m') key = if c then m.find? key else m'.find? key :=
  apply_ite (find? · key) c m m'

/-- The map with its keys in alphabetic order. -/
def sorted (m : NameMap α) : NameMap α := m.insertionSort fun p q => p.1 ≤ q.1

theorem sorted_mapValues (f : α → β) (m : NameMap α) :
    (m.mapValues f).sorted = m.sorted.mapValues f := by
  unfold sorted mapValues
  rw [List.map_insertionSort (fun p q : String × α => p.1 ≤ q.1)
    (fun p q : String × β => p.1 ≤ q.1)]
  exact fun _ _ _ _ => Iff.rfl

theorem sorted_perm (m : NameMap α) : m.sorted.Perm m := List.perm_insertionSort _ m

theorem pairwise_sorted (m : NameMap α) : m.sorted.Pairwise fun p q => p.1 ≤ q.1 := by
  have total : Std.Total fun p q : String × α => p.1 ≤ q.1 := ⟨fun p q => le_total p.1 q.1⟩
  have trans : IsTrans (String × α) fun p q => p.1 ≤ q.1 := ⟨fun _ _ _ => le_trans⟩
  exact List.pairwise_insertionSort _ m

/-- A pair comes before what is found, as it is inserted in front of the pairs with its key. -/
theorem find?_orderedInsert (p : String × α) (m : NameMap α) (key : String) :
    NameMap.find? (m.orderedInsert (fun p q => p.1 ≤ q.1) p) key
      = if p.1 = key then some p.2 else m.find? key := by
  induction m with
  | nil => rfl
  | cons q rest ih =>
    rw [List.orderedInsert]
    split
    · rfl
    · rename_i after
      have ne : q.1 ≠ p.1 := fun eq => after (le_of_eq eq.symm)
      rw [find?, find?, ih]
      by_cases first : q.1 = key
      · rw [if_pos first, if_pos first, if_neg (first ▸ ne.symm)]
      · rw [if_neg first, if_neg first]

theorem find?_sorted (m : NameMap α) (key : String) : m.sorted.find? key = m.find? key := by
  induction m with
  | nil => rfl
  | cons p rest ih =>
    rw [sorted, List.insertionSort_cons, find?_orderedInsert, ← sorted, ih]
    rfl

/-- **Sorting forgets the order** of a map and nothing else. -/
theorem sorted_eq_sorted_iff {m m' : NameMap α} (nodup : m.keys.Nodup) (nodup' : m'.keys.Nodup) :
    m.sorted = m'.sorted ↔ ∀ key, m.find? key = m'.find? key := by
  constructor
  · intro eq key
    rw [← find?_sorted m, eq, find?_sorted]
  · intro same
    have mem_iff : ∀ {m : NameMap α}, m.keys.Nodup → ∀ p, p ∈ m ↔ m.find? p.1 = some p.2 :=
      fun nodup _ => ⟨find?_eq_some_of_mem nodup, mem_of_find?_eq_some⟩
    have perm : m.Perm m' :=
      (List.perm_ext_iff_of_nodup nodup.of_map nodup'.of_map).2 fun p => by
        rw [mem_iff nodup, mem_iff nodup', same]
    refine (m.sorted_perm.trans (perm.trans m'.sorted_perm.symm)).eq_of_pairwise ?_
      m.pairwise_sorted m'.pairwise_sorted
    -- pairs with the same key are the same
    intro p q memP memQ le ge
    have keyEq : p.1 = q.1 := le_antisymm le ge
    have findP := (mem_iff nodup p).1 (m.sorted_perm.mem_iff.1 memP)
    have findQ := (mem_iff nodup q).1 (perm.mem_iff.2 (m'.sorted_perm.mem_iff.1 memQ))
    rw [keyEq, findQ] at findP
    exact Prod.ext keyEq (Option.some.inj findP).symm

end NameMap

/-- A way to **rearrange** maps by their keys. -/
structure Rearrangement where
  /-- The map in another order. -/
  order {α : Type} : NameMap α → NameMap α
  order_mapValues {α β : Type} (f : α → β) (m : NameMap α) :
    order (m.mapValues f) = (order m).mapValues f
  find?_order {α : Type} (m : NameMap α) (key : String) : (order m).find? key = m.find? key

namespace Rearrangement

/-- Leaving maps as they are. -/
def identity : Rearrangement where
  order m := m
  order_mapValues _ _ := rfl
  find?_order _ _ := rfl

/-- Sorting maps by their keys. -/
def sorting : Rearrangement where
  order := NameMap.sorted
  order_mapValues := NameMap.sorted_mapValues
  find?_order := NameMap.find?_sorted

end Rearrangement

/-! ### JSON values -/

namespace Json

variable (r : Rearrangement)

mutual

/-- A JSON value with the members of all objects in it rearranged. -/
def rearrange : Json → Json
  | .array items => .array (rearrangeItems items)
  | .object members => .object (r.order (rearrangeMembers members))
  | json => json

/-- The items of an array, each rearranged. -/
def rearrangeItems : List Json → List Json
  | [] => []
  | item :: rest => item.rearrange :: rearrangeItems rest

/-- The members of an object in their order, each rearranged. -/
def rearrangeMembers : List (String × Json) → List (String × Json)
  | [] => []
  | (key, json) :: rest => (key, json.rearrange) :: rearrangeMembers rest

end

theorem rearrangeItems_eq_map (items : List Json) :
    rearrangeItems r items = items.map (rearrange r) := by
  induction items with
  | nil => rfl
  | cons item rest ih => rw [rearrangeItems, ih, List.map_cons]

theorem rearrangeMembers_eq_mapValues (members : NameMap Json) :
    rearrangeMembers r members = members.mapValues (rearrange r) := by
  induction members with
  | nil => rfl
  | cons p rest ih => rw [rearrangeMembers, ih, NameMap.mapValues, NameMap.mapValues, List.map_cons]

theorem rearrange_array (items : List Json) :
    (array items).rearrange r = array (items.map (rearrange r)) := by
  rw [rearrange, rearrangeItems_eq_map]

/-- The members of an object, rearranged. -/
def rearranged (members : NameMap Json) : NameMap Json := r.order (members.mapValues (rearrange r))

theorem find?_rearranged (members : NameMap Json) (key : String) :
    (rearranged r members).find? key = (members.find? key).map (rearrange r) := by
  rw [rearranged, r.find?_order, NameMap.find?_mapValues]

theorem rearrange_object (members : NameMap Json) :
    (object members).rearrange r = object (rearranged r members) := by
  rw [rearrange, rearrangeMembers_eq_mapValues, rearranged]

theorem rearrange_string (text : String) : (string text).rearrange r = string text := by
  rw [rearrange] <;> simp

theorem rearrange_bool (b : Bool) : (bool b).rearrange r = bool b := by
  rw [rearrange] <;> simp

mutual

theorem rearrange_identity : ∀ json : Json, json.rearrange .identity = json
  | .array items => by rw [rearrange, rearrangeItems_identity]
  | .object members => by
    rw [rearrange, rearrangeMembers_identity]
    rfl
  | .null | .bool _ | .int _ | .float _ | .string _ => by rw [rearrange] <;> simp

theorem rearrangeItems_identity : ∀ items : List Json, rearrangeItems .identity items = items
  | [] => rfl
  | item :: rest => by
    rw [rearrangeItems, rearrange_identity item, rearrangeItems_identity rest]

theorem rearrangeMembers_identity :
    ∀ members : List (String × Json), rearrangeMembers .identity members = members
  | [] => rfl
  | (key, json) :: rest => by
    rw [rearrangeMembers, rearrange_identity json, rearrangeMembers_identity rest]

end

end Json

/-! ### Compiled documents -/

namespace Compiled

variable (r : Rearrangement)

/-- An argument with its value rearranged. -/
def Argument.rearrange (a : Argument) : Argument := { a with value := a.value.rearrange r }

mutual

/-- A field with the values of the arguments in it rearranged. -/
def Field.rearrange : Field → Field
  | ⟨responseName, fieldName, type, arguments, isConditional, description, selectionSet⟩ =>
    ⟨responseName, fieldName, type, arguments.map (Argument.rearrange r), isConditional,
      description, rearrangeOptional selectionSet⟩

/-- A selection set, if there is one, with the values in it rearranged. -/
def rearrangeOptional : Option (Selected Field) → Option (Selected Field)
  | none => none
  | some selectionSet => some (SelectionSet.rearrange selectionSet)

/-- A selection set with the values in it rearranged. -/
def SelectionSet.rearrange : Selected Field → Selected Field
  | ⟨fields, fragmentSpreads, inlineFragments⟩ =>
    ⟨rearrangeFields fields, fragmentSpreads, rearrangeBranches inlineFragments⟩

/-- A branch with the values in it rearranged. -/
def InlineFragment.rearrange : Branch Field → Branch Field
  | ⟨typeCondition, possibleTypes, fields, fragmentSpreads⟩ =>
    ⟨typeCondition, possibleTypes, rearrangeFields fields, fragmentSpreads⟩

/-- Fields with the values in them rearranged. -/
def rearrangeFields : List Field → List Field
  | [] => []
  | field :: rest => field.rearrange :: rearrangeFields rest

/-- Branches with the values in them rearranged. -/
def rearrangeBranches : List (Branch Field) → List (Branch Field)
  | [] => []
  | branch :: rest => InlineFragment.rearrange branch :: rearrangeBranches rest

end

/-- An operation with the values in it rearranged. -/
def Operation.rearrange (o : Operation) : Operation :=
  { o with fields := rearrangeFields r o.fields }

/-- A fragment with the values in it rearranged. -/
def Fragment.rearrange (f : Fragment) : Fragment :=
  { f with selectionSet := SelectionSet.rearrange r f.selectionSet }

/-- A document with its maps and the values in it rearranged. -/
def Document.rearrange (d : Document) : Document where
  operations := r.order (d.operations.mapValues (Operation.rearrange r))
  fragments := r.order (d.fragments.mapValues (Fragment.rearrange r))
  typesUsed := d.typesUsed

theorem rearrangeFields_eq_map (fields : List Field) :
    rearrangeFields r fields = fields.map (Field.rearrange r) := by
  induction fields with
  | nil => rfl
  | cons field rest ih => rw [rearrangeFields, ih, List.map_cons]

theorem rearrangeBranches_eq_map (inlineFragments : List InlineFragment) :
    rearrangeBranches r inlineFragments = inlineFragments.map (InlineFragment.rearrange r) := by
  induction inlineFragments with
  | nil => rfl
  | cons branch rest ih => rw [rearrangeBranches, ih, List.map_cons]

/-! ### Leaving documents as they are -/

theorem Argument.rearrange_identity (a : Argument) : a.rearrange .identity = a := by
  rw [rearrange, Json.rearrange_identity]

private theorem rearrangeFields_eq_self {fields : List Field}
    (same : ∀ field ∈ fields, field.rearrange r = field) : rearrangeFields r fields = fields := by
  rw [rearrangeFields_eq_map]
  exact (List.map_congr_left same).trans (List.map_id fields)

private theorem SelectionSet.rearrange_eq_self {selectionSet : SelectionSet}
    (same : ∀ field ∈ allFields selectionSet, field.rearrange r = field) :
    SelectionSet.rearrange r selectionSet = selectionSet := by
  obtain ⟨fields, fragmentSpreads, inlineFragments⟩ := selectionSet
  have branchesEq : inlineFragments.map (InlineFragment.rearrange r) = inlineFragments := by
    refine (List.map_congr_left fun branch memBranch => ?_).trans (List.map_id inlineFragments)
    obtain ⟨typeCondition, possibleTypes, fields, fragmentSpreads⟩ := branch
    rw [InlineFragment.rearrange, rearrangeFields_eq_self r fun field mem =>
      same field (List.mem_append_right _ (List.mem_flatMap.2 ⟨_, memBranch, mem⟩))]
    rfl
  rw [SelectionSet.rearrange, rearrangeBranches_eq_map, branchesEq,
    rearrangeFields_eq_self r fun field mem => same field (List.mem_append_left _ mem)]

theorem Field.rearrange_identity (field : Field) : field.rearrange .identity = field := by
  induction field using Field.induction with
  | step field ih =>
    obtain ⟨responseName, fieldName, type, arguments, isConditional, description, selectionSet⟩ :=
      field
    have argumentsEq : arguments.map (Argument.rearrange .identity) = arguments :=
      (List.map_congr_left fun a _ => a.rearrange_identity).trans (List.map_id arguments)
    rw [Field.rearrange, argumentsEq]
    cases selectionSet with
    | none => rfl
    | some inner => rw [rearrangeOptional, SelectionSet.rearrange_eq_self _ (ih inner rfl)]

theorem Operation.rearrange_identity (o : Operation) : o.rearrange .identity = o := by
  rw [rearrange, rearrangeFields_eq_self _ fun field _ => field.rearrange_identity]

theorem Fragment.rearrange_identity (f : Fragment) : f.rearrange .identity = f := by
  rw [rearrange, SelectionSet.rearrange_eq_self _ fun field _ => field.rearrange_identity]

theorem Document.rearrange_identity (d : Document) : d.rearrange .identity = d := by
  have operations : Operation.rearrange .identity = id := funext Operation.rearrange_identity
  have fragments : Fragment.rearrange .identity = id := funext Fragment.rearrange_identity
  have same : ∀ {α : Type} (m : NameMap α), m.mapValues id = m := List.map_id
  rw [rearrange, operations, fragments, same, same]
  rfl

end Compiled

end GraphQLCompiler
