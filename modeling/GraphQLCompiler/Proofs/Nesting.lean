import GraphQLCompiler.Proofs.Reading
import Mathlib

/-!
# How deep linked selections are nested

Linked selections are nested as deep as fields, inline fragments and spread fragments stand in one
another. A spread leads to another place of the document, so their **nesting** is not bounded by the
**depth** of what is written. But spreads without cycles lead on at most as often as there are
fragments, and from one to the next no deeper than the depth. So the product of both is a bound
(`nesting_link_le_nestingBound`), which is computed from what is written alone.

That spreads lead on so rarely is counted with the names that are reached from a fragment: a fragment
that is spread reaches fewer of them.
-/

namespace GraphQLCompiler

/-! ### What is written -/

mutual

/-- How deep fields and inline fragments are nested in a selection as written. -/
def Selection.depth : Selection Unit → Nat
  | .field _ _ _ _ _ selections => depth selections + 1
  | .inlineFragment _ _ _ selections => depth selections + 1
  | .spread _ _ _ _ => 0

/-- The greatest depth of some selections as written. -/
def depth : WrittenSelections → Nat
  | [] => 0
  | selection :: rest => max selection.depth (depth rest)

end

theorem depth_le_iff {selections : WrittenSelections} {n : Nat} :
    depth selections ≤ n ↔ ∀ selection ∈ selections, selection.depth ≤ n := by
  induction selections with
  | nil => simp [depth]
  | cons selection rest ih => rw [depth, Nat.max_le, ih, List.forall_mem_cons]

/-- A bound for the nesting of selections that are linked to the fragments of a table. -/
def FragmentTable.nestingBound (table : FragmentTable) (selections : WrittenSelections) : Nat :=
  (depth (selections ++ table.values.flatMap FragmentDefinition.selections) + 1)
    * (table.length + 1)

/-! ### What is linked -/

mutual

/-- How deep fields, inline fragments and spread fragments are nested in a linked selection. -/
def Selection.nesting : LinkedSelection → Nat
  | .field _ _ _ _ _ selections => nesting selections + 1
  | .inlineFragment _ _ _ selections => nesting selections + 1
  | .spread _ _ _ none => 0
  | .spread _ _ _ (some fragment) => fragment.nesting

/-- The nesting of a fragment, which is above that of its selections. -/
def Fragment.nesting : Fragment → Nat
  | ⟨_, _, _, selections⟩ => GraphQLCompiler.nesting selections + 1

/-- The greatest nesting of some linked selections. -/
def nesting : List LinkedSelection → Nat
  | [] => 0
  | selection :: rest => max selection.nesting (nesting rest)

end

theorem Fragment.nesting_eq (fragment : Fragment) :
    fragment.nesting = GraphQLCompiler.nesting fragment.selections + 1 := by
  cases fragment
  rw [Fragment.nesting]

theorem nesting_le_iff {selections : List LinkedSelection} {n : Nat} :
    nesting selections ≤ n ↔ ∀ selection ∈ selections, selection.nesting ≤ n := by
  induction selections with
  | nil => simp [nesting]
  | cons selection rest ih => rw [nesting, Nat.max_le, ih, List.forall_mem_cons]

/-- What is inside a selection is not nested deeper. -/
theorem hereditary_nesting (n : Nat) : Hereditary fun selection => selection.nesting ≤ n where
  field h := by
    rw [Selection.nesting] at h
    exact nesting_le_iff.1 (Nat.le_of_succ_le h)
  inlineFragment h := by
    rw [Selection.nesting] at h
    exact nesting_le_iff.1 (Nat.le_of_succ_le h)
  spread h := by
    rw [Selection.nesting, Fragment.nesting_eq] at h
    exact nesting_le_iff.1 (Nat.le_of_succ_le h)

mutual

private theorem selection_height_le_nesting : ∀ selection : LinkedSelection,
    selection.height ≤ selection.nesting
  | .field _ _ _ _ _ selections => by
    rw [Selection.height, Selection.nesting]
    exact Nat.succ_le_succ (height_le_nesting selections)
  | .inlineFragment _ _ _ selections => by
    rw [Selection.height, Selection.nesting]
    exact Nat.le_succ_of_le (height_le_nesting selections)
  | .spread _ _ _ none => by rw [Selection.height, Selection.nesting]
  | .spread _ _ _ (some fragment) => by
    rw [Selection.height, Selection.nesting]
    exact fragment_height_le_nesting fragment

private theorem fragment_height_le_nesting : ∀ fragment : Fragment,
    fragment.height ≤ fragment.nesting
  | ⟨_, _, _, selections⟩ => by
    rw [Fragment.height, Fragment.nesting]
    exact Nat.succ_le_succ (height_le_nesting selections)

/-- The height leaves out the inline fragments. -/
theorem height_le_nesting : ∀ selections : List LinkedSelection,
    height selections ≤ nesting selections
  | [] => by rw [height, nesting]
  | selection :: rest => by
    rw [height, nesting]
    exact max_le_max (selection_height_le_nesting selection) (height_le_nesting rest)

end

section

variable {find : Name → Option Fragment} {n : Nat}

mutual

private theorem nesting_selection_link_le : ∀ selection : Selection Unit,
    (∀ name ∈ selection.spreadNames, ∀ fragment, find name = some fragment →
      fragment.nesting ≤ n) →
    (selection.link find).nesting ≤ selection.depth + n
  | .field _ _ _ _ _ selections, low => by
    have inside := nesting_link_le selections fun name mem =>
      low name (mem_spreadNames_field.2 mem)
    rw [Selection.link, Selection.nesting, Selection.depth]
    omega
  | .inlineFragment _ _ _ selections, low => by
    have inside := nesting_link_le selections fun name mem =>
      low name (mem_spreadNames_inlineFragment.2 mem)
    rw [Selection.link, Selection.nesting, Selection.depth]
    omega
  | .spread name _ _ _, low => by
    rw [Selection.link, Selection.depth]
    cases found : find name with
    | none =>
      rw [Selection.nesting]
      omega
    | some fragment =>
      have le := low name (mem_spreadNames_spread.2 rfl) fragment found
      rw [Selection.nesting]
      omega

/-- Linked selections are nested deeper than what is written by what they spread. -/
theorem nesting_link_le : ∀ selections : WrittenSelections,
    (∀ name ∈ spreadNames selections, ∀ fragment, find name = some fragment →
      fragment.nesting ≤ n) →
    nesting (link find selections) ≤ depth selections + n
  | [], _ => by
    rw [link, nesting]
    omega
  | selection :: rest, low => by
    have first := nesting_selection_link_le selection fun name mem =>
      low name (mem_spreadNames_cons.2 (.inl mem))
    have others := nesting_link_le rest fun name mem =>
      low name (mem_spreadNames_cons.2 (.inr mem))
    rw [link, nesting, depth]
    omega

end

end

/-! ### The bound -/

namespace FragmentTable

variable {table : FragmentTable} {library : FragmentLibrary}

open Classical in
/-- The names in a table that spreads lead to from a name, which is one of them. -/
private noncomputable def reached (table : FragmentTable) (name : Name) : Finset Name :=
  table.keys.toFinset.filter fun other => Relation.ReflTransGen table.Spreads name other

private theorem mem_reached {name other : Name} : other ∈ table.reached name ↔
    other ∈ table.keys ∧ Relation.ReflTransGen table.Spreads name other := by
  classical rw [reached, Finset.mem_filter, List.mem_toFinset]

private theorem card_reached_le (table : FragmentTable) (name : Name) :
    (table.reached name).card ≤ table.length := by
  classical
  have length : table.keys.length = table.length := List.length_map _
  calc (table.reached name).card
      ≤ table.keys.toFinset.card := Finset.card_le_card (Finset.filter_subset _ _)
    _ ≤ table.keys.length := List.toFinset_card_le _
    _ = table.length := length

/-- A fragment that is spread reaches fewer names, since it does not reach the one that spreads
it. -/
private theorem card_reached_lt (acyclic : table.Acyclic) {name other : Name}
    (spreads : table.Spreads name other) :
    (table.reached other).card < (table.reached name).card := by
  have key : name ∈ table.keys := by
    obtain ⟨definition, found, -⟩ := spreads
    exact List.mem_map.2 ⟨_, NameMap.mem_of_find?_eq_some found, rfl⟩
  refine Finset.card_lt_card (Finset.ssubset_iff_of_subset ?_ |>.2 ⟨name, ?_, ?_⟩)
  · intro last mem
    obtain ⟨keyLast, path⟩ := mem_reached.1 mem
    exact mem_reached.2 ⟨keyLast, .head spreads path⟩
  · exact mem_reached.2 ⟨key, .refl⟩
  · intro mem
    exact acyclic name (.head' spreads (mem_reached.1 mem).2)

/-- A linked fragment is nested no deeper than the definitions, once for each name that is reached
from it. -/
private theorem nesting_le_mul (acyclic : table.library = .ok library) (named : table.IsNamed)
    {n : Nat} (low : ∀ definition ∈ table.values, depth definition.selections ≤ n) {name : Name}
    {fragment : Fragment} (found : library.find? name = some fragment) :
    fragment.nesting ≤ (n + 1) * (table.reached fragment.name).card := by
  have loopless := exists_library_iff.1 ⟨library, acyclic⟩
  refine @library_induction table library acyclic (fun fragment =>
    fragment.nesting ≤ (n + 1) * (table.reached fragment.name).card)
    (fun name definition found ih => ?_) name fragment found
  have name_eq : definition.name = name := named name definition found
  have mem : definition ∈ table.values :=
    List.mem_map.2 ⟨_, NameMap.mem_of_find?_eq_some found, rfl⟩
  rw [Fragment.nesting_eq]
  change nesting (link library.find? definition.selections) + 1
    ≤ (n + 1) * (table.reached definition.name).card
  rw [name_eq]
  -- what is spread reaches at least one name less
  have spread : ∀ other ∈ spreadNames definition.selections, ∀ fragment,
      library.find? other = some fragment →
      fragment.nesting ≤ (n + 1) * ((table.reached name).card - 1) := by
    intro other memOther fragment foundOther
    refine Nat.le_trans (ih other memOther fragment foundOther) (Nat.mul_le_mul_left _ ?_)
    rw [name_eq_of_find?_library acyclic named foundOther]
    exact Nat.le_sub_one_of_lt (card_reached_lt loopless ⟨definition, found, memOther⟩)
  have inside := nesting_link_le definition.selections spread
  have own : 1 ≤ (table.reached name).card := by
    have key : name ∈ table.keys :=
      List.mem_map.2 ⟨_, NameMap.mem_of_find?_eq_some found, rfl⟩
    exact Finset.card_pos.2 ⟨name, mem_reached.2 ⟨key, .refl⟩⟩
  calc nesting (link library.find? definition.selections) + 1
      ≤ (depth definition.selections + (n + 1) * ((table.reached name).card - 1)) + 1 :=
        Nat.succ_le_succ inside
    _ ≤ (n + 1) * ((table.reached name).card - 1) + (n + 1) := by
        have written := low definition mem
        omega
    _ = (n + 1) * (table.reached name).card := by
        rw [← Nat.mul_succ, Nat.succ_eq_add_one, Nat.sub_add_cancel own]

/-- **The bound holds** for selections that are linked to the fragments of a table. -/
theorem nesting_link_le_nestingBound (acyclic : table.library = .ok library)
    (named : table.IsNamed) (selections : WrittenSelections) :
    nesting (link library.find? selections) ≤ table.nestingBound selections := by
  have written := depth_le_iff.1 (Nat.le_refl
    (depth (selections ++ table.values.flatMap FragmentDefinition.selections)))
  rw [nestingBound]
  generalize depth (selections ++ table.values.flatMap FragmentDefinition.selections) = n at written
  have low : ∀ definition ∈ table.values, depth definition.selections ≤ n :=
    fun definition mem => depth_le_iff.2 fun selection inside =>
      written selection (List.mem_append_right _ (List.mem_flatMap.2 ⟨definition, mem, inside⟩))
  have fragments : ∀ name fragment, library.find? name = some fragment →
      fragment.nesting ≤ (n + 1) * table.length := fun name fragment found =>
    Nat.le_trans (nesting_le_mul acyclic named low found)
      (Nat.mul_le_mul_left _ (card_reached_le table fragment.name))
  have own : depth selections ≤ n := depth_le_iff.2 fun selection mem =>
    written selection (List.mem_append_left _ mem)
  have linked := nesting_link_le selections fun name _ => fragments name
  rw [Nat.mul_succ]
  omega

end FragmentTable

end GraphQLCompiler
