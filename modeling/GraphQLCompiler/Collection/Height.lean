import GraphQLCompiler.Collection.Basic

/-!
# Heights of collections

The height of a collection bounds the heights of the selections that can still be reached from
what has been gathered: the sub-selections of the fields and the fragments that were expanded.
Collecting those selections again gives lower collections, so resolution by recursion ends.

## Main definitions

* `Collection.height`: the height of what has been gathered.

## Main statements

* `height_collect_le`: what is gathered is no higher than the selections.
* `height_mergeSelections_le`: the same for the sub-selections of several fields.
-/

namespace GraphQLCompiler

namespace Collection

/-- All occurrences of fields. -/
def occurrences (collection : Collection) : List Occurrence := collection.groups.values.flatten

/-- All expansions of fragments. -/
def fragments (collection : Collection) : List Fragment := collection.expansions.values.flatten

/-- The height of what has been gathered: of fields, and of the fragments that were expanded. -/
def height (collection : Collection) : Nat :=
  ((collection.occurrences.map fun occurrence => GraphQLCompiler.height occurrence.selections + 1)
    ++ collection.fragments.map Fragment.height).foldr max 0

private theorem foldr_max_le {xs : List Nat} {n : Nat} : xs.foldr max 0 ≤ n ↔ ∀ x ∈ xs, x ≤ n := by
  induction xs with
  | nil => simp
  | cons x rest ih => rw [List.foldr_cons, Nat.max_le, ih, List.forall_mem_cons]

theorem height_le {collection : Collection} {n : Nat} :
    collection.height ≤ n ↔
      (∀ occurrence ∈ collection.occurrences,
        GraphQLCompiler.height occurrence.selections < n) ∧
      ∀ fragment ∈ collection.fragments, fragment.height ≤ n := by
  simp only [height, foldr_max_le, List.mem_append, List.mem_map, or_imp, forall_and,
    forall_exists_index, and_imp, forall_apply_eq_imp_iff₂, Nat.succ_le_iff]

theorem height_selections_lt {collection : Collection} {occurrence : Occurrence}
    (h : occurrence ∈ collection.occurrences) :
    GraphQLCompiler.height occurrence.selections < collection.height :=
  (height_le.1 (Nat.le_refl _)).1 _ h

theorem height_fragment_le {collection : Collection} {fragment : Fragment}
    (h : fragment ∈ collection.fragments) : fragment.height ≤ collection.height :=
  (height_le.1 (Nat.le_refl _)).2 _ h

@[simp] theorem height_note (collection : Collection) (event : LogEvent) :
    (collection.note event).height = collection.height := rfl

theorem height_addField_le {collection : Collection} {key : Name} {occurrence : Occurrence}
    {n : Nat} (hc : collection.height ≤ n)
    (ho : GraphQLCompiler.height occurrence.selections < n) :
    (collection.addField key occurrence).height ≤ n := by
  rw [height_le] at hc ⊢
  refine ⟨fun other mem => ?_, hc.2⟩
  rcases NameMap.mem_flatten_values_push.1 mem with mem | rfl
  · exact hc.1 other mem
  · exact ho

theorem height_addExpansion_le {collection : Collection} {typeName : Name} {fragment : Fragment}
    {n : Nat} (hc : collection.height ≤ n) (hf : fragment.height ≤ n) :
    (collection.addExpansion typeName fragment).height ≤ n := by
  rw [height_le] at hc ⊢
  refine ⟨hc.1, fun other mem => ?_⟩
  rcases NameMap.mem_flatten_values_push.1 mem with mem | rfl
  · exact hc.2 other mem
  · exact hf

@[simp] theorem height_empty : ({} : Collection).height = 0 := rfl

end Collection

private theorem compositeKind_bind {α : Type} {schema : Schema} {typeName : Name}
    {collection : Collection} {next : TypeKind → Except Failure α} {result : α}
    (h : (compositeKind schema typeName collection >>= next) = .ok result) :
    ∃ kind, next kind = .ok result := by
  cases hk : compositeKind schema typeName collection with
  | error e => rw [hk] at h; cases h
  | ok kind => exact ⟨kind, by rwa [hk] at h⟩

mutual

private theorem height_collectSelection_le {settings : Settings} {n : Nat} (parent : Name)
    (kind : TypeKind) : ∀ (selection : LinkedSelection) (collection : Collection) {result},
    collectSelection settings parent kind selection collection = .ok result →
    selection.height ≤ n → collection.height ≤ n → result.height ≤ n
  | .field _ _ _ _ _ selections, collection, result, h, hs, hc => by
    rw [Selection.height] at hs
    rw [collectSelection] at h
    split at h
    · cases h
    · cases h
      exact Collection.height_addField_le hc hs
  | .inlineFragment _ _ _ selections, collection, result, h, hs, hc => by
    rw [Selection.height] at hs
    simp only [collectSelection] at h
    split at h
    · cases h
    · split at h
      · obtain ⟨inner, h⟩ := compositeKind_bind h
        exact height_collectEach_le _ inner selections _ h hs hc
      · cases h
        exact hc
  | .spread _ _ _ none, collection, result, h, _, _ => by
    rw [collectSelection] at h
    cases h
  | .spread _ _ _ (some fragment), collection, result, h, hs, hc => by
    rw [Selection.height] at hs
    rw [collectSelection] at h
    exact height_collectFragment_le parent kind fragment collection h hs hc

private theorem height_collectFragment_le {settings : Settings} {n : Nat} (parent : Name)
    (kind : TypeKind) : ∀ (fragment : Fragment) (collection : Collection) {result},
    collectFragment settings parent kind fragment collection = .ok result →
    fragment.height ≤ n → collection.height ≤ n → result.height ≤ n
  | ⟨name, typeCondition, location, selections⟩, collection, result, h, hf, hc => by
    have hs : height selections ≤ n := by rw [Fragment.height] at hf; omega
    simp only [collectFragment] at h
    split at h
    · cases h
    · split at h
      · cases h
        exact hc
      · have recorded : ∀ effective,
            (if collection.hasExpanded effective name then collection
              else collection.addExpansion effective
                ⟨name, typeCondition, location, selections⟩).height ≤ n := by
          intro effective
          split
          · exact hc
          · exact Collection.height_addExpansion_le hc hf
        split at h
        · obtain ⟨inner, h⟩ := compositeKind_bind h
          exact height_collectEach_le _ inner selections _ h hs (recorded _)
        · cases h
          exact recorded _

private theorem height_collectEach_le {settings : Settings} {n : Nat} (parent : Name)
    (kind : TypeKind) : ∀ (selections : List LinkedSelection) (collection : Collection) {result},
    collectEach settings parent kind selections collection = .ok result →
    height selections ≤ n → collection.height ≤ n → result.height ≤ n
  | [], collection, result, h, _, hc => by
    rw [collectEach] at h
    cases h
    exact hc
  | selection :: rest, collection, result, h, hs, hc => by
    rw [height, Nat.max_le] at hs
    rw [collectEach] at h
    cases hf : collectSelection settings parent kind selection collection with
    | error e => rw [hf] at h; cases h
    | ok first =>
      rw [hf] at h
      exact height_collectEach_le parent kind rest first h hs.2
        (height_collectSelection_le parent kind selection collection hf hs.1 hc)

end

/-- What is gathered is no higher than what was there and the selections. -/
theorem height_collect_le {settings : Settings} {parent : Name} {n : Nat}
    {selections : List LinkedSelection} {collection result : Collection}
    (h : collect settings parent selections collection = .ok result)
    (hs : height selections ≤ n) (hc : collection.height ≤ n) : result.height ≤ n := by
  obtain ⟨kind, h⟩ := compositeKind_bind h
  exact height_collectEach_le parent kind selections collection h hs hc

/-- Merged sub-selections are no higher than the highest of them. -/
theorem height_mergeSelections_le {settings : Settings} {parent : Name} {n : Nat}
    {occurrences : List Occurrence} {collection result : Collection}
    (h : mergeSelections settings parent occurrences collection = .ok result)
    (ho : ∀ occurrence ∈ occurrences, height occurrence.selections ≤ n)
    (hc : collection.height ≤ n) : result.height ≤ n := by
  have key : ∀ (list : List Occurrence) (start : Collection),
      (∀ occurrence ∈ list, height occurrence.selections ≤ n) → start.height ≤ n →
      list.foldlM (fun collection occurrence =>
        collect settings parent occurrence.selections collection) start = .ok result →
      result.height ≤ n := by
    intro list
    induction list with
    | nil => intro start _ hs h; cases h; exact hs
    | cons first rest ih =>
      intro start hl hs h
      rw [List.foldlM_cons] at h
      cases hf : collect settings parent first.selections start with
      | error e => rw [hf] at h; cases h
      | ok next =>
        rw [hf] at h
        exact ih next (fun o mem => hl o (List.mem_cons_of_mem _ mem))
          (height_collect_le hf (hl first List.mem_cons_self) hs) h
  exact key _ collection (fun o mem => ho o (List.mem_filter.1 mem).1) hc h

end GraphQLCompiler
