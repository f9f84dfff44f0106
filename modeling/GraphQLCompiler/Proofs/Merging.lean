import GraphQLCompiler.Proofs.Attribution
import GraphQLCompiler.Proofs.Branches

/-!
# Merging two selection sets

Selection sets that are collected together share one map of groups. It has the response names of
the first, then those that only the second has, also names that are selected only for types inside
the type which is resolved (`keys_groups_of_together`). Resolution keeps the order of the map and
leaves out the names that do not apply. So the names of the merged selection set are those of the
two parts, in the order in which anything with the name was first collected
(`names_of_together`). This is the order of the names that apply in the first, then of those that
apply in the second only, unless a name that applies in the second was collected in the first for
narrower types.
-/

namespace GraphQLCompiler

/-! ### Unions of names -/

theorem unionNames_nil (names : List Name) : unionNames [] names = names.eraseDups := by
  induction names using List.reverseRecOn with
  | nil => rfl
  | append_singleton names name ih =>
    have step : unionNames [] (names ++ [name]) = addName (unionNames [] names) name := by
      rw [unionNames, List.foldl_append]
      rfl
    rw [step, ih, List.eraseDups_append]
    by_cases mem : name ∈ names <;> simp [addName, List.removeAll, mem, List.eraseDups_cons]

/-- A union of names that do not repeat has the first ones, then those that are new. -/
theorem unionNames_eq_append {names more : List Name} (nodup : more.Nodup) :
    unionNames names more = names ++ more.filter (· ∉ names) := by
  induction more generalizing names with
  | nil => simp [unionNames]
  | cons name rest ih =>
    obtain ⟨fresh, nodup⟩ := List.nodup_cons.1 nodup
    have step : unionNames names (name :: rest) = unionNames (addName names name) rest := rfl
    rw [step, ih nodup]
    by_cases mem : name ∈ names
    · rw [addName, if_pos mem, List.filter_cons_of_neg (by simpa using mem)]
    · rw [addName, if_neg mem, List.filter_cons_of_pos (by simpa using mem), List.append_assoc]
      have others : ∀ other ∈ rest, decide (other ∉ names ++ [name]) = decide (other ∉ names) := by
        intro other hr
        have ne : other ≠ name := fun eq => fresh (eq ▸ hr)
        simp [ne]
      rw [List.filter_congr others]
      rfl

/-- What is left of names that do not repeat is told by the names that are left. -/
private theorem filter_mem_of_sublist {kept names : List Name} (sub : kept.Sublist names)
    (nodup : names.Nodup) : names.filter (· ∈ kept) = kept := by
  induction sub with
  | slnil => rfl
  | @cons kept names name sub ih =>
    obtain ⟨fresh, nodup⟩ := List.nodup_cons.1 nodup
    rw [List.filter_cons_of_neg (by simpa using fun mem => fresh (sub.subset mem)), ih nodup]
  | @cons_cons kept names name sub ih =>
    obtain ⟨fresh, nodup⟩ := List.nodup_cons.1 nodup
    have others : ∀ other ∈ names, decide (other ∈ name :: kept) = decide (other ∈ kept) := by
      intro other mem
      have ne : other ≠ name := fun eq => fresh (eq ▸ mem)
      simp [ne]
    rw [List.filter_cons_of_pos (by simp), List.filter_congr others, ih nodup]

/-! ### Groups -/

section

variable {settings : Settings} {parent : Name} {mentions first second : List Mention}
  {collection collection₁ collection₂ : Collection}

/-- The response names of the groups are those of the fields mentioned. -/
theorem Gathers.keys_groups (gathered : Gathers settings collection [] mentions) :
    collection.groups.keys = unionNames [] ((mentions.filterMap Mention.field?).map Prod.fst) := by
  obtain ⟨held, holds, same⟩ := gathered
  rw [holds.groups_eq, NameMap.keys_collate, ← unionNames_nil]
  exact ((same.filterMap _).map _).unionNames_eq []

theorem Gathers.nodup_keys_groups (gathered : Gathers settings collection [] mentions) :
    collection.groups.keys.Nodup := by
  rw [gathered.keys_groups]
  exact nodup_unionNames List.nodup_nil _

/-- The response names that apply at a type are those of the groups that do, in their order. -/
theorem Gathers.filter_keys_groups (gathered : Gathers settings collection [] mentions) :
    collection.groups.keys.filter (· ∈ (applicableFields settings.schema parent collection).map
        ApplicableField.responseName)
      = (applicableFields settings.schema parent collection).map ApplicableField.responseName := by
  refine filter_mem_of_sublist ?_ gathered.nodup_keys_groups
  rw [responseNames_applicableFields]
  exact List.filter_sublist.map Prod.fst

/-- A response name applies at a type if it is mentioned at a type that contains it. -/
theorem Gathers.mem_responseNames (gathered : Gathers settings collection [] mentions)
    {name : Name} :
    name ∈ (applicableFields settings.schema parent collection).map ApplicableField.responseName ↔
      ∃ occurrence, .field name occurrence ∈ mentions ∧
        settings.schema.isSubtypeOf parent occurrence.collectedAt := by
  obtain ⟨held, holds, same⟩ := gathered
  simp only [holds.mem_responseNames, same.mem_iff, List.nil_append]

variable (gathered₁ : Gathers settings collection₁ [] first)
  (gathered₂ : Gathers settings collection₂ [] second)
  (gathered : Gathers settings collection [] (first ++ second))

include gathered₁ gathered₂ gathered

/-- **The groups of what is collected together** are those of the first part, then those that only
the second part has. -/
theorem keys_groups_of_together :
    collection.groups.keys = unionNames collection₁.groups.keys collection₂.groups.keys := by
  have none : ∀ names : List Name, unionNames names [] = names := fun _ => rfl
  rw [gathered.keys_groups, gathered₁.keys_groups, gathered₂.keys_groups, List.filterMap_append,
    List.map_append, unionNames_unionNames, none, unionNames, List.foldl_append]
  rfl

/-- What applies of what is collected together is what applies of the parts. -/
theorem mem_responseNames_of_together {name : Name} :
    name ∈ (applicableFields settings.schema parent collection).map ApplicableField.responseName ↔
      name ∈ (applicableFields settings.schema parent collection₁).map
          ApplicableField.responseName ∨
        name ∈ (applicableFields settings.schema parent collection₂).map
          ApplicableField.responseName := by
  simp only [gathered.mem_responseNames, gathered₁.mem_responseNames,
    gathered₂.mem_responseNames, List.mem_append, or_and_right, exists_or]

end

/-! ### The merged selection set -/

/-- The names that are left of the groups of both parts, where no name that the second part adds
was collected in the first. -/
private theorem filter_unionNames {keys₁ keys₂ names₁ names₂ : List Name} (nodup : keys₂.Nodup)
    (left₁ : keys₁.filter (· ∈ names₁) = names₁) (left₂ : keys₂.filter (· ∈ names₂) = names₂)
    (h : ∀ name ∈ names₂, name ∈ keys₁ → name ∈ names₁) :
    (unionNames keys₁ keys₂).filter (fun name => name ∈ names₁ ∨ name ∈ names₂)
      = unionNames names₁ names₂ := by
  have sub₁ : names₁ ⊆ keys₁ := left₁ ▸ List.filter_subset_self _
  have nodup₂ : names₂.Nodup := left₂ ▸ nodup.filter _
  have left : keys₁.filter (fun name => name ∈ names₁ ∨ name ∈ names₂) = names₁ := by
    rw [← left₁]
    refine List.filter_congr fun name mem => ?_
    rw [left₁]
    exact decide_eq_decide.2 ⟨fun either => either.elim id fun mem₂ => h name mem₂ mem, .inl⟩
  have right : (keys₂.filter (· ∉ keys₁)).filter (fun name => name ∈ names₁ ∨ name ∈ names₂)
      = names₂.filter (· ∉ names₁) := by
    rw [← left₂, List.filter_filter, List.filter_filter]
    refine List.filter_congr fun name mem => ?_
    rw [left₂, ← Bool.decide_and, ← Bool.decide_and]
    refine decide_eq_decide.2 ⟨?_, ?_⟩
    · rintro ⟨either, fresh⟩
      have fresh₁ : name ∉ names₁ := fun mem₁ => fresh (sub₁ mem₁)
      exact ⟨fresh₁, either.resolve_left fresh₁⟩
    · rintro ⟨fresh₁, mem₂⟩
      exact ⟨.inr mem₂, fun known => fresh₁ (h name mem₂ known)⟩
  rw [unionNames_eq_append nodup, unionNames_eq_append nodup₂, List.filter_append, left, right]

variable {settings : Settings} {parent : Name} {collection collection₁ collection₂ : Collection}
  {state after state₁ after₁ state₂ after₂ : CompilerState}
  {resolved₁ resolved₂ resolved : Resolved} {definitions : List FragmentDefinition}
  {library : FragmentLibrary} {set₁ set₂ : WrittenSelections}

/-- The names of a resolved selection set are those that apply. -/
private theorem names_of_resolve
    (resolves : (resolve settings parent collection).run state = (.ok resolved, after)) :
    resolved.selectionSet.fields.map Compiled.Field.responseName
      = (applicableFields settings.schema parent collection).map ApplicableField.responseName := by
  have resolvesTo : ResolvesTo settings parent collection resolved.selectionSet :=
    ⟨state, after, resolved, resolves, rfl⟩
  exact responseNames_eq resolvesTo.shape.fields

/-- **What two selection sets merge into.** Where two selection sets resolve at a composite type
alone and together, the fields that they have together have the names of both, in the order of the
groups of the first and then of the second. These are the names of the first followed by the new
ones of the second, provided that the second adds no name that the first has collected for other
types. -/
theorem names_of_together
    (acyclic : (FragmentTable.ofList definitions).library = .ok library)
    (composite : settings.schema.isComposite parent)
    (collected₁ : collect settings parent (link library.find? set₁) {} = .ok collection₁)
    (resolves₁ : (resolve settings parent collection₁).run state₁ = (.ok resolved₁, after₁))
    (collected₂ : collect settings parent (link library.find? set₂) {} = .ok collection₂)
    (resolves₂ : (resolve settings parent collection₂).run state₂ = (.ok resolved₂, after₂))
    (collected : collectTogether settings parent
      [link library.find? set₁, link library.find? set₂] {} = .ok collection)
    (resolves : (resolve settings parent collection).run state = (.ok resolved, after)) :
    let names₁ := resolved₁.selectionSet.fields.map Compiled.Field.responseName
    let names₂ := resolved₂.selectionSet.fields.map Compiled.Field.responseName
    let names := resolved.selectionSet.fields.map Compiled.Field.responseName
    names = (unionNames collection₁.groups.keys collection₂.groups.keys).filter
        (fun name => name ∈ names₁ ∨ name ∈ names₂) ∧
      ((∀ name ∈ names₂, name ∈ collection₁.groups.keys → name ∈ names₁) →
        names = unionNames names₁ names₂) := by
  intro names₁ names₂ names
  have linked := FragmentTable.linkedBy_link acyclic (FragmentTable.isNamed_ofList definitions)
  have gathered₁ := gathers_collect collected₁ (linked set₁)
  have gathered₂ := gathers_collect collected₂ (linked set₂)
  have gathered : Gathers settings collection [] (reading settings parent
      ([set₁, set₂].flatMap (link library.find?))) :=
    gathers_collectTogether acyclic composite collected
  rw [List.flatMap_cons, List.flatMap_singleton, reading_append] at gathered
  have eq₁ := names_of_resolve resolves₁
  have eq₂ := names_of_resolve resolves₂
  have eq := names_of_resolve resolves
  have left₁ : collection₁.groups.keys.filter (· ∈ names₁) = names₁ := by
    rw [show names₁ = _ from eq₁]
    exact gathered₁.filter_keys_groups
  have left₂ : collection₂.groups.keys.filter (· ∈ names₂) = names₂ := by
    rw [show names₂ = _ from eq₂]
    exact gathered₂.filter_keys_groups
  have left : collection.groups.keys.filter (· ∈ names) = names := by
    rw [show names = _ from eq]
    exact gathered.filter_keys_groups
  have either : ∀ name, name ∈ names ↔ name ∈ names₁ ∨ name ∈ names₂ := by
    intro name
    rw [show names = _ from eq, show names₁ = _ from eq₁, show names₂ = _ from eq₂]
    exact mem_responseNames_of_together gathered₁ gathered₂ gathered
  have merged : names = (unionNames collection₁.groups.keys collection₂.groups.keys).filter
      (fun name => name ∈ names₁ ∨ name ∈ names₂) := by
    rw [← keys_groups_of_together gathered₁ gathered₂ gathered, ← left]
    exact List.filter_congr fun name _ => decide_eq_decide.2 (either name)
  refine ⟨merged, fun h => merged.trans (filter_unionNames ?_ left₁ left₂ h)⟩
  exact gathered₂.nodup_keys_groups

/-- The owner that is selected for dogs does not apply to pets, and leaves the order of the names as
it is. -/
theorem names_of_together_dogOwner :
    let settings : Settings := { schema := petSchema, options := {} }
    let set₁ := [plainInline "Dog" [plainField "owner" []], plainField "name" []]
    let set₂ := [plainField "name" [], plainField "__typename" []]
    ∃ library collection₁ resolved₁ after₁ collection₂ resolved₂ after₂ collection resolved after,
      (FragmentTable.ofList []).library = .ok library ∧
      collect settings "Pet" (link library.find? set₁) {} = .ok collection₁ ∧
      (resolve settings "Pet" collection₁).run {} = (.ok resolved₁, after₁) ∧
      collect settings "Pet" (link library.find? set₂) {} = .ok collection₂ ∧
      (resolve settings "Pet" collection₂).run {} = (.ok resolved₂, after₂) ∧
      collectTogether settings "Pet" [link library.find? set₁, link library.find? set₂] {}
        = .ok collection ∧
      (resolve settings "Pet" collection).run {} = (.ok resolved, after) ∧
      collection₁.groups.keys = ["owner", "name"] ∧
      resolved₁.selectionSet.fields.map Compiled.Field.responseName = ["name"] ∧
      resolved₂.selectionSet.fields.map Compiled.Field.responseName = ["name", "__typename"] ∧
      resolved.selectionSet.fields.map Compiled.Field.responseName = ["name", "__typename"] := by
  intro settings set₁ set₂
  obtain ⟨library, collection₁, resolved₁, after₁, collection₂, resolved₂, after₂, collection,
      resolved, after, acyclic, collected₁, resolves₁, collected₂, resolves₂, collected, resolves,
      keys, names₁, names₂⟩ :
      ∃ library collection₁ resolved₁ after₁ collection₂ resolved₂ after₂ collection resolved after,
        (FragmentTable.ofList []).library = .ok library ∧
        collect settings "Pet" (link library.find? set₁) {} = .ok collection₁ ∧
        (resolve settings "Pet" collection₁).run {} = (.ok resolved₁, after₁) ∧
        collect settings "Pet" (link library.find? set₂) {} = .ok collection₂ ∧
        (resolve settings "Pet" collection₂).run {} = (.ok resolved₂, after₂) ∧
        collectTogether settings "Pet" [link library.find? set₁, link library.find? set₂] {}
          = .ok collection ∧
        (resolve settings "Pet" collection).run {} = (.ok resolved, after) ∧
        collection₁.groups.keys = ["owner", "name"] ∧
        resolved₁.selectionSet.fields.map Compiled.Field.responseName = ["name"] ∧
        resolved₂.selectionSet.fields.map Compiled.Field.responseName = ["name", "__typename"] :=
    ⟨_, _, _, _, _, _, _, _, _, _, by cbv, by cbv, by cbv, by cbv, by cbv, by cbv, by cbv, by cbv,
      by cbv, by cbv⟩
  refine ⟨library, collection₁, resolved₁, after₁, collection₂, resolved₂, after₂, collection,
    resolved, after, acyclic, collected₁, resolves₁, collected₂, resolves₂, collected, resolves,
    keys, names₁, names₂, ?_⟩
  have union := (names_of_together acyclic (by decide +kernel) collected₁ resolves₁ collected₂
    resolves₂ collected resolves).2
  rw [names₁, names₂, keys] at union
  exact union (by decide)

/-- A name that is selected for dogs first comes before what is selected for all pets, though the
first selection set alone does not have it. -/
theorem names_ne_unionNames_dogName :
    let settings : Settings := { schema := petSchema, options := {} }
    let set₁ := [plainInline "Dog" [plainField "name" []], plainField "__typename" []]
    let set₂ := [plainField "name" []]
    ∃ library collection₁ resolved₁ after₁ collection₂ resolved₂ after₂ collection resolved after,
      settings.options.mergeFragmentFields ∧ settings.schema.isComposite "Pet" ∧
      (FragmentTable.ofList []).library = .ok library ∧
      collect settings "Pet" (link library.find? set₁) {} = .ok collection₁ ∧
      (resolve settings "Pet" collection₁).run {} = (.ok resolved₁, after₁) ∧
      collect settings "Pet" (link library.find? set₂) {} = .ok collection₂ ∧
      (resolve settings "Pet" collection₂).run {} = (.ok resolved₂, after₂) ∧
      collectTogether settings "Pet" [link library.find? set₁, link library.find? set₂] {}
        = .ok collection ∧
      (resolve settings "Pet" collection).run {} = (.ok resolved, after) ∧
      resolved₁.selectionSet.fields.map Compiled.Field.responseName = ["__typename"] ∧
      resolved₂.selectionSet.fields.map Compiled.Field.responseName = ["name"] ∧
      resolved.selectionSet.fields.map Compiled.Field.responseName = ["name", "__typename"] ∧
      ["name", "__typename"] ≠ unionNames ["__typename"] ["name"] :=
  ⟨_, _, _, _, _, _, _, _, _, _, by rfl, by decide +kernel, by cbv, by cbv, by cbv, by cbv, by cbv,
    by cbv, by cbv, by cbv, by cbv, by cbv, by decide⟩

end GraphQLCompiler
