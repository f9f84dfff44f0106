import GraphQLCompiler.Proofs.Agreement
import GraphQLCompiler.Proofs.Recasting
import GraphQLCompiler.Proofs.Tree

/-!
# Determinacy

What a site is compiled to depends on what is mentioned there only, and not on repetitions: similar
sites are compiled to the same selection set (`Site.CompilesTo.unique`). Nothing of the state can be
seen in it, since what is remembered are references.

Nor does it depend on anything that a recasting can change and that reading the selections inside
does not bring back. So the result is stated for sites that are similar up to a recasting, which may
be linked to different fragments (`Site.CompilesTo.eq_of_similarUpTo`).

The induction is on the height of the collection. Collections of similar sites have the same fields
but for repetitions of their occurrences and what is recast, so the sites of the fields are similar
again.
-/

namespace GraphQLCompiler

variable {settings : Settings} {recasting : Recasting} {find find' : Name → Option Fragment}

/-! ### Similar up to a recasting -/

/-- Whether recast selections mention what the selections mention, recast. -/
def Recasting.Commutes (recasting : Recasting) (settings : Settings) : Prop :=
  ∀ parent selections, reading settings parent (recasting.selections selections)
    = (reading settings parent selections).map (Mention.recast recasting)

/-- The recasting that leaves everything alone. -/
def Recasting.identity : Recasting where
  selections := id
  fragment := id
  name_fragment _ := rfl

theorem Mention.recast_identity : Mention.recast .identity = id := by
  funext mention
  cases mention <;> rfl

theorem ApplicableField.recast_identity : ApplicableField.recast .identity = id := by
  funext field
  have occurrences : field.others.map (Occurrence.recast .identity) = field.others :=
    List.map_id _
  rw [ApplicableField.recast, occurrences]
  rfl

theorem Recasting.commutes_identity : Recasting.identity.Commutes settings := by
  intro parent selections
  rw [Mention.recast_identity, List.map_id]
  rfl

/-- Whether fields are the same but for repetitions of their occurrences and what is recast. -/
abbrev ApplicableField.SameUpTo (recasting : Recasting) (field field' : ApplicableField) : Prop :=
  (field.recast recasting).Same (field'.recast recasting)

/-- Sites are **similar up to a recasting** if they have the same type and mention the same up to
repetitions and what is recast. -/
structure Site.SimilarUpTo (settings : Settings) (recasting : Recasting) (site site' : Site) :
    Prop where
  parent_eq : site.parent = site'.parent
  mentions : SameFirsts ((site.mentions settings).map (Mention.recast recasting))
    ((site'.mentions settings).map (Mention.recast recasting))

theorem Site.Similar.similarUpTo {site site' : Site} (similar : site.Similar settings site') :
    site.SimilarUpTo settings recasting site' :=
  ⟨similar.parent_eq, similar.mentions.map _⟩

/-- The sites of fields that are the same but for repetitions and what is recast are similar up to
the recasting. -/
theorem ApplicableField.SameUpTo.similarUpTo {field field' : ApplicableField}
    (same : field.SameUpTo recasting field') (commutes : recasting.Commutes settings) :
    field.site.SimilarUpTo settings recasting field'.site := by
  have recast : ∀ field : ApplicableField,
      (field.site.mentions settings).map (Mention.recast recasting)
        = (field.recast recasting).site.mentions settings := by
    intro field
    simp only [Site.mentions, ApplicableField.site, reading_flatMap, List.map_flatMap,
      ← commutes _ _, ApplicableField.occurrences_recast, List.flatMap_map]
    rfl
  refine ⟨same.site.parent_eq, ?_⟩
  rw [recast field, recast field']
  exact same.site.similar.mentions

/-- Fields that are the same but for repetitions are compiled to the same with one selection set. -/
theorem ApplicableField.Same.compile_eq {field field' : ApplicableField} (same : field.Same field')
    (schema : Schema) (typeName : Name) (selectionSet : Option Compiled.SelectionSet) :
    field.compile schema typeName selectionSet = field'.compile schema typeName selectionSet := by
  unfold ApplicableField.compile
  rw [same.responseName_eq, same.first_eq, same.any_eq]

/-- Fields that are the same but for repetitions and what is recast are compiled to the same with
one selection set. -/
theorem ApplicableField.SameUpTo.compile_eq {field field' : ApplicableField}
    (same : field.SameUpTo recasting field') (schema : Schema) (typeName : Name)
    (selectionSet : Option Compiled.SelectionSet) :
    field.compile schema typeName selectionSet = field'.compile schema typeName selectionSet := by
  have recast : ∀ field : ApplicableField,
      field.compile schema typeName selectionSet
        = (field.recast recasting).compile schema typeName selectionSet := by
    intro field
    simp only [compile, occurrences_recast, List.any_map]
    rfl
  rw [recast field, recast field']
  exact ApplicableField.Same.compile_eq same schema typeName selectionSet

/-- Collections of similar sites have the same mentions up to repetitions, when they are recast. -/
private theorem exists_holds_recast {site site' : Site}
    (similar : site.SimilarUpTo settings recasting site') {collection collection' : Collection}
    (collected : site.Collected settings find collection)
    (collected' : site'.Collected settings find' collection') :
    ∃ mentions mentions', (collection.recast recasting).Holds settings.schema mentions ∧
      (collection'.recast recasting).Holds settings.schema mentions' ∧
      SameFirsts mentions mentions' := by
  obtain ⟨mentions, holds, same⟩ := collected.gathers
  obtain ⟨mentions', holds', same'⟩ := collected'.gathers
  exact ⟨_, _, holds.recast, holds'.recast,
    ((same.map _).trans similar.mentions).trans (same'.map _).symm⟩

section

variable {schema : Schema} {collection collection' : Collection} {mentions mentions' : List Mention}
  (holds : (collection.recast recasting).Holds schema mentions)
  (holds' : (collection'.recast recasting).Holds schema mentions')
  (same : SameFirsts mentions mentions')

include holds holds' same

private theorem applicableFields_sameUpTo (typeName : Name) :
    List.Forall₂ (ApplicableField.SameUpTo recasting) (applicableFields schema typeName collection)
      (applicableFields schema typeName collection') := by
  have fields := applicableFields_same holds holds' same typeName
  rwa [Collection.applicableFields_recast, Collection.applicableFields_recast,
    List.forall₂_map_left_iff, List.forall₂_map_right_iff] at fields

private theorem spreadNamesAt_sameUpTo (typeName : Name) :
    spreadNamesAt schema typeName collection = spreadNamesAt schema typeName collection' := by
  rw [← collection.spreadNamesAt_recast recasting, ← collection'.spreadNamesAt_recast recasting,
    spreadNamesAt, spreadNamesAt, fragmentsAt_same holds holds' same]

private theorem narrowedTypes_sameUpTo (typeName : Name) :
    narrowedTypes schema typeName collection = narrowedTypes schema typeName collection' := by
  rw [← collection.narrowedTypes_recast recasting, ← collection'.narrowedTypes_recast recasting,
    narrowedTypes_same holds holds' same]

end

/-! ### Determined collections -/

/-- Whether collections below a height resolve to the same as any collection of a site that is
similar up to a recasting. -/
private def Determined (settings : Settings) (recasting : Recasting)
    (find find' : Name → Option Fragment) (n : Nat) : Prop :=
  ∀ (site site' : Site) (collection collection' : Collection)
    (selectionSet selectionSet' : Compiled.SelectionSet), collection.height < n →
    site.SimilarUpTo settings recasting site' → site.Collected settings find collection →
    site'.Collected settings find' collection' →
    ResolvesTo settings site.parent collection selectionSet →
    ResolvesTo settings site'.parent collection' selectionSet' → selectionSet = selectionSet'

section

variable {collection collection' : Collection} {site site' : Site}
  (determined : Determined settings recasting find find' collection.height)
  (commutes : recasting.Commutes settings)
  (collected : site.Collected settings find collection)
  (collected' : site'.Collected settings find' collection')

include determined commutes collected collected'

/-- A field is determined by its occurrences up to repetitions. -/
private theorem Determined.field {typeName : Name} {field field' : ApplicableField}
    (applicable : field ∈ applicableFields settings.schema typeName collection)
    (applicable' : field' ∈ applicableFields settings.schema typeName collection')
    (same : field.SameUpTo recasting field') {compiled compiled' : Compiled.Field}
    (compiles : field.CompilesTo settings typeName compiled)
    (compiles' : field'.CompilesTo settings typeName compiled') : compiled = compiled' := by
  have bareType_eq : field.bareType = field'.bareType := same.bareType_eq
  have selectionSets : compiled.selectionSet = compiled'.selectionSet := by
    have isSome_iff : compiled.selectionSet.isSome ↔ compiled'.selectionSet.isSome := by
      rw [compiles.isSome_iff, compiles'.isSome_iff, bareType_eq]
    cases inner : compiled.selectionSet with
    | none =>
      rw [inner] at isSome_iff
      exact (Option.not_isSome_iff_eq_none.1 fun some => by cases isSome_iff.2 some).symm
    | some selectionSet =>
      rw [inner] at isSome_iff
      obtain ⟨selectionSet', inner'⟩ := Option.isSome_iff_exists.1 (isSome_iff.1 rfl)
      have composite := compiles.composite inner
      obtain ⟨lower, merged, resolves⟩ := compiles.selectionSet _ inner
      obtain ⟨lower', merged', resolves'⟩ := compiles'.selectionSet _ inner'
      -- the sub-selections are lower than the field, whose collection has them inside
      have low : lower.height < collection.height := by
        have bound : ∀ occurrence ∈ field.occurrences,
            height occurrence.selections ≤ collection.height - 1 := fun occurrence mem =>
          Nat.le_sub_one_of_lt (Collection.height_selections_lt
            (mem_occurrences_of_applicable applicable mem))
        have le := height_mergeSelections_le merged bound (Nat.zero_le _)
        have first : field.first ∈ field.occurrences := List.mem_cons_self
        have positive :=
          Collection.height_selections_lt (mem_occurrences_of_applicable applicable first)
        omega
      rw [mergeSelections_eq composite] at merged
      rw [mergeSelections_eq (bareType_eq ▸ composite)] at merged'
      have linked := collected.inherited_field (hereditary_linkedBy find) collected.linked applicable
      have linked' :=
        collected'.inherited_field (hereditary_linkedBy find') collected'.linked applicable'
      rw [inner', determined field.site field'.site lower lower' selectionSet selectionSet' low
        (same.similarUpTo commutes) (field.site.collected_of_collect linked merged)
        (field'.site.collected_of_collect linked' merged') resolves resolves']
  rw [← compiles.compile_eq, ← compiles'.compile_eq, selectionSets, same.compile_eq]

/-- The fields at a type are determined by their occurrences up to repetitions. -/
private theorem Determined.fields {typeName : Name}
    (same : List.Forall₂ (ApplicableField.SameUpTo recasting)
      (applicableFields settings.schema typeName collection)
      (applicableFields settings.schema typeName collection'))
    {compiled compiled' : List Compiled.Field}
    (compiles : FieldsAt settings collection typeName compiled)
    (compiles' : FieldsAt settings collection' typeName compiled') : compiled = compiled' := by
  have key : ∀ {fields fields' : List ApplicableField},
      fields ⊆ applicableFields settings.schema typeName collection →
      fields' ⊆ applicableFields settings.schema typeName collection' →
      List.Forall₂ (ApplicableField.SameUpTo recasting) fields fields' →
      ∀ {compiled compiled' : List Compiled.Field},
        List.Forall₂ (ApplicableField.CompilesTo settings typeName) fields compiled →
        List.Forall₂ (ApplicableField.CompilesTo settings typeName) fields' compiled' →
        compiled = compiled' := by
    intro fields fields' sub sub' same
    induction same with
    | nil =>
      rintro _ _ ⟨⟩ ⟨⟩
      rfl
    | @cons field field' rest rest' sameFirst sameRest ih =>
      rintro _ _ (_ | ⟨compilesFirst, compilesRest⟩) (_ | ⟨compilesFirst', compilesRest'⟩)
      obtain ⟨first, others⟩ := List.cons_subset.1 sub
      obtain ⟨first', others'⟩ := List.cons_subset.1 sub'
      rw [determined.field commutes collected collected' first first' sameFirst compilesFirst
        compilesFirst', ih others others' compilesRest compilesRest']
  exact key (List.Subset.refl _) (List.Subset.refl _) same compiles compiles'

/-- Branches are determined by the mentions up to repetitions and what is recast. -/
private theorem Determined.branches {mentions mentions' : List Mention}
    (holds : (collection.recast recasting).Holds settings.schema mentions)
    (holds' : (collection'.recast recasting).Holds settings.schema mentions')
    (same : SameFirsts mentions mentions') {objects : List Name}
    {branches branches' : List Compiled.InlineFragment}
    (branchesAt : List.Forall₂ (BranchAt settings collection) objects branches)
    (branchesAt' : List.Forall₂ (BranchAt settings collection') objects branches') :
    branches = branches' := by
  induction branchesAt generalizing branches' with
  | nil =>
    cases branchesAt'
    rfl
  | @cons object branch objects branches first _ ih =>
    obtain _ | ⟨first', rest'⟩ := branchesAt'
    rename_i branch' _
    have fields : branch.fields = branch'.fields := determined.fields commutes collected collected'
      (applicableFields_sameUpTo holds holds' same object) first.fields first'.fields
    have spreads : branch.fragmentSpreads = branch'.fragmentSpreads := by
      rw [first.fragmentSpreads_eq, first'.fragmentSpreads_eq,
        spreadNamesAt_sameUpTo holds holds' same]
    have typeConditions := first.typeCondition_eq.trans first'.typeCondition_eq.symm
    have possibleTypes := first.possibleTypes_eq.trans first'.possibleTypes_eq.symm
    have branch_eq : branch = branch' := by
      cases branch
      cases branch'
      congr
    rw [branch_eq, ih rest']

/-- A selection set is determined by the mentions up to repetitions and what is recast. -/
private theorem Determined.selectionSet (similar : site.SimilarUpTo settings recasting site')
    {selectionSet selectionSet' : Compiled.SelectionSet}
    (resolves : ResolvesTo settings site.parent collection selectionSet)
    (resolves' : ResolvesTo settings site'.parent collection' selectionSet') :
    selectionSet = selectionSet' := by
  obtain ⟨mentions, mentions', holds, holds', same⟩ :=
    exists_holds_recast similar collected collected'
  have shape := resolves.shape
  have shape' := resolves'.shape
  rw [← similar.parent_eq] at shape'
  have fields : selectionSet.fields = selectionSet'.fields :=
    determined.fields commutes collected collected'
      (applicableFields_sameUpTo holds holds' same site.parent) shape.fields shape'.fields
  have spreads : selectionSet.fragmentSpreads = selectionSet'.fragmentSpreads := by
    rw [shape.fragmentSpreads_eq, shape'.fragmentSpreads_eq,
      spreadNamesAt_sameUpTo holds holds' same]
  have branchesAt' := shape'.inlineFragments
  rw [← narrowedTypes_sameUpTo holds holds' same] at branchesAt'
  have branches := determined.branches commutes collected collected' holds holds' same
    shape.inlineFragments branchesAt'
  cases selectionSet
  cases selectionSet'
  congr

end

private theorem determined (commutes : recasting.Commutes settings) (n : Nat) :
    Determined settings recasting find find' n := by
  induction n with
  | zero => exact fun _ _ _ _ _ _ low => absurd low (Nat.not_lt_zero _)
  | succ n ih =>
    intro site site' collection collection' selectionSet selectionSet' low similar collected
      collected' resolves resolves'
    have below : Determined settings recasting find find' collection.height :=
      fun site site' lower lower' inner inner' lt =>
        ih site site' lower lower' inner inner' (Nat.lt_of_lt_of_le lt (Nat.le_of_lt_succ low))
    exact below.selectionSet commutes collected collected' similar resolves resolves'

/-! ### Determined sites -/

/-- **Sites that are similar up to a recasting** are compiled to the same selection set, whatever
fragments they are linked to, if the recasting commutes with reading. -/
theorem Site.CompilesTo.eq_of_similarUpTo {site site' : Site}
    (commutes : recasting.Commutes settings) (similar : site.SimilarUpTo settings recasting site')
    {selectionSet selectionSet' : Compiled.SelectionSet}
    (compiles : site.CompilesTo settings find selectionSet)
    (compiles' : site'.CompilesTo settings find' selectionSet') : selectionSet = selectionSet' := by
  obtain ⟨collection, collected, resolves⟩ := compiles
  obtain ⟨collection', collected', resolves'⟩ := compiles'
  exact (determined commutes collection.height).selectionSet commutes collected collected' similar
    resolves resolves'

/-- **Similar sites** are compiled to the same selection set. -/
theorem Site.CompilesTo.unique {site site' : Site} (similar : site.Similar settings site')
    {selectionSet selectionSet' : Compiled.SelectionSet}
    (compiles : site.CompilesTo settings find selectionSet)
    (compiles' : site'.CompilesTo settings find selectionSet') : selectionSet = selectionSet' :=
  compiles.eq_of_similarUpTo Recasting.commutes_identity similar.similarUpTo compiles'

/-- **The fields at a type** are compiled alike in collections of any sites where the same fields
apply but for repetitions of their occurrences. -/
theorem FieldsAt.eq_of_same {collection collection' : Collection} {site site' : Site}
    (collected : site.Collected settings find collection)
    (collected' : site'.Collected settings find collection') {typeName : Name}
    (same : List.Forall₂ ApplicableField.Same
      (applicableFields settings.schema typeName collection)
      (applicableFields settings.schema typeName collection'))
    {compiled compiled' : List Compiled.Field}
    (compiles : FieldsAt settings collection typeName compiled)
    (compiles' : FieldsAt settings collection' typeName compiled') : compiled = compiled' := by
  have commutes : Recasting.identity.Commutes settings := Recasting.commutes_identity
  refine (determined commutes collection.height).fields commutes collected collected' ?_ compiles
    compiles'
  exact same.imp fun field field' same => by
    rwa [ApplicableField.SameUpTo, ApplicableField.recast_identity]

end GraphQLCompiler
