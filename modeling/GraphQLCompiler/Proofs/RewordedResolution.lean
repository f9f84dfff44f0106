import GraphQLCompiler.Proofs.Determinacy
import GraphQLCompiler.Proofs.Rewording

/-!
# Resolving reworded selections

Sites with reworded selections are resolved to the same. Collections of such sites have the same
fragments, the same branches and the same fields but for their sub-selections, and the sites of the
fields are reworded again (`Site.Reworded.applicableFields`). So the resolutions go through the same
steps, and the types that they use are met in the same order.

A computation **mirrors** another if it has a result wherever the other has one, related to it, from
states that differ in their logs only, and leaves such states (`CompileM.Mirrors`). As in the
comparison of resolutions that expand repeated fragments again, the induction is on the height of
the selections.
-/

namespace GraphQLCompiler

variable {α β γ δ : Type}

/-! ### Computations that mirror others -/

/-- Whether states are the same but for their logs. -/
structure CompilerState.SameButLog (state state' : CompilerState) : Prop where
  typesUsed_eq : state.typesUsed = state'.typesUsed
  references_eq : state.references = state'.references
  cyclesChecked_eq : state.cyclesChecked = state'.cyclesChecked

theorem CompilerState.SameButLog.refl (state : CompilerState) : state.SameButLog state :=
  ⟨rfl, rfl, rfl⟩

namespace CompileM

/-- A computation **mirrors** another if it has related results wherever the other has results, from
states that are the same but for their logs, and leaves states that are the same but for their
logs. -/
def Mirrors (related : α → β → Prop) (m : CompileM α) (m' : CompileM β) : Prop :=
  ∀ ⦃before before' : CompilerState⦄, before.SameButLog before' →
    ∀ a after, m.run before = (.ok a, after) →
      ∃ b after', m'.run before' = (.ok b, after') ∧ related a b ∧ after.SameButLog after'

theorem mirrors_pure {related : α → β → Prop} {a : α} {b : β} (h : related a b) :
    Mirrors related (pure a) (pure b) := by
  intro before before' same _ _ run
  cases run
  exact ⟨b, before', rfl, h, same⟩

theorem Mirrors.bind {related : α → β → Prop} {related' : γ → δ → Prop} {m : CompileM α}
    {m' : CompileM β} {next : α → CompileM γ} {next' : β → CompileM δ} (h : Mirrors related m m')
    (h' : ∀ a b, related a b → Mirrors related' (next a) (next' b)) :
    Mirrors related' (m >>= next) (m' >>= next') := by
  intro before before' same c last run
  rw [run_bind] at run
  rcases first : m.run before with ⟨e | a, after⟩
  all_goals rw [first] at run
  · cases run
  · obtain ⟨b, after', first', relatedFirst, sameAfter⟩ := h same a after first
    rw [run_bind, first']
    exact h' a b relatedFirst sameAfter c last run

/-- What goes on from the same result. -/
theorem Mirrors.bind_eq {related : γ → δ → Prop} {m m' : CompileM α} {next : α → CompileM γ}
    {next' : α → CompileM δ} (h : Mirrors Eq m m') (h' : ∀ a, Mirrors related (next a) (next' a)) :
    Mirrors related (m >>= next) (m' >>= next') := by
  refine h.bind fun a _ eq => ?_
  subst eq
  exact h' a

theorem Mirrors.map {m m' : CompileM α} (h : Mirrors Eq m m') (f : α → β) :
    Mirrors Eq (f <$> m) (f <$> m') := by
  rw [← bind_pure_comp, ← bind_pure_comp]
  exact h.bind_eq fun a => mirrors_pure rfl

/-- Nothing is asked of computations that mirror an error. -/
theorem mirrors_throw {related : α → β → Prop} (e : CompileError) (m' : CompileM β) :
    Mirrors related (throw e) m' := by
  intro before before' same a after run
  cases run

theorem mirrors_fail {related : α → β → Prop} (failure : Failure) (m' : CompileM β) :
    Mirrors related (fail failure) m' := by
  intro before before' same a after run
  cases run

theorem mirrors_ofExcept {related : α → β → Prop} {result : Except CompileError α}
    {result' : Except CompileError β}
    (h : ∀ a, result = .ok a → ∃ b, result' = .ok b ∧ related a b) :
    Mirrors related (ofExcept result) (ofExcept result') := by
  cases result with
  | error e => exact mirrors_throw e _
  | ok a =>
    obtain ⟨b, rfl, relatedResults⟩ := h a rfl
    exact mirrors_pure relatedResults

theorem mirrors_tell (events events' : List LogEvent) :
    Mirrors Eq (tell events) (tell events') := by
  intro before before' same _ _ run
  cases run
  exact ⟨(), _, rfl, rfl, same.typesUsed_eq, same.references_eq, same.cyclesChecked_eq⟩

theorem mirrors_get : Mirrors CompilerState.SameButLog get get := by
  intro before before' same _ _ run
  cases run
  exact ⟨before', before', rfl, same, same⟩

theorem mirrors_useType (schema : Schema) (name : Name) :
    Mirrors Eq (useType schema name) (useType schema name) := by
  intro before before' same _ _ run
  cases run
  exact ⟨(), _, rfl, rfl, congrArg (TypesUsed.add schema · name) same.typesUsed_eq,
    same.references_eq, same.cyclesChecked_eq⟩

theorem mirrors_remembered? (name : Name) :
    Mirrors Eq (remembered? name) (remembered? name) := by
  intro before before' same _ _ run
  cases run
  exact ⟨_, before', rfl, congrArg (NameMap.find? · name) same.references_eq, same⟩

theorem mirrors_remember (name : Name) (names : List Name) :
    Mirrors Eq (remember name names) (remember name names) := by
  intro before before' same _ _ run
  cases run
  exact ⟨(), _, rfl, rfl, same.typesUsed_eq,
    congrArg (NameMap.insert · name names) same.references_eq, same.cyclesChecked_eq⟩

theorem mirrors_mapM {similar : α → β → Prop} {related : γ → δ → Prop} {f : α → CompileM γ}
    {f' : β → CompileM δ} {xs : List α} {ys : List β} (all : List.Forall₂ similar xs ys)
    (h : ∀ x y, similar x y → Mirrors related (f x) (f' y)) :
    Mirrors (List.Forall₂ related) (xs.mapM f) (ys.mapM f') := by
  induction all with
  | nil =>
    rw [List.mapM_nil, List.mapM_nil]
    exact mirrors_pure .nil
  | cons first _ ih =>
    rw [List.mapM_cons, List.mapM_cons]
    refine (h _ _ first).bind fun a b relatedFirst => ?_
    exact ih.bind fun _ _ relatedRest => mirrors_pure (.cons relatedFirst relatedRest)

end CompileM

/-! ### Sites with reworded selections -/

variable {settings : Settings} {find find' : Name → Option Fragment}

/-- Whether the selections of a site are reworded, where each of them is linked to what the names
stand for. -/
structure Site.Reworded (find find' : Name → Option Fragment) (site site' : Site) : Prop where
  parent_eq : site.parent = site'.parent
  selections : GraphQLCompiler.Reworded TargetReworded site.selections site'.selections
  linked : ∀ selection ∈ site.selections, selection.LinkedBy find
  linked' : ∀ selection ∈ site'.selections, selection.LinkedBy find'

/-- Whether fields are the same but for their sub-selections, which are reworded. -/
structure ApplicableField.Reworded (find find' : Name → Option Fragment)
    (field field' : ApplicableField) : Prop where
  bare : (field.recast bareRecasting).Same (field'.recast bareRecasting)
  site : field.site.Reworded find find' field'.site

/-- Sub-selections do not count for what a field is compiled to with a selection set. -/
theorem ApplicableField.Reworded.compile_eq {field field' : ApplicableField}
    (reworded : field.Reworded find find' field') (schema : Schema) (typeName : Name)
    (selectionSet : Option Compiled.SelectionSet) :
    field.compile schema typeName selectionSet = field'.compile schema typeName selectionSet := by
  have compile_recast : ∀ field : ApplicableField,
      (field.recast bareRecasting).compile schema typeName selectionSet
        = field.compile schema typeName selectionSet := by
    intro field
    unfold ApplicableField.compile
    rw [field.occurrences_recast, List.any_map]
    rfl
  rw [← compile_recast field, ← compile_recast field',
    reworded.bare.compile_eq schema typeName selectionSet]

/-- Whether a fragment is another reworded, where both are what their name stands for. -/
structure Fragment.Reworded (find find' : Name → Option Fragment) (fragment fragment' : Fragment) :
    Prop where
  target : TargetReworded (some fragment) (some fragment')
  linked : fragment.LinkedBy find
  linked' : fragment'.LinkedBy find'

namespace Fragment.Reworded

variable {fragment fragment' : Fragment}

theorem name_eq (h : fragment.Reworded find find' fragment') : fragment.name = fragment'.name := by
  cases h.target
  rfl

theorem typeCondition_eq (h : fragment.Reworded find find' fragment') :
    fragment.typeCondition = fragment'.typeCondition := by
  cases h.target
  rfl

theorem site (h : fragment.Reworded find find' fragment') :
    fragment.site.Reworded find find' fragment'.site where
  parent_eq := h.typeCondition_eq
  selections := by
    cases h.target with
    | fragment selections => exact selections
  linked := GraphQLCompiler.linkedBy_iff.1 (Fragment.linkedBy_iff.1 h.linked)
  linked' := GraphQLCompiler.linkedBy_iff.1 (Fragment.linkedBy_iff.1 h.linked')

end Fragment.Reworded

namespace Site.Reworded

variable {site site' : Site} (reworded : site.Reworded find find' site')
  {collection collection' : Collection}

include reworded

/-- Reworded selections can be collected too, to what has reworded mentions. -/
theorem exists_collected
    (collected : collect settings site.parent site.selections {} = .ok collection) :
    ∃ collection', collect settings site'.parent site'.selections {} = .ok collection' ∧
      site.Collected settings find collection ∧ site'.Collected settings find' collection' := by
  have clean : errorOf (collect settings site.parent site.selections {}) = none := by
    rw [collected]
    rfl
  rw [errorOf_collect (linkedBy_iff.2 reworded.linked), List.head?_eq_none_iff,
    List.append_eq_nil_iff] at clean
  have composite := typeFaults_eq_nil_iff.1 clean.1
  have clean' : errorOf (collect settings site'.parent site'.selections {}) = none := by
    rw [errorOf_collect (linkedBy_iff.2 reworded.linked'), List.head?_eq_none_iff,
      List.append_eq_nil_iff, ← reworded.parent_eq]
    exact ⟨clean.1, (faults_eq_nil_iff_of_reworded reworded.selections _ composite).1 clean.2⟩
  cases collected' : collect settings site'.parent site'.selections {} with
  | error failure =>
    rw [collected'] at clean'
    cases clean'
  | ok collection' =>
    exact ⟨collection', rfl, site.collected_of_collect reworded.linked collected,
      site'.collected_of_collect reworded.linked' collected'⟩

variable (collected : site.Collected settings find collection)
  (collected' : site'.Collected settings find' collection')

include collected collected'

/-- What collections of reworded sites hold is reworded. -/
private theorem exists_holds : ∃ mentions mentions',
    collection.Holds settings.schema mentions ∧ collection'.Holds settings.schema mentions' ∧
      MentionsReworded settings.schema mentions mentions' := by
  obtain ⟨mentions, holds, same⟩ := collected.gathers
  obtain ⟨mentions', holds', same'⟩ := collected'.gathers
  have sites : MentionsReworded settings.schema (site.mentions settings)
      (site'.mentions settings) := by
    rw [Site.mentions, Site.mentions, ← reworded.parent_eq]
    exact mentionsReworded_reading reworded.selections site.parent
  exact ⟨mentions, mentions', holds, holds',
    (MentionsReworded.of_sameFirsts same).trans (sites.trans (.of_sameFirsts same'.symm))⟩

theorem narrowedTypes_eq (parent : Name) :
    narrowedTypes settings.schema parent collection
      = narrowedTypes settings.schema parent collection' := by
  obtain ⟨mentions, mentions', holds, holds', same⟩ := reworded.exists_holds collected collected'
  rw [← collection.narrowedTypes_recast bareRecasting,
    ← collection'.narrowedTypes_recast bareRecasting]
  exact narrowedTypes_same holds.recast holds'.recast same.outside parent

theorem expandedNames_eq :
    unionNames [] (collection.fragments.map Fragment.name)
      = unionNames [] (collection'.fragments.map Fragment.name) := by
  obtain ⟨mentions, mentions', holds, holds', same⟩ := reworded.exists_holds collected collected'
  rw [← collection.expandedNames_recast bareRecasting,
    ← collection'.expandedNames_recast bareRecasting]
  exact expandedNames_same holds.recast holds'.recast same.outside

theorem spreadNamesAt_eq (typeName : Name) :
    spreadNamesAt settings.schema typeName collection
      = spreadNamesAt settings.schema typeName collection' := by
  obtain ⟨mentions, mentions', holds, holds', same⟩ := reworded.exists_holds collected collected'
  rw [← collection.spreadNamesAt_recast bareRecasting,
    ← collection'.spreadNamesAt_recast bareRecasting, spreadNamesAt, spreadNamesAt,
    fragmentsAt_same holds.recast holds'.recast same.outside typeName]

/-- **The fields that apply** at a type are the same but for their sub-selections, which are
reworded. -/
theorem applicableFields (typeName : Name) :
    List.Forall₂ (ApplicableField.Reworded find find')
      (applicableFields settings.schema typeName collection)
      (applicableFields settings.schema typeName collection') := by
  obtain ⟨mentions, mentions', holds, holds', same⟩ := reworded.exists_holds collected collected'
  have bare := applicableFields_same holds.recast holds'.recast same.outside typeName
  rw [collection.applicableFields_recast, collection'.applicableFields_recast,
    List.forall₂_map_left_iff, List.forall₂_map_right_iff] at bare
  refine (forall₂_mem bare).imp fun field field' related => ?_
  obtain ⟨sameField, mem, mem'⟩ := related
  refine ⟨sameField, ?_⟩
  have selections := same.inside typeName field.responseName
  rw [subselectionsAt, ← holds.mem_applicableFields.1 mem, subselectionsAt,
    show field.responseName = field'.responseName from sameField.responseName_eq,
    ← holds'.mem_applicableFields.1 mem'] at selections
  exact ⟨sameField.bareType_eq, selections,
    collected.inherited_field (hereditary_linkedBy _) collected.linked mem,
    collected'.inherited_field (hereditary_linkedBy _) collected'.linked mem'⟩

/-- **The fragments that apply** at a type are the same but for their contents, which are
reworded. -/
theorem fragmentsAt (targets : ∀ name, TargetReworded (find name) (find' name)) (typeName : Name) :
    List.Forall₂ (Fragment.Reworded find find')
      (fragmentsAt settings.schema typeName collection)
      (fragmentsAt settings.schema typeName collection') := by
  have names := reworded.spreadNamesAt_eq collected collected' typeName
  rw [spreadNamesAt, spreadNamesAt, map_eq_map_iff_forall₂] at names
  refine (forall₂_mem names).imp fun fragment fragment' related => ?_
  obtain ⟨name_eq, mem, mem'⟩ := related
  obtain ⟨_, mentioned, -⟩ := collected.mem_fragmentsAt.1 mem
  obtain ⟨_, mentioned', -⟩ := collected'.mem_fragmentsAt.1 mem'
  obtain ⟨found, linked⟩ := collected.found mentioned
  obtain ⟨found', linked'⟩ := collected'.found mentioned'
  have target := targets fragment.name
  rw [found, name_eq, found'] at target
  exact ⟨target, linked, linked'⟩

end Site.Reworded

/-! ### Resolution -/

open CompileM

/-- Whether the resolutions of reworded sites below a height mirror those of the sites. -/
private def Mirroring (settings : Settings) (find find' : Name → Option Fragment) (n : Nat) :
    Prop :=
  ∀ site site' : Site, height site.selections < n → site.Reworded find find' site' →
    Mirrors Eq (site.resolution settings) (site'.resolution settings)

section

variable {n : Nat} (mirroring : Mirroring settings find find' n)

include mirroring

private theorem mirrors_resolveField (parent : Name) {field field' : ApplicableField}
    (reworded : field.Reworded find find' field') {m : Nat}
    (bound : ∀ occurrence ∈ field.occurrences, height occurrence.selections < n)
    (bound' : ∀ occurrence ∈ field'.occurrences, height occurrence.selections < m) :
    Mirrors Eq (resolveField settings (resolveBelow settings n) parent field bound)
      (resolveField settings (resolveBelow settings m) parent field' bound') := by
  have low : height field.site.selections < n := by
    have first := bound field.first List.mem_cons_self
    exact height_flatMap_lt (Nat.lt_of_le_of_lt (Nat.zero_le _) first) bound
  have bareType : field.bareType = field'.bareType := reworded.site.parent_eq
  have compiled : ∀ resolved : Option Resolved,
      (field.compile settings.schema parent (resolved.map Resolved.selectionSet),
          resolved.elim [] Resolved.references)
        = (field'.compile settings.schema parent (resolved.map Resolved.selectionSet),
          resolved.elim [] Resolved.references) := by
    intro resolved
    rw [reworded.compile_eq]
  rw [resolveField, resolveField, ← bareType]
  refine (mirrors_useType _ _).bind_eq fun _ => ?_
  dsimp only
  split
  · rename_i composite
    rw [resolveSubselections_eq settings composite,
      resolveSubselections_eq settings (bareType ▸ composite)]
    exact ((mirroring field.site field'.site low reworded.site).map some).bind_eq
      fun resolved => mirrors_pure (compiled resolved)
  · exact (mirrors_pure rfl).bind_eq fun resolved => mirrors_pure (compiled resolved)

private theorem mirrors_resolveFields (parent : Name) {fields fields' : List ApplicableField}
    (reworded : List.Forall₂ (ApplicableField.Reworded find find') fields fields') {m : Nat}
    (bound : ∀ field ∈ fields, ∀ occurrence ∈ field.occurrences, height occurrence.selections < n)
    (bound' : ∀ field ∈ fields', ∀ occurrence ∈ field.occurrences,
      height occurrence.selections < m) (references : List Name) :
    Mirrors Eq
      (resolveFields settings (resolveBelow settings n) parent fields bound references)
      (resolveFields settings (resolveBelow settings m) parent fields' bound' references) := by
  induction reworded generalizing references with
  | nil => exact mirrors_pure rfl
  | cons first rest ih =>
    rw [resolveFields, resolveFields]
    refine (mirrors_resolveField mirroring parent first _ _).bind_eq fun compiled => ?_
    exact (ih _ _ (unionNames references compiled.2)).bind_eq fun others => mirrors_pure rfl

private theorem mirrors_resolveFragment_of_le {fragment fragment' : Fragment}
    (reworded : fragment.Reworded find find' fragment') (low : fragment.height ≤ n) :
    Mirrors Eq (resolveFragment settings fragment) (resolveFragment settings fragment') := by
  rw [fragment.height_eq] at low
  cases known : settings.schema.typeKind? fragment.typeCondition with
  | none =>
    rw [resolveFragment_eq_throw known]
    exact mirrors_throw _ _
  | some kind =>
    rw [resolveFragment_eq known, resolveFragment_eq (reworded.typeCondition_eq ▸ known),
      reworded.name_eq]
    refine (mirroring fragment.site fragment'.site low reworded.site).bind_eq fun resolved => ?_
    exact (mirrors_remember _ _).bind_eq fun _ => mirrors_pure rfl

private theorem mirrors_spreadReferences {fragments fragments' : List Fragment}
    (reworded : List.Forall₂ (Fragment.Reworded find find') fragments fragments') {m : Nat}
    (bound : ∀ fragment ∈ fragments, fragment.height ≤ n)
    (bound' : ∀ fragment ∈ fragments', fragment.height ≤ m) (references : List Name) :
    Mirrors Eq
      (spreadReferences settings (resolveBelow settings n) fragments bound references)
      (spreadReferences settings (resolveBelow settings m) fragments' bound' references) := by
  induction reworded generalizing references with
  | nil => exact mirrors_pure rfl
  | @cons fragment fragment' _ _ first rest ih =>
    rw [spreadReferences, spreadReferences]
    refine Mirrors.bind_eq ?_ fun own => ih _ _ (unionNames references own)
    rw [fragmentReferences, fragmentReferences, ← first.name_eq]
    refine (mirrors_remembered? fragment.name).bind_eq fun found => ?_
    cases found with
    | some names => exact (mirrors_tell _ _).bind_eq fun _ => mirrors_pure rfl
    | none =>
      exact (mirrors_resolveFragment_of_le mirroring first
        (bound fragment List.mem_cons_self)).map Resolved.references

end

section

variable {site site' : Site} (reworded : site.Reworded find find' site')
  {collection collection' : Collection}
  (mirroring : Mirroring settings find find' collection.height)
  (targets : ∀ name, TargetReworded (find name) (find' name))
  (collected : site.Collected settings find collection)
  (collected' : site'.Collected settings find' collection')

include reworded mirroring collected collected'

private theorem mirrors_resolveFieldsAt (typeName : Name) (references : List Name) :
    Mirrors Eq
      (resolveFieldsAt settings collection (resolveBelow settings _) typeName references)
      (resolveFieldsAt settings collection' (resolveBelow settings _) typeName references) :=
  mirrors_resolveFields mirroring typeName
    (reworded.applicableFields collected collected' typeName) _ _ references

include targets

private theorem mirrors_spreadReferencesAt (typeName : Name) (references : List Name) :
    Mirrors Eq
      (spreadReferencesAt settings collection (resolveBelow settings _) typeName references)
      (spreadReferencesAt settings collection' (resolveBelow settings _) typeName references) :=
  mirrors_spreadReferences mirroring
    (reworded.fragmentsAt collected collected' targets typeName) _ _ references

private theorem mirrors_resolveBranches (objects references : List Name) :
    Mirrors Eq
      (resolveBranches settings collection (resolveBelow settings _) objects references)
      (resolveBranches settings collection' (resolveBelow settings _) objects references) := by
  induction objects generalizing references with
  | nil => exact mirrors_pure rfl
  | cons object rest ih =>
    rw [resolveBranches, resolveBranches]
    refine Mirrors.bind_eq ?_ fun branch => (ih branch.2).bind_eq fun others => mirrors_pure rfl
    rw [resolveBranch, resolveBranch]
    refine (mirrors_resolveFieldsAt reworded mirroring collected collected' object
      references).bind_eq fun fields => ?_
    refine (mirrors_spreadReferencesAt reworded mirroring targets collected collected' object
      fields.2).bind_eq fun references => ?_
    rw [reworded.spreadNamesAt_eq collected collected']
    exact mirrors_pure rfl

private theorem mirrors_resolve :
    Mirrors Eq (resolve settings site.parent collection)
      (resolve settings site.parent collection') := by
  rw [resolve.eq_1, resolve.eq_1, resolveWith, resolveWith]
  dsimp only
  rw [reworded.expandedNames_eq collected collected',
    reworded.narrowedTypes_eq collected collected',
    reworded.spreadNamesAt_eq collected collected']
  refine (mirrors_resolveFieldsAt reworded mirroring collected collected' site.parent _).bind_eq
    fun fields => ?_
  refine (mirrors_resolveBranches reworded mirroring targets collected collected' _ _).bind_eq
    fun branches => ?_
  exact (mirrors_spreadReferencesAt reworded mirroring targets collected collected' site.parent
    _).bind_eq fun references => mirrors_pure rfl

end

section

variable (targets : ∀ name, TargetReworded (find name) (find' name))

include targets

/-- **Reworded selections are resolved to the same**, if fragments of one name are the same up to
rewording. -/
theorem mirrors_resolution {site site' : Site} (reworded : site.Reworded find find' site') :
    Mirrors Eq (site.resolution settings) (site'.resolution settings) := by
  have mirroring : ∀ n, Mirroring settings find find' n := by
    intro n
    induction n with
    | zero => exact fun _ _ low => absurd low (Nat.not_lt_zero _)
    | succ n ih =>
      intro site site' low reworded
      rw [Site.resolution, Site.resolution]
      cases eq : collect settings site.parent site.selections {} with
      | error failure => exact mirrors_fail failure _
      | ok collection =>
        obtain ⟨collection', eq', collected, collected'⟩ := reworded.exists_collected eq
        have lower : collection.height ≤ n :=
          height_collect_le eq (Nat.le_of_lt_succ low) (Nat.zero_le n)
        have mirroring : Mirroring settings find find' collection.height :=
          fun site site' below => ih site site' (Nat.lt_of_lt_of_le below lower)
        rw [eq', ← reworded.parent_eq]
        exact (mirrors_tell _ _).bind_eq fun _ =>
          mirrors_resolve reworded mirroring targets collected collected'
  exact mirroring _ site site' (Nat.lt_succ_self _) reworded

/-- A reworded fragment is resolved to the same. -/
theorem mirrors_resolveFragment {fragment fragment' : Fragment}
    (reworded : fragment.Reworded find find' fragment') :
    Mirrors Eq (resolveFragment settings fragment) (resolveFragment settings fragment') :=
  mirrors_resolveFragment_of_le (fun _ _ _ reworded => mirrors_resolution targets reworded)
    reworded (Nat.le_refl _)

end

end GraphQLCompiler
