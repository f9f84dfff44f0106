import GraphQLCompiler.Proofs.Computation
import GraphQLCompiler.Proofs.Sites

/-!
# References

Resolution gathers on its way the names of the fragments that it comes to, and remembers them for
each fragment that it has resolved. What it gathers at a site **describes** the site
(`Site.Describes`): it is exactly the fragments that are mentioned at the site or at a site which it
is followed to, and everything on the way was defined. What is remembered describes the fragments
that it is remembered for, so using it again changes nothing (`Remembers`).
-/

namespace GraphQLCompiler

open CompileM

variable (settings : Settings) (find : Name → Option Fragment)

/-- Names **describe** a site if they are those of the fragments that it references, each once, and
every field is defined wherever compilation comes to from the site. -/
structure Site.Describes (site : Site) (names : List Name) : Prop where
  mem_iff : ∀ name, name ∈ names ↔ site.References settings name
  nodup : names.Nodup
  defined : site.Defined settings

/-- Whether what is remembered for names describes the fragments that are found for them. -/
def Remembers (references : NameMap (List Name)) : Prop :=
  ∀ name names, references.find? name = some names →
    ∃ fragment, find name = some fragment ∧ fragment.site.Describes settings names

/-- Whether a collection is what linked selections of a site make. -/
structure Site.Collected (site : Site) (collection : Collection) : Prop where
  linked : ∀ selection ∈ site.selections, selection.LinkedBy find
  gathers : Gathers settings collection [] (site.mentions settings)

variable {settings} {find} in
theorem Site.collected_of_collect (site : Site) {collection : Collection}
    (linked : ∀ selection ∈ site.selections, selection.LinkedBy find)
    (h : collect settings site.parent site.selections {} = .ok collection) :
    site.Collected settings find collection :=
  ⟨linked, gathers_collect h (linkedBy_iff.2 linked)⟩

/-- Names are **added** for sites if they are those of the fragments that the sites reference, and
every field is defined wherever compilation comes to from the sites. -/
structure Adds (before after : List Name) (sites : List Site) : Prop where
  mem_iff : ∀ name, name ∈ after ↔
    name ∈ before ∨ ∃ site ∈ sites, site.References settings name
  nodup : before.Nodup → after.Nodup
  defined : ∀ site ∈ sites, site.Defined settings

/-- The sites of the fields that apply at a type and take sub-selections. -/
def fieldSites (schema : Schema) (fields : List ApplicableField) : List Site :=
  (fields.filter fun field => schema.isComposite field.bareType).map ApplicableField.site

/-- The sites that a collection is followed to at a type. -/
def sitesAt (schema : Schema) (collection : Collection) (typeName : Name) : List Site :=
  fieldSites schema (applicableFields schema typeName collection) ++
    (fragmentsAt schema typeName collection).map Fragment.site

variable {settings} {find}

/-! ### Adding names -/

theorem Adds.refl (names : List Name) : Adds settings names names [] where
  mem_iff name := by simp
  nodup := id
  defined _ mem := by cases mem

theorem Adds.trans {before middle after : List Name} {sites more : List Site}
    (h : Adds settings before middle sites) (h' : Adds settings middle after more) :
    Adds settings before after (sites ++ more) where
  mem_iff name := by
    rw [h'.mem_iff, h.mem_iff, or_assoc]
    simp only [List.mem_append, or_and_right, exists_or]
  nodup := h'.nodup ∘ h.nodup
  defined site mem := (List.mem_append.1 mem).elim (h.defined site) (h'.defined site)

theorem Adds.cons {before middle after : List Name} {site : Site} {more : List Site}
    (h : Adds settings before middle [site]) (h' : Adds settings middle after more) :
    Adds settings before after (site :: more) :=
  h.trans h'

theorem Site.Describes.adds {site : Site} {names : List Name}
    (h : site.Describes settings names) (before : List Name) :
    Adds settings before (unionNames before names) [site] where
  mem_iff name := by simp [h.mem_iff]
  nodup nodup := nodup_unionNames nodup names
  defined other mem := by
    rw [List.mem_singleton.1 mem]
    exact h.defined

/-! ### Fields -/

/-- A site is **ready** to be resolved if its type conditions are composite types and its spreads
are defined, at every depth, and every field is defined wherever compilation comes to from it. -/
structure Site.Ready (settings : Settings) (site : Site) : Prop where
  known : ∀ selection ∈ site.selections, selection.Known settings.schema
  defined : site.Defined settings

section

variable {n : Nat} {sure : Prop}

/-- A way to resolve lower collections that gathers what describes their sites, and that succeeds
for sites that are ready. -/
def Describing (settings : Settings) (find : Name → Option Fragment) (recur : ResolveBelow n) :
    Prop :=
  ∀ (site : Site) (collection : Collection) (lt : collection.height < n),
    site.Collected settings find collection →
    Ensures (Remembers settings find) (site.Ready settings)
      (recur site.parent collection lt) fun resolved =>
        site.Describes settings resolved.references

variable {recur : ResolveBelow n}

/-- Collecting succeeds at a site that is ready. -/
theorem exists_collect_of_ready (site : Site)
    (composite : settings.schema.isComposite site.parent)
    (linked : ∀ selection ∈ site.selections, selection.LinkedBy find)
    (ready : site.Ready settings) :
    ∃ result, collect settings site.parent site.selections {} = .ok result :=
  (exists_collect_iff composite (known_iff.2 ready.known) (linkedBy_iff.2 linked)).2
    (ready.defined site .refl)

private theorem ensures_resolveSubselections (describing : Describing settings find recur)
    {field : ApplicableField} (composite : settings.schema.isComposite field.bareType)
    (linked : ∀ selection ∈ field.site.selections, selection.LinkedBy find)
    {bound : ∀ occurrence ∈ field.occurrences, height occurrence.selections < n} :
    Ensures (Remembers settings find) (field.site.Ready settings)
      (resolveSubselections settings recur field bound)
      fun resolved => field.site.Describes settings resolved.references := by
  unfold resolveSubselections
  split
  · rename_i merged
    rw [mergeSelections_eq composite] at merged
    refine ensures_fail fun ready => ?_
    obtain ⟨result, collected⟩ := exists_collect_of_ready field.site composite linked ready
    exact absurd (merged.symm.trans collected) (by simp)
  · rename_i collection merged
    rw [mergeSelections_eq composite] at merged
    refine ensures_tell.bind fun _ _ => ?_
    exact describing field.site collection _ (field.site.collected_of_collect linked merged)

private theorem ensures_resolveField (describing : Describing settings find recur)
    {parent : Name} {field : ApplicableField}
    (linked : ∀ selection ∈ field.site.selections, selection.LinkedBy find)
    (ready : sure → settings.schema.isComposite field.bareType → field.site.Ready settings)
    {bound : ∀ occurrence ∈ field.occurrences, height occurrence.selections < n} :
    Ensures (Remembers settings find) sure (resolveField settings recur parent field bound)
      fun result => ∀ before, Adds settings before (unionNames before result.2)
        (fieldSites settings.schema [field]) := by
  unfold resolveField
  refine ensures_useType.bind fun _ _ => ?_
  dsimp only
  split
  · rename_i composite
    have sites : fieldSites settings.schema [field] = [field.site] := by
      simp [fieldSites, composite]
    rw [sites]
    have inner : Ensures (Remembers settings find) sure
        (some <$> resolveSubselections settings recur field bound) fun resolved =>
          ∃ inner, resolved = some inner ∧ field.site.Describes settings inner.references :=
      Ensures.map (((ensures_resolveSubselections describing composite linked).imp
        fun met => ready met composite).mono fun inner describes => ⟨inner, rfl, describes⟩)
    refine inner.bind ?_
    rintro _ ⟨inner, rfl, describes⟩
    exact ensures_pure describes.adds
  · rename_i leaf
    have sites : fieldSites settings.schema [field] = [] := by simp [fieldSites, leaf]
    rw [sites]
    have nothing : Ensures (Remembers settings find) sure
        (pure none : CompileM (Option Resolved)) fun resolved => resolved = none :=
      ensures_pure rfl
    refine nothing.bind ?_
    rintro _ rfl
    exact ensures_pure .refl

theorem fieldSites_cons {schema : Schema} {field : ApplicableField}
    {rest : List ApplicableField} :
    fieldSites schema (field :: rest) = fieldSites schema [field] ++ fieldSites schema rest := by
  rw [fieldSites, fieldSites, fieldSites, ← List.map_append, ← List.filter_append]
  rfl

private theorem ensures_resolveFields (describing : Describing settings find recur)
    {parent : Name} : ∀ (fields : List ApplicableField) (bound : ∀ field ∈ fields,
      ∀ occurrence ∈ field.occurrences, height occurrence.selections < n) (references : List Name),
    (∀ field ∈ fields, ∀ selection ∈ field.site.selections, selection.LinkedBy find) →
    (sure → ∀ field ∈ fields, settings.schema.isComposite field.bareType →
      field.site.Ready settings) →
    Ensures (Remembers settings find) sure
      (resolveFields settings recur parent fields bound references)
      fun result => Adds settings references result.2 (fieldSites settings.schema fields)
  | [], _, references, _, _ => ensures_pure (.refl references)
  | field :: rest, bound, references, linked, ready => by
    obtain ⟨linkedFirst, linkedRest⟩ := List.forall_mem_cons.1 linked
    have readyFirst := fun met => (List.forall_mem_cons.1 (ready met)).1
    have readyRest := fun met => (List.forall_mem_cons.1 (ready met)).2
    rw [resolveFields, fieldSites_cons]
    refine (ensures_resolveField describing linkedFirst readyFirst).bind fun first adds => ?_
    refine (ensures_resolveFields describing rest _ _ linkedRest readyRest).bind
      fun others addsRest => ?_
    exact ensures_pure ((adds references).trans addsRest)

end

/-! ### Fragments -/

/-- A fragment is ready to be resolved if its type condition is composite and its site is ready. -/
structure Fragment.Ready (settings : Settings) (fragment : Fragment) : Prop where
  composite : settings.schema.isComposite fragment.typeCondition
  site : fragment.site.Ready settings

section

variable {sure : Prop}

private theorem ensures_resolveFragmentWith {fragment : Fragment}
    {recur : ResolveBelow fragment.height} (describing : Describing settings find recur)
    (found : find fragment.name = some fragment) (linked : fragment.LinkedBy find) :
    Ensures (Remembers settings find) (fragment.Ready settings)
      (resolveFragmentWith settings fragment recur)
      fun resolved => fragment.site.Describes settings resolved.references := by
  have linked := linkedBy_iff.1 (Fragment.linkedBy_iff.1 linked)
  unfold resolveFragmentWith
  split
  · rename_i unknown
    refine ensures_throw fun ready => ?_
    have composite := ready.composite
    rw [Schema.isComposite, unknown] at composite
    cases composite
  · split
    · rename_i collected
      refine ensures_fail fun ready => ?_
      obtain ⟨result, collects⟩ := exists_collect_of_ready fragment.site ready.composite linked
        ready.site
      exact absurd (collected.symm.trans collects) (by simp)
    · rename_i collection collected
      refine ensures_tell.bind fun _ _ => ?_
      have collectedSite := fragment.site.collected_of_collect linked collected
      refine ((describing fragment.site collection _ collectedSite).imp Fragment.Ready.site).bind
        fun resolved describes => ?_
      refine (ensures_remember fun references remembers name names known => ?_).bind fun _ _ =>
        ensures_pure describes
      rw [NameMap.find?_insert] at known
      split at known
      · rename_i eq
        cases known
        exact ⟨fragment, eq ▸ found, describes⟩
      · exact remembers name names known

private theorem ensures_fragmentReferences {fragment : Fragment}
    {recur : ResolveBelow fragment.height} (describing : Describing settings find recur)
    (found : find fragment.name = some fragment) (linked : fragment.LinkedBy find) :
    Ensures (Remembers settings find) (fragment.Ready settings)
      (fragmentReferences settings fragment recur)
      fun references => fragment.site.Describes settings references := by
  unfold fragmentReferences
  refine ensures_remembered?.bind fun known ⟨references, remembers, eq⟩ => ?_
  cases known with
  | none =>
    exact (ensures_resolveFragmentWith describing found linked).bind fun resolved describes =>
      ensures_pure describes
  | some names =>
    -- what is remembered is for the name, and the name stands for this fragment only
    obtain ⟨other, foundOther, describes⟩ := remembers fragment.name names eq
    rw [found] at foundOther
    cases foundOther
    exact ensures_tell.bind fun _ _ => ensures_pure describes

private theorem ensures_spreadReferences {n : Nat} {recur : ResolveBelow n}
    (describing : Describing settings find recur) :
    ∀ (fragments : List Fragment) (bound : ∀ fragment ∈ fragments, fragment.height ≤ n)
      (references : List Name),
    (∀ fragment ∈ fragments, find fragment.name = some fragment ∧ fragment.LinkedBy find) →
    (sure → ∀ fragment ∈ fragments, fragment.Ready settings) →
    Ensures (Remembers settings find) sure
      (spreadReferences settings recur fragments bound references)
      fun result => Adds settings references result (fragments.map Fragment.site)
  | [], _, references, _, _ => ensures_pure (.refl references)
  | fragment :: rest, bound, references, known, ready => by
    obtain ⟨⟨found, linked⟩, knownRest⟩ := List.forall_mem_cons.1 known
    have readyFirst := fun met => (List.forall_mem_cons.1 (ready met)).1
    have readyRest := fun met => (List.forall_mem_cons.1 (ready met)).2
    rw [spreadReferences]
    have describingBelow : Describing settings find (n := fragment.height) fun parent lower lt =>
      recur parent lower (Nat.lt_of_lt_of_le lt (bound fragment List.mem_cons_self)) :=
      fun site collection _ => describing site collection _
    refine ((ensures_fragmentReferences describingBelow found linked).imp readyFirst).bind
      fun own describes => ?_
    refine (ensures_spreadReferences describing rest _ _ knownRest readyRest).mono
      fun result adds => ?_
    exact (describes.adds references).cons adds

end

/-! ### Collections of sites -/

namespace Site

variable {site : Site} {collection : Collection}

theorem Collected.found (h : site.Collected settings find collection) {typeName : Name}
    {fragment : Fragment} (mem : .fragment typeName fragment ∈ site.mentions settings) :
    find fragment.name = some fragment ∧ fragment.LinkedBy find :=
  linkedBy_of_mention (linkedBy_iff.2 h.linked) mem

/-- The fragments that apply at a type are the ones that their names stand for. -/
theorem Collected.mem_fragmentsAt (h : site.Collected settings find collection)
    {typeName : Name} {fragment : Fragment} :
    fragment ∈ fragmentsAt settings.schema typeName collection ↔
      ∃ expandedAt, .fragment expandedAt fragment ∈ site.mentions settings ∧
        settings.schema.isSubtypeOf typeName expandedAt := by
  obtain ⟨mentions, holds, same⟩ := h.gathers
  rw [holds.mem_fragmentsAt find fun typeName fragment mem =>
    (h.found (same.mem_iff.1 mem)).1]
  refine exists_congr fun expandedAt => and_congr_left' same.mem_iff

/-- The names that are expanded at a site are those of the fragments that it mentions. -/
theorem Collected.mem_expanded_iff (h : site.Collected settings find collection) {name : Name} :
    name ∈ unionNames [] (collection.fragments.map Fragment.name) ↔
      site.MentionsFragment settings name := by
  obtain ⟨mentions, holds, same⟩ := h.gathers
  rw [mem_unionNames, List.mem_map, Collection.fragments, holds.expansions_eq]
  simp only [NameMap.mem_flatten_values_collate, List.mem_filterMap, Site.MentionsFragment,
    Mention.fragment?_eq_some]
  constructor
  · rintro (mem | ⟨fragment, ⟨typeName, _, mem, rfl⟩, named⟩)
    · cases mem
    · exact ⟨typeName, fragment, same.mem_iff.1 mem, named⟩
  · rintro ⟨typeName, fragment, mem, named⟩
    exact .inr ⟨fragment, ⟨typeName, _, same.mem_iff.2 mem, rfl⟩, named⟩

/-- The fields that apply at a type are those with the occurrences of a response name that are
mentioned, up to repetitions. -/
theorem Collected.sameFirsts (h : site.Collected settings find collection) {typeName : Name}
    {field : ApplicableField}
    (applicable : field ∈ applicableFields settings.schema typeName collection) :
    SameFirsts field.occurrences (occurrencesAt settings.schema typeName field.responseName
      (site.mentions settings)) := by
  obtain ⟨mentions, holds, same⟩ := h.gathers
  rw [holds.mem_applicableFields.1 applicable]
  exact SameFirsts.occurrencesAt same typeName field.responseName

/-- What is inherited by the selections of a site holds of the sub-selections of its fields. -/
theorem Collected.inherited_field (h : site.Collected settings find collection)
    {property : LinkedSelection → Prop} (hereditary : Hereditary property)
    (holds : ∀ selection ∈ site.selections, property selection) {typeName : Name}
    {field : ApplicableField}
    (applicable : field ∈ applicableFields settings.schema typeName collection) :
    ∀ selection ∈ field.site.selections, property selection := by
  intro selection mem
  obtain ⟨occurrence, mem, inside⟩ := List.mem_flatMap.1 mem
  have mentioned := mem_occurrencesAt.1 ((h.sameFirsts applicable).mem_iff.1 mem)
  exact (inherited hereditary site.parent site.selections holds mentioned.1).inside hereditary
    selection inside

theorem Collected.resolvedAt_iff (h : site.Collected settings find collection) {typeName : Name} :
    site.ResolvedAt settings typeName ↔ typeName = site.parent ∨
      typeName ∈ narrowedTypes settings.schema site.parent collection := by
  obtain ⟨mentions, holds, same⟩ := h.gathers
  rw [ResolvedAt, holds.mem_narrowedTypes]
  refine or_congr_right (and_congr_right' (exists_congr fun mention => and_congr_left' ?_))
  exact same.mem_iff.symm

/-- The sites of a collection are similar to those that its site is followed to. -/
theorem Collected.exists_follows (h : site.Collected settings find collection) {typeName : Name}
    (resolved : site.ResolvedAt settings typeName) {next : Site}
    (mem : next ∈ sitesAt settings.schema collection typeName) :
    ∃ next', site.Follows settings next' ∧ next'.Similar settings next := by
  rcases List.mem_append.1 mem with mem | mem
  · obtain ⟨field, fieldMem, rfl⟩ := List.mem_map.1 mem
    obtain ⟨applicable, composite⟩ := List.mem_filter.1 fieldMem
    obtain ⟨field', named, occurrences, bareType, similar⟩ :=
      exists_similar_field (h.sameFirsts applicable)
    exact ⟨field'.site, .field field' resolved (named ▸ occurrences) (bareType ▸ composite),
      similar.symm⟩
  · obtain ⟨fragment, fragmentMem, rfl⟩ := List.mem_map.1 mem
    obtain ⟨expandedAt, mentioned, sub⟩ := h.mem_fragmentsAt.1 fragmentMem
    exact ⟨_, .fragment fragment resolved mentioned sub, .refl _⟩

theorem Collected.exists_mem_sitesAt (h : site.Collected settings find collection) {next : Site}
    (follows : site.Follows settings next) :
    ∃ typeName, site.ResolvedAt settings typeName ∧
      ∃ next' ∈ sitesAt settings.schema collection typeName, next.Similar settings next' := by
  cases follows with
  | @field typeName field resolved applicable composite =>
    obtain ⟨mentions, holds, same⟩ := h.gathers
    have sameField : SameFirsts field.occurrences
        (occurrencesAt settings.schema typeName field.responseName mentions) := by
      rw [applicable]
      exact SameFirsts.occurrencesAt same.symm typeName field.responseName
    obtain ⟨field', named, occurrences, bareType, similar⟩ := exists_similar_field sameField
    have mem : field'.site ∈ fieldSites settings.schema
        (applicableFields settings.schema typeName collection) :=
      List.mem_map.2 ⟨field', List.mem_filter.2
        ⟨holds.mem_applicableFields.2 (named ▸ occurrences), bareType ▸ composite⟩, rfl⟩
    exact ⟨typeName, resolved, field'.site, List.mem_append_left _ mem, similar⟩
  | @fragment typeName expandedAt fragment resolved mentioned applicable =>
    refine ⟨typeName, resolved, fragment.site, List.mem_append_right _ ?_, .refl _⟩
    exact List.mem_map.2 ⟨fragment, h.mem_fragmentsAt.2 ⟨expandedAt, mentioned, applicable⟩, rfl⟩

end Site

/-! ### Resolution -/

section

variable {collection : Collection} {recur : ResolveBelow collection.height} {site : Site}

/-- What a ready site is followed to is defined, as are the similar sites of its collection. -/
private theorem defined_of_mem_sitesAt (collected : site.Collected settings find collection)
    (ready : site.Ready settings) {typeName : Name} (resolved : site.ResolvedAt settings typeName)
    {next : Site} (mem : next ∈ sitesAt settings.schema collection typeName) :
    next.Defined settings := by
  obtain ⟨next', follows, similar⟩ := collected.exists_follows resolved mem
  exact similar.defined ((Site.defined_iff.1 ready.defined).2 next' follows)

private theorem ready_field (collected : site.Collected settings find collection)
    (ready : site.Ready settings) {typeName : Name} (resolved : site.ResolvedAt settings typeName)
    {field : ApplicableField}
    (applicable : field ∈ applicableFields settings.schema typeName collection)
    (composite : settings.schema.isComposite field.bareType) : field.site.Ready settings where
  known :=
    collected.inherited_field (hereditary_known settings.schema) ready.known applicable
  defined := by
    refine defined_of_mem_sitesAt collected ready resolved (List.mem_append_left _ ?_)
    exact List.mem_map.2 ⟨field, List.mem_filter.2 ⟨applicable, composite⟩, rfl⟩

private theorem ready_fragment (collected : site.Collected settings find collection)
    (ready : site.Ready settings) {typeName : Name} (resolved : site.ResolvedAt settings typeName)
    {fragment : Fragment} (mem : fragment ∈ fragmentsAt settings.schema typeName collection) :
    fragment.Ready settings := by
  obtain ⟨expandedAt, mentioned, -⟩ := collected.mem_fragmentsAt.1 mem
  obtain ⟨_, _, _, known⟩ := inherited (hereditary_known settings.schema) site.parent
    site.selections ready.known mentioned
  rw [Selection.Known, Fragment.known_iff] at known
  refine ⟨known.1, known_iff.1 known.2, ?_⟩
  refine defined_of_mem_sitesAt collected ready resolved (List.mem_append_right _ ?_)
  exact List.mem_map.2 ⟨fragment, mem, rfl⟩

private theorem ensures_resolveFieldsAt (describing : Describing settings find recur)
    (collected : site.Collected settings find collection) {typeName : Name}
    (resolved : site.ResolvedAt settings typeName) (references : List Name) :
    Ensures (Remembers settings find) (site.Ready settings)
      (resolveFieldsAt settings collection recur typeName references) fun result =>
        Adds settings references result.2 (fieldSites settings.schema
          (applicableFields settings.schema typeName collection)) :=
  ensures_resolveFields describing _ _ references
    (fun _ mem => collected.inherited_field (hereditary_linkedBy find) collected.linked mem)
    fun ready _ mem composite => ready_field collected ready resolved mem composite

private theorem ensures_spreadReferencesAt (describing : Describing settings find recur)
    (collected : site.Collected settings find collection) {typeName : Name}
    (resolved : site.ResolvedAt settings typeName) (references : List Name) :
    Ensures (Remembers settings find) (site.Ready settings)
      (spreadReferencesAt settings collection recur typeName references) fun result =>
        Adds settings references result
          ((fragmentsAt settings.schema typeName collection).map Fragment.site) := by
  refine ensures_spreadReferences describing _ _ references (fun fragment mem => ?_)
    fun ready fragment mem => ready_fragment collected ready resolved mem
  obtain ⟨_, mentioned, -⟩ := collected.mem_fragmentsAt.1 mem
  exact collected.found mentioned

private theorem ensures_resolveBranches (describing : Describing settings find recur)
    (collected : site.Collected settings find collection) :
    ∀ objects references : List Name, (∀ object ∈ objects, site.ResolvedAt settings object) →
    Ensures (Remembers settings find) (site.Ready settings)
      (resolveBranches settings collection recur objects references) fun result =>
        Adds settings references result.2
          (objects.flatMap (sitesAt settings.schema collection))
  | [], references, _ => ensures_pure (.refl references)
  | object :: rest, references, resolved => by
    obtain ⟨resolvedFirst, resolvedRest⟩ := List.forall_mem_cons.1 resolved
    rw [resolveBranches, List.flatMap_cons]
    have branch : Ensures (Remembers settings find) (site.Ready settings)
        (resolveBranch settings collection recur object references) fun result =>
          Adds settings references result.2 (sitesAt settings.schema collection object) := by
      unfold resolveBranch
      refine (ensures_resolveFieldsAt describing collected resolvedFirst references).bind
        fun fields adds => ?_
      refine (ensures_spreadReferencesAt describing collected resolvedFirst _).bind
        fun spread addsSpread => ?_
      exact ensures_pure (adds.trans addsSpread)
    refine branch.bind fun first adds => ?_
    refine (ensures_resolveBranches describing collected rest _ resolvedRest).bind
      fun others addsRest => ?_
    exact ensures_pure (adds.trans addsRest)

/-- Names that start with those expanded at a site and are added for its sites describe it. -/
private theorem describes_of_adds (collected : site.Collected settings find collection)
    {references : List Name} {sites : List Site}
    (mem_iff : ∀ next, next ∈ sites ↔ ∃ typeName, site.ResolvedAt settings typeName ∧
      next ∈ sitesAt settings.schema collection typeName)
    (adds : Adds settings (unionNames [] (collection.fragments.map Fragment.name)) references
      sites) : site.Describes settings references := by
  obtain ⟨mentions, holds, same⟩ := collected.gathers
  constructor
  · intro name
    rw [adds.mem_iff, collected.mem_expanded_iff, Site.references_iff]
    refine or_congr_right ⟨?_, ?_⟩
    · rintro ⟨next, mem, references⟩
      obtain ⟨typeName, resolved, mem⟩ := (mem_iff next).1 mem
      obtain ⟨next', follows, similar⟩ := collected.exists_follows resolved mem
      exact ⟨next', follows, similar.symm.references references⟩
    · rintro ⟨next, follows, references⟩
      obtain ⟨typeName, resolved, next', mem, similar⟩ := collected.exists_mem_sitesAt follows
      have listed := (mem_iff next').2 ⟨typeName, resolved, mem⟩
      exact ⟨next', listed, similar.references references⟩
  · exact adds.nodup (nodup_unionNames List.nodup_nil _)
  · refine Site.defined_iff.2 ⟨fun mention mem => holds.defined mention (same.mem_iff.2 mem),
      fun next follows => ?_⟩
    obtain ⟨typeName, resolved, next', mem, similar⟩ := collected.exists_mem_sitesAt follows
    have listed := (mem_iff next').2 ⟨typeName, resolved, mem⟩
    exact similar.symm.defined (adds.defined next' listed)

private theorem ensures_resolveWith (describing : Describing settings find recur)
    (collected : site.Collected settings find collection) :
    Ensures (Remembers settings find) (site.Ready settings)
      (resolveWith settings site.parent collection recur)
      fun resolved => site.Describes settings resolved.references := by
  have here : site.ResolvedAt settings site.parent := .inl rfl
  unfold resolveWith
  refine (ensures_resolveFieldsAt describing collected here _).bind fun fields adds => ?_
  refine (ensures_resolveBranches describing collected _ _ fun object mem =>
    collected.resolvedAt_iff.2 (.inr mem)).bind fun branches addsBranches => ?_
  refine (ensures_spreadReferencesAt describing collected here _).bind
    fun references addsSpread => ?_
  -- the fields, the branches and the fragments at the type are all that the site is followed to
  have all := (adds.trans addsBranches).trans addsSpread
  refine ensures_pure (describes_of_adds collected (fun next => ?_) all)
  simp only [List.mem_append, List.mem_flatMap, collected.resolvedAt_iff, sitesAt]
  constructor
  · rintro ((mem | ⟨object, mem, inside⟩) | mem)
    · exact ⟨_, .inl rfl, .inl mem⟩
    · exact ⟨object, .inr mem, inside⟩
    · exact ⟨_, .inl rfl, .inr mem⟩
  · rintro ⟨typeName, rfl | narrowed, mem⟩
    · exact mem.imp .inl id
    · exact .inl (.inr ⟨typeName, narrowed, mem⟩)

end

/-- **What resolution gathers** describes the site that was collected, and so does what it
remembers for each fragment. Resolution succeeds if the site is ready. -/
theorem ensures_resolve {parent : Name} {collection : Collection} : ∀ site : Site,
    site.parent = parent → site.Collected settings find collection →
    Ensures (Remembers settings find) (site.Ready settings) (resolve settings parent collection)
      fun resolved => site.Describes settings resolved.references := by
  induction parent, collection using resolve.induct with
  | case1 parent collection ih =>
    rintro site rfl collected
    rw [resolve.eq_1]
    refine ensures_resolveWith (fun inner lower lt collectedInner => ?_) collected
    exact ih inner.parent lower lt inner rfl collectedInner

/-- The references of a fragment describe its site. -/
theorem ensures_resolveFragment {fragment : Fragment}
    (found : find fragment.name = some fragment) (linked : fragment.LinkedBy find) :
    Ensures (Remembers settings find) (fragment.Ready settings) (resolveFragment settings fragment)
      fun resolved => fragment.site.Describes settings resolved.references :=
  ensures_resolveFragmentWith (fun _ _ _ collected => ensures_resolve _ rfl collected) found linked

end GraphQLCompiler
