import GraphQLCompiler.Proofs.Sites

/-!
# Closure of references

A fragment is **reachable** from some selections if it is spread in them or in the definition of a
fragment that is reachable. What compilation references on its way from a site is reachable
(`FragmentTable.reachable_of_references`). The converse holds where every site is **whole**, so that
nothing is passed over on the way (`references_of_reachable`).
-/

namespace GraphQLCompiler

/-! ### Reachable fragments -/

/-- Whether a name is reached by spreads from some selections: it is spread in them, or in the
definition of a fragment that is reached. -/
def FragmentTable.SpreadsFrom (table : FragmentTable) (selections : WrittenSelections)
    (name : Name) : Prop :=
  ∃ first ∈ spreadNames selections, Relation.ReflTransGen table.Spreads first name

/-- The fragments of a table that are **reachable** by spreads from some selections. -/
structure FragmentTable.Reachable (table : FragmentTable) (selections : WrittenSelections)
    (name : Name) : Prop where
  defined : table.contains name
  reached : table.SpreadsFrom selections name

namespace FragmentTable

variable {table : FragmentTable} {library : FragmentLibrary} {selections : WrittenSelections}

/-- Whether a selection is linked and spreads only fragments with a property. -/
private def SpreadsOnly (find : Name → Option Fragment) (property : Name → Prop)
    (selection : LinkedSelection) : Prop :=
  selection.LinkedBy find ∧ ∀ name ∈ selection.spreadNames, property name

private theorem hereditary_spreadsOnly {find : Name → Option Fragment} {property : Name → Prop}
    (closed : ∀ name fragment, property name → find name = some fragment →
      ∀ other ∈ spreadNames fragment.selections, property other) :
    Hereditary (SpreadsOnly find property) where
  field h selection mem := by
    refine ⟨(hereditary_linkedBy find).field h.1 selection mem, fun name spread => h.2 name ?_⟩
    exact mem_spreadNames_field.2 (mem_spreadNames_iff.2 ⟨selection, mem, spread⟩)
  inlineFragment h selection mem := by
    refine ⟨(hereditary_linkedBy find).inlineFragment h.1 selection mem,
      fun name spread => h.2 name ?_⟩
    exact mem_spreadNames_inlineFragment.2 (mem_spreadNames_iff.2 ⟨selection, mem, spread⟩)
  spread {name directives location fragment} h selection mem := by
    refine ⟨(hereditary_linkedBy find).spread h.1 selection mem, fun other spread => ?_⟩
    have linked := h.1
    rw [Selection.LinkedBy] at linked
    exact closed name fragment (h.2 name (mem_spreadNames_spread.2 rfl)) linked.1 other
      (mem_spreadNames_iff.2 ⟨selection, mem, spread⟩)

/-- Everything that is referenced from linked selections is reached by spreads. -/
theorem reachable_of_references {settings : Settings} {parent name : Name}
    (acyclic : table.library = .ok library) (named : table.IsNamed)
    (h : (Site.start library parent selections).References settings name) :
    table.Reachable selections name := by
  have defined : ∀ {name fragment}, library.find? name = some fragment →
      ∃ definition, table.find? name = some definition ∧
        fragment = definition.link library.find? := by
    intro name fragment found
    rw [find?_library acyclic, Option.map_eq_some_iff] at found
    obtain ⟨definition, found, rfl⟩ := found
    exact ⟨definition, found, rfl⟩
  -- spreads inside a fragment that is reached are reached
  have closed : ∀ name fragment, table.SpreadsFrom selections name →
      library.find? name = some fragment → ∀ other ∈ spreadNames fragment.selections,
      table.SpreadsFrom selections other := by
    rintro name fragment ⟨first, mem, reached⟩ found other spread
    obtain ⟨definition, foundDefinition, rfl⟩ := defined found
    have spreads : table.Spreads name other :=
      ⟨definition, foundDefinition, (mem_spreadNames_link definition.selections).1 spread⟩
    exact ⟨first, mem, reached.tail spreads⟩
  have hereditary := hereditary_spreadsOnly closed
  obtain ⟨site, reaches, typeName, fragment, mem, rfl⟩ := h
  have inside : ∀ selection ∈ site.selections,
      SpreadsOnly library.find? (table.SpreadsFrom selections) selection := by
    refine reaches.inherited hereditary fun selection mem => ⟨?_, fun name spread => ?_⟩
    · exact linkedBy_iff.1 (linkedBy_link acyclic named selections) selection mem
    · have spreadLinked : name ∈ spreadNames (link library.find? selections) :=
        mem_spreadNames_iff.2 ⟨selection, mem, spread⟩
      exact ⟨name, (mem_spreadNames_link selections).1 spreadLinked, .refl⟩
  obtain ⟨name, _, _, linked, spreads⟩ :=
    inherited hereditary site.parent site.selections inside mem
  rw [Selection.LinkedBy] at linked
  obtain ⟨found, rfl, -⟩ := linked
  obtain ⟨definition, foundDefinition, -⟩ := defined found
  refine ⟨?_, spreads _ (mem_spreadNames_spread.2 rfl)⟩
  exact Option.isSome_iff_exists.2 ⟨definition, foundDefinition⟩

end FragmentTable

/-! ### Whole sites -/

mutual

/-- Whether the inline fragments in a selection at a type apply, as deep as the selection is
collected with others. -/
def Selection.Applies (schema : Schema) (parent : Name) : LinkedSelection → Prop
  | .field _ _ _ _ _ _ => True
  | .inlineFragment typeCondition _ _ selections =>
    let condition := typeCondition.getD parent
    applies schema condition (schema.narrow parent condition) ∧
      AllApply schema (schema.narrow parent condition) selections
  | .spread _ _ _ _ => True

/-- Whether the inline fragments in selections at a type apply. -/
def AllApply (schema : Schema) (parent : Name) : List LinkedSelection → Prop
  | [] => True
  | selection :: rest => selection.Applies schema parent ∧ AllApply schema parent rest

end

theorem allApply_iff {schema : Schema} {parent : Name} {selections : List LinkedSelection} :
    AllApply schema parent selections ↔
      ∀ selection ∈ selections, selection.Applies schema parent := by
  induction selections with
  | nil => simp [AllApply]
  | cons selection rest ih => rw [AllApply, ih, List.forall_mem_cons]

/-- A site is **whole** if nothing of it is passed over: its inline fragments apply, what it
mentions applies at a type that it is resolved at, and fields with sub-selections are of composite
types. -/
structure Site.Whole (settings : Settings) (site : Site) : Prop where
  applies : ∀ selection ∈ site.selections, selection.Applies settings.schema site.parent
  relevant : ∀ mention ∈ site.mentions settings, ∃ typeName, site.ResolvedAt settings typeName ∧
    settings.schema.isSubtypeOf typeName mention.typeName
  composite : ∀ typeName, site.ResolvedAt settings typeName → ∀ field : ApplicableField,
    field.occurrences = occurrencesAt settings.schema typeName field.responseName
      (site.mentions settings) →
    field.site.selections ≠ [] → settings.schema.isComposite field.bareType

namespace Site

variable {settings : Settings} {site : Site} {find : Name → Option Fragment}

/-- The sub-selections of a field that a whole site mentions are followed. -/
theorem Whole.follows_field (whole : site.Whole settings) {responseName : Name}
    {occurrence : Occurrence} (mem : .field responseName occurrence ∈ site.mentions settings)
    (nonempty : occurrence.selections ≠ []) :
    ∃ field : ApplicableField, site.Follows settings field.site ∧
      occurrence ∈ field.occurrences := by
  obtain ⟨typeName, resolved, sub⟩ := whole.relevant _ mem
  have present : occurrence ∈ occurrencesAt settings.schema typeName responseName
      (site.mentions settings) := mem_occurrencesAt.2 ⟨mem, sub⟩
  obtain ⟨first, others, eq⟩ := List.exists_cons_of_ne_nil (List.ne_nil_of_mem present)
  have applicable : (ApplicableField.mk responseName first others).occurrences
      = occurrencesAt settings.schema typeName responseName (site.mentions settings) := eq.symm
  have member : occurrence ∈ (ApplicableField.mk responseName first others).occurrences :=
    applicable ▸ present
  refine ⟨_, .field _ resolved applicable (whole.composite typeName resolved _ applicable ?_),
    member⟩
  intro empty
  have sub := List.flatMap_eq_nil_iff.1 empty occurrence member
  exact nonempty sub

theorem Whole.follows_fragment (whole : site.Whole settings) {typeName : Name}
    {fragment : Fragment} (mem : .fragment typeName fragment ∈ site.mentions settings) :
    site.Follows settings fragment.site := by
  obtain ⟨_, resolved, sub⟩ := whole.relevant _ mem
  exact .fragment fragment resolved mem sub

mutual

private theorem references_of_mem_selection {name : Name} (defined : (find name).isSome) :
    ∀ (selection : LinkedSelection) {site : Site} {parent : Name},
      (∀ other, site.Reaches settings other → other.Whole settings) →
      selection.Applies settings.schema parent → selection.LinkedBy find →
      selection.reading settings parent ⊆ site.mentions settings →
      name ∈ selection.spreadNames → site.References settings name
  | .field aliasName fieldName arguments directives location selections, site, parent, whole, _,
      linked, sub, mem => by
    rw [mem_spreadNames_field] at mem
    rw [Selection.LinkedBy] at linked
    rw [Selection.reading] at sub
    have nonempty : selections ≠ [] := by
      rintro rfl
      exact absurd mem not_mem_spreadNames_nil
    -- the field is followed to a site that has its sub-selections among others
    obtain ⟨field, follows, member⟩ :=
      (whole site .refl).follows_field (sub List.mem_cons_self) nonempty
    have inside : selections ⊆ field.site.selections := fun selection mem =>
      List.mem_flatMap.2 ⟨_, member, mem⟩
    have wholeNext : ∀ other, field.site.Reaches settings other → other.Whole settings :=
      fun other reaches => whole other (.head follows reaches)
    have appliesInside : AllApply settings.schema field.site.parent selections :=
      allApply_iff.2 fun selection mem => (wholeNext _ .refl).applies selection (inside mem)
    have readingInside :
        reading settings field.site.parent selections ⊆ field.site.mentions settings := by
      rw [reading_eq_flatMap]
      intro mention mem
      obtain ⟨selection, memSelection, mem⟩ := List.mem_flatMap.1 mem
      exact reading_subset (inside memSelection) mem
    exact references_iff.2 (.inr ⟨_, follows,
      references_of_mem defined selections wholeNext appliesInside linked readingInside mem⟩)
  | .inlineFragment typeCondition _ _ selections, site, parent, whole, applies, linked, sub,
      mem => by
    rw [mem_spreadNames_inlineFragment] at mem
    rw [Selection.LinkedBy] at linked
    simp only [Selection.Applies] at applies
    simp only [Selection.reading, if_pos applies.1] at sub
    exact references_of_mem defined selections whole applies.2 linked sub mem
  | .spread other _ _ none, _, _, _, _, linked, _, mem => by
    rw [mem_spreadNames_spread] at mem
    rw [Selection.LinkedBy, ← mem] at linked
    rw [linked] at defined
    cases defined
  | .spread other _ _ (some fragment), site, parent, whole, _, linked, sub, mem => by
    rw [mem_spreadNames_spread] at mem
    rw [Selection.LinkedBy] at linked
    rw [Selection.reading, Fragment.reading_eq] at sub
    refine references_iff.2 (.inl ⟨_, fragment, sub List.mem_cons_self, ?_⟩)
    rw [mem, linked.2.1]

/-- A fragment that is spread at any depth of a site from where all sites are whole is
referenced. -/
private theorem references_of_mem {name : Name} (defined : (find name).isSome) :
    ∀ (selections : List LinkedSelection) {site : Site} {parent : Name},
      (∀ other, site.Reaches settings other → other.Whole settings) →
      AllApply settings.schema parent selections → LinkedBy find selections →
      reading settings parent selections ⊆ site.mentions settings →
      name ∈ spreadNames selections → site.References settings name
  | [], _, _, _, _, _, _, mem => absurd mem not_mem_spreadNames_nil
  | selection :: rest, site, parent, whole, applies, linked, sub, mem => by
    rw [AllApply] at applies
    rw [LinkedBy] at linked
    rw [reading] at sub
    rcases mem_spreadNames_cons.1 mem with mem | mem
    · exact references_of_mem_selection defined selection whole applies.1 linked.1
        (fun _ h => sub (List.mem_append_left _ h)) mem
    · exact references_of_mem defined rest whole applies.2 linked.2
        (fun _ h => sub (List.mem_append_right _ h)) mem

end

end Site

/-- **References are closed under spreads** where nothing is passed over. -/
theorem references_of_reachable {settings : Settings} {table : FragmentTable}
    {library : FragmentLibrary} {selections : WrittenSelections} {parent name : Name}
    (acyclic : table.library = .ok library) (named : table.IsNamed)
    (whole : ∀ site, (Site.start library parent selections).Reaches settings site →
      site.Whole settings)
    (h : table.Reachable selections name) :
    (Site.start library parent selections).References settings name := by
  have found : ∀ {name}, table.contains name → (library.find? name).isSome := by
    intro name defined
    rwa [FragmentTable.find?_library acyclic, Option.isSome_map]
  have linkedRoot := FragmentTable.linkedBy_link acyclic named selections
  obtain ⟨defined, first, mem, path⟩ := h
  -- along the spreads: each fragment on the way is mentioned somewhere, so its site is followed
  induction path with
  | refl =>
    exact Site.references_of_mem (found defined) _ whole
      (allApply_iff.2 (whole _ .refl).applies) linkedRoot (List.Subset.refl _)
      ((mem_spreadNames_link selections).2 mem)
  | @tail middle last _ spreads ih =>
    obtain ⟨definition, foundDefinition, spread⟩ := spreads
    obtain ⟨site, reaches, typeName, fragment, mentioned, rfl⟩ :=
      ih (Option.isSome_iff_exists.2 ⟨definition, foundDefinition⟩)
    have linkedSite := reaches.inherited (hereditary_linkedBy library.find?)
      (linkedBy_iff.1 linkedRoot)
    obtain ⟨foundFragment, linked⟩ := linkedBy_of_mention (linkedBy_iff.2 linkedSite) mentioned
    rw [FragmentTable.find?_library acyclic, foundDefinition] at foundFragment
    cases foundFragment
    have follows := (whole site reaches).follows_fragment mentioned
    have wholeNext : ∀ other, (definition.link library.find?).site.Reaches settings other →
        other.Whole settings := fun other after => whole other ((reaches.tail follows).trans after)
    obtain ⟨other, after, mentionsLast⟩ := Site.references_of_mem (found defined) _ wholeNext
      (allApply_iff.2 (wholeNext _ .refl).applies) (Fragment.linkedBy_iff.1 linked)
      (List.Subset.refl _) ((mem_spreadNames_link definition.selections).2 spread)
    exact ⟨other, (reaches.tail follows).trans after, mentionsLast⟩

end GraphQLCompiler
