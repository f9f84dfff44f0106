import GraphQLCompiler.Collection.Height
import GraphQLCompiler.Proofs.Reading

/-!
# Collections and readings

Collecting gathers what the selections mention. A collection **holds** a list of mentions if it has
their fields by response name and their fragments by type, each in order. What collecting adds to a
collection is the reading of the selections, up to repetitions: a fragment that is passed over
because it has been expanded at the type would mention only what the collection has already
(`gathers_collect`). This needs that fragments are told apart by their names, as linking
guarantees, and that what has been expanded is complete, which is known for the fragments that are
lower than the one that is being expanded (`Expanded`).

Collecting stops only where a field is not defined on the type that it is collected at, or where a
type condition or a fragment is not known (`exists_collect_iff`).
-/

namespace GraphQLCompiler

variable {settings : Settings}

/-! ### What a collection holds -/

/-- A collection **holds** mentions if it has their fields by response name and their fragments by
type, in order, and the fields are defined. -/
structure Collection.Holds (schema : Schema) (collection : Collection) (mentions : List Mention) :
    Prop where
  groups_eq : collection.groups = NameMap.collate (mentions.filterMap Mention.field?)
  expansions_eq : collection.expansions = NameMap.collate (mentions.filterMap Mention.fragment?)
  defined : ∀ mention ∈ mentions, mention.Defined schema

namespace Collection

variable {schema : Schema} {collection : Collection} {mentions : List Mention}

theorem holds_empty : Holds schema {} [] :=
  ⟨rfl, rfl, fun _ mem => by cases mem⟩

theorem Holds.note (h : collection.Holds schema mentions) (event : LogEvent) :
    (collection.note event).Holds schema mentions :=
  ⟨h.groups_eq, h.expansions_eq, h.defined⟩

theorem Holds.addField (h : collection.Holds schema mentions) {responseName : Name}
    {occurrence : Occurrence} (defined : (Mention.field responseName occurrence).Defined schema) :
    (collection.addField responseName occurrence).Holds schema
      (mentions ++ [.field responseName occurrence]) where
  groups_eq := by
    rw [List.filterMap_append]
    exact (congrArg (NameMap.push · responseName occurrence) h.groups_eq).trans
      (NameMap.collate_append_singleton _ (responseName, occurrence)).symm
  expansions_eq := by
    rw [List.filterMap_append]
    exact h.expansions_eq.trans (congrArg NameMap.collate (List.append_nil _).symm)
  defined mention mem := by
    rcases List.mem_append.1 mem with mem | mem
    · exact h.defined mention mem
    · rwa [List.mem_singleton.1 mem]

theorem Holds.addExpansion (h : collection.Holds schema mentions) (typeName : Name)
    (fragment : Fragment) :
    (collection.addExpansion typeName fragment).Holds schema
      (mentions ++ [.fragment typeName fragment]) where
  groups_eq := by
    rw [List.filterMap_append]
    exact h.groups_eq.trans (congrArg NameMap.collate (List.append_nil _).symm)
  expansions_eq := by
    rw [List.filterMap_append]
    exact (congrArg (NameMap.push · typeName fragment) h.expansions_eq).trans
      (NameMap.collate_append_singleton _ (typeName, fragment)).symm
  defined mention mem := by
    rcases List.mem_append.1 mem with mem | mem
    · exact h.defined mention mem
    · rw [List.mem_singleton.1 mem]
      trivial

/-- A fragment has been expanded at a type if it is mentioned at that type. -/
theorem Holds.hasExpanded_iff (h : collection.Holds schema mentions) {typeName name : Name} :
    collection.hasExpanded typeName name ↔
      ∃ fragment, .fragment typeName fragment ∈ mentions ∧ fragment.name = name := by
  rw [hasExpanded, h.expansions_eq, NameMap.find?_collate]
  have mem_iff : ∀ fragment,
      fragment ∈ NameMap.valuesOf (mentions.filterMap Mention.fragment?) typeName ↔
        .fragment typeName fragment ∈ mentions := by
    intro fragment
    rw [NameMap.mem_valuesOf, List.mem_filterMap]
    simp
  constructor
  · intro has
    split at has
    · obtain ⟨fragment, mem, eq⟩ := List.any_eq_true.1 has
      exact ⟨fragment, (mem_iff fragment).1 mem, by simpa using eq⟩
    · cases has
  · rintro ⟨fragment, mem, eq⟩
    have values := (mem_iff fragment).2 mem
    rw [if_pos (List.mem_map.2 ⟨_, NameMap.mem_valuesOf.1 values, rfl⟩)]
    exact List.any_eq_true.2 ⟨fragment, values, by simpa using eq⟩

end Collection

/-- A collection **comprises** mentions if its groups have the fields that are mentioned, each under
its response name, its expansions have the fragments, each under its type, and there is nothing
else. -/
structure Collection.Comprises (collection : Collection) (mentions : List Mention) : Prop where
  field_iff : ∀ responseName occurrence,
    (∃ occurrences, (responseName, occurrences) ∈ collection.groups ∧ occurrence ∈ occurrences) ↔
      .field responseName occurrence ∈ mentions
  fragment_iff : ∀ typeName fragment,
    (∃ fragments, (typeName, fragments) ∈ collection.expansions ∧ fragment ∈ fragments) ↔
      .fragment typeName fragment ∈ mentions

/-- A collection comprises what it holds. -/
theorem Collection.Holds.comprises {schema : Schema} {collection : Collection}
    {mentions : List Mention} (h : collection.Holds schema mentions) :
    collection.Comprises mentions where
  field_iff responseName occurrence := by
    rw [h.groups_eq, NameMap.exists_mem_collate_iff, List.mem_filterMap]
    simp
  fragment_iff typeName fragment := by
    rw [h.expansions_eq, NameMap.exists_mem_collate_iff, List.mem_filterMap]
    simp

/-! ### What has been expanded -/

/-- Mentions are **expanded** up to a height if fragments are told apart by their names, and the
fragments of that height at most are mentioned with everything that is inside them. -/
def Expanded (settings : Settings) (find : Name → Option Fragment) (n : Nat)
    (mentions : List Mention) : Prop :=
  ∀ typeName fragment, .fragment typeName fragment ∈ mentions →
    find fragment.name = some fragment ∧
      (fragment.height ≤ n → readingInside settings typeName fragment ⊆ mentions)

theorem expanded_nil {find : Name → Option Fragment} {n : Nat} : Expanded settings find n [] :=
  fun _ _ mem => by cases mem

theorem Expanded.of_le {find : Name → Option Fragment} {m n : Nat} {mentions : List Mention}
    (h : Expanded settings find n mentions) (le : m ≤ n) : Expanded settings find m mentions :=
  fun typeName fragment mem =>
    ⟨(h typeName fragment mem).1, fun low => (h typeName fragment mem).2 (Nat.le_trans low le)⟩

/-- Reading linked selections after what has been expanded leaves everything expanded. -/
theorem Expanded.append_reading {find : Name → Option Fragment} {n : Nat}
    {past mentions : List Mention} (h : Expanded settings find n past) (parent : Name)
    {selections : List LinkedSelection} (linked : LinkedBy find selections)
    (same : SameFirsts mentions (past ++ reading settings parent selections)) :
    Expanded settings find n mentions := by
  intro typeName fragment mem
  have whole : past ++ reading settings parent selections ⊆ mentions := same.symm.subset
  rcases List.mem_append.1 (same.mem_iff.1 mem) with old | new
  · refine ⟨(h typeName fragment old).1, fun low => ?_⟩
    have inside := (h typeName fragment old).2 low
    exact List.Subset.trans inside (List.Subset.trans (List.subset_append_left _ _) whole)
  · refine ⟨(linkedBy_of_mention linked new).1, fun _ => ?_⟩
    have inside := readingInside_subset parent selections new
    exact List.Subset.trans inside (List.Subset.trans (List.subset_append_right _ _) whole)

/-- A fragment that is about to be expanded leaves what is lower than it expanded. -/
theorem Expanded.append_fragment {find : Name → Option Fragment} {m n : Nat}
    {past : List Mention} {typeName : Name} {fragment : Fragment}
    (h : Expanded settings find n past) (found : find fragment.name = some fragment)
    (le : m ≤ n) (lower : m < fragment.height) :
    Expanded settings find m (past ++ [.fragment typeName fragment]) := by
  intro otherType other mem
  rcases List.mem_append.1 mem with old | new
  · refine ⟨(h otherType other old).1, fun low => ?_⟩
    have inside := (h otherType other old).2 (Nat.le_trans low le)
    exact List.Subset.trans inside (List.subset_append_left _ _)
  · cases List.mem_singleton.1 new
    exact ⟨found, fun low => absurd low (Nat.not_le.2 lower)⟩

/-- If a fragment of the name has been expanded at a type, it is the fragment that the name stands
for. -/
theorem mem_of_hasExpanded {find : Name → Option Fragment} {n : Nat} {collection : Collection}
    {past : List Mention} (holds : collection.Holds settings.schema past)
    (expanded : Expanded settings find n past) {fragment : Fragment}
    (found : find fragment.name = some fragment) {typeName : Name}
    (has : collection.hasExpanded typeName fragment.name) :
    .fragment typeName fragment ∈ past := by
  obtain ⟨other, mem, eq⟩ := holds.hasExpanded_iff.1 has
  have foundOther := (expanded typeName other mem).1
  rw [eq] at foundOther
  cases foundOther.symm.trans found
  exact mem

/-- The collection after the expansion of a fragment is recorded, if it is new. -/
theorem exists_holds_recorded {find : Name → Option Fragment} {n : Nat} {collection : Collection}
    {past : List Mention} (holds : collection.Holds settings.schema past)
    (expanded : Expanded settings find n past) {fragment : Fragment}
    (found : find fragment.name = some fragment) (low : fragment.height ≤ n) (typeName : Name) :
    ∃ mentions, SameFirsts mentions (past ++ [.fragment typeName fragment]) ∧
      Expanded settings find (height fragment.selections) mentions ∧
      (if collection.hasExpanded typeName fragment.name then collection
        else collection.addExpansion typeName fragment).Holds settings.schema mentions := by
  rw [fragment.height_eq] at low
  split
  · rename_i has
    refine ⟨past, (SameFirsts.append_of_subset ?_).symm, ?_, holds⟩
    · exact List.cons_subset.2 ⟨mem_of_hasExpanded holds expanded found has, List.nil_subset _⟩
    · exact expanded.of_le (Nat.le_of_succ_le low)
  · refine ⟨_, .refl _, ?_, holds.addExpansion typeName _⟩
    refine expanded.append_fragment found (Nat.le_of_succ_le low) ?_
    rw [fragment.height_eq]
    exact Nat.lt_succ_self _

/-! ### What collecting adds -/

theorem compositeKind_eq_ok {schema : Schema} {typeName : Name} {collection : Collection}
    {kind : TypeKind} :
    compositeKind schema typeName collection = .ok kind ↔
      schema.typeKind? typeName = some kind ∧ kind.isComposite := by
  unfold compositeKind
  cases schema.typeKind? typeName with
  | none => simp [Collection.stop]
  | some other =>
    by_cases composite : other.isComposite
    · simp only [composite, if_true, Except.ok.injEq, Option.some.injEq]
      exact ⟨fun eq => ⟨eq, eq ▸ composite⟩, And.left⟩
    · simp only [composite, Bool.false_eq_true, if_false, Collection.stop, Option.some.injEq]
      exact ⟨fun eq => (by cases eq), fun ⟨eq, h⟩ => absurd (eq ▸ h) composite⟩

private theorem exists_compositeKind {schema : Schema} {typeName : Name}
    (h : schema.isComposite typeName) :
    ∃ kind, schema.typeKind? typeName = some kind ∧
      ∀ collection, compositeKind schema typeName collection = .ok kind := by
  obtain ⟨kind, known, composite⟩ := (Option.any_eq_true _ _).1 h
  exact ⟨kind, known, fun _ => compositeKind_eq_ok.2 ⟨known, composite⟩⟩

/-- What a step of collecting makes of a collection: it holds the past and the reading of the
step, up to repetitions. -/
def Gathers (settings : Settings) (result : Collection) (past new : List Mention) : Prop :=
  ∃ mentions, result.Holds settings.schema mentions ∧ SameFirsts mentions (past ++ new)

/-- What is gathered from nothing comprises what is mentioned, however often. -/
theorem Gathers.comprises {collection : Collection} {mentions : List Mention}
    (h : Gathers settings collection [] mentions) : collection.Comprises mentions := by
  obtain ⟨held, holds, same⟩ := h
  constructor
  · exact fun responseName occurrence =>
      (holds.comprises.field_iff responseName occurrence).trans same.mem_iff
  · exact fun typeName fragment =>
      (holds.comprises.fragment_iff typeName fragment).trans same.mem_iff

/-- What is gathered after a step is gathered with the step. -/
theorem Gathers.after {result : Collection} {past middle step new : List Mention}
    (h : Gathers settings result middle new) (same : SameFirsts middle (past ++ step)) :
    Gathers settings result past (step ++ new) := by
  obtain ⟨mentions, holds, first⟩ := h
  refine ⟨mentions, holds, ?_⟩
  rw [← List.append_assoc]
  exact first.trans (same.append (.refl _))

mutual

theorem gathers_collectSelection {find : Name → Option Fragment} {n : Nat} (parent : Name)
    (kind : TypeKind) (known : settings.schema.typeKind? parent = some kind) :
    ∀ (selection : LinkedSelection) (collection : Collection) (past : List Mention) {result},
      collectSelection settings parent kind selection collection = .ok result →
      selection.LinkedBy find → selection.height ≤ n → Expanded settings find n past →
      collection.Holds settings.schema past →
      Gathers settings result past (selection.reading settings parent)
  | .field aliasName name arguments directives location selections, collection, past, result,
      h, _, _, _, holds => by
    rw [collectSelection] at h
    split at h
    · cases h
    · rename_i definition found
      cases h
      have type : settings.schema.fieldType parent name = definition.type := by
        simp [Schema.fieldType, found]
      rw [Selection.reading, type]
      exact ⟨_, holds.addField (by simp [Mention.Defined, found]), .refl _⟩
  | .inlineFragment typeCondition _ _ selections, collection, past, result, h, linked, low,
      expanded, holds => by
    rw [Selection.LinkedBy] at linked
    rw [Selection.height] at low
    simp only [collectSelection, Schema.narrow_eq known] at h
    simp only [Selection.reading]
    split at h
    · cases h
    · split at h
      · rename_i ap
        obtain ⟨inner, hk, h⟩ := except_bind_eq_ok.1 h
        rw [if_pos ap]
        exact gathers_collectEach _ inner (compositeKind_eq_ok.1 hk).1 selections collection past h
          linked low expanded holds
      · rename_i ap
        cases h
        rw [if_neg ap]
        exact ⟨past, holds.note _, by rw [List.append_nil]⟩
  | .spread name _ location none, collection, past, result, h, _, _, _, _ => by
    rw [collectSelection] at h
    cases h
  | .spread name _ location (some fragment), collection, past, result, h, linked, low, expanded,
      holds => by
    rw [Selection.LinkedBy] at linked
    rw [Selection.height] at low
    rw [collectSelection] at h
    obtain ⟨found, rfl, linked⟩ := linked
    rw [Selection.reading]
    exact gathers_collectFragment parent kind known fragment collection past h found linked low
      expanded holds

private theorem gathers_collectFragment {find : Name → Option Fragment} {n : Nat} (parent : Name)
    (kind : TypeKind) (known : settings.schema.typeKind? parent = some kind) :
    ∀ (fragment : Fragment) (collection : Collection) (past : List Mention) {result},
      collectFragment settings parent kind fragment collection = .ok result →
      find fragment.name = some fragment → fragment.LinkedBy find → fragment.height ≤ n →
      Expanded settings find n past → collection.Holds settings.schema past →
      Gathers settings result past (fragment.reading settings parent)
  | ⟨name, typeCondition, location, selections⟩, collection, past, result, h, found, linked, low,
      expanded, holds => by
    have linkedInside := Fragment.linkedBy_iff.1 linked
    simp only [collectFragment, Schema.narrow_eq known] at h
    rw [Fragment.reading_eq]
    generalize eff : settings.schema.narrow parent typeCondition = effective at h ⊢
    split at h
    · cases h
    · split at h
      · rename_i repeated
        -- what a repeated fragment would add is mentioned already
        cases h
        have mem := mem_of_hasExpanded holds expanded found repeated.1
        refine ⟨past, holds.note _, (SameFirsts.append_of_subset ?_).symm⟩
        exact List.cons_subset.2 ⟨mem, (expanded effective _ mem).2 low⟩
      · obtain ⟨mentions, first, expandedNow, holdsNow⟩ :=
          exists_holds_recorded holds expanded found low effective
        rw [← List.singleton_append]
        unfold readingInside
        split at h
        · rename_i merge
          obtain ⟨inner, hk, h⟩ := except_bind_eq_ok.1 h
          rw [if_pos merge]
          exact (gathers_collectEach effective inner (compositeKind_eq_ok.1 hk).1 selections _
            mentions h linkedInside (Nat.le_refl _) expandedNow holdsNow).after first
        · rename_i merge
          cases h
          rw [if_neg merge, List.append_nil]
          exact ⟨mentions, holdsNow, first⟩

private theorem gathers_collectEach {find : Name → Option Fragment} {n : Nat} (parent : Name)
    (kind : TypeKind) (known : settings.schema.typeKind? parent = some kind) :
    ∀ (selections : List LinkedSelection) (collection : Collection) (past : List Mention) {result},
      collectEach settings parent kind selections collection = .ok result →
      LinkedBy find selections → height selections ≤ n → Expanded settings find n past →
      collection.Holds settings.schema past →
      Gathers settings result past (reading settings parent selections)
  | [], collection, past, result, h, _, _, _, holds => by
    rw [collectEach] at h
    cases h
    rw [reading]
    exact ⟨past, holds, by rw [List.append_nil]⟩
  | selection :: rest, collection, past, result, h, linked, low, expanded, holds => by
    rw [LinkedBy] at linked
    rw [height, Nat.max_le] at low
    rw [collectEach] at h
    obtain ⟨middle, hm, h⟩ := except_bind_eq_ok.1 h
    obtain ⟨mentions, holdsMiddle, same⟩ := gathers_collectSelection parent kind known selection
      collection past hm linked.1 low.1 expanded holds
    -- the first selection leaves what it expands complete, as the others ask for
    have expandedMiddle : Expanded settings find n mentions := by
      have linkedOne : LinkedBy find [selection] := ⟨linked.1, trivial⟩
      refine expanded.append_reading parent linkedOne ?_
      simpa [reading] using same
    rw [reading]
    exact (gathers_collectEach parent kind known rest middle mentions h linked.2 low.2
      expandedMiddle holdsMiddle).after same

end

/-- **What is collected** at a type from linked selections is their reading, up to repetitions. -/
theorem gathers_collect {find : Name → Option Fragment} {parent : Name}
    {selections : List LinkedSelection} {result : Collection}
    (h : collect settings parent selections {} = .ok result) (linked : LinkedBy find selections) :
    Gathers settings result [] (reading settings parent selections) := by
  obtain ⟨kind, hk, h⟩ := except_bind_eq_ok.1 h
  exact gathers_collectEach parent kind (compositeKind_eq_ok.1 hk).1 selections {} [] h linked
    (Nat.le_refl _) expanded_nil Collection.holds_empty

/-! ### Collecting together -/

/-- Adds what several selection sets at a type select together. -/
def collectTogether (settings : Settings) (parent : Name) (sets : List (List LinkedSelection))
    (collection : Collection) : Except Failure Collection :=
  sets.foldlM (fun collection selections => collect settings parent selections collection)
    collection

private theorem collectEach_append (parent : Name) (kind : TypeKind)
    (more : List LinkedSelection) :
    ∀ (selections : List LinkedSelection) (collection : Collection),
      collectEach settings parent kind (selections ++ more) collection =
        collectEach settings parent kind selections collection >>=
          collectEach settings parent kind more
  | [], collection => by rw [List.nil_append, collectEach]; rfl
  | selection :: rest, collection => by
    rw [List.cons_append, collectEach, collectEach, bind_assoc]
    exact congrArg _ (funext fun middle => collectEach_append parent kind more rest middle)

/-- Collecting selection sets at a composite type is collecting them as one. -/
theorem collectTogether_eq {parent : Name} (composite : settings.schema.isComposite parent)
    (sets : List (List LinkedSelection)) (collection : Collection) :
    collectTogether settings parent sets collection
      = collect settings parent sets.flatten collection := by
  obtain ⟨kind, -, ok⟩ := exists_compositeKind composite
  have collect_eq : ∀ selections collection, collect settings parent selections collection
      = collectEach settings parent kind selections collection := by
    intro selections collection
    rw [collect, ok]
    rfl
  induction sets generalizing collection with
  | nil =>
    rw [List.flatten_nil, collect_eq, collectEach]
    rfl
  | cons selections rest ih =>
    rw [List.flatten_cons, collect_eq, collectEach_append, ← collect_eq, collectTogether,
      List.foldlM_cons]
    refine congrArg _ (funext fun middle => ?_)
    rw [← collect_eq, ← ih]
    rfl

/-- The sub-selections of the occurrences of a field are collected together. -/
theorem mergeSelections_eq {parent : Name} (composite : settings.schema.isComposite parent)
    (occurrences : List Occurrence) (collection : Collection) :
    mergeSelections settings parent occurrences collection
      = collect settings parent (occurrences.flatMap Occurrence.selections) collection := by
  have nonempty : ((occurrences.filter fun occurrence => !occurrence.selections.isEmpty).map
      Occurrence.selections).flatten = occurrences.flatMap Occurrence.selections := by
    induction occurrences with
    | nil => rfl
    | cons occurrence rest ih =>
      rw [List.flatMap_cons, ← ih]
      cases eq : occurrence.selections <;> simp [eq]
  rw [← nonempty, ← collectTogether_eq composite, collectTogether, List.foldlM_map]
  rfl

/-! ### When collecting has a result -/

mutual

/-- Whether the type conditions of a selection are composite types and its spreads are defined, at
every depth. -/
def Selection.Known (schema : Schema) : LinkedSelection → Prop
  | .field _ _ _ _ _ selections => Known schema selections
  | .inlineFragment typeCondition _ _ selections =>
    (∀ condition ∈ typeCondition, schema.isComposite condition) ∧ Known schema selections
  | .spread _ _ _ none => False
  | .spread _ _ _ (some fragment) => fragment.Known schema

/-- Whether the type conditions of a fragment and inside it are composite types, and its spreads
are defined. -/
def Fragment.Known (schema : Schema) : Fragment → Prop
  | ⟨_, typeCondition, _, selections⟩ =>
    schema.isComposite typeCondition ∧ GraphQLCompiler.Known schema selections

/-- Whether the type conditions of selections are composite types and their spreads are defined, at
every depth. -/
def Known (schema : Schema) : List LinkedSelection → Prop
  | [] => True
  | selection :: rest => selection.Known schema ∧ Known schema rest

end

theorem Fragment.known_iff {schema : Schema} {fragment : Fragment} :
    fragment.Known schema ↔ schema.isComposite fragment.typeCondition ∧
      GraphQLCompiler.Known schema fragment.selections := by
  cases fragment
  rw [Fragment.Known]

theorem known_iff {schema : Schema} {selections : List LinkedSelection} :
    Known schema selections ↔ ∀ selection ∈ selections, selection.Known schema := by
  induction selections with
  | nil => simp [Known]
  | cons selection rest ih => rw [Known, ih, List.forall_mem_cons]

theorem hereditary_known (schema : Schema) : Hereditary (Selection.Known schema) where
  field h := known_iff.1 (by rwa [Selection.Known] at h)
  inlineFragment h := by
    rw [Selection.Known] at h
    exact known_iff.1 h.2
  spread h := by
    rw [Selection.Known] at h
    exact known_iff.1 (Fragment.known_iff.1 h).2

theorem Schema.isComposite_narrow {schema : Schema} {parent typeCondition : Name}
    (h : schema.isComposite parent) (h' : schema.isComposite typeCondition) :
    schema.isComposite (schema.narrow parent typeCondition) := by
  unfold Schema.narrow
  split
  · exact h
  · exact h'

mutual

private theorem exists_collectSelection (parent : Name) (kind : TypeKind)
    (known : settings.schema.typeKind? parent = some kind)
    (composite : settings.schema.isComposite parent) :
    ∀ (selection : LinkedSelection) (collection : Collection), selection.Known settings.schema →
      (∀ mention ∈ selection.reading settings parent, mention.Defined settings.schema) →
      ∃ result, collectSelection settings parent kind selection collection = .ok result
  | .field aliasName name arguments directives location selections, collection, _, defined => by
    rw [Selection.reading, List.forall_mem_singleton] at defined
    obtain ⟨definition, found⟩ := Option.isSome_iff_exists.1 defined
    rw [collectSelection, found]
    exact ⟨_, rfl⟩
  | .inlineFragment typeCondition _ location selections, collection, hk, defined => by
    rw [Selection.Known] at hk
    have condition : settings.schema.isComposite (typeCondition.getD parent) := by
      cases typeCondition with
      | none => exact composite
      | some condition => exact hk.1 condition rfl
    obtain ⟨_, knownCondition, -⟩ := exists_compositeKind condition
    have compositeEffective := Schema.isComposite_narrow composite condition
    obtain ⟨inner, knownInner, ok⟩ := exists_compositeKind compositeEffective
    simp only [Selection.reading] at defined
    simp only [collectSelection, Schema.narrow_eq known, knownCondition]
    split
    · rename_i ap
      rw [if_pos ap] at defined
      rw [ok]
      exact exists_collectEach _ inner knownInner compositeEffective selections collection hk.2
        defined
    · exact ⟨_, rfl⟩
  | .spread _ _ _ none, _, hk, _ => by
    rw [Selection.Known] at hk
    exact hk.elim
  | .spread _ _ _ (some fragment), collection, hk, defined => by
    rw [Selection.Known] at hk
    rw [Selection.reading] at defined
    rw [collectSelection]
    exact exists_collectFragment parent kind known composite fragment collection hk defined

private theorem exists_collectFragment (parent : Name) (kind : TypeKind)
    (known : settings.schema.typeKind? parent = some kind)
    (composite : settings.schema.isComposite parent) :
    ∀ (fragment : Fragment) (collection : Collection), fragment.Known settings.schema →
      (∀ mention ∈ fragment.reading settings parent, mention.Defined settings.schema) →
      ∃ result, collectFragment settings parent kind fragment collection = .ok result
  | ⟨name, typeCondition, location, selections⟩, collection, hk, defined => by
    rw [Fragment.Known] at hk
    obtain ⟨_, knownCondition, -⟩ := exists_compositeKind hk.1
    have compositeEffective := Schema.isComposite_narrow composite hk.1
    obtain ⟨inner, knownInner, ok⟩ := exists_compositeKind compositeEffective
    rw [Fragment.reading_eq, List.forall_mem_cons] at defined
    unfold readingInside at defined
    simp only [collectFragment, Schema.narrow_eq known, knownCondition]
    split
    · exact ⟨_, rfl⟩
    · split
      · rename_i merge
        rw [if_pos merge] at defined
        rw [ok]
        exact exists_collectEach _ inner knownInner compositeEffective selections _ hk.2 defined.2
      · exact ⟨_, rfl⟩

private theorem exists_collectEach (parent : Name) (kind : TypeKind)
    (known : settings.schema.typeKind? parent = some kind)
    (composite : settings.schema.isComposite parent) :
    ∀ (selections : List LinkedSelection) (collection : Collection),
      Known settings.schema selections →
      (∀ mention ∈ reading settings parent selections, mention.Defined settings.schema) →
      ∃ result, collectEach settings parent kind selections collection = .ok result
  | [], collection, _, _ => ⟨collection, by rw [collectEach]⟩
  | selection :: rest, collection, hk, defined => by
    rw [Known] at hk
    rw [reading, List.forall_mem_append] at defined
    obtain ⟨middle, hm⟩ := exists_collectSelection parent kind known composite selection collection
      hk.1 defined.1
    obtain ⟨result, hr⟩ := exists_collectEach parent kind known composite rest middle hk.2
      defined.2
    exact ⟨result, by rw [collectEach, hm]; exact hr⟩

end

/-- **Collecting has a result** if and only if every field is defined on the type that it is
collected at, given that type conditions are composite and fragments are defined. -/
theorem exists_collect_iff {find : Name → Option Fragment} {parent : Name}
    {selections : List LinkedSelection} (composite : settings.schema.isComposite parent)
    (known : Known settings.schema selections) (linked : LinkedBy find selections) :
    (∃ result, collect settings parent selections {} = .ok result) ↔
      ∀ mention ∈ reading settings parent selections, mention.Defined settings.schema := by
  constructor
  · rintro ⟨result, h⟩ mention mem
    obtain ⟨mentions, holds, same⟩ := gathers_collect h linked
    exact holds.defined mention (same.mem_iff.2 mem)
  · intro defined
    obtain ⟨kind, knownKind, ok⟩ := exists_compositeKind composite
    obtain ⟨result, h⟩ := exists_collectEach parent kind knownKind composite selections {} known
      defined
    exact ⟨result, by rw [collect, ok]; exact h⟩

end GraphQLCompiler
