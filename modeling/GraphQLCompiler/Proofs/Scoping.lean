import GraphQLCompiler.Proofs.References

/-!
# Written types and collected types

Validation checks a field on the type of the selection set that it is **written** in: the root type,
the type condition around it, or the type of the field around it. Compilation looks it up on the
type that it is **collected** at, which is found on the way. A selection is *scoped* if what is
written in it is defined there (`Selection.Scoped`).

Where the collected type is contained in the written type, a well-formed schema defines the field on
both. This is kept from site to site (`Site.ScopedAbove`) as long as two things hold, which make a
site **regular**: a fragment is expanded only at a type that its type condition contains, and the
first occurrence of a field has the narrowest type of all that are merged with it. So everything is
defined wherever compilation comes to through regular sites (`Site.ScopedAbove.defined`).
-/

namespace GraphQLCompiler

variable {τ : Type}

/-- Whether some object type is contained in two types. -/
def Schema.Overlap (schema : Schema) (name other : Name) : Prop :=
  ∃ object, schema.isObject object ∧ schema.isSubtypeOf object name ∧
    schema.isSubtypeOf object other

section

variable (schema : Schema) (spreads : Name → Name → Prop)

mutual

/-- Whether a selection that is written in a selection set of a type is **scoped**: its fields have
no aliases and are defined on the types that they are written in, its type conditions are composite
and share a possible type with those, and so do the fragments that it spreads, as far as a relation
between the written type and the name of a fragment tells. -/
def Selection.Scoped (written : Name) : Selection τ → Prop
  | .field aliasName name _ _ _ selections =>
    aliasName = none ∧ ∃ definition, schema.fieldDefinition? written name = some definition ∧
      Scoped definition.type.bare selections
  | .inlineFragment typeCondition _ _ selections =>
    (∀ condition ∈ typeCondition,
      schema.isComposite condition ∧ schema.Overlap condition written) ∧
      Scoped (typeCondition.getD written) selections
  | .spread name _ _ _ => spreads written name

/-- Whether selections that are written in a selection set of a type are scoped. -/
def Scoped (written : Name) : List (Selection τ) → Prop
  | [] => True
  | selection :: rest => selection.Scoped written ∧ Scoped written rest

end

end

variable {schema : Schema} {spreads : Name → Name → Prop}

theorem scoped_iff {written : Name} {selections : List (Selection τ)} :
    Scoped schema spreads written selections ↔
      ∀ selection ∈ selections, selection.Scoped schema spreads written := by
  induction selections with
  | nil => simp [Scoped]
  | cons selection rest ih => rw [Scoped, ih, List.forall_mem_cons]

mutual

private theorem selection_scoped_link {find : Name → Option Fragment} :
    ∀ (written : Name) (selection : Selection Unit),
      selection.Scoped schema spreads written →
      (selection.link find).Scoped schema spreads written
  | _, .field _ _ _ _ _ selections, h => by
    rw [Selection.Scoped] at h
    rw [Selection.link, Selection.Scoped]
    obtain ⟨noAlias, definition, found, inside⟩ := h
    exact ⟨noAlias, definition, found, scoped_link _ selections inside⟩
  | _, .inlineFragment _ _ _ selections, h => by
    rw [Selection.Scoped] at h
    rw [Selection.link, Selection.Scoped]
    exact ⟨h.1, scoped_link _ selections h.2⟩
  | _, .spread _ _ _ _, h => by
    rw [Selection.Scoped] at h
    rwa [Selection.link, Selection.Scoped]

/-- Linking keeps selections scoped. -/
theorem scoped_link {find : Name → Option Fragment} :
    ∀ (written : Name) (selections : WrittenSelections),
      Scoped schema spreads written selections →
      Scoped schema spreads written (link find selections)
  | _, [], _ => by rw [link, Scoped]; trivial
  | written, selection :: rest, h => by
    rw [Scoped] at h
    rw [link, Scoped]
    exact ⟨selection_scoped_link written selection h.1, scoped_link written rest h.2⟩

end

mutual

private theorem selection_known_link {find : Name → Option Fragment}
    (defined : ∀ written name, spreads written name → (find name).isSome) :
    ∀ (written : Name) (selection : Selection Unit), selection.Scoped schema spreads written →
      (∀ name ∈ selection.spreadNames, ∀ fragment, find name = some fragment →
        fragment.Known schema) →
      (selection.link find).Known schema
  | _, .field _ _ _ _ _ selections, h, known => by
    rw [Selection.Scoped] at h
    rw [Selection.link, Selection.Known]
    obtain ⟨-, definition, -, inside⟩ := h
    exact known_link defined _ selections inside fun name mem =>
      known name (mem_spreadNames_field.2 mem)
  | _, .inlineFragment _ _ _ selections, h, known => by
    rw [Selection.Scoped] at h
    rw [Selection.link, Selection.Known]
    refine ⟨fun condition mem => (h.1 condition mem).1, ?_⟩
    exact known_link defined _ selections h.2 fun name mem =>
      known name (mem_spreadNames_inlineFragment.2 mem)
  | written, .spread name _ _ _, h, known => by
    rw [Selection.Scoped] at h
    obtain ⟨fragment, found⟩ := Option.isSome_iff_exists.1 (defined written name h)
    rw [Selection.link, found, Selection.Known]
    exact known name (mem_spreadNames_spread.2 rfl) fragment found

/-- Scoped selections are known once they are linked, if the fragments that they spread are. -/
theorem known_link {find : Name → Option Fragment}
    (defined : ∀ written name, spreads written name → (find name).isSome) :
    ∀ (written : Name) (selections : WrittenSelections), Scoped schema spreads written selections →
      (∀ name ∈ spreadNames selections, ∀ fragment, find name = some fragment →
        fragment.Known schema) →
      Known schema (link find selections)
  | _, [], _, _ => by rw [link, Known]; trivial
  | written, selection :: rest, h, known => by
    rw [Scoped] at h
    rw [link, Known]
    refine ⟨selection_known_link defined written selection h.1 fun name mem => ?_,
      known_link defined written rest h.2 fun name mem => ?_⟩
    · exact known name (mem_spreadNames_cons.2 (.inl mem))
    · exact known name (mem_spreadNames_cons.2 (.inr mem))

end

/-! ### Readings of scoped selections -/

/-- Whether a function finds fragments whose selections are scoped at their type conditions. -/
def FindsScoped (schema : Schema) (spreads : Name → Name → Prop)
    (find : Name → Option Fragment) : Prop :=
  ∀ name fragment, find name = some fragment →
    Scoped schema spreads fragment.typeCondition fragment.selections

/-- Whether the fragments that are merged are expanded only at types that their type conditions
contain. -/
def ExpandsInside (settings : Settings) (mentions : List Mention) : Prop :=
  settings.options.mergeFragmentFields → ∀ typeName fragment,
    .fragment typeName fragment ∈ mentions →
    settings.schema.isSubtypeOf typeName fragment.typeCondition

/-- Whether a field that is mentioned is defined where it is collected, and its sub-selections are
scoped at a type that contains its own. -/
def Mention.Sound (schema : Schema) (spreads : Name → Name → Prop) : Mention → Prop
  | .field responseName occurrence =>
    (Mention.field responseName occurrence).Defined schema ∧
      ∃ written, schema.isSubtypeOf occurrence.type.bare written ∧
        Scoped schema spreads written occurrence.selections
  | .fragment _ _ => True

variable {settings : Settings}

mutual

private theorem selection_sound {find : Name → Option Fragment}
    (wf : settings.schema.WellFormed)
    (finds : FindsScoped settings.schema spreads find) :
    ∀ (parent written : Name) (selection : LinkedSelection),
      settings.schema.isSubtypeOf parent written →
      selection.Scoped settings.schema spreads written → selection.LinkedBy find →
      ExpandsInside settings (selection.reading settings parent) →
      ∀ mention ∈ selection.reading settings parent, mention.Sound settings.schema spreads
  | parent, written, .field aliasName name arguments directives location selections, sub, inScope,
      _, _ => by
    rw [Selection.Scoped] at inScope
    obtain ⟨-, definition, found, inside⟩ := inScope
    -- the collected type has the field too, and with a type that the written type's contains
    obtain ⟨own, foundOwn, narrower⟩ := wf.exists_fieldDefinition sub found
    have type : settings.schema.fieldType parent name = own.type := by
      simp [Schema.fieldType, foundOwn]
    rw [Selection.reading, List.forall_mem_singleton]
    refine ⟨Option.isSome_iff_exists.2 ⟨own, foundOwn⟩, definition.type.bare, ?_, inside⟩
    rw [← type] at narrower
    exact narrower
  | parent, written, .inlineFragment none _ _ selections, sub, inScope, linked, expands => by
    have narrow : settings.schema.narrow parent parent = parent := by simp [Schema.narrow]
    have ap : applies settings.schema parent parent := by simp [applies]
    rw [Selection.Scoped] at inScope
    rw [Selection.LinkedBy] at linked
    simp only [Selection.reading, Option.getD_none, narrow, if_pos ap] at expands ⊢
    exact selections_sound wf finds parent written selections sub inScope.2 linked expands
  | parent, written, .inlineFragment (some condition) _ _ selections, sub, inScope, linked,
      expands => by
    rw [Selection.Scoped] at inScope
    rw [Selection.LinkedBy] at linked
    simp only [Selection.reading, Option.getD_some] at expands ⊢
    split
    · rename_i ap
      rw [if_pos ap] at expands
      -- inside an object type, a condition that applies contains the object type
      have inside : settings.schema.isSubtypeOf (settings.schema.narrow parent condition)
          condition := by
        by_cases concrete : settings.schema.isObject parent
        · simp only [Schema.narrow, if_pos concrete] at ap ⊢
          unfold applies at ap
          rw [Bool.or_eq_true, decide_eq_true_iff,
            Schema.isProperSupertype_iff_of_isObject concrete] at ap
          rcases ap with rfl | contained
          · exact Schema.isSubtypeOf_self _ _
          · exact contained
        · simp [Schema.narrow, concrete]
      exact selections_sound wf finds _ condition selections inside inScope.2 linked expands
    · exact fun _ mem => by cases mem
  | _, _, .spread _ _ _ none, _, _, _, _ => by
    rw [Selection.reading]
    exact fun _ mem => by cases mem
  | parent, _, .spread name _ _ (some fragment), _, _, linked, expands => by
    rw [Selection.LinkedBy] at linked
    rw [Selection.reading] at expands ⊢
    exact fragment_sound wf finds parent fragment (finds name fragment linked.1) linked.2.2 expands

private theorem fragment_sound {find : Name → Option Fragment}
    (wf : settings.schema.WellFormed)
    (finds : FindsScoped settings.schema spreads find) :
    ∀ (parent : Name) (fragment : Fragment),
      Scoped settings.schema spreads fragment.typeCondition fragment.selections →
      fragment.LinkedBy find → ExpandsInside settings (fragment.reading settings parent) →
      ∀ mention ∈ fragment.reading settings parent, mention.Sound settings.schema spreads
  | parent, ⟨name, typeCondition, location, selections⟩, inScope, linked, expands => by
    rw [Fragment.reading_eq] at expands ⊢
    refine List.forall_mem_cons.2 ⟨trivial, ?_⟩
    unfold readingInside at expands ⊢
    split
    · rename_i merge
      rw [if_pos merge] at expands
      -- no check has been made that the condition of the fragment applies, so it is assumed
      have inside := expands merge _ _ List.mem_cons_self
      exact selections_sound wf finds _ typeCondition selections inside inScope
        (Fragment.linkedBy_iff.1 linked) fun met typeName fragment mem =>
          expands met typeName fragment (List.mem_cons_of_mem _ mem)
    · exact fun _ mem => by cases mem

/-- What scoped selections mention at a type that is contained in the one they are written in is
defined, and scoped in turn. -/
private theorem selections_sound {find : Name → Option Fragment}
    (wf : settings.schema.WellFormed)
    (finds : FindsScoped settings.schema spreads find) :
    ∀ (parent written : Name) (selections : List LinkedSelection),
      settings.schema.isSubtypeOf parent written →
      Scoped settings.schema spreads written selections → LinkedBy find selections →
      ExpandsInside settings (reading settings parent selections) →
      ∀ mention ∈ reading settings parent selections, mention.Sound settings.schema spreads
  | _, _, [], _, _, _, _ => by
    rw [reading]
    exact fun _ mem => by cases mem
  | parent, written, selection :: rest, sub, inScope, linked, expands => by
    rw [Scoped] at inScope
    rw [LinkedBy] at linked
    rw [reading] at expands ⊢
    refine List.forall_mem_append.2 ⟨?_, ?_⟩
    · exact selection_sound wf finds parent written selection sub inScope.1 linked.1
        fun met typeName fragment mem =>
          expands met typeName fragment (List.mem_append_left _ mem)
    · exact selections_sound wf finds parent written rest sub inScope.2 linked.2
        fun met typeName fragment mem =>
          expands met typeName fragment (List.mem_append_right _ mem)

end

/-! ### Regular sites -/

/-- A site is **regular** if the fragments that it merges are expanded at types that their type
conditions contain, and if the sub-selections of each field are collected at a type that the types
of all its occurrences contain. -/
structure Site.Regular (settings : Settings) (site : Site) : Prop where
  expandsInside : ExpandsInside settings (site.mentions settings)
  firstNarrowest : ∀ typeName, site.ResolvedAt settings typeName → ∀ field : ApplicableField,
    field.occurrences = occurrencesAt settings.schema typeName field.responseName
      (site.mentions settings) →
    settings.schema.isComposite field.bareType →
    ∀ occurrence ∈ field.occurrences,
      settings.schema.isSubtypeOf field.bareType occurrence.type.bare

/-- A site is **scoped above** its type if each of its selections is linked, and scoped where it is
written in a selection set of some type that contains the type of the site. -/
structure Site.ScopedAbove (schema : Schema) (spreads : Name → Name → Prop)
    (find : Name → Option Fragment) (site : Site) : Prop where
  linked : ∀ selection ∈ site.selections, selection.LinkedBy find
  above : ∀ selection ∈ site.selections, ∃ written, schema.isSubtypeOf site.parent written ∧
    selection.Scoped schema spreads written

namespace Site

variable {find : Name → Option Fragment} {site : Site}

/-- **Progress.** What a regular site mentions is defined, and scoped in turn. -/
theorem ScopedAbove.sound (wf : settings.schema.WellFormed)
    (finds : FindsScoped settings.schema spreads find)
    (inScope : site.ScopedAbove settings.schema spreads find) (regular : site.Regular settings) :
    ∀ mention ∈ site.mentions settings, mention.Sound settings.schema spreads := by
  intro mention mem
  unfold mentions at mem
  rw [reading_eq_flatMap] at mem
  obtain ⟨selection, memSelection, mem⟩ := List.mem_flatMap.1 mem
  obtain ⟨written, contains, scopedSelection⟩ := inScope.above selection memSelection
  refine selection_sound wf finds site.parent written selection contains scopedSelection
    (inScope.linked selection memSelection) (fun merge typeName fragment inside => ?_) mention mem
  exact regular.expandsInside merge typeName fragment (reading_subset memSelection inside)

/-- **Preservation.** The sites that a regular site is followed to are scoped above their types. -/
theorem Follows.scopedAbove (wf : settings.schema.WellFormed)
    (finds : FindsScoped settings.schema spreads find)
    (inScope : site.ScopedAbove settings.schema spreads find) (regular : site.Regular settings)
    {next : Site} (follows : site.Follows settings next) :
    next.ScopedAbove settings.schema spreads find := by
  refine ⟨follows.inherited (hereditary_linkedBy find) inScope.linked, ?_⟩
  intro selection mem
  cases follows with
  | @field typeName field resolved applicable composite =>
    obtain ⟨occurrence, memOccurrence, inside⟩ := List.mem_flatMap.1 mem
    have narrower := regular.firstNarrowest typeName resolved field applicable composite
      occurrence memOccurrence
    rw [applicable] at memOccurrence
    obtain ⟨-, written, contains, scopedInside⟩ :=
      inScope.sound wf finds regular _ (mem_occurrencesAt.1 memOccurrence).1
    exact ⟨written, wf.isSubtypeOf_trans narrower contains,
      scoped_iff.1 scopedInside selection inside⟩
  | fragment fragment resolved mentioned applicable =>
    have found := (linkedBy_of_mention (linkedBy_iff.2 inScope.linked) mentioned).1
    exact ⟨fragment.typeCondition, Schema.isSubtypeOf_self _ _,
      scoped_iff.1 (finds fragment.name fragment found) selection mem⟩

/-- **Scoped sites are defined**, wherever compilation comes to, if all sites on the way are
regular. -/
theorem ScopedAbove.defined (wf : settings.schema.WellFormed)
    (finds : FindsScoped settings.schema spreads find)
    (inScope : site.ScopedAbove settings.schema spreads find)
    (regular : ∀ other, site.Reaches settings other → other.Regular settings) :
    site.Defined settings := by
  intro last reaches mention mem
  have scopedLast : last.ScopedAbove settings.schema spreads find := by
    clear mem
    induction reaches with
    | refl => exact inScope
    | tail before follows ih => exact follows.scopedAbove wf finds ih (regular _ before)
  have sound := scopedLast.sound wf finds (regular last reaches) mention mem
  cases mention with
  | field responseName occurrence => exact sound.1
  | fragment typeName fragment => trivial

end Site

end GraphQLCompiler
