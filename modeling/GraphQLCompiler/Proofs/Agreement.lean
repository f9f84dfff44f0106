import GraphQLCompiler.Proofs.Faults
import GraphQLCompiler.Proofs.Outcomes
import GraphQLCompiler.Proofs.References
import GraphQLCompiler.Proofs.Repetitions

/-!
# Agreement of resolutions

The resolution of a site collects its selections and resolves the collection
(`Site.resolution`). Two sites that are the same but for repetitions of their selections have
resolutions that agree, also if only one of them expands repeated fragments again
(`agree_resolution`).

The induction is on the height of the selections. Collections that hold the same mentions up to
repetitions have the same fields but for repetitions of occurrences, so the sub-selections of a
field are sites that are the same but for repetitions again, and the fragments that apply are the
same. A site that cannot be collected has a first fault, which repetitions do not change.

In particular the resolution of a site agrees with itself, so it has an outcome.
-/

namespace GraphQLCompiler

open CompileM

/-- Settings with another way to treat fragments that are spread again. -/
abbrev Settings.repeating (settings : Settings) (repetition : Repetition) : Settings :=
  { settings with repetition }

variable {settings : Settings} {table : FragmentTable} {repetition : Repetition}

/-! ### Readings -/

mutual

private theorem selection_reading_repeating (parent : Name) : ∀ selection : LinkedSelection,
    selection.reading (settings.repeating repetition) parent = selection.reading settings parent
  | .field _ _ _ _ _ _ => by rw [Selection.reading, Selection.reading]
  | .inlineFragment typeCondition _ _ selections => by
    rw [Selection.reading, Selection.reading]
    dsimp only
    rw [reading_repeating _ selections]
  | .spread _ _ _ none => by rw [Selection.reading, Selection.reading]
  | .spread _ _ _ (some fragment) => by
    rw [Selection.reading, Selection.reading]
    exact fragment_reading_repeating parent fragment

private theorem fragment_reading_repeating (parent : Name) : ∀ fragment : Fragment,
    fragment.reading (settings.repeating repetition) parent = fragment.reading settings parent
  | ⟨name, typeCondition, location, selections⟩ => by
    rw [Fragment.reading, Fragment.reading]
    dsimp only
    rw [reading_repeating _ selections]

/-- What selections mention does not depend on what happens to repeated fragments. -/
theorem reading_repeating (parent : Name) : ∀ selections : List LinkedSelection,
    reading (settings.repeating repetition) parent selections = reading settings parent selections
  | [] => by rw [reading, reading]
  | selection :: rest => by
    rw [reading, reading, selection_reading_repeating parent selection,
      reading_repeating parent rest]

end

/-! ### Sites that are the same but for repetitions -/

/-- Whether sites are the same but for repetitions of their selections. -/
structure Site.Same (site site' : Site) : Prop where
  parent_eq : site.parent = site'.parent
  selections : SameFirsts site.selections site'.selections

@[refl] theorem Site.Same.refl (site : Site) : site.Same site := ⟨rfl, .refl _⟩

theorem Site.Same.similar {site site' : Site} (same : site.Same site') :
    site.Similar settings site' := by
  refine ⟨same.parent_eq, ?_⟩
  rw [mentions, mentions, reading_eq_flatMap, reading_eq_flatMap, same.parent_eq]
  exact same.selections.flatMap _

namespace ApplicableField.Same

variable {field field' : ApplicableField}

theorem first_eq (same : field.Same field') : field.first = field'.first :=
  Option.some.inj same.occurrences.head?_eq

theorem bareType_eq (same : field.Same field') : field.bareType = field'.bareType := by
  rw [ApplicableField.bareType, ApplicableField.bareType, same.first_eq]

theorem site (same : field.Same field') : field.site.Same field'.site :=
  ⟨same.bareType_eq, same.occurrences.flatMap Occurrence.selections⟩

/-- A property is had by some occurrence, whatever is repeated. -/
theorem any_eq (same : field.Same field') (property : Occurrence → Bool) :
    field.occurrences.any property = field'.occurrences.any property := by
  rw [Bool.eq_iff_iff, List.any_eq_true, List.any_eq_true]
  exact exists_congr fun occurrence => and_congr_left' same.occurrences.mem_iff

end ApplicableField.Same

/-- **Collecting agrees** at sites that are the same but for repetitions: it stops with the same
error, or gathers the same mentions up to repetitions. -/
private theorem collect_same {site site' : Site} (same : site.Same site')
    (linked : ∀ selection ∈ site.selections, selection.LinkedBy table.linked.find?) :
    (∃ failure failure', collect settings site.parent site.selections {} = .error failure ∧
        collect (settings.repeating repetition) site'.parent site'.selections {} = .error failure' ∧
        failure.error = failure'.error) ∨
      ∃ collection collection', collect settings site.parent site.selections {} = .ok collection ∧
        collect (settings.repeating repetition) site'.parent site'.selections {}
          = .ok collection' ∧
        site.Collected settings table.linked.find? collection ∧
        site.Collected settings table.linked.find? collection' := by
  obtain ⟨parent, selections'⟩ := site'
  obtain rfl : site.parent = parent := same.parent_eq
  have linked' : LinkedBy table.linked.find? selections' :=
    linkedBy_iff.2 fun selection mem => linked selection (same.selections.mem_iff.2 mem)
  have errors : errorOf (collect settings site.parent site.selections {})
      = errorOf (collect (settings.repeating repetition) site.parent selections' {}) := by
    rw [errorOf_collect (linkedBy_iff.2 linked), errorOf_collect linked']
    have faults := same.selections.flatMap
      (Selection.faults settings.schema settings.options site.parent)
    rw [← faults_eq_flatMap, ← faults_eq_flatMap] at faults
    exact ((SameFirsts.refl _).append faults).head?_eq
  dsimp only
  cases collected : collect settings site.parent site.selections {} with
  | error failure =>
    rw [collected] at errors
    cases collected' : collect (settings.repeating repetition) site.parent selections' {} with
    | error failure' =>
      rw [collected'] at errors
      exact .inl ⟨failure, failure', rfl, rfl, Option.some.inj errors⟩
    | ok collection' => rw [collected'] at errors; cases errors
  | ok collection =>
    rw [collected] at errors
    cases collected' : collect (settings.repeating repetition) site.parent selections' {} with
    | error failure' => rw [collected'] at errors; cases errors
    | ok collection' =>
      obtain ⟨mentions, holds, gathered⟩ := gathers_collect collected' linked'
      rw [reading_repeating] at gathered
      exact .inr ⟨collection, collection', rfl, rfl, site.collected_of_collect linked collected,
        linked, mentions, holds, gathered.trans same.similar.symm.mentions⟩

/-! ### Resolutions of sites -/

/-- Lower collections are resolved like all others. -/
abbrev resolveBelow (settings : Settings) (n : Nat) : ResolveBelow n :=
  fun parent lower _ => resolve settings parent lower

/-- Collects the selections of a site and resolves the collection. -/
def Site.resolution (settings : Settings) (site : Site) : CompileM Resolved :=
  match collect settings site.parent site.selections {} with
  | .error failure => CompileM.fail failure
  | .ok collection => do
    CompileM.tell collection.events
    resolve settings site.parent collection

theorem resolveSubselections_eq (settings : Settings) {n : Nat} {field : ApplicableField}
    (composite : settings.schema.isComposite field.bareType)
    {bound : ∀ occurrence ∈ field.occurrences, height occurrence.selections < n} :
    resolveSubselections settings (resolveBelow settings n) field bound
      = field.site.resolution settings := by
  rw [resolveSubselections, Site.resolution]
  split
  all_goals
    rename_i merged
    rw [mergeSelections_eq composite] at merged
    rw [show collect settings field.site.parent field.site.selections {} = _ from merged]
  rfl

theorem resolveFragment_eq_throw {fragment : Fragment}
    (unknown : settings.schema.typeKind? fragment.typeCondition = none) :
    resolveFragment settings fragment
      = throw (.unknownType fragment.typeCondition fragment.location) := by
  rw [resolveFragment, resolveFragmentWith]
  split
  · rfl
  · simp_all

theorem resolveFragment_eq {fragment : Fragment} {kind : TypeKind}
    (known : settings.schema.typeKind? fragment.typeCondition = some kind) :
    resolveFragment settings fragment = do
      let resolved ← fragment.site.resolution settings
      CompileM.remember fragment.name resolved.references
      return resolved := by
  rw [resolveFragment, resolveFragmentWith, Site.resolution]
  split
  · rename_i unknown
    cases known.symm.trans unknown
  · split
    all_goals
      rename_i collected
      rw [show collect settings fragment.site.parent fragment.site.selections {} = _ from collected]
    · rfl
    · exact (bind_assoc _ _ _).symm

/-! ### Remembering -/

section

variable {fragment : Fragment}

/-- Resolving a fragment has the outcome of its site, since remembering what is found out is
sound. -/
private theorem gives_resolveFragment (settings : Settings)
    (found : table.linked.find? fragment.name = some fragment) {kind : TypeKind}
    (known : settings.schema.typeKind? fragment.typeCondition = some kind)
    {outcome : Outcome Resolved}
    (h : Gives settings table (fragment.site.resolution settings) outcome) :
    Gives settings table (resolveFragment settings fragment) outcome := by
  obtain ⟨e | resolved, used⟩ := outcome
  · rw [resolveFragment_eq known]
    exact h.stop
  · have run : ∀ {before after : CompilerState},
        (fragment.site.resolution settings).run before = (.ok resolved, after) →
        (resolveFragment settings fragment).run before = (.ok resolved, { after with
          references := after.references.insert fragment.name resolved.references }) := by
      intro before after first
      rw [resolveFragment_eq known, run_bind, first]
      rfl
    obtain ⟨fresh, firstFresh, extendedFresh⟩ := h {} (CompilerState.sound_empty settings table)
    intro before sound
    obtain ⟨after, first, extended⟩ := h before sound
    refine ⟨_, run first, ⟨fun name names remembered => ?_, extended.sound.closed,
      extended.sound.acyclic⟩, extended.mem_typesUsed⟩
    rw [NameMap.find?_insert] at remembered
    split at remembered
    · rename_i name_eq
      cases remembered
      refine ⟨fragment, resolved, _, name_eq ▸ found, run firstFresh, rfl, fun name mem => ?_⟩
      rcases (extendedFresh.mem_typesUsed name).1 mem with none | mem
      · cases none
      · exact (extended.mem_typesUsed name).2 (.inr mem)
    · exact extended.sound.remembered name names remembered

/-- **Remembered references** are those that resolving the fragment gives, and the types that this
uses are used already. -/
private theorem gives_fragmentReferences
    (found : table.linked.find? fragment.name = some fragment) {outcome : Outcome Resolved}
    (h : Gives settings table (resolveFragment settings fragment) outcome) :
    Gives settings table (fragmentReferences settings fragment (resolveBelow settings _))
      ⟨outcome.result.map Resolved.references, outcome.used⟩ := by
  obtain ⟨result, used⟩ := outcome
  intro before sound
  have look : (remembered? fragment.name).run before
      = (.ok (before.references.find? fragment.name), before) := rfl
  rw [fragmentReferences, run_bind, look]
  cases known : before.references.find? fragment.name with
  | none => exact h.map Resolved.references before sound
  | some names =>
    obtain ⟨other, resolved, after, foundOther, fresh, references, usedBefore⟩ :=
      sound.remembered fragment.name names known
    obtain rfl : fragment = other := Option.some.inj (found.symm.trans foundOther)
    obtain ⟨_, run, extended⟩ := h {} (CompilerState.sound_empty settings table)
    cases fresh.symm.trans run
    refine ⟨{ before with log := before.log ++ [.reusingReferences fragment.name] }, ?_,
      ⟨sound.remembered, sound.closed, sound.acyclic⟩, fun name => ⟨.inl, ?_⟩⟩
    · rw [← references]
      rfl
    · rintro (old | new)
      · exact old
      · exact usedBefore ((extended.mem_typesUsed name).2 (.inr new))

end

/-! ### Agreement -/

/-- Whether the resolutions of sites below a height agree. -/
private def Agreeing (settings : Settings) (repetition : Repetition) (table : FragmentTable)
    (n : Nat) : Prop :=
  ∀ site site' : Site, height site.selections < n →
    (∀ selection ∈ site.selections, selection.LinkedBy table.linked.find?) → site.Same site' →
    Agree settings (settings.repeating repetition) table (site.resolution settings)
      (site'.resolution (settings.repeating repetition))

section

variable {n : Nat} (agreeing : Agreeing settings repetition table n)

private theorem Agreeing.of_le {m : Nat} (agreeing : Agreeing settings repetition table n)
    (le : m ≤ n) : Agreeing settings repetition table m :=
  fun site site' low => agreeing site site' (Nat.lt_of_lt_of_le low le)

theorem height_flatMap_lt {α : Type} {xs : List α} {f : α → List LinkedSelection} (pos : 0 < n)
    (low : ∀ x ∈ xs, height (f x) < n) : height (xs.flatMap f) < n := by
  have height_append : ∀ selections more : List LinkedSelection,
      height (selections ++ more) = max (height selections) (height more) := by
    intro selections more
    induction selections with
    | nil => rw [List.nil_append, height, Nat.zero_max]
    | cons selection rest ih => rw [List.cons_append, height, height, ih, Nat.max_assoc]
  induction xs with
  | nil => exact pos
  | cons x rest ih =>
    obtain ⟨first, others⟩ := List.forall_mem_cons.1 low
    rw [List.flatMap_cons, height_append]
    exact Nat.max_lt.2 ⟨first, ih others⟩

include agreeing

private theorem agree_resolveField (parent : Name) {field field' : ApplicableField}
    (same : field.Same field')
    (linked : ∀ selection ∈ field.site.selections, selection.LinkedBy table.linked.find?)
    {m : Nat} (bound : ∀ occurrence ∈ field.occurrences, height occurrence.selections < n)
    (bound' : ∀ occurrence ∈ field'.occurrences, height occurrence.selections < m) :
    Agree settings (settings.repeating repetition) table
      (resolveField settings (resolveBelow settings n) parent field bound)
      (resolveField (settings.repeating repetition)
        (resolveBelow (settings.repeating repetition) m) parent field' bound') := by
  have low : height field.site.selections < n := by
    have first := bound field.first List.mem_cons_self
    exact height_flatMap_lt (Nat.lt_of_le_of_lt (Nat.zero_le _) first) bound
  rw [resolveField, resolveField, same.any_eq, same.first_eq, same.responseName_eq, same.bareType_eq]
  refine Agree.bind ⟨_, gives_useType _, gives_useType _⟩ fun _ => ?_
  dsimp only
  split
  · rename_i composite
    rw [resolveSubselections_eq settings (same.bareType_eq ▸ composite),
      resolveSubselections_eq (settings.repeating repetition) composite]
    exact ((agreeing field.site field'.site low linked same.site).map some).bind
      fun resolved => agree_pure _
  · exact (agree_pure none).bind fun resolved => agree_pure _

private theorem agree_resolveFields (parent : Name) {fields fields' : List ApplicableField}
    (same : List.Forall₂ ApplicableField.Same fields fields')
    (linked : ∀ field ∈ fields, ∀ selection ∈ field.site.selections,
      selection.LinkedBy table.linked.find?) {m : Nat}
    (bound : ∀ field ∈ fields, ∀ occurrence ∈ field.occurrences, height occurrence.selections < n)
    (bound' : ∀ field ∈ fields', ∀ occurrence ∈ field.occurrences,
      height occurrence.selections < m) (references : List Name) :
    Agree settings (settings.repeating repetition) table
      (resolveFields settings (resolveBelow settings n) parent fields bound references)
      (resolveFields (settings.repeating repetition)
        (resolveBelow (settings.repeating repetition) m) parent fields' bound' references) := by
  induction same generalizing references with
  | nil => exact agree_pure ([], references)
  | cons first rest ih =>
    obtain ⟨linkedFirst, linkedRest⟩ := List.forall_mem_cons.1 linked
    rw [resolveFields, resolveFields]
    refine (agree_resolveField agreeing parent first linkedFirst _ _).bind fun compiled => ?_
    exact (ih linkedRest _ _ (unionNames references compiled.2)).bind fun others => agree_pure _

private theorem agree_resolveFragment {fragment : Fragment} (low : fragment.height ≤ n)
    (found : table.linked.find? fragment.name = some fragment)
    (linked : fragment.LinkedBy table.linked.find?) :
    Agree settings (settings.repeating repetition) table (resolveFragment settings fragment)
      (resolveFragment (settings.repeating repetition) fragment) := by
  cases known : settings.schema.typeKind? fragment.typeCondition with
  | none =>
    have unknown : (settings.repeating repetition).schema.typeKind? fragment.typeCondition = none :=
      known
    rw [resolveFragment_eq_throw known, resolveFragment_eq_throw unknown]
    exact agree_throw _
  | some kind =>
    rw [fragment.height_eq] at low
    have linked := linkedBy_iff.1 (Fragment.linkedBy_iff.1 linked)
    obtain ⟨outcome, gives, gives'⟩ := agreeing fragment.site fragment.site low linked (.refl _)
    exact ⟨outcome, gives_resolveFragment settings found known gives,
      gives_resolveFragment (settings.repeating repetition) found known gives'⟩

private theorem agree_spreadReferences {fragments fragments' : List Fragment}
    (eq : fragments = fragments')
    (known : ∀ fragment ∈ fragments, table.linked.find? fragment.name = some fragment ∧
      fragment.LinkedBy table.linked.find?) {m : Nat}
    (bound : ∀ fragment ∈ fragments, fragment.height ≤ n)
    (bound' : ∀ fragment ∈ fragments', fragment.height ≤ m) (references : List Name) :
    Agree settings (settings.repeating repetition) table
      (spreadReferences settings (resolveBelow settings n) fragments bound references)
      (spreadReferences (settings.repeating repetition)
        (resolveBelow (settings.repeating repetition) m) fragments' bound' references) := by
  subst eq
  induction fragments generalizing references with
  | nil => exact agree_pure references
  | cons fragment rest ih =>
    obtain ⟨⟨found, linked⟩, knownRest⟩ := List.forall_mem_cons.1 known
    rw [spreadReferences, spreadReferences]
    obtain ⟨outcome, gives, gives'⟩ :=
      agree_resolveFragment agreeing (bound fragment List.mem_cons_self) found linked
    refine Agree.bind ⟨_, gives_fragmentReferences found gives,
      gives_fragmentReferences found gives'⟩ fun own => ?_
    exact ih knownRest _ (unionNames references own) _

end

/-! ### Collections of a site -/

section

variable {site : Site} {collection collection' : Collection}
  (agreeing : Agreeing settings repetition table collection.height)
  (collected : site.Collected settings table.linked.find? collection)
  (collected' : site.Collected settings table.linked.find? collection')

include agreeing collected collected'

private theorem agree_resolveFieldsAt (typeName : Name) (references : List Name) :
    Agree settings (settings.repeating repetition) table
      (resolveFieldsAt settings collection (resolveBelow settings _) typeName references)
      (resolveFieldsAt (settings.repeating repetition) collection'
        (resolveBelow (settings.repeating repetition) _) typeName references) := by
  obtain ⟨mentions, holds, same⟩ := collected.gathers
  obtain ⟨mentions', holds', same'⟩ := collected'.gathers
  refine agree_resolveFields agreeing typeName
    (applicableFields_same holds holds' (same.trans same'.symm) typeName) (fun field mem => ?_)
    _ _ references
  exact collected.inherited_field (hereditary_linkedBy _) collected.linked mem

private theorem agree_spreadReferencesAt (typeName : Name) (references : List Name) :
    Agree settings (settings.repeating repetition) table
      (spreadReferencesAt settings collection (resolveBelow settings _) typeName references)
      (spreadReferencesAt (settings.repeating repetition) collection'
        (resolveBelow (settings.repeating repetition) _) typeName references) := by
  obtain ⟨mentions, holds, same⟩ := collected.gathers
  obtain ⟨mentions', holds', same'⟩ := collected'.gathers
  refine agree_spreadReferences agreeing
    (fragmentsAt_same holds holds' (same.trans same'.symm) typeName) (fun fragment mem => ?_)
    _ _ references
  obtain ⟨expandedAt, mentioned, -⟩ := collected.mem_fragmentsAt.1 mem
  exact collected.found mentioned

private theorem agree_resolveBranches (objects references : List Name) :
    Agree settings (settings.repeating repetition) table
      (resolveBranches settings collection (resolveBelow settings _) objects references)
      (resolveBranches (settings.repeating repetition) collection'
        (resolveBelow (settings.repeating repetition) _) objects references) := by
  obtain ⟨mentions, holds, same⟩ := collected.gathers
  obtain ⟨mentions', holds', same'⟩ := collected'.gathers
  have spreadNames := fun typeName => congrArg (List.map Fragment.name)
    (fragmentsAt_same holds holds' (same.trans same'.symm) typeName)
  induction objects generalizing references with
  | nil => exact agree_pure ([], references)
  | cons object rest ih =>
    rw [resolveBranches, resolveBranches]
    refine Agree.bind ?_ fun branch => (ih branch.2).bind fun others => agree_pure _
    rw [resolveBranch, resolveBranch]
    refine (agree_resolveFieldsAt agreeing collected collected' object references).bind
      fun fields => ?_
    refine (agree_spreadReferencesAt agreeing collected collected' object fields.2).bind
      fun references => ?_
    rw [spreadNamesAt, spreadNamesAt, spreadNames]
    exact agree_pure _

private theorem agree_resolve :
    Agree settings (settings.repeating repetition) table (resolve settings site.parent collection)
      (resolve (settings.repeating repetition) site.parent collection') := by
  obtain ⟨mentions, holds, same⟩ := collected.gathers
  obtain ⟨mentions', holds', same'⟩ := collected'.gathers
  have sameMentions := same.trans same'.symm
  rw [resolve.eq_1, resolve.eq_1, resolveWith, resolveWith]
  dsimp only
  rw [expandedNames_same holds holds' sameMentions,
    narrowedTypes_same holds holds' sameMentions site.parent]
  refine (agree_resolveFieldsAt agreeing collected collected' site.parent _).bind fun fields => ?_
  refine (agree_resolveBranches agreeing collected collected' _ fields.2).bind fun branches => ?_
  refine (agree_spreadReferencesAt agreeing collected collected' site.parent branches.2).bind
    fun references => ?_
  rw [spreadNamesAt, spreadNamesAt, fragmentsAt_same holds holds' sameMentions site.parent]
  exact agree_pure _

end

/-- **Resolutions agree** at sites that are the same but for repetitions, whatever happens to
repeated fragments. -/
theorem agree_resolution {site site' : Site} (same : site.Same site')
    (linked : ∀ selection ∈ site.selections, selection.LinkedBy table.linked.find?) :
    Agree settings (settings.repeating repetition) table (site.resolution settings)
      (site'.resolution (settings.repeating repetition)) := by
  have agreeing : ∀ n, Agreeing settings repetition table n := by
    intro n
    induction n with
    | zero => exact fun _ _ low => absurd low (Nat.not_lt_zero _)
    | succ n ih =>
      intro site site' low linked same
      rw [Site.resolution, Site.resolution]
      rcases collect_same same linked with ⟨failure, failure', eq, eq', error⟩ |
        ⟨collection, collection', eq, eq', collected, collected'⟩
      · rw [eq, eq']
        exact ⟨_, gives_fail failure, error ▸ gives_fail failure'⟩
      · rw [eq, eq']
        have lower : collection.height ≤ n :=
          height_collect_le eq (Nat.le_of_lt_succ low) (Nat.zero_le n)
        refine (agree_tell collection.events collection'.events).bind fun _ => ?_
        rw [← same.parent_eq]
        exact agree_resolve (ih.of_le lower) collected collected'
  exact agreeing _ site site' (Nat.lt_succ_self _) linked same

/-- Resolutions of a fragment agree. -/
theorem agree_resolveFragment_of_linked {fragment : Fragment}
    (found : table.linked.find? fragment.name = some fragment)
    (linked : fragment.LinkedBy table.linked.find?) :
    Agree settings (settings.repeating repetition) table (resolveFragment settings fragment)
      (resolveFragment (settings.repeating repetition) fragment) :=
  agree_resolveFragment (fun _ _ _ linked same => agree_resolution same linked) (Nat.le_refl _)
    found linked

end GraphQLCompiler
