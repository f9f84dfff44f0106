import GraphQLCompiler.Proofs.Compilation
import GraphQLCompiler.Proofs.Determinacy

/-!
# What compilation records

Types are recorded as used on the way, one at a time: those of variables, and that of each field
that is resolved. What is recorded is meant to be what the compiled document needs, and two things
could go wrong. A fragment that is spread is resolved for the fragments that it references, and the
selection set that this gives is thrown away, while its types are recorded; and if the references
are remembered the fragment is not resolved at all. Neither does any harm in a whole document: a
fragment is compiled for itself, at one time or another, to that very selection set.

So every computation **records** some types (`CompileM.Records`), and the resolution of a selection
set records what its fields use, and besides nothing but what the selection sets of fragments use
(`Recorded`). The induction is on the height of what is resolved.

## Main definitions

* `Compiled.Among`: the fields in a compiled tree, at any depth.
* `Compiled.Document.Needs`: the types of the variables and fields of a compiled document.
* `CompileM.Records`: what a computation adds to the used types.

## Main results

* `records_resolution`: what the resolution of a site records.
* `mem_typesUsed_iff`: what is recorded for a document is what the compiled document needs.
-/

namespace GraphQLCompiler

/-! ### What a compiled document needs -/

namespace Compiled

/-- Whether a field is one of some fields or **among** the fields inside them: those of their
selection sets and branches, at any depth. -/
inductive Among : List Field → Field → Prop where
  | here {fields : List Field} {field : Field} (mem : field ∈ fields) : Among fields field
  | inside {fields : List Field} {outer field : Field} {inner : SelectionSet} (mem : outer ∈ fields)
      (composite : outer.selectionSet = some inner) (among : Among (allFields inner) field) :
    Among fields field

/-- The types that a compiled document **needs**: the bare types of the variables of its operations,
and of the fields anywhere in its operations and fragments. -/
inductive Document.Needs (compiled : Document) : Name → Prop where
  | variable {operation : Operation} {variableDefinition : Variable}
      (operationMem : operation ∈ compiled.operations.values)
      (mem : variableDefinition ∈ operation.variableDefinitions) :
    Needs compiled variableDefinition.type.bare
  | operationField {operation : Operation} {field : Field}
      (operationMem : operation ∈ compiled.operations.values)
      (among : Among operation.fields field) : Needs compiled field.type.bare
  | fragmentField {fragment : Fragment} {field : Field}
      (fragmentMem : fragment ∈ compiled.fragments.values)
      (among : Among (allFields fragment.selectionSet) field) : Needs compiled field.type.bare

/-- What the fields of a compiled tree use. -/
def usedIn (schema : Schema) (fields : List Field) : Set Name :=
  { name | ∃ field, Among fields field ∧ schema.Uses field.type.bare name }

variable {schema : Schema}

theorem among_append_iff {fields more : List Field} {field : Field} :
    Among (fields ++ more) field ↔ Among fields field ∨ Among more field := by
  constructor
  · rintro (mem | ⟨mem, composite, among⟩)
    · exact (List.mem_append.1 mem).imp .here .here
    · exact (List.mem_append.1 mem).imp (.inside · composite among) (.inside · composite among)
  · rintro ((mem | ⟨mem, composite, among⟩) | (mem | ⟨mem, composite, among⟩))
    · exact .here (List.mem_append_left _ mem)
    · exact .inside (List.mem_append_left _ mem) composite among
    · exact .here (List.mem_append_right _ mem)
    · exact .inside (List.mem_append_right _ mem) composite among

/-- What is among a field that is one of others is among those. -/
theorem Among.of_mem {fields : List Field} {field inner : Field} (among : Among [field] inner)
    (mem : field ∈ fields) : Among fields inner := by
  rcases among with here | ⟨here, composite, among⟩
  · exact .here (List.mem_singleton.1 here ▸ mem)
  · exact .inside (List.mem_singleton.1 here ▸ mem) composite among

theorem usedIn_nil : usedIn schema [] = ∅ := by
  ext name
  simp only [usedIn, Set.mem_ofPred_eq, Set.mem_empty_iff_false, iff_false]
  rintro ⟨field, mem | ⟨mem, -, -⟩, -⟩ <;> cases mem

theorem usedIn_append (fields more : List Field) :
    usedIn schema (fields ++ more) = usedIn schema fields ∪ usedIn schema more := by
  ext name
  simp only [usedIn, Set.mem_ofPred_eq, Set.mem_union, among_append_iff, or_and_right, exists_or]

/-- A field uses what its type uses and what the fields inside it use. -/
theorem usedIn_singleton (field : Field) : usedIn schema [field]
    = { name | schema.Uses field.type.bare name }
      ∪ field.selectionSet.elim ∅ fun inner => usedIn schema (allFields inner) := by
  ext name
  simp only [usedIn, Set.mem_ofPred_eq, Set.mem_union]
  constructor
  · rintro ⟨other, mem | ⟨mem, composite, among⟩, uses⟩
    · rw [List.mem_singleton.1 mem] at uses
      exact .inl uses
    · rw [List.mem_singleton.1 mem] at composite
      rw [composite]
      exact .inr ⟨other, among, uses⟩
  · rintro (uses | mem)
    · exact ⟨field, .here (List.mem_singleton_self field), uses⟩
    · cases composite : field.selectionSet with
      | none =>
        rw [composite] at mem
        cases mem
      | some inner =>
        rw [composite] at mem
        obtain ⟨other, among, uses⟩ := mem
        exact ⟨other, .inside (List.mem_singleton_self field) composite among, uses⟩

end Compiled

/-! ### Recording -/

namespace CompileM

variable {α β : Type} {schema : Schema}

/-- A computation **records** types if its results come with the types that it adds to the used
types, which stay closed and without repetition. -/
def Records (schema : Schema) (m : CompileM α) (post : α → Set Name → Prop) : Prop :=
  ∀ before a after, before.typesUsed.Nodup → TypesUsed.Closed schema before.typesUsed →
    m.run before = (.ok a, after) →
    after.typesUsed.Nodup ∧ TypesUsed.Closed schema after.typesUsed ∧
      ∃ used, post a used ∧
        ∀ name, name ∈ after.typesUsed ↔ name ∈ before.typesUsed ∨ name ∈ used

variable {m : CompileM α} {post : α → Set Name → Prop}

theorem Records.mono {post' : α → Set Name → Prop} (h : Records schema m post)
    (weaker : ∀ a used, post a used → post' a used) : Records schema m post' := by
  intro before a after nodup closed run
  obtain ⟨nodupAfter, closedAfter, used, holds, mem_iff⟩ := h before a after nodup closed run
  exact ⟨nodupAfter, closedAfter, used, weaker a used holds, mem_iff⟩

/-- What is ensured of results from any state holds of what comes with the types. -/
theorem Records.and {property : α → Prop} (h : Records schema m post)
    (ensured : Ensures (fun _ => True) False m property) :
    Records schema m fun a used => property a ∧ post a used := by
  intro before a after nodup closed run
  obtain ⟨nodupAfter, closedAfter, used, holds, mem_iff⟩ := h before a after nodup closed run
  have result : (m.run before).1 = .ok a := by rw [run]
  exact ⟨nodupAfter, closedAfter, used, ⟨ensured.holds before trivial a result, holds⟩, mem_iff⟩

/-- A computation **keeps** the used types if it adds nothing to them, and its results have a
property. -/
abbrev Keeps (schema : Schema) (m : CompileM α) (property : α → Prop) : Prop :=
  Records schema m fun a used => property a ∧ used = ∅

theorem keeps_of_eq {property : α → Prop} (eq : ∀ before a after, m.run before = (.ok a, after) →
    property a ∧ after.typesUsed = before.typesUsed) : Keeps schema m property := by
  intro before a after nodup closed run
  obtain ⟨holds, eq⟩ := eq before a after run
  rw [eq]
  exact ⟨nodup, closed, ∅, ⟨holds, rfl⟩, fun name => (or_iff_left (Set.notMem_empty name)).symm⟩

theorem records_pure {a : α} (h : post a ∅) : Records schema (pure a) post := by
  have kept : Keeps schema (pure a : CompileM α) (· = a) := keeps_of_eq fun before b after run => by
    cases run
    exact ⟨rfl, rfl⟩
  refine kept.mono ?_
  rintro _ _ ⟨rfl, rfl⟩
  exact h

theorem records_throw {e : CompileError} : Records schema (throw e : CompileM α) post :=
  fun _ _ _ _ _ run => by cases run

theorem records_fail {failure : Failure} : Records schema (fail failure : CompileM α) post :=
  fun _ _ _ _ _ run => by cases run

theorem keeps_ofExcept {result : Except CompileError α} :
    Keeps schema (ofExcept result) fun _ => True := by
  cases result with
  | error e => exact records_throw
  | ok a => exact records_pure ⟨trivial, rfl⟩

theorem keeps_get : Keeps schema (get : CompileM CompilerState) fun _ => True :=
  keeps_of_eq fun before b after run => by
    cases run
    exact ⟨trivial, rfl⟩

theorem keeps_tell {events : List LogEvent} : Keeps schema (tell events) fun _ => True :=
  keeps_of_eq fun before b after run => by
    cases run
    exact ⟨trivial, rfl⟩

theorem keeps_remember {name : Name} {names : List Name} :
    Keeps schema (remember name names) fun _ => True :=
  keeps_of_eq fun before b after run => by
    cases run
    exact ⟨trivial, rfl⟩

theorem keeps_remembered? {name : Name} : Keeps schema (remembered? name) fun _ => True :=
  keeps_of_eq fun before b after run => by
    cases run
    exact ⟨trivial, rfl⟩

/-- A used type is recorded with what it uses. -/
theorem records_useType {name : Name} :
    Records schema (useType schema name) fun _ used =>
      used = { other | schema.Uses name other } := by
  intro before a after nodup closed run
  cases run
  exact ⟨TypesUsed.nodup_add nodup, closed.add, _, rfl, fun _ => TypesUsed.mem_add_iff closed⟩

/-- A sequence of computations records what either of them does. -/
theorem Records.bind {next : α → CompileM β} {post' : β → Set Name → Prop}
    (h : Records schema m post) (h' : ∀ a used, post a used →
      Records schema (next a) fun b more => post' b (used ∪ more)) :
    Records schema (m >>= next) post' := by
  intro before b after nodup closed run
  rw [run_bind] at run
  rcases first : m.run before with ⟨e | a, middle⟩
  · rw [first] at run
    cases run
  · rw [first] at run
    obtain ⟨nodup, closed, used, holds, mem_iff⟩ := h before a middle nodup closed first
    obtain ⟨nodup, closed, more, holds, mem_iff'⟩ := h' a used holds middle b after nodup closed run
    refine ⟨nodup, closed, used ∪ more, holds, fun name => ?_⟩
    rw [mem_iff', mem_iff, or_assoc]
    rfl

/-- What comes after a computation that keeps the used types records all. -/
theorem Keeps.bind {property : α → Prop} {next : α → CompileM β} {post' : β → Set Name → Prop}
    (h : Keeps schema m property) (h' : ∀ a, property a → Records schema (next a) post') :
    Records schema (m >>= next) post' := by
  refine Records.bind h fun a used ⟨holds, eq⟩ => ?_
  rw [eq]
  simpa only [Set.empty_union] using h' a holds

theorem keeps_checkOnce {check : Except CompileError α} :
    Keeps schema (checkOnce check) fun _ => True := by
  have marked : Keeps schema
      (modify fun state => { state with cyclesChecked := true } : CompileM PUnit) fun _ => True :=
    keeps_of_eq fun before b after run => by
      cases run
      exact ⟨trivial, rfl⟩
  refine keeps_get.bind fun state _ => ?_
  split
  · exact records_pure ⟨trivial, rfl⟩
  · exact keeps_ofExcept.bind fun _ _ => marked

theorem Records.map {f : α → β} {post' : β → Set Name → Prop}
    (h : Records schema m fun a used => post' (f a) used) : Records schema (f <$> m) post' := by
  rw [← bind_pure_comp]
  refine h.bind fun a used holds => records_pure ?_
  rwa [Set.union_empty]

end CompileM

/-! ### What is needed, and what else is recorded -/

/-- Whether types are **recorded** for some that are needed: they are these, and perhaps others. -/
structure Recorded (others needed used : Set Name) : Prop where
  needed_subset : needed ⊆ used
  subset_union : used ⊆ needed ∪ others

namespace Recorded

variable {others needed used needed' used' : Set Name}

theorem refl : Recorded others used used := ⟨subset_rfl, Set.subset_union_left⟩

/-- Nothing is needed of others. -/
theorem of_subset (sub : used ⊆ others) : Recorded others ∅ used :=
  ⟨Set.empty_subset used, sub.trans Set.subset_union_right⟩

theorem union (h : Recorded others needed used) (h' : Recorded others needed' used') :
    Recorded others (needed ∪ needed') (used ∪ used') where
  needed_subset := Set.union_subset_union h.needed_subset h'.needed_subset
  subset_union := by
    refine Set.union_subset (h.subset_union.trans ?_) (h'.subset_union.trans ?_)
    · exact Set.union_subset_union_left others Set.subset_union_left
    · exact Set.union_subset_union_left others Set.subset_union_right

/-- Types that are recorded besides others that are needed are those. -/
theorem eq_of_subset (h : Recorded others needed used) (sub : others ⊆ needed) : used = needed :=
  Set.Subset.antisymm (h.subset_union.trans (Set.union_subset subset_rfl sub)) h.needed_subset

end Recorded

section

variable (settings : Settings) (find : Name → Option Fragment)

/-- What the selection sets of fragments use. -/
def usedByFragments : Set Name :=
  { name | ∃ fragment selectionSet, find fragment.name = some fragment ∧
    fragment.site.CompilesTo settings find selectionSet ∧
    name ∈ Compiled.usedIn settings.schema (Compiled.allFields selectionSet) }

/-- Whether types are recorded for some compiled fields. -/
abbrev RecordedFor (fields : List Compiled.Field) (used : Set Name) : Prop :=
  Recorded (usedByFragments settings find) (Compiled.usedIn settings.schema fields) used

/-- Whether the resolutions of sites below a height record what their fields use. -/
private def Recording (n : Nat) : Prop :=
  ∀ site : Site, height site.selections < n →
    (∀ selection ∈ site.selections, selection.LinkedBy find) →
    CompileM.Records settings.schema (site.resolution settings) fun resolved used =>
      RecordedFor settings find (Compiled.allFields resolved.selectionSet) used

end

open CompileM

variable {settings : Settings} {find : Name → Option Fragment}

private theorem Recording.of_le {m n : Nat} (recording : Recording settings find n) (le : m ≤ n) :
    Recording settings find m :=
  fun site low => recording site (Nat.lt_of_lt_of_le low le)

/-! ### Fields and fragments -/

section

variable {n : Nat} (recording : Recording settings find n)

include recording

private theorem records_resolveField (parent : Name) {field : ApplicableField}
    (linked : ∀ selection ∈ field.site.selections, selection.LinkedBy find)
    (bound : ∀ occurrence ∈ field.occurrences, height occurrence.selections < n) :
    Records settings.schema (resolveField settings (resolveBelow settings n) parent field bound)
      fun result used => RecordedFor settings find [result.1] used := by
  have low : height field.site.selections < n := by
    have first := bound field.first List.mem_cons_self
    exact height_flatMap_lt (Nat.lt_of_le_of_lt (Nat.zero_le _) first) bound
  rw [resolveField]
  refine records_useType.bind ?_
  rintro _ _ rfl
  dsimp only
  split
  · rename_i composite
    rw [resolveSubselections_eq settings composite]
    have inner : Records settings.schema (some <$> field.site.resolution settings)
        fun resolved used => ∃ inner, resolved = some inner ∧
          RecordedFor settings find (Compiled.allFields inner.selectionSet) used :=
      ((recording field.site low linked).mono fun inner used recorded =>
        ⟨inner, rfl, recorded⟩).map
    refine inner.bind ?_
    rintro _ used ⟨inner, rfl, recorded⟩
    refine records_pure ?_
    rw [Set.union_empty, RecordedFor, Compiled.usedIn_singleton]
    exact Recorded.refl.union recorded
  · have nothing : Records settings.schema (pure none : CompileM (Option Resolved))
        fun resolved used => resolved = none ∧ used = ∅ := records_pure ⟨rfl, rfl⟩
    refine nothing.bind ?_
    rintro _ _ ⟨rfl, rfl⟩
    refine records_pure ?_
    rw [Set.union_empty, RecordedFor, Compiled.usedIn_singleton]
    exact Recorded.refl.union Recorded.refl

private theorem records_resolveFields (parent : Name) :
    ∀ (fields : List ApplicableField) (bound : ∀ field ∈ fields,
      ∀ occurrence ∈ field.occurrences, height occurrence.selections < n) (references : List Name),
    (∀ field ∈ fields, ∀ selection ∈ field.site.selections, selection.LinkedBy find) →
    Records settings.schema
      (resolveFields settings (resolveBelow settings n) parent fields bound references)
      fun result used => RecordedFor settings find result.1 used
  | [], _, _, _ => by
    refine records_pure ?_
    rw [RecordedFor, Compiled.usedIn_nil]
    exact Recorded.refl
  | field :: rest, bound, references, linked => by
    obtain ⟨linkedFirst, linkedRest⟩ := List.forall_mem_cons.1 linked
    rw [resolveFields]
    refine (records_resolveField recording parent linkedFirst _).bind fun first used recorded => ?_
    refine (records_resolveFields parent rest _ _ linkedRest).bind
      fun others more recordedRest => ?_
    refine records_pure ?_
    rw [Set.union_empty, ← List.singleton_append, RecordedFor, Compiled.usedIn_append]
    exact recorded.union recordedRest

/-- Resolving a fragment records what its site does. -/
private theorem records_resolveFragment {fragment : Fragment} (low : fragment.height ≤ n)
    (linked : fragment.LinkedBy find) :
    Records settings.schema (resolveFragment settings fragment) fun resolved used =>
      RecordedFor settings find (Compiled.allFields resolved.selectionSet) used := by
  cases known : settings.schema.typeKind? fragment.typeCondition with
  | none =>
    rw [resolveFragment_eq_throw known]
    exact records_throw
  | some kind =>
    rw [fragment.height_eq] at low
    rw [resolveFragment_eq known]
    have linkedInside := linkedBy_iff.1 (Fragment.linkedBy_iff.1 linked)
    refine (recording fragment.site low linkedInside).bind fun resolved used recorded => ?_
    refine keeps_remember.bind fun _ _ => records_pure ?_
    rwa [Set.union_empty]

/-- **The references of a fragment** are found without recording more than what fragments use: what
is recorded is for a selection set that the fragment is compiled to, or nothing. -/
private theorem records_fragmentReferences {fragment : Fragment} (low : fragment.height ≤ n)
    (found : find fragment.name = some fragment) (linked : fragment.LinkedBy find) :
    Records settings.schema (fragmentReferences settings fragment (resolveBelow settings _))
      fun _ used => used ⊆ usedByFragments settings find := by
  rw [fragmentReferences]
  refine keeps_remembered?.bind fun known _ => ?_
  cases known with
  | some references =>
    exact keeps_tell.bind fun _ _ => records_pure (Set.empty_subset _)
  | none =>
    refine ((records_resolveFragment recording low linked).and
      (ensures_compilesTo_site linked)).bind fun resolved used holds => records_pure ?_
    obtain ⟨compiles, recorded⟩ := holds
    rw [Set.union_empty]
    refine recorded.subset_union.trans (Set.union_subset (fun name mem => ?_) subset_rfl)
    exact ⟨fragment, resolved.selectionSet, found, compiles, mem⟩

private theorem records_spreadReferences :
    ∀ (fragments : List Fragment) (bound : ∀ fragment ∈ fragments, fragment.height ≤ n)
      (references : List Name),
    (∀ fragment ∈ fragments, find fragment.name = some fragment ∧ fragment.LinkedBy find) →
    Records settings.schema
      (spreadReferences settings (resolveBelow settings n) fragments bound references)
      fun _ used => used ⊆ usedByFragments settings find
  | [], _, _, _ => records_pure (Set.empty_subset _)
  | fragment :: rest, bound, references, known => by
    obtain ⟨⟨found, linked⟩, knownRest⟩ := List.forall_mem_cons.1 known
    rw [spreadReferences]
    refine (records_fragmentReferences recording (bound fragment List.mem_cons_self) found
      linked).bind fun own used sub => ?_
    exact (records_spreadReferences rest _ _ knownRest).mono fun _ more subRest =>
      Set.union_subset sub subRest

end

/-! ### Sites -/

section

variable {site : Site} {collection : Collection}
  (recording : Recording settings find collection.height)
  (collected : site.Collected settings find collection)

include recording collected

private theorem records_resolveFieldsAt (typeName : Name) (references : List Name) :
    Records settings.schema
      (resolveFieldsAt settings collection (resolveBelow settings _) typeName references)
      fun result used => RecordedFor settings find result.1 used :=
  records_resolveFields recording typeName _ _ references fun _ mem =>
    collected.inherited_field (hereditary_linkedBy _) collected.linked mem

private theorem records_spreadReferencesAt (typeName : Name) (references : List Name) :
    Records settings.schema
      (spreadReferencesAt settings collection (resolveBelow settings _) typeName references)
      fun _ used => used ⊆ usedByFragments settings find := by
  refine records_spreadReferences recording _ _ references fun fragment mem => ?_
  obtain ⟨expandedAt, mentioned, -⟩ := collected.mem_fragmentsAt.1 mem
  exact collected.found mentioned

private theorem records_resolveBranch (object : Name) (references : List Name) :
    Records settings.schema
      (resolveBranch settings collection (resolveBelow settings _) object references)
      fun result used => RecordedFor settings find result.1.fields used := by
  rw [resolveBranch]
  refine (records_resolveFieldsAt recording collected object references).bind
    fun fields used recorded => ?_
  refine (records_spreadReferencesAt recording collected object fields.2).bind
    fun spreads more sub => records_pure ?_
  rw [Set.union_empty, RecordedFor, ← Set.union_empty (Compiled.usedIn _ _)]
  exact recorded.union (.of_subset sub)

private theorem records_resolveBranches : ∀ objects references : List Name,
    Records settings.schema
      (resolveBranches settings collection (resolveBelow settings _) objects references)
      fun result used =>
        RecordedFor settings find (result.1.flatMap Compiled.Branch.fields) used
  | [], _ => by
    refine records_pure ?_
    rw [List.flatMap_nil, RecordedFor, Compiled.usedIn_nil]
    exact Recorded.refl
  | object :: rest, references => by
    rw [resolveBranches]
    refine (records_resolveBranch recording collected object references).bind
      fun first used recorded => ?_
    refine (records_resolveBranches rest first.2).bind fun others more recordedRest => ?_
    refine records_pure ?_
    rw [Set.union_empty, List.flatMap_cons, RecordedFor, Compiled.usedIn_append]
    exact recorded.union recordedRest

private theorem records_resolve :
    Records settings.schema (resolve settings site.parent collection) fun resolved used =>
      RecordedFor settings find (Compiled.allFields resolved.selectionSet) used := by
  rw [resolve.eq_1, resolveWith]
  dsimp only
  refine (records_resolveFieldsAt recording collected site.parent _).bind
    fun fields used recorded => ?_
  refine (records_resolveBranches recording collected _ fields.2).bind
    fun branches more recordedBranches => ?_
  refine (records_spreadReferencesAt recording collected site.parent branches.2).bind
    fun spreads rest sub => records_pure ?_
  rw [Set.union_empty, Compiled.allFields, RecordedFor, Compiled.usedIn_append,
    ← Set.union_empty (Compiled.usedIn _ (branches.1.flatMap _))]
  exact recorded.union (recordedBranches.union (.of_subset sub))

end

private theorem recording (n : Nat) : Recording settings find n := by
  induction n with
  | zero => exact fun _ low => absurd low (Nat.not_lt_zero _)
  | succ n ih =>
    intro site low linked
    rw [Site.resolution]
    split
    · exact records_fail
    · rename_i collection collects
      have lower : collection.height ≤ n :=
        height_collect_le collects (Nat.le_of_lt_succ low) (Nat.zero_le n)
      refine keeps_tell.bind fun _ _ => ?_
      exact records_resolve (ih.of_le lower) (site.collected_of_collect linked collects)

/-- **The resolution of a site records** what the fields of the compiled selection set use, and
besides nothing but what the selection sets of fragments use. -/
theorem records_resolution (settings : Settings) (site : Site)
    (linked : ∀ selection ∈ site.selections, selection.LinkedBy find) :
    Records settings.schema (site.resolution settings) fun resolved used =>
      RecordedFor settings find (Compiled.allFields resolved.selectionSet) used :=
  recording _ site (Nat.lt_succ_self _) linked

/-! ### Definitions -/

/-- Results for some elements, and what is recorded for them in order. -/
private theorem records_mapM {α β : Type} {schema : Schema} {others : Set Name}
    {f : α → CompileM β} {property : α → β → Prop} {needs : β → Set Name} {xs : List α}
    (h : ∀ x ∈ xs, Records schema (f x) fun y used =>
      property x y ∧ Recorded others (needs y) used) :
    Records schema (xs.mapM f) fun ys used =>
      List.Forall₂ property xs ys ∧ Recorded others { name | ∃ y ∈ ys, name ∈ needs y } used := by
  induction xs with
  | nil =>
    rw [List.mapM_nil]
    refine records_pure ⟨.nil, ?_⟩
    have nothing : Recorded others ∅ ∅ := .refl
    simpa using nothing
  | cons x rest ih =>
    rw [List.mapM_cons]
    refine (h x List.mem_cons_self).bind fun y used ⟨holds, recorded⟩ => ?_
    refine (ih fun other mem => h other (List.mem_cons_of_mem _ mem)).bind
      fun ys more ⟨holdsRest, recordedRest⟩ => records_pure ⟨.cons holds holdsRest, ?_⟩
    rw [Set.union_empty]
    have needed : { name | ∃ z ∈ y :: ys, name ∈ needs z }
        = needs y ∪ { name | ∃ z ∈ ys, name ∈ needs z } := by
      ext name
      simp
    rw [needed]
    exact recorded.union recordedRest

/-- What a compiled operation needs. -/
private def neededByOperation (schema : Schema) (operation : Compiled.Operation) : Set Name :=
  { name | ∃ variableDefinition ∈ operation.variableDefinitions,
    name ∈ { other | schema.Uses variableDefinition.type.bare other } }
    ∪ Compiled.usedIn schema operation.fields

section

variable {compiler : Compiler} {library : FragmentLibrary}

private theorem keeps_library (acyclic : compiler.table.library = .ok library) :
    Keeps compiler.schema compiler.library (· = library) :=
  keeps_checkOnce.bind fun _ _ => records_pure ⟨FragmentTable.linked_eq acyclic, rfl⟩

private theorem records_compileVariable (others : Set Name) (definition : VariableDefinition) :
    Records compiler.schema (compiler.compileVariable definition) fun variableDefinition used =>
      True ∧ Recorded others
        { other | compiler.schema.Uses variableDefinition.type.bare other } used := by
  unfold Compiler.compileVariable
  dsimp only
  split
  · exact records_throw
  · refine records_useType.bind ?_
    rintro _ _ rfl
    refine records_pure ⟨trivial, ?_⟩
    rw [Set.union_empty]
    exact Recorded.refl

private theorem keeps_requireName {definition : OperationDefinition} :
    Keeps compiler.schema (Compiler.requireName definition)
      fun name => definition.name = some name := by
  unfold Compiler.requireName
  split
  · rename_i eq
    exact records_pure ⟨eq, rfl⟩
  · exact records_throw

private theorem keeps_requireRoot {definition : OperationDefinition} :
    Keeps compiler.schema (compiler.requireRoot definition) fun root =>
      compiler.schema.rootType? definition.operationType = some root := by
  unfold Compiler.requireRoot
  split
  · rename_i eq
    exact records_pure ⟨eq, rfl⟩
  · exact records_throw

/-- **At an object type there are no branches**, so that the fields of an operation are all that is
compiled for it. -/
private theorem ensures_noBranches {root : Name} (isObject : compiler.schema.isObject root)
    (selections : List LinkedSelection) :
    Ensures (fun _ => True) False (compiler.resolveSelections root selections) fun resolved =>
      resolved.selectionSet.inlineFragments = [] := by
  unfold Compiler.resolveSelections
  split
  · exact ensures_fail not_false
  · rename_i collection _
    refine ensures_tell.bind fun _ _ => ensures_resolvesTo.mono fun resolved resolves => ?_
    exact resolves.shape.inlineFragments_eq_nil isObject

private theorem records_resolveSelections (acyclic : compiler.table.library = .ok library)
    (named : compiler.table.IsNamed) (root : Name) (selections : WrittenSelections) :
    Records compiler.schema (compiler.resolveSelections root (link library.find? selections))
      fun resolved used => RecordedFor compiler.settings library.find?
        (Compiled.allFields resolved.selectionSet) used :=
  records_resolution compiler.settings (Site.start library root selections)
    (linkedBy_iff.1 (FragmentTable.linkedBy_link acyclic named selections))

private theorem records_compileOperation (acyclic : compiler.table.library = .ok library)
    (named : compiler.table.IsNamed)
    (objects : ∀ operationType root, compiler.schema.rootType? operationType = some root →
      compiler.schema.isObject root) (definition : OperationDefinition) :
    Records compiler.schema (compiler.compileOperation definition) fun operation used =>
      definition.name = some operation.name ∧
        Recorded (usedByFragments compiler.settings library.find?)
          (neededByOperation compiler.schema operation) used := by
  unfold Compiler.compileOperation
  refine (keeps_library acyclic).bind fun linked linkedEq => ?_
  rw [linkedEq]
  refine keeps_requireName.bind fun name nameEq => keeps_tell.bind fun _ _ => ?_
  refine (records_mapM fun variableDefinition _ => records_compileVariable
    (usedByFragments compiler.settings library.find?) variableDefinition).bind
    fun inputs used ⟨_, recorded⟩ => ?_
  refine keeps_requireRoot.bind fun root rootEq => ?_
  refine ((records_resolveSelections acyclic named root definition.selections).and
    (ensures_noBranches (objects _ root rootEq) _)).bind
    fun resolved more ⟨noBranches, fields⟩ => ?_
  refine keeps_ofExcept.bind fun text _ => keeps_tell.bind fun _ _ => records_pure ⟨nameEq, ?_⟩
  rw [Compiled.allFields, noBranches, List.flatMap_nil, List.append_nil] at fields
  rw [Set.union_empty]
  exact recorded.union fields

private theorem records_compileFragment (acyclic : compiler.table.library = .ok library)
    (named : compiler.table.IsNamed) {definition : FragmentDefinition}
    (found : compiler.table.find? definition.name = some definition) :
    Records compiler.schema (compiler.compileFragment definition) fun fragment used =>
      (fragment.name = definition.name ∧
        (definition.link library.find?).site.CompilesTo compiler.settings library.find?
          fragment.selectionSet) ∧
        RecordedFor compiler.settings library.find? (Compiled.allFields fragment.selectionSet)
          used := by
  unfold Compiler.compileFragment
  refine (keeps_library acyclic).bind fun linkedLibrary linkedEq => ?_
  rw [linkedEq]
  have foundLinked : library.find? definition.name = some (definition.link library.find?) := by
    rw [FragmentTable.find?_library acyclic, found]
    rfl
  have linked := FragmentTable.linkedBy_of_find?_library acyclic named foundLinked
  refine keeps_tell.bind fun _ _ => ?_
  have resolves : Records compiler.settings.schema
      (resolveFragment compiler.settings (definition.link library.find?)) _ :=
    (records_resolveFragment (recording _) (Nat.le_refl _) linked).and
      (ensures_compilesTo_site linked)
  refine resolves.bind fun resolved used ⟨compiles, recorded⟩ => ?_
  refine records_pure ⟨⟨rfl, compiles⟩, ?_⟩
  rwa [Set.union_empty]

/-- What is recorded for a compiled document. -/
private theorem records_compile (acyclic : compiler.table.library = .ok library)
    (named : compiler.table.IsNamed)
    (found : ∀ definition ∈ compiler.fragments,
      compiler.table.find? definition.name = some definition)
    (objects : ∀ operationType root, compiler.schema.rootType? operationType = some root →
      compiler.schema.isObject root) :
    Records compiler.schema compiler.compile fun compiled used =>
      ∃ operations fragments,
        List.Forall₂ (fun definition operation => definition.name = some operation.name)
          compiler.operations operations ∧
        compiled.operations = NameMap.ofList (operations.map fun operation =>
          (operation.name, operation)) ∧
        List.Forall₂ (fun definition fragment => fragment.name = definition.name ∧
          (definition.link library.find?).site.CompilesTo compiler.settings library.find?
            fragment.selectionSet) compiler.fragments fragments ∧
        compiled.fragments = NameMap.ofList (fragments.map fun fragment =>
          (fragment.name, fragment)) ∧
        Recorded (usedByFragments compiler.settings library.find?)
          ({ name | ∃ operation ∈ operations,
              name ∈ neededByOperation compiler.schema operation } ∪
            { name | ∃ fragment ∈ fragments,
              name ∈ Compiled.usedIn compiler.schema (Compiled.allFields fragment.selectionSet) })
          used := by
  unfold Compiler.compile
  refine (records_mapM fun definition _ =>
    records_compileOperation acyclic named objects definition).bind
    fun operations used ⟨all, recorded⟩ => ?_
  refine (records_mapM fun definition mem =>
    records_compileFragment acyclic named (found definition mem)).bind
    fun fragments more ⟨allFragments, recordedFragments⟩ => ?_
  refine keeps_get.bind fun state _ => ?_
  refine records_pure ⟨operations, fragments, all, rfl, allFragments, rfl, ?_⟩
  rw [Set.union_empty]
  exact recorded.union recordedFragments

/-- The used types of a compiled document are those of the state after it. -/
private theorem typesUsed_eq_of_compile {before after : CompilerState}
    {compiled : Compiled.Document} (run : compiler.compile.run before = (.ok compiled, after)) :
    compiled.typesUsed = after.typesUsed := by
  rw [Compiler.compile, run_bind] at run
  split at run
  · rw [run_bind] at run
    split at run
    · cases run
      rfl
    · cases run
  · cases run

end

/-! ### Documents -/

section

variable {schema : Schema} {document : Document} {options : Options} {compiled : Compiled.Document}

/-- The types that a compiled document needs, operation by operation and fragment by fragment. -/
private theorem exists_needs_iff {name : Name} :
    (∃ type, compiled.Needs type ∧ schema.Uses type name) ↔
      (∃ operation ∈ compiled.operations.values, name ∈ neededByOperation schema operation) ∨
        ∃ fragment ∈ compiled.fragments.values,
          name ∈ Compiled.usedIn schema (Compiled.allFields fragment.selectionSet) := by
  constructor
  · rintro ⟨_, ⟨operationMem, mem⟩ | ⟨operationMem, among⟩ | ⟨fragmentMem, among⟩, uses⟩
    · exact .inl ⟨_, operationMem, .inl ⟨_, mem, uses⟩⟩
    · exact .inl ⟨_, operationMem, .inr ⟨_, among, uses⟩⟩
    · exact .inr ⟨_, fragmentMem, _, among, uses⟩
  · rintro (⟨_, operationMem, ⟨_, mem, uses⟩ | ⟨_, among, uses⟩⟩ | ⟨_, fragmentMem, _, among, uses⟩)
    · exact ⟨_, .variable operationMem mem, uses⟩
    · exact ⟨_, .operationField operationMem among, uses⟩
    · exact ⟨_, .fragmentField fragmentMem among, uses⟩

/-- **The used types are what the compiled document needs**: without repetition, they are the types
that need a declaration among those of its variables and of its fields at any depth, and all types
that the fields of such input objects lead to. -/
theorem mem_typesUsed_iff
    (objects : ∀ operationType root, schema.rootType? operationType = some root →
      schema.isObject root)
    (distinct : (document.operations.map OperationDefinition.name).Nodup)
    (h : compileDocument schema document options = .ok compiled) :
    compiled.typesUsed.Nodup ∧ ∀ name, name ∈ compiled.typesUsed ↔
      ∃ type, compiled.Needs type ∧ schema.Uses type name := by
  let compiler := Compiler.ofDocument schema document options
  have run : compiler.compile.run {} = (.ok compiled, (compiler.compile.run {}).2) := Prod.ext h rfl
  obtain ⟨library, acyclic⟩ := exists_library_of_compile rfl run
  have named : compiler.table.IsNamed := FragmentTable.isNamed_ofList document.fragments
  obtain ⟨nodup, -, used, ⟨operations, fragments, all, operationsEq, allFragments, fragmentsEq,
      recorded⟩, mem_iff⟩ :=
    records_compile acyclic named (fun _ mem => FragmentTable.find?_of_mem_values mem) objects {}
      compiled _ List.nodup_nil TypesUsed.closed_nil run
  have operationValues : compiled.operations.values = operations := by
    rw [operationsEq]
    refine NameMap.values_ofList_of_nodup (List.Nodup.of_map some ?_)
    have names : document.operations.map OperationDefinition.name
        = (operations.map Compiled.Operation.name).map some := by
      rw [List.map_map]
      exact map_eq_map_iff_forall₂.2 all
    rwa [← names]
  have fragmentValues : compiled.fragments.values = fragments := by
    rw [fragmentsEq]
    exact NameMap.values_ofList_of_nodup
      (FragmentTable.nodup_names (allFragments.imp fun _ _ => And.left))
  have others : usedByFragments compiler.settings library.find? ⊆
      { name | ∃ fragment ∈ fragments,
        name ∈ Compiled.usedIn compiler.schema (Compiled.allFields fragment.selectionSet) } := by
    rintro name ⟨fragment, selectionSet, found, compiles, mem⟩
    rw [FragmentTable.find?_library acyclic, Option.map_eq_some_iff] at found
    obtain ⟨definition, tabled, rfl⟩ := found
    have listed : definition ∈ compiler.fragments :=
      List.mem_map.2 ⟨_, NameMap.mem_of_find?_eq_some tabled, rfl⟩
    obtain ⟨compiledFragment, mem', -, compiles'⟩ := exists_related_of_mem allFragments listed
    -- the selection set that was thrown away is the one of the compiled fragment
    rw [compiles.unique (.refl _) compiles'] at mem
    exact ⟨compiledFragment, mem', mem⟩
  rw [typesUsed_eq_of_compile run]
  refine ⟨nodup, fun name => ?_⟩
  rw [mem_iff, or_iff_right List.not_mem_nil,
    recorded.eq_of_subset (others.trans Set.subset_union_right), exists_needs_iff, operationValues,
    fragmentValues]
  rfl

end

/-- A schema with an enum, a scalar of its own, and an input object that has itself inside. -/
def roomSchema : Schema where
  types := [
    ("Boolean", .scalar), ("Date", .scalar), ("Kind", .enum ["SINGLE", "DOUBLE"]),
    ("Stay", .inputObject [
      { description := none, name := "from", type := .named "Date" false, defaultValue := none },
      { description := none, name := "next", type := .named "Stay" false, defaultValue := none }]),
    ("Query", .object [] [
      { description := none, name := "room", arguments := [], type := .named "Room" false }]),
    ("Room", .object [] [
      { description := none, name := "kind", arguments := [], type := .named "Kind" false },
      { description := none, name := "free", arguments := [], type := .named "Boolean" false }])]
  roots := { query := some "Query" }
  directives := []

/-- A query with a variable, which finds the fields of the room in a fragment. -/
def roomDocument : Document where
  sources := []
  definitions := [
    .operation {
      operationType := .query, name := some "Q", directives := [], location := none
      variableDefinitions := [
        { name := "stay", type := .named "Stay" false, defaultValue := none, directives := []
          location := none }]
      selections := [plainField "room" [plainSpread "Details"]] },
    .fragment (plainFragment "Details" "Room" [plainField "kind" [], plainField "free" []])]

/-- The variable leads to its type and to the scalar in it, and the fragment to the enum. -/
theorem mem_typesUsed_iff_room :
    ∃ compiled, compileDocument roomSchema roomDocument {} = .ok compiled ∧
      compiled.typesUsed = ["Stay", "Date", "Kind"] ∧
      ∀ name, (∃ type, compiled.Needs type ∧ roomSchema.Uses type name) ↔
        name ∈ ["Stay", "Date", "Kind"] := by
  obtain ⟨compiled, h, typesUsed⟩ : ∃ compiled,
      compileDocument roomSchema roomDocument {} = .ok compiled ∧
      compiled.typesUsed = ["Stay", "Date", "Kind"] := ⟨_, by cbv, by cbv⟩
  refine ⟨compiled, h, typesUsed, fun name => ?_⟩
  have objects : ∀ operationType root, roomSchema.rootType? operationType = some root →
      roomSchema.isObject root := by
    intro operationType root rooted
    cases operationType <;> cases rooted
    decide
  have distinct : (roomDocument.operations.map OperationDefinition.name).Nodup := by decide
  rw [← (mem_typesUsed_iff objects distinct h).2 name, typesUsed]

end GraphQLCompiler
