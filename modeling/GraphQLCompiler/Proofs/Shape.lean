import GraphQLCompiler.Proofs.Application
import GraphQLCompiler.Proofs.Computation

/-!
# The shape of compiled selection sets

Whatever resolution remembers, a compiled selection set has the fields that apply at its type, and a
branch for each object type that the type is narrowed to, with the fields that apply at that object
type (`Shape`). A field of a composite type has a compiled selection set again, of the same shape.

An object type sees the fields of its branch, or the fields of the type if it has no branch
(`Compiled.fieldsFor`).
-/

namespace GraphQLCompiler

/-- The fields that an object type sees in a compiled selection set: those of its branch if there
is one, those of the selection set otherwise. -/
def Compiled.fieldsFor (selectionSet : Compiled.SelectionSet) (object : Name) :
    List Compiled.Field :=
  (Compiled.findInlineFragment? selectionSet.inlineFragments object).elim selectionSet.fields
    Compiled.Branch.fields

/-- The response names that an object type sees in a compiled selection set. -/
def Compiled.namesFor (selectionSet : Compiled.SelectionSet) (object : Name) : List Name :=
  (Compiled.fieldsFor selectionSet object).map Compiled.Field.responseName

variable (settings : Settings)

/-- Whether the resolution of a collection at a type gives a compiled selection set, from some
state. -/
def ResolvesTo (parent : Name) (collection : Collection)
    (selectionSet : Compiled.SelectionSet) : Prop :=
  ∃ state after resolved, (resolve settings parent collection).run state = (.ok resolved, after) ∧
    resolved.selectionSet = selectionSet

/-- What a field that applies at a type is compiled to, with a selection set or without one. -/
def ApplicableField.compile (schema : Schema) (typeName : Name) (field : ApplicableField)
    (selectionSet : Option Compiled.SelectionSet) : Compiled.Field where
  responseName := field.responseName
  fieldName := field.first.name
  type := field.first.type
  arguments := field.first.arguments.map Argument.compile
  isConditional := field.occurrences.any fun occurrence => isConditional occurrence.directives
  description := (schema.fieldDefinition? typeName field.first.name).bind FieldInfo.description
  selectionSet

/-- Whether a field that applies at a type is **compiled to** a field: one that has a selection set
if the type of the field is composite, which its sub-selections resolve to. -/
structure ApplicableField.CompilesTo (typeName : Name) (field : ApplicableField)
    (compiled : Compiled.Field) : Prop where
  compile_eq : field.compile settings.schema typeName compiled.selectionSet = compiled
  isSome_iff : compiled.selectionSet.isSome ↔ settings.schema.isComposite field.bareType
  selectionSet : ∀ inner, compiled.selectionSet = some inner → ∃ collection,
    mergeSelections settings field.bareType field.occurrences {} = .ok collection ∧
    ResolvesTo settings field.bareType collection inner

namespace ApplicableField.CompilesTo

variable {settings} {typeName : Name} {field : ApplicableField} {compiled : Compiled.Field}

theorem responseName_eq (h : field.CompilesTo settings typeName compiled) :
    compiled.responseName = field.responseName := by
  rw [← h.compile_eq]
  rfl

theorem type_eq (h : field.CompilesTo settings typeName compiled) :
    compiled.type = field.first.type := by
  rw [← h.compile_eq]
  rfl

theorem isConditional_eq (h : field.CompilesTo settings typeName compiled) :
    compiled.isConditional
      = field.occurrences.any fun occurrence => isConditional occurrence.directives := by
  rw [← h.compile_eq]
  rfl

theorem composite (h : field.CompilesTo settings typeName compiled)
    {inner : Compiled.SelectionSet} (eq : compiled.selectionSet = some inner) :
    settings.schema.isComposite field.bareType := by
  rw [← h.isSome_iff, eq]
  rfl

end ApplicableField.CompilesTo

/-- Whether compiled fields are those that apply at a type. -/
def FieldsAt (collection : Collection) (typeName : Name) (fields : List Compiled.Field) : Prop :=
  List.Forall₂ (ApplicableField.CompilesTo settings typeName)
    (applicableFields settings.schema typeName collection) fields

/-- Whether a branch is one for an object type. -/
structure BranchAt (collection : Collection) (object : Name) (branch : Compiled.InlineFragment) :
    Prop where
  typeCondition_eq : branch.typeCondition = object
  possibleTypes_eq : branch.possibleTypes = settings.schema.concreteTypes object
  fields : FieldsAt settings collection object branch.fields
  fragmentSpreads_eq : branch.fragmentSpreads = spreadNamesAt settings.schema object collection

/-- The **shape** of the compiled selection set of a collection at a type: it has the fields that
apply at the type, and a branch for each object type that the type is narrowed to. -/
structure Shape (parent : Name) (collection : Collection) (selectionSet : Compiled.SelectionSet) :
    Prop where
  fields : FieldsAt settings collection parent selectionSet.fields
  fragmentSpreads_eq :
    selectionSet.fragmentSpreads = spreadNamesAt settings.schema parent collection
  inlineFragments : List.Forall₂ (BranchAt settings collection)
    (narrowedTypes settings.schema parent collection) selectionSet.inlineFragments

variable {settings}

/-- The compiled selection set of an object type has no branches. -/
theorem Shape.inlineFragments_eq_nil {object : Name} {collection : Collection}
    {selectionSet : Compiled.SelectionSet} (shape : Shape settings object collection selectionSet)
    (isObject : settings.schema.isObject object) : selectionSet.inlineFragments = [] := by
  have branches := shape.inlineFragments
  rwa [narrowedTypes_of_concrete (Schema.not_isAbstract_of_isObject isObject),
    List.forall₂_nil_left_iff] at branches

/-- The branches are those for the object types that the type is narrowed to, in order. -/
theorem Shape.typeConditions_eq {parent : Name} {collection : Collection}
    {selectionSet : Compiled.SelectionSet} (shape : Shape settings parent collection selectionSet) :
    selectionSet.inlineFragments.map Compiled.Branch.typeCondition
      = narrowedTypes settings.schema parent collection := by
  rw [← List.map_id (narrowedTypes settings.schema parent collection), map_eq_map_iff_forall₂]
  exact shape.inlineFragments.flip.imp fun _ _ branchAt => branchAt.typeCondition_eq

/-! ### Resolution -/

open CompileM

/-- A way to resolve lower collections that gives what their resolution gives. -/
private def Resolving (settings : Settings) {n : Nat} (recur : ResolveBelow n) : Prop :=
  ∀ (parent : Name) (collection : Collection) (lt : collection.height < n),
    Ensures (fun _ => True) False (recur parent collection lt) fun resolved =>
      ResolvesTo settings parent collection resolved.selectionSet

/-- What resolution gives is what it resolves to. -/
theorem ensures_resolvesTo {parent : Name} {collection : Collection} :
    Ensures (fun _ => True) False (resolve settings parent collection) fun resolved =>
      ResolvesTo settings parent collection resolved.selectionSet where
  kept _ _ := trivial
  holds state _ resolved eq :=
    ⟨state, ((resolve settings parent collection).run state).2, resolved, Prod.ext eq rfl, rfl⟩
  succeeds _ _ := False.elim

section

variable {n : Nat} {recur : ResolveBelow n}

private theorem ensures_selectionSet (resolving : Resolving settings recur)
    {field : ApplicableField}
    {bound : ∀ occurrence ∈ field.occurrences, height occurrence.selections < n} :
    Ensures (fun _ => True) False (resolveSubselections settings recur field bound) fun resolved =>
      ∃ collection, mergeSelections settings field.bareType field.occurrences {} = .ok collection ∧
        ResolvesTo settings field.bareType collection resolved.selectionSet := by
  unfold resolveSubselections
  split
  · exact ensures_fail not_false
  · rename_i collection merged
    refine ensures_true.bind fun _ _ => ?_
    exact (resolving _ _ _).mono fun resolved resolves => ⟨collection, merged, resolves⟩

private theorem ensures_compilesTo (resolving : Resolving settings recur) {parent : Name}
    {field : ApplicableField}
    {bound : ∀ occurrence ∈ field.occurrences, height occurrence.selections < n} :
    Ensures (fun _ => True) False (resolveField settings recur parent field bound) fun result =>
      field.CompilesTo settings parent result.1 := by
  unfold resolveField
  refine ensures_true.bind fun _ _ => ?_
  dsimp only
  split
  · rename_i composite
    have inner : Ensures (fun _ => True) False
        (some <$> resolveSubselections settings recur field bound) fun resolved =>
          ∃ inner, resolved = some inner ∧ ∃ collection,
            mergeSelections settings field.bareType field.occurrences {} = .ok collection ∧
            ResolvesTo settings field.bareType collection inner.selectionSet :=
      ((ensures_selectionSet resolving).mono fun inner holds => ⟨inner, rfl, holds⟩).map
    refine inner.bind ?_
    rintro _ ⟨inner, rfl, holds⟩
    refine ensures_pure ⟨rfl, iff_of_true rfl composite, ?_⟩
    rintro _ ⟨⟩
    exact holds
  · rename_i notComposite
    have nothing : Ensures (fun _ => True) False
        (pure none : CompileM (Option Resolved)) fun resolved => resolved = none :=
      ensures_pure rfl
    refine nothing.bind ?_
    rintro _ rfl
    exact ensures_pure ⟨rfl, iff_of_false nofun notComposite, fun _ eq => by cases eq⟩

private theorem ensures_fields (resolving : Resolving settings recur) {parent : Name} :
    ∀ (fields : List ApplicableField) (bound : ∀ field ∈ fields,
      ∀ occurrence ∈ field.occurrences, height occurrence.selections < n) (references : List Name),
    Ensures (fun _ => True) False (resolveFields settings recur parent fields bound references)
      fun result => List.Forall₂ (ApplicableField.CompilesTo settings parent) fields result.1
  | [], _, _ => ensures_pure .nil
  | field :: rest, bound, references => by
    rw [resolveFields]
    refine (ensures_compilesTo resolving).bind fun first compiles => ?_
    refine (ensures_fields resolving rest _ _).bind fun others compilesRest => ?_
    exact ensures_pure (.cons compiles compilesRest)

end

section

variable {collection : Collection} {recur : ResolveBelow collection.height}

private theorem ensures_fieldsAt (resolving : Resolving settings recur) {typeName : Name}
    {references : List Name} :
    Ensures (fun _ => True) False (resolveFieldsAt settings collection recur typeName references)
      fun result => FieldsAt settings collection typeName result.1 :=
  ensures_fields resolving _ _ references

private theorem ensures_branch (resolving : Resolving settings recur) {object : Name}
    {references : List Name} :
    Ensures (fun _ => True) False (resolveBranch settings collection recur object references)
      fun result => BranchAt settings collection object result.1 := by
  unfold resolveBranch
  refine (ensures_fieldsAt resolving).bind fun fields compiled => ?_
  refine ensures_true.bind fun _ _ => ?_
  exact ensures_pure ⟨rfl, rfl, compiled, rfl⟩

private theorem ensures_branches (resolving : Resolving settings recur) :
    ∀ objects references : List Name,
    Ensures (fun _ => True) False (resolveBranches settings collection recur objects references)
      fun result => List.Forall₂ (BranchAt settings collection) objects result.1
  | [], _ => ensures_pure .nil
  | object :: rest, references => by
    rw [resolveBranches]
    refine (ensures_branch resolving).bind fun first branch => ?_
    refine (ensures_branches resolving rest _).bind fun others branches => ?_
    exact ensures_pure (.cons branch branches)

private theorem ensures_shape (resolving : Resolving settings recur) {parent : Name} :
    Ensures (fun _ => True) False (resolveWith settings parent collection recur) fun resolved =>
      Shape settings parent collection resolved.selectionSet := by
  unfold resolveWith
  refine (ensures_fieldsAt resolving).bind fun fields compiled => ?_
  refine (ensures_branches resolving _ _).bind fun branches compiledBranches => ?_
  refine ensures_true.bind fun _ _ => ?_
  exact ensures_pure ⟨compiled, rfl, compiledBranches⟩

end

/-! ### What an object type sees -/

variable {parent : Name} {collection : Collection} {selectionSet : Compiled.SelectionSet}

/-- What resolution gives **has the shape** of what is resolved. -/
theorem ResolvesTo.shape (h : ResolvesTo settings parent collection selectionSet) :
    Shape settings parent collection selectionSet := by
  obtain ⟨state, after, resolved, run, rfl⟩ := h
  have ok : ((resolve settings parent collection).run state).1 = .ok resolved := by rw [run]
  rw [resolve.eq_1] at ok
  exact (ensures_shape fun _ _ _ => ensures_resolvesTo).holds state trivial resolved ok

/-- The branch of an object type is found among branches for some object types if it is one of
them. -/
private theorem fieldsAt_elim_findInlineFragment? {fields : List Compiled.Field}
    (other : FieldsAt settings collection parent fields) (object : Name) {objects : List Name}
    {branches : List Compiled.InlineFragment}
    (h : List.Forall₂ (BranchAt settings collection) objects branches) :
    FieldsAt settings collection (if object ∈ objects then object else parent)
      ((Compiled.findInlineFragment? branches object).elim fields Compiled.Branch.fields) := by
  unfold Compiled.findInlineFragment?
  induction h with
  | nil => exact other
  | @cons first branch objects branches branchAt _ ih =>
    by_cases eq : first = object
    · rw [List.find?_cons_of_pos (by simpa [branchAt.typeCondition_eq] using eq),
        if_pos (by simp [eq]), ← eq]
      exact branchAt.fields
    · rw [List.find?_cons_of_neg (by simpa [branchAt.typeCondition_eq] using eq)]
      simpa only [List.mem_cons, Ne.symm eq, false_or] using ih

/-- **What an object type sees** in the compiled selection set of a collection is what applies at
the object type if it gets a branch, and what applies at the type of the collection otherwise. -/
theorem Shape.fieldsFor (h : Shape settings parent collection selectionSet) (object : Name) :
    FieldsAt settings collection
      (if object ∈ narrowedTypes settings.schema parent collection then object else parent)
      (Compiled.fieldsFor selectionSet object) :=
  fieldsAt_elim_findInlineFragment? h.fields object h.inlineFragments

/-- The response names of compiled fields are those of the fields that they are compiled from. -/
theorem responseNames_eq {typeName : Name} {fields : List ApplicableField}
    {compiled : List Compiled.Field}
    (h : List.Forall₂ (ApplicableField.CompilesTo settings typeName) fields compiled) :
    compiled.map Compiled.Field.responseName = fields.map ApplicableField.responseName := by
  induction h with
  | nil => rfl
  | cons compiles _ ih => rw [List.map_cons, List.map_cons, compiles.responseName_eq, ih]

theorem namesFor_resolve {state after : CompilerState} {resolved : Resolved}
    (h : (resolve settings parent collection).run state = (.ok resolved, after)) (object : Name) :
    Compiled.namesFor resolved.selectionSet object
      = (applicableFields settings.schema
          (if object ∈ narrowedTypes settings.schema parent collection then object else parent)
          collection).map ApplicableField.responseName := by
  have resolves : ResolvesTo settings parent collection resolved.selectionSet :=
    ⟨state, after, resolved, h, rfl⟩
  exact responseNames_eq (resolves.shape.fieldsFor object)

end GraphQLCompiler
