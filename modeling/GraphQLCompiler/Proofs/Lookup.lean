import GraphQLCompiler.Compiled.Lookup
import GraphQLCompiler.Proofs.Branches
import GraphQLCompiler.Proofs.ResolvedAt

/-!
# Finding parts of compiled documents

Parts of a compiled document are found by their names. A search takes the first part that fits, and
what makes it a search for *the* part is that the compiled tree is well formed: in every selection
set, at its own type and in each branch, response names are different, spreads are different, and so
are the object types of the branches (`Compiled.Selected.WellFormed`). So every step of a search
finds the only part of its kind and name (`wellFormed_of_compileDocument`), and every part of a
compiled document is found at the end of some path (`hasPart_iff_exists_follow?`).

## Main definitions

* `Compiled.Selected.WellFormed`: what a compiled selection set is at its type.
* `Compiled.Part.inside`: the parts of a kind that are inside another.
* `Compiled.Document.HasPart`: the parts of a compiled document at any depth.

## Main results

* `wellFormed_of_compileDocument`: every selection set is well formed, and every step finds the
  only part that fits.
* `hasPart_iff_exists_follow?`: which parts can be found.
-/

namespace GraphQLCompiler

namespace Compiled

/-- A selection set is **well formed** at a type if no response name, no spread and no object type
of a branch occurs twice in it, only an interface or union has branches, and the fields that have a
selection set are those of composite types. -/
structure Selected.WellFormed (schema : Schema) (parent : Name) (selectionSet : SelectionSet) :
    Prop where
  responseNames : (selectionSet.fields.map Field.responseName).Nodup
  fragmentSpreads : selectionSet.fragmentSpreads.Nodup
  typeConditions : (selectionSet.inlineFragments.map Branch.typeCondition).Nodup
  branches : ∀ branch ∈ selectionSet.inlineFragments,
    (branch.fields.map Field.responseName).Nodup ∧ branch.fragmentSpreads.Nodup
  abstract : selectionSet.inlineFragments ≠ [] → schema.isAbstract parent
  composite : ∀ field ∈ allFields selectionSet,
    field.selectionSet.isSome ↔ schema.isComposite field.type.bare

theorem Selected.WellFormed.fieldsOnly {schema : Schema} {parent : Name}
    {selectionSet : SelectionSet} (h : selectionSet.WellFormed schema parent) :
    (fieldsOnly selectionSet).WellFormed schema parent where
  responseNames := h.responseNames
  fragmentSpreads := List.nodup_nil
  typeConditions := List.nodup_nil
  branches _ mem := by cases mem
  abstract nonempty := absurd rfl nonempty
  composite field mem := h.composite field (allFields_fieldsOnly_subset selectionSet mem)

namespace Part

/-- The name that a part is found by. A document has none. -/
def name? : Part → Option Name
  | document _ => none
  | operation o => some o.name
  | fragment f => some f.name
  | field f => some f.responseName
  | inlineFragment b => some b.typeCondition

/-- The operations of a document. Other parts have none. -/
def operations : Part → List Operation
  | document d => d.operations.values
  | _ => []

/-- The fragments of a document. Other parts have none. -/
def fragments : Part → List Fragment
  | document d => d.fragments.values
  | _ => []

/-- What is selected in a part. It is nothing in a document and in fields that are not composite. -/
def selectionSet : Part → SelectionSet
  | document _ => ⟨[], [], []⟩
  | operation o => o.tree
  | fragment f => f.selectionSet
  | field f => ⟨f.fields, f.fragmentSpreads, f.inlineFragments⟩
  | inlineFragment b => b.selectionSet

/-- The parts of a kind that are inside another. -/
def inside (part : Part) : Accessor → List Part
  | .operation => part.operations.map operation
  | .fragment => part.fragments.map fragment
  | .field => part.selectionSet.fields.map field
  | .inlineFragment => part.selectionSet.inlineFragments.map inlineFragment

/-- The parts of a kind and a name that are inside another. -/
def named (part : Part) (accessor : Accessor) (name : Name) : List Part :=
  (part.inside accessor).filter fun inner => inner.name? = some name

end Part

/-- The parts of a compiled document, at any depth. -/
def Document.HasPart (compiled : Document) : Part → Prop :=
  Relation.ReflTransGen (fun part inner => ∃ accessor, inner ∈ part.inside accessor)
    (.document compiled)

end Compiled

/-! ### Well-formed selection sets -/

/-- The names of fragments are added like the fragments. -/
private theorem map_name_foldl_addFragment (fragments more : List Fragment) :
    (more.foldl addFragment fragments).map Fragment.name
      = unionNames (fragments.map Fragment.name) (more.map Fragment.name) := by
  induction more generalizing fragments with
  | nil => rfl
  | cons first rest ih =>
    have step : (addFragment fragments first).map Fragment.name
        = addName (fragments.map Fragment.name) first.name := by
      have known : fragments.any (·.name = first.name) ↔
          first.name ∈ fragments.map Fragment.name := by
        simp
      unfold addFragment addName
      by_cases mem : first.name ∈ fragments.map Fragment.name
      · rw [if_pos (known.2 mem), if_pos mem]
      · rw [if_neg (mt known.1 mem), if_neg mem, List.map_append, List.map_singleton]
    rw [List.foldl_cons, ih, step]
    rfl

/-- No fragment is spread twice at a type. -/
theorem nodup_spreadNamesAt (schema : Schema) (parent : Name) (collection : Collection) :
    (spreadNamesAt schema parent collection).Nodup := by
  rw [spreadNamesAt, fragmentsAt, map_name_foldl_addFragment]
  exact nodup_unionNames List.nodup_nil _

/-- What a site is compiled to is well formed. -/
theorem Site.CompilesTo.wellFormed {settings : Settings} {find : Name → Option Fragment}
    {site : Site} {selectionSet : Compiled.SelectionSet}
    (h : site.CompilesTo settings find selectionSet) :
    selectionSet.WellFormed settings.schema site.parent := by
  obtain ⟨collection, collected, resolves⟩ := h
  have shape := resolves.shape
  obtain ⟨mentions, holds, -⟩ := collected.gathers
  have responseNames : ∀ {typeName : Name} {fields : List Compiled.Field},
      FieldsAt settings collection typeName fields →
      (fields.map Compiled.Field.responseName).Nodup := by
    intro typeName fields compiled
    rw [responseNames_eq compiled]
    exact holds.nodup_responseNames typeName
  have spreads := nodup_spreadNamesAt settings.schema
  refine ⟨responseNames shape.fields, ?_, ?_, fun branch mem => ?_, fun nonempty => ?_,
    fun field mem => ?_⟩
  · rw [shape.fragmentSpreads_eq]
    exact spreads _ _
  · rw [shape.typeConditions_eq]
    exact nodup_narrowedTypes
  · obtain ⟨object, -, branchAt⟩ := exists_related_of_mem shape.inlineFragments.flip mem
    refine ⟨responseNames branchAt.fields, ?_⟩
    rw [branchAt.fragmentSpreads_eq]
    exact spreads _ _
  · by_contra concrete
    have none := shape.typeConditions_eq
    rw [narrowedTypes_of_concrete (Bool.eq_false_iff.2 concrete)] at none
    exact nonempty (List.map_eq_nil_iff.1 none)
  · obtain ⟨typeName, -, applicable, -, compiles⟩ := shape.exists_field mem
    have bareType : field.type.bare = applicable.bareType := by
      rw [compiles.type_eq]
      rfl
    rw [bareType]
    exact compiles.isSome_iff

/-! ### Parts -/

namespace Compiled

/-- A step to a field finds one of the fields. -/
theorem Part.step?_field (part : Part) (name : Name) :
    part.step? .field name = (findField? part.selectionSet.fields name).map field := by
  cases part <;> rfl

/-- A step to a branch finds one of the branches. -/
theorem Part.step?_inlineFragment (part : Part) (name : Name) :
    part.step? .inlineFragment name
      = (findInlineFragment? part.selectionSet.inlineFragments name).map inlineFragment := by
  cases part <;> rfl

/-- Whatever is inside a part has a name. -/
theorem Part.exists_name_of_mem_inside {part inner : Part} {accessor : Accessor}
    (mem : inner ∈ part.inside accessor) : ∃ name, inner.name? = some name := by
  cases accessor with
  | operation | fragment | field | inlineFragment =>
    obtain ⟨_, -, rfl⟩ := List.mem_map.1 mem
    exact ⟨_, rfl⟩

theorem Part.follow?_append_singleton (part : Part) (path : List (Accessor × Name))
    (step : Accessor × Name) :
    part.follow? (path ++ [step])
      = (part.follow? path).bind fun last => last.step? step.1 step.2 := by
  rw [follow?, List.foldlM_append]
  refine congrArg _ (funext fun last => ?_)
  rw [List.foldlM_cons]
  exact bind_pure _

/-- What is selected in the parts of a compiled document: a selection set of the document, a branch
of one, or nothing. -/
private inductive Document.Holds (compiled : Document) : SelectionSet → Prop where
  | whole {parent : Name} {selectionSet : SelectionSet}
      (resolved : compiled.ResolvedAt parent selectionSet) : Holds compiled selectionSet
  | branch {parent : Name} {selectionSet : SelectionSet} {branch : InlineFragment}
      (resolved : compiled.ResolvedAt parent selectionSet)
      (mem : branch ∈ selectionSet.inlineFragments) : Holds compiled branch.selectionSet
  | nothing : Holds compiled ⟨[], [], []⟩

section

variable {compiled : Document} {selectionSet : SelectionSet}

/-- What is selected in a field of a compiled document is again one of its selection sets, or
nothing. -/
private theorem Document.Holds.field (h : compiled.Holds selectionSet) {field : Field}
    (mem : field ∈ selectionSet.fields) : compiled.Holds (Part.field field).selectionSet := by
  obtain ⟨parent, around, resolved, memAround⟩ : ∃ parent around,
      compiled.ResolvedAt parent around ∧ field ∈ allFields around := by
    cases h with
    | whole resolved => exact ⟨_, _, resolved, List.mem_append_left _ mem⟩
    | branch resolved memBranch =>
      exact ⟨_, _, resolved, List.mem_append_right _ (List.mem_flatMap.2 ⟨_, memBranch, mem⟩)⟩
    | nothing => cases mem
  rw [Part.selectionSet, Field.fields, Field.fragmentSpreads, Field.inlineFragments]
  cases composite : field.selectionSet with
  | none => exact .nothing
  | some inner => exact .whole (.field resolved memAround composite)

private theorem Document.Holds.inlineFragment (h : compiled.Holds selectionSet)
    {branch : InlineFragment} (mem : branch ∈ selectionSet.inlineFragments) :
    compiled.Holds branch.selectionSet := by
  cases h with
  | whole resolved => exact .branch resolved mem
  | branch | nothing => cases mem

/-- A part of a compiled document is the document itself or no document, and what is selected in it
is found in the document. -/
private theorem Document.HasPart.holds {part : Part} (h : compiled.HasPart part) :
    (∀ other, part = .document other → other = compiled) ∧ compiled.Holds part.selectionSet := by
  induction h with
  | refl =>
    refine ⟨fun other eq => ?_, .nothing⟩
    cases eq
    rfl
  | @tail part inner _ step ih =>
    obtain ⟨document, holds⟩ := ih
    obtain ⟨accessor, mem⟩ := step
    cases accessor with
    | operation =>
      obtain ⟨operation, listed, rfl⟩ := List.mem_map.1 mem
      cases part with
      | document other =>
        obtain rfl := document other rfl
        exact ⟨nofun, .whole (.operation listed)⟩
      | operation | fragment | field | inlineFragment => cases listed
    | fragment =>
      obtain ⟨fragment, listed, rfl⟩ := List.mem_map.1 mem
      cases part with
      | document other =>
        obtain rfl := document other rfl
        exact ⟨nofun, .whole (.fragment listed)⟩
      | operation | fragment | field | inlineFragment => cases listed
    | field =>
      obtain ⟨field, listed, rfl⟩ := List.mem_map.1 mem
      exact ⟨nofun, holds.field listed⟩
    | inlineFragment =>
      obtain ⟨branch, listed, rfl⟩ := List.mem_map.1 mem
      exact ⟨nofun, holds.inlineFragment listed⟩

/-- The names of the parts that are found in a well-formed document are different. -/
private theorem Document.Holds.nodup {schema : Schema}
    (wellFormed : ∀ parent around, compiled.ResolvedAt parent around →
      around.WellFormed schema parent) (h : compiled.Holds selectionSet) :
    (selectionSet.fields.map Field.responseName).Nodup ∧
      (selectionSet.inlineFragments.map Branch.typeCondition).Nodup := by
  cases h with
  | whole resolved =>
    have wf := wellFormed _ _ resolved
    exact ⟨wf.responseNames, wf.typeConditions⟩
  | branch resolved mem => exact ⟨((wellFormed _ _ resolved).branches _ mem).1, List.nodup_nil⟩
  | nothing => exact ⟨List.nodup_nil, List.nodup_nil⟩

end

/-- The parts with a name among some parts are those that are found by the name, if names occur
once. -/
private theorem filter_map_eq_toList {α : Type} {key : α → Name} {part : α → Part}
    (named : ∀ a, (part a).name? = some (key a)) {values : List α} (nodup : (values.map key).Nodup)
    (name : Name) :
    (values.map part).filter (fun inner => inner.name? = some name)
      = ((values.find? fun a => key a = name).map part).toList := by
  have same : ((fun inner : Part => decide (inner.name? = some name)) ∘ part)
      = fun a => decide (key a = name) := by
    funext a
    simp [named]
  rw [List.filter_map, same, filter_eq_toList_find? nodup, Option.toList_map]

end Compiled

section

variable {schema : Schema} {document : Document} {options : Options} {library : FragmentLibrary}
  {compiled : Compiled.Document}
  (whole : (Compiler.ofDocument schema document options).CompiledDocument library compiled)

include whole

/-- Every selection set of a compiled document is well formed at the type that it is resolved at. -/
theorem wellFormed_of_resolvedAt {parent : Name} {selectionSet : Compiled.SelectionSet}
    (resolved : compiled.ResolvedAt parent selectionSet) :
    selectionSet.WellFormed schema parent := by
  obtain ⟨site, full, rfl, compiles, rfl | rfl⟩ := exists_compilesTo_of_resolvedAt whole resolved
  · exact compiles.wellFormed
  · exact compiles.wellFormed.fieldsOnly

/-- A step to a part of a compiled document finds the only part of its kind and name. -/
theorem named_eq_toList_step? {part : Compiled.Part} (hasPart : compiled.HasPart part)
    (accessor : Compiled.Accessor) (name : Name) :
    part.named accessor name = (part.step? accessor name).toList := by
  obtain ⟨document, holds⟩ := hasPart.holds
  obtain ⟨responseNames, typeConditions⟩ :=
    holds.nodup fun _ _ resolved => wellFormed_of_resolvedAt whole resolved
  cases accessor with
  | operation =>
    obtain ⟨nodup, find_eq⟩ := nodup_and_operation?_eq whole
    cases part with
    | document other =>
      obtain rfl := document other rfl
      rw [Compiled.Part.step?, find_eq]
      exact Compiled.filter_map_eq_toList (fun _ => rfl) nodup name
    | operation | fragment | field | inlineFragment => rfl
  | fragment =>
    obtain ⟨nodup, find_eq⟩ := nodup_and_fragment?_eq whole
    cases part with
    | document other =>
      obtain rfl := document other rfl
      rw [Compiled.Part.step?, find_eq]
      exact Compiled.filter_map_eq_toList (fun _ => rfl) nodup name
    | operation | fragment | field | inlineFragment => rfl
  | field =>
    rw [part.step?_field]
    exact Compiled.filter_map_eq_toList (fun _ => rfl) responseNames name
  | inlineFragment =>
    rw [part.step?_inlineFragment]
    exact Compiled.filter_map_eq_toList (fun _ => rfl) typeConditions name

/-- **Every part of a compiled document can be found**, at the end of some path. -/
theorem hasPart_iff_exists_follow? {part : Compiled.Part} :
    compiled.HasPart part ↔
      ∃ path, (Compiled.Part.document compiled).follow? path = some part := by
  have finds : ∀ {part inner : Compiled.Part} {accessor : Compiled.Accessor} {name : Name},
      compiled.HasPart part → (part.step? accessor name = some inner ↔
        inner ∈ part.inside accessor ∧ inner.name? = some name) := by
    intro part inner accessor name hasPart
    have only := named_eq_toList_step? whole hasPart accessor name
    rw [← Option.mem_toList, ← only, Compiled.Part.named, List.mem_filter, decide_eq_true_iff]
  constructor
  · intro hasPart
    induction hasPart with
    | refl => exact ⟨[], rfl⟩
    | tail hasPart step ih =>
      obtain ⟨path, found⟩ := ih
      obtain ⟨accessor, mem⟩ := step
      obtain ⟨name, named⟩ := Compiled.Part.exists_name_of_mem_inside mem
      refine ⟨path ++ [(accessor, name)], ?_⟩
      rw [Compiled.Part.follow?_append_singleton, found]
      exact (finds hasPart).2 ⟨mem, named⟩
  · rintro ⟨path, found⟩
    induction path using List.reverseRecOn generalizing part with
    | nil =>
      cases found
      exact .refl
    | append_singleton path step ih =>
      rw [Compiled.Part.follow?_append_singleton] at found
      obtain ⟨last, foundLast, foundPart⟩ := Option.bind_eq_some_iff.1 found
      have hasPart := ih foundLast
      exact hasPart.tail ⟨step.1, ((finds hasPart).1 foundPart).1⟩

end

/-- **A compiled document is well formed.** At every depth, at the type of a selection set and in
its branches, no response name, no spread and no object type of a branch occurs twice; there are
branches only for interfaces and unions, and selection sets only for fields of composite types. So
what is found by the kind and the name of a part is all that has the kind and the name. -/
theorem wellFormed_of_compileDocument {schema : Schema} {document : Document} {options : Options}
    {compiled : Compiled.Document} (h : compileDocument schema document options = .ok compiled) :
    (∀ parent selectionSet, compiled.ResolvedAt parent selectionSet →
      selectionSet.WellFormed schema parent) ∧
    ∀ part, compiled.HasPart part → ∀ accessor name,
      part.named accessor name = (part.step? accessor name).toList := by
  obtain ⟨library, -, whole⟩ := exists_compiledDocument h
  exact ⟨fun _ _ resolved => wellFormed_of_resolvedAt whole resolved,
    fun _ hasPart => named_eq_toList_step? whole hasPart⟩

/-- The name of the pet is selected three times, and its owner for dogs. -/
def repeatedNames : Document :=
  queryDocument
    [plainField "pet" [plainField "name" [], plainInline "Dog" [plainField "name" [],
      plainField "owner" [plainField "kennel" []]], plainSpread "Named"]]
    [plainFragment "Named" "Pet" [plainField "name" []]]

/-- The pet has one name, one branch, and one spread in it. -/
theorem wellFormed_of_compileDocument_repeatedNames :
    ∃ compiled operation pet inner,
      compileDocument petSchema repeatedNames {} = .ok compiled ∧
      compiled.operation? "Q" = some operation ∧ operation.fields = [pet] ∧
      pet.selectionSet = some inner ∧
      inner.inlineFragments.map Compiled.Branch.typeCondition = ["Dog"] ∧
      Compiled.Selected.WellFormed petSchema "Pet" inner ∧
      (Compiled.Part.field pet).named .inlineFragment "Dog"
        = ((Compiled.Part.field pet).step? .inlineFragment "Dog").toList := by
  obtain ⟨compiled, operation, pet, inner, h, found, values, fields, type, nested, branches⟩ :
      ∃ compiled operation pet inner,
        compileDocument petSchema repeatedNames {} = .ok compiled ∧
        compiled.operation? "Q" = some operation ∧ compiled.operations.values = [operation] ∧
        operation.fields = [pet] ∧ pet.type.bare = "Pet" ∧ pet.selectionSet = some inner ∧
        inner.inlineFragments.map Compiled.Branch.typeCondition = ["Dog"] :=
    ⟨_, _, _, _, by cbv, by cbv, by cbv, by cbv, by cbv, by cbv, by cbv⟩
  obtain ⟨wellFormed, named⟩ := wellFormed_of_compileDocument h
  have resolved := Compiled.Document.resolvedAt_of_fields values fields nested
  rw [type] at resolved
  refine ⟨compiled, operation, pet, inner, h, found, fields, nested, branches,
    wellFormed "Pet" inner resolved, named (.field pet) ?_ .inlineFragment "Dog"⟩
  -- the pet is a field of the operation, which is the only one of the document
  have memOperation : operation ∈ compiled.operations.values := by
    rw [values]
    exact List.mem_singleton_self _
  have memPet : pet ∈ operation.fields := by
    rw [fields]
    exact List.mem_singleton_self _
  have hasOperation : compiled.HasPart (.operation operation) :=
    .tail .refl ⟨.operation, List.mem_map.2 ⟨operation, memOperation, rfl⟩⟩
  exact hasOperation.tail ⟨.field, List.mem_map.2 ⟨pet, memPet, rfl⟩⟩

end GraphQLCompiler
