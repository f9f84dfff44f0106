import GraphQLCompiler.Proofs.References
import GraphQLCompiler.Proofs.Shape

/-!
# Compiled trees and sites

A compiled selection set is compiled from a site (`Site.CompilesTo`), and the selection sets inside
it from the sites that this one is followed to. So what is found anywhere in a compiled tree is
told by the sites that compilation comes to (`Compiled.Contains`).
-/

namespace GraphQLCompiler

variable (settings : Settings) (find : Name → Option Fragment)

/-- Whether a compiled selection set is compiled from a site. -/
def Site.CompilesTo (site : Site) (selectionSet : Compiled.SelectionSet) : Prop :=
  ∃ collection, site.Collected settings find collection ∧
    ResolvesTo settings site.parent collection selectionSet

namespace Compiled

/-- The fields of a compiled selection set and of its branches. -/
def allFields (selectionSet : SelectionSet) : List Field :=
  selectionSet.fields ++ selectionSet.inlineFragments.flatMap Branch.fields

/-- The names of the fragments that are spread in a compiled selection set or in its branches. -/
def allSpreads (selectionSet : SelectionSet) : List Name :=
  selectionSet.fragmentSpreads ++ selectionSet.inlineFragments.flatMap Branch.fragmentSpreads

/-- Whether a compiled selection set is that of a field of another. -/
def Contains (selectionSet inner : SelectionSet) : Prop :=
  ∃ field ∈ allFields selectionSet, field.selectionSet = some inner

/-- The fields inside a field are smaller. -/
private theorem sizeOf_lt_of_mem_allFields {field child : Field} {inner : SelectionSet}
    (eq : field.selectionSet = some inner) (mem : child ∈ allFields inner) :
    sizeOf child < sizeOf field := by
  obtain ⟨_, _, _, _, _, _, selectionSet⟩ := field
  obtain ⟨fields, _, inlineFragments⟩ := inner
  obtain rfl := eq
  simp only [Field.mk.sizeOf_spec, Option.some.sizeOf_spec, Selected.mk.sizeOf_spec]
  rcases List.mem_append.1 mem with mem | mem
  · have smaller : sizeOf child < sizeOf fields := List.sizeOf_lt_of_mem mem
    omega
  · obtain ⟨⟨_, _, fields, _⟩, memBranch, mem⟩ := List.mem_flatMap.1 mem
    have smallerBranch := List.sizeOf_lt_of_mem memBranch
    have smaller : sizeOf child < sizeOf fields := List.sizeOf_lt_of_mem mem
    simp only [Branch.mk.sizeOf_spec] at smallerBranch
    omega

/-- **Induction over the tree of fields.** -/
theorem Field.induction {property : Field → Prop}
    (step : ∀ field : Field, (∀ inner, field.selectionSet = some inner →
      ∀ child ∈ allFields inner, property child) → property field) (field : Field) :
    property field :=
  step field fun _ _ child _ => Field.induction step child
termination_by sizeOf field
decreasing_by exact sizeOf_lt_of_mem_allFields ‹_› ‹_›

end Compiled

variable {settings find} {site : Site} {collection : Collection}

/-! ### One step -/

/-- What a field that applies at a site is compiled to is compiled from the site of the field. -/
theorem Site.Collected.compilesTo_field (h : site.Collected settings find collection)
    {typeName : Name} {field : ApplicableField}
    (applicable : field ∈ applicableFields settings.schema typeName collection)
    {compiled : Compiled.Field} (compiles : field.CompilesTo settings typeName compiled)
    {inner : Compiled.SelectionSet} (eq : compiled.selectionSet = some inner) :
    settings.schema.isComposite field.bareType ∧ field.site.CompilesTo settings find inner := by
  have composite := compiles.composite eq
  obtain ⟨innerCollection, merged, resolves⟩ := compiles.selectionSet inner eq
  rw [mergeSelections_eq composite] at merged
  have linked := h.inherited_field (hereditary_linkedBy find) h.linked applicable
  exact ⟨composite, innerCollection, field.site.collected_of_collect linked merged, resolves⟩

/-- The fields of a compiled selection set and of its branches are compiled from fields that apply
where it is resolved. -/
theorem Shape.exists_field {parent : Name} {selectionSet : Compiled.SelectionSet}
    (h : Shape settings parent collection selectionSet) {compiled : Compiled.Field}
    (mem : compiled ∈ Compiled.allFields selectionSet) :
    ∃ typeName, (typeName = parent ∨ typeName ∈ narrowedTypes settings.schema parent collection) ∧
      ∃ field ∈ applicableFields settings.schema typeName collection,
        field.CompilesTo settings typeName compiled := by
  rcases List.mem_append.1 mem with mem | mem
  · obtain ⟨field, applicable, compiles⟩ := exists_related_of_mem h.fields.flip mem
    exact ⟨parent, .inl rfl, field, applicable, compiles⟩
  · obtain ⟨branch, memBranch, mem⟩ := List.mem_flatMap.1 mem
    obtain ⟨object, narrowed, branchAt⟩ := exists_related_of_mem h.inlineFragments.flip memBranch
    obtain ⟨field, applicable, compiles⟩ := exists_related_of_mem branchAt.fields.flip mem
    exact ⟨object, .inr narrowed, field, applicable, compiles⟩

/-- The spreads of a compiled selection set and of its branches are those of fragments that apply
where it is resolved. -/
theorem Shape.exists_spread {parent name : Name} {selectionSet : Compiled.SelectionSet}
    (h : Shape settings parent collection selectionSet)
    (mem : name ∈ Compiled.allSpreads selectionSet) :
    ∃ typeName, (typeName = parent ∨ typeName ∈ narrowedTypes settings.schema parent collection) ∧
      ∃ fragment ∈ fragmentsAt settings.schema typeName collection, fragment.name = name := by
  rcases List.mem_append.1 mem with mem | mem
  · rw [h.fragmentSpreads_eq] at mem
    exact ⟨parent, .inl rfl, List.mem_map.1 mem⟩
  · obtain ⟨branch, memBranch, mem⟩ := List.mem_flatMap.1 mem
    obtain ⟨object, narrowed, branchAt⟩ := exists_related_of_mem h.inlineFragments.flip memBranch
    rw [branchAt.fragmentSpreads_eq] at mem
    exact ⟨object, .inr narrowed, List.mem_map.1 mem⟩

variable {selectionSet inner : Compiled.SelectionSet}

/-- A selection set inside another is compiled from a site that the site of the other is followed
to. -/
theorem Site.CompilesTo.contains (h : site.CompilesTo settings find selectionSet)
    (contains : Compiled.Contains selectionSet inner) :
    ∃ next, site.Follows settings next ∧
      ∃ next', next.Similar settings next' ∧ next'.CompilesTo settings find inner := by
  obtain ⟨collection, collected, resolves⟩ := h
  obtain ⟨compiled, mem, eq⟩ := contains
  obtain ⟨typeName, at', field, applicable, compiles⟩ := resolves.shape.exists_field mem
  obtain ⟨composite, compilesTo⟩ := collected.compilesTo_field applicable compiles eq
  have listed : field.site ∈ sitesAt settings.schema collection typeName :=
    List.mem_append_left _ (List.mem_map.2 ⟨field, List.mem_filter.2 ⟨applicable, composite⟩, rfl⟩)
  obtain ⟨next, follows, similar⟩ :=
    collected.exists_follows (collected.resolvedAt_iff.2 at') listed
  exact ⟨next, follows, field.site, similar, compilesTo⟩

/-- A fragment that is spread in a compiled selection set is mentioned at the site, and the site is
followed to the fragment. -/
theorem Site.CompilesTo.spread (h : site.CompilesTo settings find selectionSet) {name : Name}
    (mem : name ∈ Compiled.allSpreads selectionSet) :
    site.MentionsFragment settings name ∧
      ∃ fragment, find name = some fragment ∧ site.Follows settings fragment.site := by
  obtain ⟨collection, collected, resolves⟩ := h
  obtain ⟨typeName, at', fragment, applicable, rfl⟩ := resolves.shape.exists_spread mem
  obtain ⟨expandedAt, mentioned, sub⟩ := collected.mem_fragmentsAt.1 applicable
  exact ⟨⟨expandedAt, fragment, mentioned, rfl⟩, fragment, (collected.found mentioned).1,
    .fragment fragment (collected.resolvedAt_iff.2 at') mentioned sub⟩

open CompileM in
/-- A fragment is compiled from its site. -/
theorem ensures_compilesTo_site {fragment : Fragment} (linked : fragment.LinkedBy find) :
    Ensures (fun _ => True) False (resolveFragment settings fragment) fun resolved =>
      fragment.site.CompilesTo settings find resolved.selectionSet := by
  have linkedInside := linkedBy_iff.1 (Fragment.linkedBy_iff.1 linked)
  unfold resolveFragment resolveFragmentWith
  split
  · exact ensures_throw not_false
  · split
    · exact ensures_fail not_false
    · rename_i collection collected
      have collectedSite := fragment.site.collected_of_collect linkedInside collected
      refine ensures_true.bind fun _ _ => ensures_resolvesTo.bind fun resolved resolves => ?_
      exact ensures_true.bind fun _ _ => ensures_pure ⟨collection, collectedSite, resolves⟩

/-! ### The whole tree -/

/-- **A selection set at any depth** of a compiled tree is compiled from a site that compilation
comes to, up to similarity. -/
theorem Site.CompilesTo.exists_reaches (h : site.CompilesTo settings find selectionSet)
    (inside : Relation.ReflTransGen Compiled.Contains selectionSet inner) :
    ∃ last, site.Reaches settings last ∧
      ∃ last', last.Similar settings last' ∧ last'.CompilesTo settings find inner := by
  induction inside with
  | refl => exact ⟨site, .refl, site, .refl site, h⟩
  | tail _ contains ih =>
    obtain ⟨middle, reaches, middle', similar, compilesTo⟩ := ih
    obtain ⟨next, follows, next', similarNext, compilesNext⟩ := compilesTo.contains contains
    -- the step starts at a site that is only similar to the one that was reached
    obtain ⟨next'', followsMiddle, similarMiddle⟩ := similar.symm.follows follows
    exact ⟨next'', reaches.tail followsMiddle, next', similarMiddle.symm.trans similarNext,
      compilesNext⟩

/-- **What is spread anywhere in a compiled tree** is referenced by its site, and so is everything
that the fragment references. -/
theorem Site.CompilesTo.references (h : site.CompilesTo settings find selectionSet)
    (inside : Relation.ReflTransGen Compiled.Contains selectionSet inner) {name : Name}
    (mem : name ∈ Compiled.allSpreads inner) :
    site.References settings name ∧ ∃ fragment, find name = some fragment ∧
      ∀ other, fragment.site.References settings other → site.References settings other := by
  obtain ⟨last, reaches, last', similar, compilesTo⟩ := h.exists_reaches inside
  obtain ⟨mentioned, fragment, found, follows⟩ := compilesTo.spread mem
  refine ⟨⟨last, reaches, similar.symm.mentionsFragment mentioned⟩, fragment, found, ?_⟩
  intro other references
  obtain ⟨next, followsLast, similarNext⟩ := similar.symm.follows follows
  obtain ⟨final, reachesFinal, mentionedFinal⟩ := similarNext.references references
  exact ⟨final, reaches.trans (.head followsLast reachesFinal), mentionedFinal⟩

end GraphQLCompiler
