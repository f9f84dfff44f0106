import GraphQLCompiler.Proofs.Faults
import GraphQLCompiler.Proofs.Recasting
import GraphQLCompiler.Proofs.Repetitions

/-!
# Rewording selections

The same can be selected in different words. Two fields that stand next to each other and differ in
their sub-selections only are one field with the sub-selections of both; an inline fragment without
a type condition selects what is in it; and what is selected already may be selected again. The
**rewordings** of selections are what these three laws make of them, at every depth, in either
direction and any number of times. Places do not count.

Linked selections also hold the contents of fragments, which may be reworded too
(`TargetReworded`). Rewording changes the reading of selections by repetitions, and by how
sub-selections are split over the occurrences of a field: what is mentioned stays the same once
sub-selections are left out, and the sub-selections of each field are reworded
(`MentionsReworded`). Nor does rewording add or remove all faults, so selections can be collected if
their rewordings can.
-/

namespace GraphQLCompiler

variable {τ : Type}

/-! ### The laws -/

/-- The **rewordings** of selections, over a relation of what spreads carry. -/
inductive Reworded (same : τ → τ → Prop) :
    List (Selection τ) → List (Selection τ) → Prop where
  | refl (selections : List (Selection τ)) : Reworded same selections selections
  | symm {selections selections' : List (Selection τ)} (h : Reworded same selections selections') :
    Reworded same selections' selections
  | trans {selections selections' selections'' : List (Selection τ)}
    (h : Reworded same selections selections') (h' : Reworded same selections' selections'') :
    Reworded same selections selections''
  | append {selections selections' more more' : List (Selection τ)}
    (h : Reworded same selections selections') (h' : Reworded same more more') :
    Reworded same (selections ++ more) (selections' ++ more')
  /-- The sub-selections of a field are reworded. -/
  | field {aliasName : Option Name} {name : Name} {arguments : List Argument}
    {directives : List Directive} {location location' : Option Span}
    {selections selections' : List (Selection τ)} (h : Reworded same selections selections') :
    Reworded same [.field aliasName name arguments directives location selections]
      [.field aliasName name arguments directives location' selections']
  /-- The selections in an inline fragment are reworded. -/
  | inlineFragment {typeCondition : Option Name} {directives : List Directive}
    {location location' : Option Span} {selections selections' : List (Selection τ)}
    (h : Reworded same selections selections') :
    Reworded same [.inlineFragment typeCondition directives location selections]
      [.inlineFragment typeCondition directives location' selections']
  | spread {name : Name} {directives : List Directive} {location location' : Option Span}
    {target target' : τ} (h : same target target') :
    Reworded same [.spread name directives location target]
      [.spread name directives location' target']
  /-- Two adjacent fields become one. -/
  | merge {aliasName : Option Name} {name : Name} {arguments : List Argument}
    {directives : List Directive} {location location' merged : Option Span}
    {selections selections' : List (Selection τ)} :
    Reworded same [.field aliasName name arguments directives location selections,
        .field aliasName name arguments directives location' selections']
      [.field aliasName name arguments directives merged (selections ++ selections')]
  /-- Selections are wrapped in an inline fragment without type condition and directives. -/
  | wrap {location : Option Span} {selections : List (Selection τ)} :
    Reworded same selections [.inlineFragment none [] location selections]
  /-- A selection, such as the spread of a fragment, is repeated later. -/
  | again {selection : Selection τ} {selections : List (Selection τ)}
      (mem : selection ∈ selections) : Reworded same selections (selections ++ [selection])

/-- Whether what two linked spreads of a name carry is the same up to rewording: nothing, or
fragments of one name and type condition with reworded contents. -/
inductive TargetReworded : Option Fragment → Option Fragment → Prop where
  | undefined : TargetReworded none none
  | fragment {name typeCondition : Name} {location location' : Option Span}
    {selections selections' : List LinkedSelection}
    (h : Reworded TargetReworded selections selections') :
    TargetReworded (some ⟨name, typeCondition, location, selections⟩)
      (some ⟨name, typeCondition, location', selections'⟩)

namespace TargetReworded

theorem refl : ∀ target, TargetReworded target target
  | none => .undefined
  | some ⟨_, _, _, selections⟩ => .fragment (.refl selections)

theorem symm {target target' : Option Fragment} (h : TargetReworded target target') :
    TargetReworded target' target := by
  cases h with
  | undefined => exact .undefined
  | fragment h => exact .fragment h.symm

end TargetReworded

/-! ### Consequences of the laws -/

namespace Reworded

variable {same : τ → τ → Prop}

/-- What is selected already may be selected again. -/
theorem append_of_subset {selections more : List (Selection τ)} (sub : more ⊆ selections) :
    Reworded same selections (selections ++ more) := by
  induction more using List.reverseRecOn with
  | nil =>
    rw [List.append_nil]
    exact .refl selections
  | append_singleton more selection ih =>
    obtain ⟨subInit, subLast⟩ := List.append_subset.1 sub
    have mem : selection ∈ selections := subLast (List.mem_singleton_self selection)
    rw [← List.append_assoc]
    exact (ih subInit).trans (.again (List.mem_append_left more mem))

/-- Selections that are the same up to repetitions are reworded. -/
theorem of_sameFirsts {selections selections' : List (Selection τ)}
    (h : SameFirsts selections selections') : Reworded same selections selections' := by
  classical
  have erased := eraseDups_induction (Reworded same) (.refl [])
    (fun _ _ _ mem ih => ih.trans (.again mem))
    fun _ _ selection _ ih => ih.append (.refl [selection])
  have eq : selections.eraseDups = selections'.eraseDups := h.eraseDups_eq
  exact (erased selections).symm.trans (eq ▸ erased selections')

/-- Rewording changes neither what is spread nor where it is spread from. -/
theorem mem_spreadNames_iff {selections selections' : List (Selection τ)}
    (h : Reworded same selections selections') (name : Name) :
    name ∈ spreadNames selections ↔ name ∈ spreadNames selections' := by
  have mem_append : ∀ list more : List (Selection τ),
      name ∈ spreadNames (list ++ more) ↔ name ∈ spreadNames list ∨ name ∈ spreadNames more := by
    intro list more
    simp only [GraphQLCompiler.mem_spreadNames_iff, List.mem_append, or_and_right, exists_or]
  induction h with
  | refl => exact .rfl
  | symm _ ih => exact ih.symm
  | trans _ _ ih ih' => exact ih.trans ih'
  | append _ _ ih ih' =>
    rw [mem_append, mem_append]
    exact or_congr ih ih'
  | field _ ih => simpa using ih
  | inlineFragment _ ih => simpa using ih
  | spread => simp
  | merge => simp [mem_append]
  | wrap => simp
  | @again selection selections mem =>
    have inside : name ∈ spreadNames [selection] → name ∈ spreadNames selections := by
      rw [GraphQLCompiler.mem_spreadNames_iff, GraphQLCompiler.mem_spreadNames_iff]
      rintro ⟨other, single, spread⟩
      exact ⟨other, List.mem_singleton.1 single ▸ mem, spread⟩
    rw [mem_append]
    exact ⟨.inl, fun spread => spread.elim id inside⟩

end Reworded

/-! ### Readings -/

/-- The sub-selections of the occurrences of a response name that apply at a type. -/
def subselectionsAt (schema : Schema) (typeName responseName : Name) (mentions : List Mention) :
    List LinkedSelection :=
  (occurrencesAt schema typeName responseName mentions).flatMap Occurrence.selections

theorem subselectionsAt_append (schema : Schema) (typeName responseName : Name)
    (mentions more : List Mention) :
    subselectionsAt schema typeName responseName (mentions ++ more)
      = subselectionsAt schema typeName responseName mentions
        ++ subselectionsAt schema typeName responseName more := by
  simp only [subselectionsAt, occurrencesAt, NameMap.valuesOf, List.filterMap_append,
    List.filter_append, List.map_append, List.flatMap_append]

theorem subselectionsAt_field (schema : Schema) (typeName key responseName : Name)
    (occurrence : Occurrence) :
    subselectionsAt schema typeName key [.field responseName occurrence]
      = if responseName = key ∧ schema.isSubtypeOf typeName occurrence.collectedAt
        then occurrence.selections else [] := by
  by_cases named : responseName = key <;>
    by_cases applicable : schema.isSubtypeOf typeName occurrence.collectedAt <;>
    simp [subselectionsAt, occurrencesAt, NameMap.valuesOf, Mention.field?, named, applicable]

/-- The recasting that leaves nothing of sub-selections and of the contents of fragments. -/
def bareRecasting : Recasting where
  selections _ := []
  fragment original := { original with location := none, selections := [] }
  name_fragment _ := rfl

/-- Whether mentions come from reworded selections: without sub-selections and the contents of
fragments they are the same up to repetitions, and the sub-selections are reworded. -/
structure MentionsReworded (schema : Schema) (mentions mentions' : List Mention) : Prop where
  outside : SameFirsts (mentions.map (Mention.recast bareRecasting))
    (mentions'.map (Mention.recast bareRecasting))
  inside : ∀ typeName responseName, Reworded TargetReworded
    (subselectionsAt schema typeName responseName mentions)
    (subselectionsAt schema typeName responseName mentions')

namespace MentionsReworded

variable {schema : Schema} {mentions mentions' : List Mention}

theorem symm (h : MentionsReworded schema mentions mentions') :
    MentionsReworded schema mentions' mentions :=
  ⟨h.outside.symm, fun typeName responseName => (h.inside typeName responseName).symm⟩

theorem trans {last : List Mention} (h : MentionsReworded schema mentions mentions')
    (h' : MentionsReworded schema mentions' last) : MentionsReworded schema mentions last :=
  ⟨h.outside.trans h'.outside, fun typeName responseName =>
    (h.inside typeName responseName).trans (h'.inside typeName responseName)⟩

theorem append {more more' : List Mention} (h : MentionsReworded schema mentions mentions')
    (h' : MentionsReworded schema more more') :
    MentionsReworded schema (mentions ++ more) (mentions' ++ more') := by
  refine ⟨?_, fun typeName responseName => ?_⟩
  · rw [List.map_append, List.map_append]
    exact h.outside.append h'.outside
  · rw [subselectionsAt_append, subselectionsAt_append]
    exact (h.inside typeName responseName).append (h'.inside typeName responseName)

/-- A fragment is mentioned before, whose contents do not count. -/
theorem cons_fragment {expandedAt : Name} {fragment fragment' : Fragment}
    (same : bareRecasting.fragment fragment = bareRecasting.fragment fragment')
    (h : MentionsReworded schema mentions mentions') :
    MentionsReworded schema (.fragment expandedAt fragment :: mentions)
      (.fragment expandedAt fragment' :: mentions') := by
  have alone : MentionsReworded schema [.fragment expandedAt fragment]
      [.fragment expandedAt fragment'] := by
    refine ⟨?_, fun _ _ => .refl []⟩
    rw [List.map_singleton, List.map_singleton, Mention.recast, Mention.recast, same]
  exact alone.append h

theorem of_sameFirsts (same : SameFirsts mentions mentions') :
    MentionsReworded schema mentions mentions' where
  outside := same.map _
  inside typeName responseName :=
    .of_sameFirsts ((same.occurrencesAt typeName responseName).flatMap Occurrence.selections)

end MentionsReworded

variable {settings : Settings}

/-- An inline fragment without a type condition mentions what is in it. -/
private theorem reading_wrap (parent : Name) (directives : List Directive) (location : Option Span)
    (selections : List LinkedSelection) :
    Selection.reading settings parent (.inlineFragment none directives location selections)
      = reading settings parent selections := by
  rw [Selection.reading]
  simp [applies]

private theorem mentionsReworded_merge {responseName : Name} {occurrence : Occurrence}
    (more : List LinkedSelection) :
    MentionsReworded settings.schema
      [.field responseName occurrence,
        .field responseName { occurrence with selections := more }]
      [.field responseName { occurrence with selections := occurrence.selections ++ more }] := by
  refine ⟨?_, fun typeName key => ?_⟩
  · exact SameFirsts.append_of_subset (List.Subset.refl [Mention.field responseName _])
  · rw [← List.singleton_append, subselectionsAt_append]
    simp only [subselectionsAt_field]
    split
    · exact .refl _
    · exact .refl []

mutual

/-- **Rewording selections** rewords what they mention. -/
theorem mentionsReworded_reading : ∀ {selections selections' : List LinkedSelection},
    Reworded TargetReworded selections selections' → ∀ parent : Name,
      MentionsReworded settings.schema (reading settings parent selections)
        (reading settings parent selections')
  | _, _, .refl _, _ => .of_sameFirsts (.refl _)
  | _, _, .symm h, parent => (mentionsReworded_reading h parent).symm
  | _, _, .trans h h', parent =>
    (mentionsReworded_reading h parent).trans (mentionsReworded_reading h' parent)
  | _, _, .append h h', parent => by
    rw [reading_append, reading_append]
    exact (mentionsReworded_reading h parent).append (mentionsReworded_reading h' parent)
  | _, _, .field h, parent => by
    rw [reading_singleton, reading_singleton, Selection.reading, Selection.reading]
    refine ⟨.refl _, fun typeName key => ?_⟩
    rw [subselectionsAt_field, subselectionsAt_field]
    split
    · exact h
    · exact .refl []
  | _, _, .inlineFragment h, parent => by
    rw [reading_singleton, reading_singleton, Selection.reading, Selection.reading]
    split
    · exact mentionsReworded_reading h _
    · exact .of_sameFirsts (.refl [])
  | _, _, .spread h, parent => by
    rw [reading_singleton, reading_singleton]
    exact mentionsReworded_spread h parent
  | _, _, .merge, parent => by
    rw [← List.singleton_append, reading_append, reading_singleton, reading_singleton,
      reading_singleton, Selection.reading, Selection.reading, Selection.reading]
    exact mentionsReworded_merge _
  | selections, _, .wrap, parent => by
    rw [reading_singleton, reading_wrap]
    exact .of_sameFirsts (.refl _)
  | _, _, .again mem, parent => by
    rw [reading_append, reading_singleton]
    exact .of_sameFirsts (SameFirsts.append_of_subset (reading_subset mem)).symm

private theorem mentionsReworded_spread {name name' : Name}
    {directives directives' : List Directive} {location location' : Option Span} :
    ∀ {target target' : Option Fragment}, TargetReworded target target' → ∀ parent : Name,
      MentionsReworded settings.schema
        (Selection.reading settings parent (.spread name directives location target))
        (Selection.reading settings parent (.spread name' directives' location' target'))
  | _, _, .undefined, parent => by
    rw [Selection.reading, Selection.reading]
    exact .of_sameFirsts (.refl [])
  | _, _, .fragment h, parent => by
    rw [Selection.reading, Selection.reading, Fragment.reading, Fragment.reading]
    refine .cons_fragment rfl ?_
    split
    · exact mentionsReworded_reading h _
    · exact .of_sameFirsts (.refl [])

end

/-! ### Faults -/

section

variable {schema : Schema} {options : Options}

/-- An inline fragment without a type condition has the faults of what is in it. -/
private theorem faults_wrap {parent : Name} (composite : schema.isComposite parent)
    (directives : List Directive) (location : Option Span) (selections : List LinkedSelection) :
    Selection.faults schema options parent (.inlineFragment none directives location selections)
      = faults schema options parent selections := by
  obtain ⟨kind, known, -⟩ := (Option.any_eq_true _ _).1 composite
  rw [Selection.faults]
  simp only [Option.getD_none, Schema.narrow_self, applies, decide_true, Bool.true_or, if_true,
    known, typeFaults_eq_nil_iff.2 composite, List.nil_append]

private theorem field_faults_eq_nil_iff {parent name : Name} {aliasName : Option Name}
    {arguments : List Argument} {directives : List Directive} {location : Option Span}
    {selections : List LinkedSelection} :
    Selection.faults schema options parent
        (.field aliasName name arguments directives location selections) = [] ↔
      (schema.fieldDefinition? parent name).isSome := by
  rw [Selection.faults]
  split <;> simp [*]

/-- The faults at a type together with those of the type itself. -/
private theorem typeFaults_append_faults_eq_nil_iff {typeName : Name}
    {selections selections' : List LinkedSelection}
    (h : schema.isComposite typeName → (faults schema options typeName selections = [] ↔
      faults schema options typeName selections' = [])) :
    typeFaults schema typeName ++ faults schema options typeName selections = [] ↔
      typeFaults schema typeName ++ faults schema options typeName selections' = [] := by
  rw [List.append_eq_nil_iff, List.append_eq_nil_iff, typeFaults_eq_nil_iff]
  exact and_congr_right h

mutual

/-- **Rewording selections** at a composite type neither makes the first fault nor removes the
last. -/
theorem faults_eq_nil_iff_of_reworded : ∀ {selections selections' : List LinkedSelection},
    Reworded TargetReworded selections selections' → ∀ parent : Name, schema.isComposite parent →
      (faults schema options parent selections = [] ↔ faults schema options parent selections' = [])
  | _, _, .refl _, _, _ => .rfl
  | _, _, .symm h, parent, composite => (faults_eq_nil_iff_of_reworded h parent composite).symm
  | _, _, .trans h h', parent, composite =>
    (faults_eq_nil_iff_of_reworded h parent composite).trans
      (faults_eq_nil_iff_of_reworded h' parent composite)
  | _, _, .append h h', parent, composite => by
    rw [faults_append, faults_append, List.append_eq_nil_iff, List.append_eq_nil_iff]
    exact and_congr (faults_eq_nil_iff_of_reworded h parent composite)
      (faults_eq_nil_iff_of_reworded h' parent composite)
  | _, _, .field _, parent, _ => by
    rw [faults_singleton, faults_singleton, field_faults_eq_nil_iff, field_faults_eq_nil_iff]
  | _, _, .inlineFragment h, parent, _ => by
    rw [faults_singleton, faults_singleton, Selection.faults, Selection.faults]
    split
    · simp
    · split
      · exact typeFaults_append_faults_eq_nil_iff (faults_eq_nil_iff_of_reworded h _)
      · exact .rfl
  | _, _, .spread h, parent, _ => by
    rw [faults_singleton, faults_singleton]
    exact faults_eq_nil_iff_of_targetReworded h parent
  | _, _, .merge, parent, _ => by
    rw [← List.singleton_append, faults_append, List.append_eq_nil_iff, faults_singleton,
      faults_singleton, faults_singleton, field_faults_eq_nil_iff, field_faults_eq_nil_iff,
      field_faults_eq_nil_iff, and_self]
  | _, _, .wrap, parent, composite => by
    rw [faults_singleton, faults_wrap composite]
  | _, _, .again mem, parent, _ => by
    rw [faults_append, List.append_eq_nil_iff, faults_singleton]
    refine ⟨fun clean => ⟨clean, ?_⟩, And.left⟩
    rw [faults_eq_flatMap, List.flatMap_eq_nil_iff] at clean
    exact clean _ mem

private theorem faults_eq_nil_iff_of_targetReworded {name name' : Name}
    {directives directives' : List Directive} {location location' : Option Span} :
    ∀ {target target' : Option Fragment}, TargetReworded target target' → ∀ parent : Name,
      (Selection.faults schema options parent (.spread name directives location target) = [] ↔
        Selection.faults schema options parent (.spread name' directives' location' target') = [])
  | _, _, .undefined, parent => by simp [Selection.faults]
  | _, _, .fragment h, parent => by
    rw [Selection.faults, Selection.faults, Fragment.faults, Fragment.faults]
    split
    · simp
    · split
      · exact typeFaults_append_faults_eq_nil_iff (faults_eq_nil_iff_of_reworded h _)
      · exact .rfl

end

end

end GraphQLCompiler
