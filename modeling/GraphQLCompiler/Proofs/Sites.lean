import GraphQLCompiler.Proofs.Application
import Mathlib.Logic.Relation

/-!
# Sites

A **site** is a type with the selections that are collected at it. Compilation starts from the sites
of operations and fragments, and **follows** each to others: to the sub-selections of the fields
that apply at a type that it is resolved at, and to the fragments that apply there.

Which sites are followed depends on what is mentioned at a site up to later repetitions only, so
sites that mention the same count as **similar** (`Site.Similar`): they reference the same fragments
and are defined alike.
-/

namespace GraphQLCompiler

/-- A type with the selections that are collected at it. -/
structure Site where
  parent : Name
  selections : List LinkedSelection

/-- The site of written selections at a type, linked to a library. -/
abbrev Site.start (library : FragmentLibrary) (parent : Name) (selections : WrittenSelections) :
    Site where
  parent
  selections := link library.find? selections

/-- The site of the selections of a fragment. -/
def Fragment.site (fragment : Fragment) : Site where
  parent := fragment.typeCondition
  selections := fragment.selections

/-- The site of the sub-selections of a field, at the type of its first occurrence. -/
def ApplicableField.site (field : ApplicableField) : Site where
  parent := field.bareType
  selections := field.occurrences.flatMap Occurrence.selections

namespace Site

variable (settings : Settings)

/-- What is mentioned at a site. -/
def mentions (site : Site) : List Mention := reading settings site.parent site.selections

/-- Whether a site is resolved at a type: at its own, and at the object types that get a branch. -/
def ResolvedAt (site : Site) (typeName : Name) : Prop :=
  typeName = site.parent ∨ settings.schema.isAbstract site.parent ∧
    ∃ mention ∈ site.mentions settings,
      typeName ∈ narrowedTo settings.schema site.parent mention.typeName

/-- The sites that a site is **followed** to when it is resolved. -/
inductive Follows (site : Site) : Site → Prop where
  /-- The sub-selections of a field of a composite type. -/
  | field {typeName : Name} (field : ApplicableField) (resolved : site.ResolvedAt settings typeName)
      (applicable : field.occurrences
        = occurrencesAt settings.schema typeName field.responseName (site.mentions settings))
      (composite : settings.schema.isComposite field.bareType) : Follows site field.site
  /-- The selections of a fragment. -/
  | fragment {typeName expandedAt : Name} (fragment : Fragment)
      (resolved : site.ResolvedAt settings typeName)
      (mentioned : .fragment expandedAt fragment ∈ site.mentions settings)
      (applicable : settings.schema.isSubtypeOf typeName expandedAt) : Follows site fragment.site

/-- The sites that compilation comes to from a site. -/
abbrev Reaches : Site → Site → Prop := Relation.ReflTransGen (Follows settings)

/-- Whether a site mentions a fragment with a name. -/
def MentionsFragment (site : Site) (name : Name) : Prop :=
  ∃ typeName fragment, .fragment typeName fragment ∈ site.mentions settings ∧ fragment.name = name

/-- Whether a fragment with a name is mentioned at a site that compilation comes to. -/
def References (site : Site) (name : Name) : Prop :=
  ∃ other, site.Reaches settings other ∧ other.MentionsFragment settings name

/-- Whether every field is defined on the type that it is collected at, wherever compilation comes
to. -/
def Defined (site : Site) : Prop :=
  ∀ other, site.Reaches settings other →
    ∀ mention ∈ other.mentions settings, mention.Defined settings.schema

variable {settings} {site other : Site}

/-! ### One step -/

theorem references_iff {name : Name} : site.References settings name ↔
    site.MentionsFragment settings name ∨
      ∃ next, site.Follows settings next ∧ next.References settings name := by
  constructor
  · rintro ⟨other, reaches, mentioned⟩
    rcases Relation.ReflTransGen.cases_head reaches with rfl | ⟨next, follows, reaches⟩
    · exact .inl mentioned
    · exact .inr ⟨next, follows, other, reaches, mentioned⟩
  · rintro (mentioned | ⟨next, follows, other, reaches, mentioned⟩)
    · exact ⟨site, .refl, mentioned⟩
    · exact ⟨other, .head follows reaches, mentioned⟩

theorem defined_iff : site.Defined settings ↔
    (∀ mention ∈ site.mentions settings, mention.Defined settings.schema) ∧
      ∀ next, site.Follows settings next → next.Defined settings := by
  constructor
  · intro defined
    exact ⟨defined site .refl, fun next follows other reaches =>
      defined other (.head follows reaches)⟩
  · rintro ⟨here, later⟩ other reaches
    rcases Relation.ReflTransGen.cases_head reaches with rfl | ⟨next, follows, reaches⟩
    · exact here
    · exact later next follows other reaches

/-! ### Similar sites -/

/-- Sites are **similar** if they have the same type and mention the same up to repetitions. -/
structure Similar (settings : Settings) (site other : Site) : Prop where
  parent_eq : site.parent = other.parent
  mentions : SameFirsts (site.mentions settings) (other.mentions settings)

@[refl] theorem Similar.refl (site : Site) : site.Similar settings site := ⟨rfl, .refl _⟩

@[symm] theorem Similar.symm (h : site.Similar settings other) : other.Similar settings site :=
  ⟨h.parent_eq.symm, h.mentions.symm⟩

theorem Similar.trans {last : Site} (h : site.Similar settings other)
    (h' : other.Similar settings last) : site.Similar settings last :=
  ⟨h.parent_eq.trans h'.parent_eq, h.mentions.trans h'.mentions⟩

theorem Similar.resolvedAt (h : site.Similar settings other) {typeName : Name}
    (resolved : site.ResolvedAt settings typeName) : other.ResolvedAt settings typeName := by
  unfold ResolvedAt at resolved ⊢
  rw [← h.parent_eq]
  refine resolved.imp_right fun ⟨abstract, mention, mem, narrowed⟩ => ?_
  exact ⟨abstract, mention, h.mentions.mem_iff.1 mem, narrowed⟩

theorem Similar.mentionsFragment (h : site.Similar settings other) {name : Name}
    (mentioned : site.MentionsFragment settings name) : other.MentionsFragment settings name := by
  obtain ⟨typeName, fragment, mem, named⟩ := mentioned
  exact ⟨typeName, fragment, h.mentions.mem_iff.1 mem, named⟩

/-- The sites of a field whose occurrences are the same up to repetitions are similar. -/
theorem similar_of_occurrences {field field' : ApplicableField}
    (same : SameFirsts field.occurrences field'.occurrences) :
    field.site.Similar settings field'.site := by
  have first : field.first = field'.first := Option.some.inj same.head?_eq
  have bareType : field.bareType = field'.bareType := by
    rw [ApplicableField.bareType, ApplicableField.bareType, first]
  refine ⟨bareType, ?_⟩
  unfold Site.mentions ApplicableField.site
  rw [reading_flatMap, reading_flatMap, bareType]
  exact same.flatMap _

/-- Occurrences that are the same up to repetitions make a field with a similar site. -/
theorem exists_similar_field {field : ApplicableField} {occurrences : List Occurrence}
    (same : SameFirsts field.occurrences occurrences) :
    ∃ field' : ApplicableField, field'.responseName = field.responseName ∧
      field'.occurrences = occurrences ∧ field'.bareType = field.bareType ∧
      field.site.Similar settings field'.site := by
  have nonempty : occurrences ≠ [] := by
    have first : field.first ∈ field.occurrences := List.mem_cons_self
    exact List.ne_nil_of_mem (same.mem_iff.1 first)
  obtain ⟨first, others, rfl⟩ := List.exists_cons_of_ne_nil nonempty
  have similar : field.site.Similar settings
      (ApplicableField.site ⟨field.responseName, first, others⟩) := similar_of_occurrences same
  exact ⟨⟨field.responseName, first, others⟩, rfl, rfl, similar.parent_eq.symm, similar⟩

/-- **Similar sites** are followed to similar sites. -/
theorem Similar.follows (h : site.Similar settings other) {next : Site}
    (follows : site.Follows settings next) :
    ∃ next', other.Follows settings next' ∧ next.Similar settings next' := by
  cases follows with
  | field field resolved applicable composite =>
    rename_i typeName
    -- the other site has a field with the same occurrences up to repetitions
    have same : SameFirsts field.occurrences (occurrencesAt settings.schema typeName
        field.responseName (other.mentions settings)) := by
      rw [applicable]
      exact h.mentions.occurrencesAt typeName field.responseName
    obtain ⟨field', named, occurrences, bareType, similar⟩ := exists_similar_field same
    exact ⟨field'.site, .field field' (h.resolvedAt resolved) (named ▸ occurrences)
      (bareType ▸ composite), similar⟩
  | fragment fragment resolved mentioned applicable =>
    exact ⟨_, .fragment fragment (h.resolvedAt resolved) (h.mentions.mem_iff.1 mentioned)
      applicable, .refl _⟩

theorem Similar.reaches (h : site.Similar settings other) {last : Site}
    (reaches : site.Reaches settings last) :
    ∃ last', other.Reaches settings last' ∧ last.Similar settings last' := by
  induction reaches with
  | refl => exact ⟨other, .refl, h⟩
  | tail _ follows ih =>
    obtain ⟨middle, reached, similar⟩ := ih
    obtain ⟨next, followsMiddle, similarNext⟩ := similar.follows follows
    exact ⟨next, reached.tail followsMiddle, similarNext⟩

theorem Similar.references (h : site.Similar settings other) {name : Name}
    (references : site.References settings name) : other.References settings name := by
  obtain ⟨last, reaches, mentioned⟩ := references
  obtain ⟨last', reaches', similar⟩ := h.reaches reaches
  exact ⟨last', reaches', similar.mentionsFragment mentioned⟩

theorem Similar.defined (h : site.Similar settings other) (defined : site.Defined settings) :
    other.Defined settings := by
  intro last reaches mention mem
  obtain ⟨last', reaches', similar⟩ := h.symm.reaches reaches
  exact defined last' reaches' mention (similar.mentions.mem_iff.1 mem)

/-! ### What is kept along sites -/

/-- What is inherited by the selections of a site holds of the sites that it is followed to. -/
theorem Follows.inherited {property : LinkedSelection → Prop} (hereditary : Hereditary property)
    {next : Site} (follows : site.Follows settings next)
    (holds : ∀ selection ∈ site.selections, property selection) :
    ∀ selection ∈ next.selections, property selection := by
  cases follows with
  | field field resolved applicable composite =>
    intro selection mem
    obtain ⟨occurrence, mem, inside⟩ := List.mem_flatMap.1 mem
    rw [applicable] at mem
    exact (GraphQLCompiler.inherited hereditary site.parent site.selections holds
      (mem_occurrencesAt.1 mem).1).inside hereditary selection inside
  | fragment fragment resolved mentioned applicable =>
    exact (GraphQLCompiler.inherited hereditary site.parent site.selections holds
      mentioned).inside hereditary

/-- What is inherited by the selections of a site holds wherever compilation comes to from it. -/
theorem Reaches.inherited {property : LinkedSelection → Prop} (hereditary : Hereditary property)
    {last : Site} (reaches : site.Reaches settings last)
    (holds : ∀ selection ∈ site.selections, property selection) :
    ∀ selection ∈ last.selections, property selection := by
  induction reaches with
  | refl => exact holds
  | tail _ follows ih => exact follows.inherited hereditary ih

end Site

end GraphQLCompiler
