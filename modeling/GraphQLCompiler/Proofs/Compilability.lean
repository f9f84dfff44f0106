import GraphQLCompiler.Proofs.Compilation
import GraphQLCompiler.Proofs.Scoping

/-!
# Which documents compile

A document is **well scoped** if validation has nothing against it: its definitions have what they
need, and what is written in them is defined where it is written (`Document.WellScoped`). All that
can keep a well-scoped document from compiling against a well-formed schema is a field that is
collected at a type that does not define it (`exists_compileDocument_iff`).

Such a field is never met where all sites are regular. Elsewhere it may be, in two ways: a fragment
that does not apply is expanded at the object type that it is spread at, or the sub-selections of
several occurrences of a field are collected at the type of the first, which is not the narrowest.
-/

namespace GraphQLCompiler

/-! ### Well-scoped documents -/

/-- Whether a document has a fragment with a name that shares a possible type with a type. -/
def Document.Spreadable (schema : Schema) (document : Document) (written name : Name) : Prop :=
  ∃ definition ∈ document.fragments, definition.name = name ∧
    schema.Overlap definition.typeCondition written

/-- What the validation of a document guarantees: a document is **well scoped** if its operations
have names and root types, the types of their variables are defined, its fragments have names of
their own, type conditions that are composite and no cycles, and the selections of all definitions
are scoped at the types that they are written for. -/
structure Document.WellScoped (schema : Schema) (document : Document) : Prop where
  named : ∀ definition ∈ document.operations, ∃ name, definition.name = some name
  typed : ∀ definition ∈ document.operations,
    ∀ variableDefinition ∈ definition.variableDefinitions,
      ∃ kind, schema.typeKind? variableDefinition.type.bare = some kind
  rooted : ∀ definition ∈ document.operations, ∃ root,
    schema.rootType? definition.operationType = some root ∧
      Scoped schema (document.Spreadable schema) root definition.selections
  unique : (document.fragments.map FragmentDefinition.name).Nodup
  acyclic : (FragmentTable.ofList document.fragments).Acyclic
  composite : ∀ definition ∈ document.fragments, schema.isComposite definition.typeCondition
  fragmentsScoped : ∀ definition ∈ document.fragments,
    Scoped schema (document.Spreadable schema) definition.typeCondition definition.selections

/-- The sites that the compilation of a document starts from. -/
inductive Document.StartsAt (schema : Schema) (document : Document) (library : FragmentLibrary) :
    Site → Prop where
  /-- The selections of an operation, at its root type. -/
  | operation {definition : OperationDefinition} {root : Name}
      (mem : definition ∈ document.operations)
      (rooted : schema.rootType? definition.operationType = some root) :
      StartsAt schema document library (.start library root definition.selections)
  /-- The selections of a fragment, at its type condition. -/
  | fragment {definition : FragmentDefinition} (mem : definition ∈ document.fragments) :
      StartsAt schema document library
        (.start library definition.typeCondition definition.selections)

namespace Document.WellScoped

variable {schema : Schema} {document : Document} {options : Options} {library : FragmentLibrary}

/-- The table of fragments with names of their own lists them in order. -/
theorem table_eq (inScope : document.WellScoped schema) :
    FragmentTable.ofList document.fragments
      = document.fragments.map fun definition => (definition.name, definition) := by
  refine NameMap.ofList_of_nodup ?_
  rw [List.map_map]
  exact inScope.unique

/-- Fragments with names of their own are found by their names. -/
theorem find?_eq_some_iff (inScope : document.WellScoped schema) {name : Name}
    {definition : FragmentDefinition} :
    (FragmentTable.ofList document.fragments).find? name = some definition ↔
      definition ∈ document.fragments ∧ definition.name = name := by
  constructor
  · intro found
    refine ⟨?_, FragmentTable.isNamed_ofList _ name definition found⟩
    obtain ⟨other, mem, eq⟩ :=
      List.mem_map.1 (NameMap.mem_of_mem_ofList (NameMap.mem_of_find?_eq_some found))
    cases eq
    exact mem
  · rintro ⟨mem, rfl⟩
    have pair : (definition.name, definition) ∈ FragmentTable.ofList document.fragments := by
      rw [inScope.table_eq]
      exact List.mem_map.2 ⟨definition, mem, rfl⟩
    exact NameMap.find?_eq_some_of_mem (NameMap.nodup_keys_ofList _) pair

theorem values_eq (inScope : document.WellScoped schema) :
    (FragmentTable.ofList document.fragments).values = document.fragments := by
  rw [inScope.table_eq, NameMap.values, List.map_map]
  exact List.map_id _

/-- What is written at a start site is scoped at its type. -/
theorem scoped_start (inScope : document.WellScoped schema) {site : Site}
    (start : document.StartsAt schema library site) :
    ∃ selections, site = .start library site.parent selections ∧
      Scoped schema (document.Spreadable schema) site.parent selections := by
  cases start with
  | @operation definition root mem rooted =>
    obtain ⟨other, rootedOther, inside⟩ := inScope.rooted definition mem
    cases rooted.symm.trans rootedOther
    exact ⟨definition.selections, rfl, inside⟩
  | @fragment definition mem =>
    exact ⟨definition.selections, rfl, inScope.fragmentsScoped definition mem⟩

variable (inScope : document.WellScoped schema)
  (h : (FragmentTable.ofList document.fragments).library = .ok library)

include inScope h

theorem isSome_of_spreadable (written name : Name)
    (spreads : document.Spreadable schema written name) : (library.find? name).isSome := by
  obtain ⟨definition, mem, named, -⟩ := spreads
  rw [FragmentTable.find?_library h, inScope.find?_eq_some_iff.2 ⟨mem, named⟩]
  rfl

/-- The linked fragments of a well-scoped document are known. -/
theorem known_of_find? {name : Name} {fragment : Fragment}
    (found : library.find? name = some fragment) : fragment.Known schema := by
  refine FragmentTable.library_induction h (fun name definition defined lower => ?_) found
  have mem := (inScope.find?_eq_some_iff.1 defined).1
  refine Fragment.known_iff.2 ⟨inScope.composite definition mem, ?_⟩
  exact known_link (inScope.isSome_of_spreadable h) definition.typeCondition _
    (inScope.fragmentsScoped definition mem) lower

/-- The linked fragments of a well-scoped document are scoped at their type conditions. -/
theorem findsScoped : FindsScoped schema (document.Spreadable schema) library.find? := by
  intro name fragment found
  rw [FragmentTable.find?_library h, Option.map_eq_some_iff] at found
  obtain ⟨definition, defined, rfl⟩ := found
  have mem := (inScope.find?_eq_some_iff.1 defined).1
  exact scoped_link definition.typeCondition _ (inScope.fragmentsScoped definition mem)

theorem known_start {site : Site} (start : document.StartsAt schema library site) :
    ∀ selection ∈ site.selections, selection.Known schema := by
  obtain ⟨selections, eq, inside⟩ := inScope.scoped_start start
  have known : Known schema (link library.find? selections) :=
    known_link (inScope.isSome_of_spreadable h) site.parent selections inside
      fun _ _ _ found => inScope.known_of_find? h found
  rw [eq]
  exact known_iff.1 known

theorem scopedAbove_start {site : Site} (start : document.StartsAt schema library site) :
    site.ScopedAbove schema (document.Spreadable schema) library.find? := by
  obtain ⟨selections, eq, inside⟩ := inScope.scoped_start start
  have named := FragmentTable.isNamed_ofList document.fragments
  rw [eq]
  refine ⟨linkedBy_iff.1 (FragmentTable.linkedBy_link h named selections), fun selection mem => ?_⟩
  refine ⟨site.parent, Schema.isSubtypeOf_self _ _, ?_⟩
  exact scoped_iff.1 (scoped_link site.parent selections inside) selection mem

/-- What a well-scoped document is compiled from is ready if its start sites are defined. -/
theorem ready_of_defined (wf : schema.WellFormed)
    (defined : ∀ site, document.StartsAt schema library site → site.Defined { schema, options }) :
    (Compiler.ofDocument schema document options).Ready library where
  operations definition mem := by
    obtain ⟨root, rooted, -⟩ := inScope.rooted definition mem
    have start : document.StartsAt schema library (.start library root definition.selections) :=
      .operation mem rooted
    refine ⟨inScope.named definition mem, inScope.typed definition mem, root, rooted, ?_, ?_⟩
    · exact Schema.isComposite_of_isObject (wf.rootsAreObjects _ root rooted)
    · exact ⟨inScope.known_start h start, defined _ start⟩
  fragments definition mem := by
    have written : definition ∈ document.fragments := inScope.values_eq ▸ mem
    have start : document.StartsAt schema library
        (.start library definition.typeCondition definition.selections) := .fragment written
    exact ⟨inScope.composite definition written, inScope.known_start h start, defined _ start⟩

/-- The start sites of a document that compiles are defined. -/
theorem defined_of_compileDocument {compiled : Compiled.Document}
    (compiles : compileDocument schema document options = .ok compiled) {site : Site}
    (start : document.StartsAt schema library site) : site.Defined { schema, options } := by
  obtain ⟨⟨operations, allOperations, -⟩, ⟨fragments, allFragments, -⟩⟩ :=
    compiledDocument_of_compileDocument h compiles
  cases start with
  | @operation definition root mem rooted =>
    obtain ⟨operation, -, other, compiledOperation⟩ := exists_related_of_mem allOperations mem
    cases rooted.symm.trans compiledOperation.root_eq
    exact compiledOperation.describes.defined
  | @fragment definition mem =>
    rw [← inScope.values_eq] at mem
    obtain ⟨fragment, -, compiledFragment⟩ := exists_related_of_mem allFragments mem
    exact compiledFragment.describes.defined

end Document.WellScoped

/-- **Which well-scoped documents compile.** Fragments of a well-scoped document have a library, and
the document compiles exactly if every field is defined on the type that it is collected at,
wherever compilation comes to from its definitions. It does compile if all sites on the way are
regular. -/
theorem exists_compileDocument_iff {schema : Schema} {document : Document} (options : Options)
    (wf : schema.WellFormed) (inScope : document.WellScoped schema) :
    ∃ library, (FragmentTable.ofList document.fragments).library = .ok library ∧
      ((∃ compiled, compileDocument schema document options = .ok compiled) ↔
        ∀ site, document.StartsAt schema library site → site.Defined { schema, options }) ∧
      ((∀ start, document.StartsAt schema library start →
          ∀ site, start.Reaches { schema, options } site → site.Regular { schema, options }) →
        ∃ compiled, compileDocument schema document options = .ok compiled) := by
  obtain ⟨library, h⟩ := FragmentTable.exists_library_iff.2 inScope.acyclic
  have compiles : (∀ site, document.StartsAt schema library site →
      site.Defined { schema, options }) →
      ∃ compiled, compileDocument schema document options = .ok compiled :=
    fun defined => exists_compileDocument_of_ready h (inScope.ready_of_defined h wf defined)
  -- a field that is not defined is the only obstacle, and regular sites have none
  refine ⟨library, h, ⟨?_, compiles⟩, fun regular => compiles fun site start => ?_⟩
  · rintro ⟨compiled, eq⟩ site start
    exact inScope.defined_of_compileDocument h eq start
  · exact (inScope.scopedAbove_start h start).defined wf (inScope.findsScoped h)
      (regular site start)

/-- A query for pets that have an owner with an identifier, and a kennel if they are dogs. -/
def mergedOwners : Document :=
  queryDocument
    [plainField "pet" [
      plainField "owner" [plainField "id" []],
      plainInline "Dog" [plainField "owner" [plainField "kennel" []]]]]
    []

section

variable {schema : Schema} {spreads : Name → Name → Prop} {written bare : Name}

private theorem scoped_plainField {name : Name} {selections : WrittenSelections}
    (found : (schema.fieldDefinition? written name).map (·.type.bare) = some bare)
    (inside : Scoped schema spreads bare selections) :
    (plainField name selections).Scoped schema spreads written := by
  obtain ⟨definition, defined, rfl⟩ := Option.map_eq_some_iff.1 found
  rw [plainField, Selection.Scoped]
  exact ⟨rfl, definition, defined, inside⟩

private theorem scoped_plainInline {condition : Name} {selections : WrittenSelections}
    (composite : schema.isComposite condition) (overlap : schema.Overlap condition written)
    (inside : Scoped schema spreads condition selections) :
    (plainInline condition selections).Scoped schema spreads written := by
  rw [plainInline, Selection.Scoped]
  refine ⟨?_, inside⟩
  rintro _ ⟨⟩
  exact ⟨composite, overlap⟩

end

theorem mergedOwners_wellScoped : mergedOwners.WellScoped petSchema where
  named := List.forall_mem_singleton.2 ⟨"Q", rfl⟩
  typed := List.forall_mem_singleton.2 fun _ mem => by cases mem
  rooted := by
    have id : (plainField "id" []).Scoped petSchema (mergedOwners.Spreadable petSchema)
        "Owner" := scoped_plainField (by cbv) (scoped_iff.2 (List.forall_mem_nil _))
    have kennel : (plainField "kennel" []).Scoped petSchema (mergedOwners.Spreadable petSchema)
        "Breeder" := scoped_plainField (by cbv) (scoped_iff.2 (List.forall_mem_nil _))
    have owner : (plainField "owner" [plainField "id" []]).Scoped petSchema
        (mergedOwners.Spreadable petSchema) "Pet" :=
      scoped_plainField (by cbv) (scoped_iff.2 (List.forall_mem_singleton.2 id))
    have breeder : (plainField "owner" [plainField "kennel" []]).Scoped petSchema
        (mergedOwners.Spreadable petSchema) "Dog" :=
      scoped_plainField (by cbv) (scoped_iff.2 (List.forall_mem_singleton.2 kennel))
    have overlap : petSchema.Overlap "Dog" "Pet" := by
      refine ⟨"Dog", ?_, ?_, ?_⟩ <;> decide +kernel
    have dog := scoped_plainInline (by decide +kernel) overlap
      (scoped_iff.2 (List.forall_mem_singleton.2 breeder))
    have pet := scoped_iff.2 (List.forall_mem_cons.2 ⟨owner, List.forall_mem_singleton.2 dog⟩)
    refine List.forall_mem_singleton.2 ⟨"Query", rfl, scoped_iff.2 ?_⟩
    exact List.forall_mem_singleton.2 (scoped_plainField (by cbv) pet)
  unique := List.nodup_nil
  acyclic := FragmentTable.exists_library_iff.1 ⟨[], rfl⟩
  composite _ mem := by cases mem
  fragmentsScoped _ mem := by cases mem

/-- The document is well scoped, but its sub-selections on owners of dogs are collected at the type
of the first owner, which has no kennel. -/
theorem exists_compileDocument_iff_mergedOwners :
    compileDocument petSchema mergedOwners {} = .error (.unknownField "Owner" "kennel" none) ∧
      ∃ library site, mergedOwners.StartsAt petSchema library site ∧
        ¬ site.Defined { schema := petSchema, options := {} } := by
  have fails : compileDocument petSchema mergedOwners {}
      = .error (.unknownField "Owner" "kennel" none) := by cbv
  obtain ⟨library, -, compiles, -⟩ :=
    exists_compileDocument_iff {} petSchema_wellFormed mergedOwners_wellScoped
  refine ⟨fails, library, ?_⟩
  by_contra none
  have defined : ∀ site, mergedOwners.StartsAt petSchema library site →
      site.Defined { schema := petSchema, options := {} } := fun site start => by
    by_contra undefined
    exact none ⟨site, start, undefined⟩
  obtain ⟨compiled, eq⟩ := compiles.2 defined
  cases fails.symm.trans eq

end GraphQLCompiler
