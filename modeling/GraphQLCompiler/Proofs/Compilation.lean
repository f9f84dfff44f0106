import GraphQLCompiler.Compiler
import GraphQLCompiler.Proofs.Closure
import GraphQLCompiler.Proofs.Cycles
import GraphQLCompiler.Proofs.Tree
import Mathlib

/-!
# Compilation

A compiler compiles each definition from the site of its selections. What a compiled definition
references describes that site, and compilation succeeds if the sites of all definitions are ready
and operations have what they need besides (`ensures_compile`).

The fragments that a compiled definition references are meant to be all that it reaches by spreads,
so that what is printed with it is complete. They are exactly those that are reached by spreads and
mentioned where compilation comes to (`mem_fragmentsReferenced_iff`). What compilation passes over
is lost to them: the spreads in inline fragments that cannot apply and in fields that apply to no
type.
-/

namespace GraphQLCompiler

/-! ### Compiled definitions -/

open CompileM

/-- What a compiled operation tells about the site that it is compiled from. -/
structure Compiler.CompiledOperation (compiler : Compiler) (library : FragmentLibrary)
    (definition : OperationDefinition) (operation : Compiled.Operation) (root : Name) : Prop where
  name_eq : definition.name = some operation.name
  root_eq : compiler.schema.rootType? definition.operationType = some root
  rootType_eq : operation.rootType = root
  describes : (Site.start library root definition.selections).Describes compiler.settings
    operation.fragmentsReferenced
  compilesTo : ∃ selectionSet, operation.fields = selectionSet.fields ∧
    (Site.start library root definition.selections).CompilesTo compiler.settings library.find?
      selectionSet
  source_eq : operation.source = compiler.printOperation definition
  printed : compiler.printWithFragments operation.source operation.fragmentsReferenced
    = .ok operation.sourceWithFragments

/-- What a compiled fragment tells about the site that it is compiled from. -/
structure Compiler.CompiledFragment (compiler : Compiler) (library : FragmentLibrary)
    (definition : FragmentDefinition) (fragment : Compiled.Fragment) : Prop where
  name_eq : fragment.name = definition.name
  typeCondition_eq : fragment.typeCondition = definition.typeCondition
  describes : (definition.link library.find?).site.Describes compiler.settings
    fragment.fragmentsReferenced
  compilesTo : (definition.link library.find?).site.CompilesTo compiler.settings library.find?
    fragment.selectionSet

/-- An operation is ready to be compiled if it has a name, the types of its variables are defined,
and its site at its root type is ready. -/
structure Compiler.OperationReady (compiler : Compiler) (library : FragmentLibrary)
    (definition : OperationDefinition) : Prop where
  named : ∃ name, definition.name = some name
  typed : ∀ variableDefinition ∈ definition.variableDefinitions,
    ∃ kind, compiler.schema.typeKind? variableDefinition.type.bare = some kind
  rooted : ∃ root, compiler.schema.rootType? definition.operationType = some root ∧
    compiler.schema.isComposite root ∧
    (Site.start library root definition.selections).Ready compiler.settings

section

variable {compiler : Compiler} {library : FragmentLibrary}

theorem ensures_library {memo : NameMap (List Name) → Prop} {sure : Prop}
    (acyclic : compiler.table.library = .ok library) :
    Ensures memo sure compiler.library fun found => found = library :=
  (ensures_checkOnce fun _ => ⟨library, acyclic⟩).bind fun _ _ =>
    ensures_pure (FragmentTable.linked_eq acyclic)

theorem ensures_resolveSelections (acyclic : compiler.table.library = .ok library)
    (named : compiler.table.IsNamed) (root : Name) (selections : WrittenSelections) {sure : Prop}
    (ready : sure → compiler.schema.isComposite root ∧
      (Site.start library root selections).Ready compiler.settings) :
    Ensures (Remembers compiler.settings library.find?) sure
      (compiler.resolveSelections root (link library.find? selections)) fun resolved =>
        (Site.start library root selections).Describes compiler.settings resolved.references ∧
          (Site.start library root selections).CompilesTo compiler.settings library.find?
            resolved.selectionSet := by
  have linked := linkedBy_iff.1 (FragmentTable.linkedBy_link acyclic named selections)
  unfold Compiler.resolveSelections
  split
  · rename_i collected
    refine ensures_fail fun met => ?_
    obtain ⟨composite, ready⟩ := ready met
    obtain ⟨result, collects⟩ := exists_collect_of_ready (.start library root selections)
      composite linked ready
    exact absurd (collected.symm.trans collects) (by simp)
  · rename_i collection collected
    refine ensures_tell.bind fun _ _ => ?_
    have collectedSite :=
      (Site.start library root selections).collected_of_collect linked collected
    refine (((ensures_resolve _ rfl collectedSite).imp fun met => (ready met).2).and
      ensures_resolvesTo).mono fun resolved ⟨describes, resolves⟩ => ?_
    exact ⟨describes, collection, collectedSite, resolves⟩

theorem ensures_requireName {memo : NameMap (List Name) → Prop} {sure : Prop}
    {definition : OperationDefinition} (named : sure → ∃ name, definition.name = some name) :
    Ensures memo sure (Compiler.requireName definition)
      fun name => definition.name = some name := by
  unfold Compiler.requireName
  split
  · rename_i eq
    exact ensures_pure eq
  · rename_i eq
    refine ensures_throw fun met => ?_
    obtain ⟨name, some⟩ := named met
    exact absurd (eq.symm.trans some) (by simp)

theorem ensures_requireRoot {memo : NameMap (List Name) → Prop} {sure : Prop}
    {definition : OperationDefinition}
    (rooted : sure → ∃ root, compiler.schema.rootType? definition.operationType = some root) :
    Ensures memo sure (compiler.requireRoot definition) fun root =>
      compiler.schema.rootType? definition.operationType = some root := by
  unfold Compiler.requireRoot
  split
  · rename_i eq
    exact ensures_pure eq
  · rename_i eq
    refine ensures_throw fun met => ?_
    obtain ⟨root, some⟩ := rooted met
    exact absurd (eq.symm.trans some) (by simp)

theorem ensures_compileVariable {memo : NameMap (List Name) → Prop} {sure : Prop}
    {definition : VariableDefinition}
    (typed : sure → ∃ kind, compiler.schema.typeKind? definition.type.bare = some kind) :
    Ensures memo sure (compiler.compileVariable definition) fun _ => True := by
  unfold Compiler.compileVariable
  dsimp only
  split
  · rename_i eq
    refine ensures_throw fun met => ?_
    obtain ⟨kind, some⟩ := typed met
    exact absurd (eq.symm.trans some) (by simp)
  · exact ensures_useType.bind fun _ _ => ensures_pure trivial

/-- Fragments of the table can be printed. -/
theorem exists_printWithFragments {names : List Name}
    (defined : ∀ name ∈ names, compiler.table.contains name) (source : String) :
    ∃ text, compiler.printWithFragments source names = .ok text := by
  have prints : ∃ texts, names.mapM compiler.printNamedFragment = .ok texts := by
    induction names with
    | nil => exact ⟨[], rfl⟩
    | cons name rest ih =>
      obtain ⟨first, others⟩ := List.forall_mem_cons.1 defined
      obtain ⟨definition, found⟩ := Option.isSome_iff_exists.1 first
      obtain ⟨texts, eq⟩ := ih others
      refine ⟨compiler.printFragment definition :: texts, ?_⟩
      rw [List.mapM_cons, Compiler.printNamedFragment, found, eq]
      rfl
  obtain ⟨texts, eq⟩ := prints
  exact ⟨_, by rw [Compiler.printWithFragments, eq]; rfl⟩

theorem ensures_compileOperation (acyclic : compiler.table.library = .ok library)
    (named : compiler.table.IsNamed) (definition : OperationDefinition) :
    Ensures (Remembers compiler.settings library.find?)
      (compiler.OperationReady library definition) (compiler.compileOperation definition)
      fun operation => ∃ root, compiler.CompiledOperation library definition operation root := by
  unfold Compiler.compileOperation
  refine (ensures_library acyclic).bind fun linked linkedEq => ?_
  rw [linkedEq]
  refine (ensures_requireName Compiler.OperationReady.named).bind fun name nameEq =>
    ensures_tell.bind fun _ _ => ?_
  refine (ensures_mapM fun variableDefinition mem =>
    ensures_compileVariable fun ready => ready.typed variableDefinition mem).bind fun _ _ => ?_
  refine (ensures_requireRoot fun ready => ready.rooted.imp fun _ => And.left).bind
    fun root rootEq => ?_
  -- the references describe the start site, so all of them are fragments that can be printed
  refine (ensures_resolveSelections acyclic named root definition.selections fun ready => ?_).bind
    fun resolved ⟨describes, compilesTo⟩ => ?_
  · obtain ⟨other, otherEq, rooted⟩ := ready.rooted
    cases rootEq.symm.trans otherEq
    exact rooted
  · have defined : ∀ name ∈ resolved.references, compiler.table.contains name := fun name mem =>
      (FragmentTable.reachable_of_references acyclic named
        ((describes.mem_iff name).1 mem)).defined
    refine (ensures_ofExcept fun _ => exists_printWithFragments defined _).bind
      fun text printed => ensures_tell.bind fun _ _ => ?_
    exact ensures_pure
      ⟨root, nameEq, rootEq, rfl, describes, ⟨_, rfl, compilesTo⟩, rfl, printed⟩

theorem ensures_compileFragment (acyclic : compiler.table.library = .ok library)
    {definition : FragmentDefinition} (named : compiler.table.IsNamed)
    (found : compiler.table.find? definition.name = some definition) :
    Ensures (Remembers compiler.settings library.find?)
      ((definition.link library.find?).Ready compiler.settings)
      (compiler.compileFragment definition) (compiler.CompiledFragment library definition) := by
  unfold Compiler.compileFragment
  refine (ensures_library acyclic).bind fun linked linkedEq => ?_
  rw [linkedEq]
  have foundLinked : library.find? definition.name = some (definition.link library.find?) := by
    rw [FragmentTable.find?_library acyclic, found]
    rfl
  have linkedFragment := FragmentTable.linkedBy_of_find?_library acyclic named foundLinked
  refine ensures_tell.bind fun _ _ => ?_
  refine ((ensures_resolveFragment foundLinked linkedFragment).and
    (ensures_compilesTo_site linkedFragment)).bind fun resolved ⟨describes, compilesTo⟩ => ?_
  exact ensures_pure ⟨rfl, rfl, describes, compilesTo⟩

/-- What a compiled document consists of. -/
structure Compiler.CompiledDocument (compiler : Compiler) (library : FragmentLibrary)
    (compiled : Compiled.Document) : Prop where
  operations : ∃ operations, List.Forall₂ (fun definition operation =>
      ∃ root, compiler.CompiledOperation library definition operation root)
      compiler.operations operations ∧
    compiled.operations = NameMap.ofList (operations.map fun operation =>
      (operation.name, operation))
  fragments : ∃ fragments,
    List.Forall₂ (compiler.CompiledFragment library) compiler.fragments fragments ∧
    compiled.fragments = NameMap.ofList (fragments.map fun fragment => (fragment.name, fragment))

/-- A compiler is ready to compile its document if the operations and the fragments are ready. -/
structure Compiler.Ready (compiler : Compiler) (library : FragmentLibrary) : Prop where
  operations : ∀ definition ∈ compiler.operations, compiler.OperationReady library definition
  fragments : ∀ definition ∈ compiler.fragments,
    (definition.link library.find?).Ready compiler.settings

/-- **What compilation makes** of a document, and that it succeeds if the compiler is ready. -/
theorem ensures_compile (acyclic : compiler.table.library = .ok library)
    (named : compiler.table.IsNamed)
    (found : ∀ definition ∈ compiler.fragments,
      compiler.table.find? definition.name = some definition) :
    Ensures (Remembers compiler.settings library.find?) (compiler.Ready library) compiler.compile
      (compiler.CompiledDocument library) := by
  unfold Compiler.compile
  have operation := fun definition (mem : definition ∈ compiler.operations) =>
    (ensures_compileOperation acyclic named definition).imp
      fun ready : compiler.Ready library => ready.operations definition mem
  have fragment := fun definition (mem : definition ∈ compiler.fragments) =>
    (ensures_compileFragment acyclic named (found definition mem)).imp
      fun ready : compiler.Ready library => ready.fragments definition mem
  refine (ensures_mapM operation).bind fun operations all => ?_
  refine (ensures_mapM fragment).bind fun fragments allFragments => ?_
  refine ensures_get.bind fun _ _ => ensures_pure ?_
  exact ⟨⟨operations, all, rfl⟩, ⟨fragments, allFragments, rfl⟩⟩

/-- A document with a cycle of spreads does not compile. -/
theorem exists_library_of_compile {state after : CompilerState} {compiled : Compiled.Document}
    (unchecked : state.cyclesChecked = false)
    (h : compiler.compile.run state = (.ok compiled, after)) :
    ∃ library, compiler.table.library = .ok library := by
  cases found : compiler.table.library with
  | ok library => exact ⟨library, rfl⟩
  | error e =>
    have checked : state.Checked compiler.table := fun known => by
      rw [unchecked] at known
      cases known
    rw [run_compile_of_cyclic found checked] at h
    cases h

end

/-! ### Compiled documents -/

section

variable {schema : Schema} {document : Document} {options : Options} {library : FragmentLibrary}

private theorem ensures_compile_ofDocument
    (acyclic : (FragmentTable.ofList document.fragments).library = .ok library) :
    let compiler := Compiler.ofDocument schema document options
    Ensures (Remembers compiler.settings library.find?) (compiler.Ready library) compiler.compile
      (compiler.CompiledDocument library) := by
  intro compiler
  have named : compiler.table.IsNamed := FragmentTable.isNamed_ofList document.fragments
  exact ensures_compile acyclic named fun _ mem => FragmentTable.find?_of_mem_values mem

/-- At first nothing is remembered. -/
theorem remembers_empty (settings : Settings) (find : Name → Option Fragment) :
    Remembers settings find ({} : CompilerState).references :=
  fun _ _ found => by cases found

/-- What the compiled document of a document consists of. -/
theorem compiledDocument_of_compileDocument {compiled : Compiled.Document}
    (acyclic : (FragmentTable.ofList document.fragments).library = .ok library)
    (h : compileDocument schema document options = .ok compiled) :
    (Compiler.ofDocument schema document options).CompiledDocument library compiled :=
  (ensures_compile_ofDocument acyclic).holds {} (remembers_empty _ _) compiled h

/-- A document compiles if its operations and fragments are ready. -/
theorem exists_compileDocument_of_ready
    (acyclic : (FragmentTable.ofList document.fragments).library = .ok library)
    (ready : (Compiler.ofDocument schema document options).Ready library) :
    ∃ compiled, compileDocument schema document options = .ok compiled :=
  (ensures_compile_ofDocument acyclic).succeeds {} (remembers_empty _ _) ready

end

/-- What has the names of the fragments of a table has distinct names. -/
theorem FragmentTable.nodup_names {α : Type} {name : α → Name}
    {definitions : List FragmentDefinition} {xs : List α}
    (all : List.Forall₂ (fun definition x => name x = definition.name)
      (FragmentTable.ofList definitions).values xs) : (xs.map name).Nodup := by
  have names : xs.map name = (FragmentTable.ofList definitions).keys := by
    rw [← FragmentTable.map_name_values]
    exact map_eq_map_iff_forall₂.2 all.flip
  rw [names]
  exact NameMap.nodup_keys_ofList _

/-- A value of a map that pairs were put into is the second part of one of them. -/
theorem mem_of_mem_values_ofList {α β : Type} {relation : α → β → Prop} {xs : List α}
    {ys : List β} (all : List.Forall₂ relation xs ys) {key : β → String} {y : β}
    (mem : y ∈ (NameMap.ofList (ys.map fun y => (key y, y))).values) :
    ∃ x ∈ xs, relation x y := by
  obtain ⟨p, hp, rfl⟩ := List.mem_map.1 mem
  obtain ⟨y, hy, rfl⟩ := List.mem_map.1 (NameMap.mem_of_mem_ofList hp)
  have flipped : List.Forall₂ (fun y x => relation x y) ys xs := all.flip
  exact exists_related_of_mem flipped hy

/-- A value that is found in a map that pairs were put into is the second part of the last of them
with the key. -/
theorem exists_related_of_find?_ofList {α β : Type} {relation : α → β → Prop} {xs : List α}
    {ys : List β} (all : List.Forall₂ relation xs ys) {key : β → String} {name : String}
    (chosen : α → Bool) (agrees : ∀ x y, relation x y → chosen x = decide (key y = name)) {y : β}
    (found : (NameMap.ofList (ys.map fun y => (key y, y))).find? name = some y) :
    ∃ x, xs.reverse.find? chosen = some x ∧ relation x y := by
  rw [NameMap.find?_ofList, ← List.map_reverse, List.find?_map, Option.map_map] at found
  have foundLast : ys.reverse.find? (fun y => key y = name) = some y := by
    simpa [Function.comp_def] using found
  have reversed : List.Forall₂ relation xs.reverse ys.reverse := List.forall₂_reverse_iff.2 all
  generalize xs.reverse = xs, ys.reverse = ys at foundLast reversed
  induction reversed with
  | nil => cases foundLast
  | @cons first second xs ys related _ ih =>
    rw [List.find?_cons] at foundLast ⊢
    rw [agrees first second related]
    cases eq : decide (key second = name) with
    | true =>
      rw [eq] at foundLast
      cases foundLast
      exact ⟨first, rfl, related⟩
    | false =>
      rw [eq] at foundLast
      exact ih foundLast

/-- Names are the **references** of selections at a type if they are those of the fragments that
are reached by spreads and mentioned where compilation comes to. They are all that is reached by
spreads if compilation passes over nothing. -/
structure Compiler.References (compiler : Compiler) (library : FragmentLibrary) (parent : Name)
    (selections : WrittenSelections) (names : List Name) : Prop where
  mem_iff : ∀ name, name ∈ names ↔ compiler.table.Reachable selections name ∧
    (Site.start library parent selections).References compiler.settings name
  complete : (∀ site, (Site.start library parent selections).Reaches compiler.settings site →
      site.Whole compiler.settings) →
    ∀ name, name ∈ names ↔ compiler.table.Reachable selections name

/-- Names that describe the site of some selections are the references of the selections. -/
private theorem references_of_describes {compiler : Compiler} {library : FragmentLibrary}
    {parent : Name} {selections : WrittenSelections} {names : List Name}
    (acyclic : compiler.table.library = .ok library) (named : compiler.table.IsNamed)
    (describes : (Site.start library parent selections).Describes compiler.settings names) :
    compiler.References library parent selections names where
  mem_iff name := by
    rw [describes.mem_iff]
    exact ⟨fun references => ⟨FragmentTable.reachable_of_references acyclic named references,
      references⟩, And.right⟩
  complete whole name := by
    rw [describes.mem_iff]
    exact ⟨FragmentTable.reachable_of_references acyclic named,
      references_of_reachable acyclic named whole⟩

/-- **Which fragments a compiled definition references.** The references of an operation or a
fragment are the fragments that are reached by spreads from it and mentioned where compilation comes
to, and these are printed after an operation. Where nothing is passed over, these are all fragments
that are reached by spreads. -/
theorem mem_fragmentsReferenced_iff {schema : Schema} {document : Document} {options : Options}
    {compiled : Compiled.Document} (h : compileDocument schema document options = .ok compiled) :
    let compiler := Compiler.ofDocument schema document options
    ∃ library, compiler.table.library = .ok library ∧
      (∀ operation ∈ compiled.operations.values, ∃ definition ∈ document.operations, ∃ root,
        definition.name = some operation.name ∧
        schema.rootType? definition.operationType = some root ∧
        compiler.References library root definition.selections operation.fragmentsReferenced ∧
        compiler.printWithFragments (compiler.printOperation definition)
          operation.fragmentsReferenced = .ok operation.sourceWithFragments) ∧
      ∀ fragment ∈ compiled.fragments.values, ∃ definition ∈ document.fragments,
        definition.name = fragment.name ∧
        compiler.References library definition.typeCondition definition.selections
          fragment.fragmentsReferenced := by
  intro compiler
  have run : compiler.compile.run {} = (.ok compiled, (compiler.compile.run {}).2) :=
    Prod.ext h rfl
  obtain ⟨library, acyclic⟩ := exists_library_of_compile rfl run
  have named : compiler.table.IsNamed := FragmentTable.isNamed_ofList document.fragments
  obtain ⟨⟨operations, allOperations, eqOperations⟩, ⟨fragments, allFragments, eqFragments⟩⟩ :=
    compiledDocument_of_compileDocument acyclic h
  refine ⟨library, acyclic, fun operation mem => ?_, fun fragment mem => ?_⟩
  · rw [eqOperations] at mem
    obtain ⟨definition, memDefinition, root, compiledOperation⟩ :=
      mem_of_mem_values_ofList allOperations mem
    refine ⟨definition, memDefinition, root, compiledOperation.name_eq, compiledOperation.root_eq,
      references_of_describes acyclic named compiledOperation.describes, ?_⟩
    rw [← compiledOperation.source_eq]
    exact compiledOperation.printed
  · rw [eqFragments] at mem
    obtain ⟨definition, memDefinition, compiledFragment⟩ :=
      mem_of_mem_values_ofList allFragments mem
    obtain ⟨p, pair, rfl⟩ := List.mem_map.1 memDefinition
    obtain ⟨definition, memDocument, rfl⟩ := List.mem_map.1 (NameMap.mem_of_mem_ofList pair)
    exact ⟨definition, memDocument, compiledFragment.name_eq.symm,
      references_of_describes acyclic named compiledFragment.describes⟩

/-- A query with a spread in an inline fragment that cannot apply to dogs. -/
def skippedSpread : Document :=
  queryDocument
    [plainField "dog" [
      plainInline "Pet" [plainInline "Cat" [plainSpread "Lives"]], plainField "name" []]]
    [plainFragment "Lives" "Cat" [plainField "lives" []]]

/-- The spread that is passed over is reachable and printed, but not mentioned where compilation
comes to, and not referenced. -/
theorem mem_fragmentsReferenced_iff_skippedSpread :
    ∃ compiled, compileDocument petSchema skippedSpread {} = .ok compiled ∧
      ∃ operation ∈ compiled.operations.values, operation.fragmentsReferenced = [] ∧
      ∃ definition ∈ skippedSpread.operations, ∃ library root,
        (FragmentTable.ofList skippedSpread.fragments).Reachable definition.selections "Lives" ∧
        ¬ (Site.start library root definition.selections).References
          { schema := petSchema, options := {} } "Lives" := by
  obtain ⟨compiled, h, references⟩ : ∃ compiled,
      compileDocument petSchema skippedSpread {} = .ok compiled ∧
      compiled.operations.values.map Compiled.Operation.fragmentsReferenced = [[]] :=
    ⟨_, by cbv, by cbv⟩
  obtain ⟨library, -, operations, -⟩ := mem_fragmentsReferenced_iff h
  obtain ⟨operation, mem, none⟩ : ∃ operation ∈ compiled.operations.values,
      operation.fragmentsReferenced = [] := by
    have first : [] ∈ compiled.operations.values.map Compiled.Operation.fragmentsReferenced := by
      rw [references]
      exact List.mem_singleton_self _
    exact List.mem_map.1 first
  obtain ⟨definition, memDefinition, root, -, -, referenced, -⟩ := operations operation mem
  have reachable : (FragmentTable.ofList skippedSpread.fragments).Reachable definition.selections
      "Lives" := by
    rw [List.mem_singleton.1 memDefinition]
    exact ⟨by decide, "Lives", by decide, .refl⟩
  refine ⟨compiled, h, operation, mem, none, definition, memDefinition, library, root, reachable,
    fun references => ?_⟩
  have member := (referenced.mem_iff "Lives").2 ⟨reachable, references⟩
  rw [none] at member
  cases member

end GraphQLCompiler
