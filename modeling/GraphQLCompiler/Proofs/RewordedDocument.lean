import GraphQLCompiler.Proofs.Locality
import GraphQLCompiler.Proofs.RewordedResolution

/-!
# Compiling reworded documents

Equivalent ways of writing a selection compile alike. If the selections of the operations and
fragments of a document are reworded, at any depth and in any number of places, the document
compiles to the same apart from the texts of its definitions, or again does not compile
(`map_withoutSources_compileDocument`).

Rewording keeps the names that are spread, so it neither makes cycles nor breaks them, and fragments
of one name are linked to the same up to rewording (`targetReworded_library`). Then each step of the
compilation of one document mirrors that of the other.
-/

namespace GraphQLCompiler

open CompileM

/-! ### Name maps -/

namespace NameMap

variable {α β : Type} {related : α → β → Prop}

/-- Whether maps have the same keys in order, with related values. -/
abbrev Related (related : α → β → Prop) : NameMap α → NameMap β → Prop :=
  List.Forall₂ fun p q => p.1 = q.1 ∧ related p.2 q.2

theorem Related.insert {m : NameMap α} {m' : NameMap β} (h : Related related m m') (key : String)
    {a : α} {b : β} (values : related a b) :
    Related related (m.insert key a) (m'.insert key b) := by
  induction h with
  | nil => exact .cons ⟨rfl, values⟩ .nil
  | @cons p q _ _ first rest ih =>
    rw [NameMap.insert, NameMap.insert, ← first.1]
    split
    · exact .cons ⟨rfl, values⟩ rest
    · exact .cons ⟨rfl, first.2⟩ ih

theorem related_ofList {pairs : List (String × α)} {pairs' : List (String × β)}
    (h : Related related pairs pairs') : Related related (ofList pairs) (ofList pairs') := by
  have filled : ∀ {m : NameMap α} {m' : NameMap β}, Related related m m' →
      Related related (pairs.foldl (fun m p => m.insert p.1 p.2) m)
        (pairs'.foldl (fun m p => m.insert p.1 p.2) m') := by
    induction h with
    | nil => exact id
    | @cons p q _ _ first _ ih =>
      intro m m' started
      refine ih ?_
      dsimp only
      rw [← first.1]
      exact started.insert p.1 first.2
  exact filled .nil

/-- The maps of related values by keys that related values share. -/
theorem related_ofList_map {xs : List α} {ys : List β} (h : List.Forall₂ related xs ys)
    {key : α → String} {key' : β → String} (keys : ∀ a b, related a b → key a = key' b) :
    Related related (ofList (xs.map fun a => (key a, a)))
      (ofList (ys.map fun b => (key' b, b))) := by
  refine related_ofList ?_
  rw [Related, List.forall₂_map_left_iff, List.forall₂_map_right_iff]
  exact h.imp fun a b values => ⟨keys a b values, values⟩

/-- A key has values in both maps or in neither. -/
theorem Related.find? {m : NameMap α} {m' : NameMap β} (h : Related related m m') (key : String) :
    Option.Rel related (m.find? key) (m'.find? key) := by
  induction h with
  | nil => exact .none
  | @cons p q _ _ first _ ih =>
    rw [NameMap.find?, NameMap.find?, ← first.1]
    split
    · exact .some first.2
    · exact ih

theorem Related.exists_of_find? {m : NameMap α} {m' : NameMap β} (h : Related related m m')
    {key : String} {a : α} (found : m.find? key = some a) :
    ∃ b, m'.find? key = some b ∧ related a b := by
  have values := h.find? key
  rw [found] at values
  generalize m'.find? key = found' at values
  cases values with
  | some values => exact ⟨_, rfl, values⟩

theorem Related.find?_eq_none {m : NameMap α} {m' : NameMap β} (h : Related related m m')
    {key : String} (missing : m.find? key = none) : m'.find? key = none := by
  have values := h.find? key
  rw [missing] at values
  generalize m'.find? key = found' at values
  cases values
  rfl

/-- Maps with the same keys and values that a function makes the same of. -/
theorem Related.map_eq {γ : Type} {f : α → γ} {m m' : NameMap α}
    (h : Related (fun a b => f a = f b) m m') :
    m.map (fun p => (p.1, f p.2)) = m'.map fun p => (p.1, f p.2) := by
  refine map_eq_map_iff_forall₂.2 (h.imp fun p q ⟨keys, values⟩ => ?_)
  exact Prod.ext keys values

theorem Related.values {m : NameMap α} {m' : NameMap β} (h : Related related m m') :
    List.Forall₂ related m.values m'.values := by
  rw [NameMap.values, NameMap.values, List.forall₂_map_left_iff, List.forall₂_map_right_iff]
  exact h.imp fun _ _ => And.right

end NameMap

/-! ### Linking reworded selections -/

/-- What is linked to the same fragments stays reworded. -/
theorem Reworded.link {selections selections' : WrittenSelections}
    (h : Reworded Eq selections selections') (find : Name → Option Fragment) :
    Reworded TargetReworded (link find selections) (link find selections') := by
  simp only [link_eq_map]
  induction h with
  | refl => exact .refl _
  | symm _ ih => exact ih.symm
  | trans _ _ ih ih' => exact ih.trans ih'
  | append _ _ ih ih' =>
    rw [List.map_append, List.map_append]
    exact ih.append ih'
  | field _ ih =>
    simp only [List.map_cons, List.map_nil, Selection.link, link_eq_map]
    exact .field ih
  | inlineFragment _ ih =>
    simp only [List.map_cons, List.map_nil, Selection.link, link_eq_map]
    exact .inlineFragment ih
  | spread =>
    simp only [List.map_cons, List.map_nil, Selection.link]
    exact .spread (.refl _)
  | merge =>
    simp only [List.map_cons, List.map_nil, Selection.link, link_eq_map, List.map_append]
    exact .merge
  | wrap =>
    simp only [List.map_cons, List.map_nil, Selection.link, link_eq_map]
    exact .wrap
  | again mem =>
    rw [List.map_append, List.map_singleton]
    exact .again (List.mem_map_of_mem mem)

mutual

private theorem selection_reworded_link {find find' : Name → Option Fragment} :
    ∀ selection : Selection Unit,
      (∀ name ∈ selection.spreadNames, TargetReworded (find name) (find' name)) →
      Reworded TargetReworded [selection.link find] [selection.link find']
  | .field _ _ _ _ _ selections, targets => by
    rw [Selection.link, Selection.link]
    exact .field (reworded_link selections fun name mem => targets name (by simpa))
  | .inlineFragment _ _ _ selections, targets => by
    rw [Selection.link, Selection.link]
    exact .inlineFragment (reworded_link selections fun name mem => targets name (by simpa))
  | .spread name _ _ _, targets => by
    rw [Selection.link, Selection.link]
    exact .spread (targets name (mem_spreadNames_spread.2 rfl))

/-- What is linked to reworded fragments is reworded. -/
private theorem reworded_link {find find' : Name → Option Fragment} :
    ∀ selections : WrittenSelections,
      (∀ name ∈ spreadNames selections, TargetReworded (find name) (find' name)) →
      Reworded TargetReworded (link find selections) (link find' selections)
  | [], _ => by
    rw [link, link]
    exact .refl []
  | selection :: rest, targets => by
    rw [link, link]
    exact .append
      (selection_reworded_link selection fun name mem =>
        targets name (mem_spreadNames_cons.2 (.inl mem)))
      (reworded_link rest fun name mem => targets name (mem_spreadNames_cons.2 (.inr mem)))

end

/-! ### Reworded documents -/

/-- The relocation that forgets all places. -/
abbrev Relocation.nowhere : Relocation := fun _ => none

/-- Whether an operation is the same but for the wording of its selections and for places in one
file. -/
structure OperationDefinition.Reworded (sources sources' : SourceMap)
    (definition definition' : OperationDefinition) : Prop where
  path_eq : sources.path? definition.location = sources'.path? definition'.location
  others_eq : { definition with selections := [] }.relocate .nowhere
    = { definition' with selections := [] }.relocate .nowhere
  selections : GraphQLCompiler.Reworded Eq definition.selections definition'.selections

/-- Whether a fragment is the same but for the wording of its selections and for places in one
file. -/
structure FragmentDefinition.Reworded (sources sources' : SourceMap)
    (definition definition' : FragmentDefinition) : Prop where
  path_eq : sources.path? definition.location = sources'.path? definition'.location
  others_eq : { definition with selections := [] }.relocate .nowhere
    = { definition' with selections := [] }.relocate .nowhere
  selections : GraphQLCompiler.Reworded Eq definition.selections definition'.selections

/-- Whether a definition is the same but for the wording of its selections. -/
inductive Definition.Reworded (sources sources' : SourceMap) : Definition → Definition → Prop where
  | operation {definition definition' : OperationDefinition}
    (h : definition.Reworded sources sources' definition') :
    Reworded sources sources' (.operation definition) (.operation definition')
  | fragment {definition definition' : FragmentDefinition}
    (h : definition.Reworded sources sources' definition') :
    Reworded sources sources' (.fragment definition) (.fragment definition')
  | typeSystem (definition : TypeSystemDefinition) :
    Reworded sources sources' (.typeSystem definition) (.typeSystem definition)

/-- Whether a document is the same but for the **wording** of the selections of its definitions. -/
def Document.Reworded (document document' : Document) : Prop :=
  List.Forall₂ (Definition.Reworded document.sources document'.sources) document.definitions
    document'.definitions

namespace FragmentDefinition.Reworded

variable {sources sources' : SourceMap} {definition definition' : FragmentDefinition}

theorem name_eq (h : definition.Reworded sources sources' definition') :
    definition.name = definition'.name :=
  (congrArg FragmentDefinition.name h.others_eq :)

theorem typeCondition_eq (h : definition.Reworded sources sources' definition') :
    definition.typeCondition = definition'.typeCondition :=
  (congrArg FragmentDefinition.typeCondition h.others_eq :)

/-- A reworded fragment is linked to reworded contents. -/
theorem link (h : definition.Reworded sources sources' definition')
    {find find' : Name → Option Fragment}
    (targets : ∀ name ∈ spreadNames definition.selections,
      TargetReworded (find name) (find' name)) :
    TargetReworded (some (definition.link find)) (some (definition'.link find')) := by
  rw [FragmentDefinition.link, FragmentDefinition.link, h.name_eq, h.typeCondition_eq]
  exact .fragment ((reworded_link _ targets).trans (h.selections.link find'))

end FragmentDefinition.Reworded

namespace Document.Reworded

variable {document document' : Document}

theorem symm (h : document.Reworded document') : document'.Reworded document := by
  refine List.Forall₂.flip (h.imp fun definition definition' reworded => ?_)
  cases reworded with
  | operation h => exact .operation ⟨h.path_eq.symm, h.others_eq.symm, h.selections.symm⟩
  | fragment h => exact .fragment ⟨h.path_eq.symm, h.others_eq.symm, h.selections.symm⟩
  | typeSystem definition => exact .typeSystem definition

theorem operations (h : document.Reworded document') :
    List.Forall₂ (OperationDefinition.Reworded document.sources document'.sources)
      document.operations document'.operations := by
  refine List.rel_filterMap (fun definition definition' reworded => ?_) h
  cases reworded with
  | operation h => exact .some h
  | fragment => exact .none
  | typeSystem => exact .none

theorem fragments (h : document.Reworded document') :
    List.Forall₂ (FragmentDefinition.Reworded document.sources document'.sources)
      document.fragments document'.fragments := by
  refine List.rel_filterMap (fun definition definition' reworded => ?_) h
  cases reworded with
  | operation => exact .none
  | fragment h => exact .some h
  | typeSystem => exact .none

/-- The tables of reworded documents have the same fragments up to rewording. -/
theorem table (h : document.Reworded document') :
    NameMap.Related (FragmentDefinition.Reworded document.sources document'.sources)
      (FragmentTable.ofList document.fragments) (FragmentTable.ofList document'.fragments) :=
  NameMap.related_ofList_map h.fragments fun _ _ reworded => reworded.name_eq

end Document.Reworded

/-! ### Libraries of reworded documents -/

section

variable {document document' : Document} (reworded : document.Reworded document')

include reworded

/-- Rewording makes no cycles. -/
private theorem acyclic_of_reworded (acyclic : (FragmentTable.ofList document.fragments).Acyclic) :
    (FragmentTable.ofList document'.fragments).Acyclic := by
  have spreads : ∀ name other, (FragmentTable.ofList document'.fragments).Spreads name other →
      (FragmentTable.ofList document.fragments).Spreads name other := by
    rintro name other ⟨definition', found', mem⟩
    obtain ⟨definition, found, same⟩ := reworded.symm.table.exists_of_find? found'
    exact ⟨definition, found, (same.selections.mem_spreadNames_iff other).1 mem⟩
  exact fun name loop => acyclic name (Relation.TransGen.mono spreads _ _ loop)

/-- **Fragments of one name** are linked to the same up to rewording. -/
theorem targetReworded_library {library library' : FragmentLibrary}
    (linked : (FragmentTable.ofList document.fragments).library = .ok library)
    (linked' : (FragmentTable.ofList document'.fragments).library = .ok library') (name : Name) :
    TargetReworded (library.find? name) (library'.find? name) := by
  refine FragmentTable.find?_library_induction linked
    (fun name target => TargetReworded target (library'.find? name)) ?_ ?_ name
  · intro name missing
    rw [FragmentTable.find?_library linked', reworded.table.find?_eq_none missing]
    exact .undefined
  · intro name definition found below
    obtain ⟨definition', found', same⟩ := reworded.table.exists_of_find? found
    rw [FragmentTable.find?_library linked', found']
    exact same.link below

end

/-! ### Compiled documents without sources -/

namespace Compiled

/-- An operation without its text. -/
def Operation.withoutSources (operation : Operation) : Operation :=
  { operation with source := "", sourceWithFragments := "" }

/-- A fragment without its text. -/
def Fragment.withoutSources (fragment : Fragment) : Fragment := { fragment with source := "" }

/-- A document without the texts of its definitions. -/
def Document.withoutSources (document : Document) : Document :=
  { document with
    operations := document.operations.map fun p => (p.1, p.2.withoutSources)
    fragments := document.fragments.map fun p => (p.1, p.2.withoutSources) }

end Compiled

/-! ### Compilation -/

private theorem mirrors_requireName {definition definition' : OperationDefinition}
    (name : definition.name = definition'.name) :
    Mirrors Eq (Compiler.requireName definition) (Compiler.requireName definition') := by
  rw [Compiler.requireName, Compiler.requireName, name]
  split
  · exact mirrors_pure rfl
  · exact mirrors_throw _ _

private theorem mirrors_requireRoot {compiler compiler' : Compiler}
    (schema_eq : compiler.schema = compiler'.schema) {definition definition' : OperationDefinition}
    (operationType : definition.operationType = definition'.operationType) :
    Mirrors Eq (compiler.requireRoot definition) (compiler'.requireRoot definition') := by
  rw [Compiler.requireRoot, Compiler.requireRoot, schema_eq, operationType]
  split
  · exact mirrors_pure rfl
  · exact mirrors_throw _ _

/-- Variables that differ in their places are compiled to the same. -/
private theorem mirrors_compileVariable {compiler compiler' : Compiler}
    (schema_eq : compiler.schema = compiler'.schema) {definition definition' : VariableDefinition}
    (same : definition.relocate .nowhere = definition'.relocate .nowhere) :
    Mirrors Eq (compiler.compileVariable definition) (compiler'.compileVariable definition') := by
  have name : definition.name = definition'.name := (congrArg VariableDefinition.name same :)
  have type : definition.type = definition'.type := (congrArg VariableDefinition.type same :)
  rw [Compiler.compileVariable, Compiler.compileVariable, schema_eq, name, type]
  split
  · exact mirrors_throw _ _
  · exact (mirrors_useType _ _).bind_eq fun _ => mirrors_pure rfl

/-- What has been printed with fragments consists of fragments of the table. -/
private theorem contains_of_printWithFragments {compiler : Compiler} {source text : String}
    {names : List Name} (printed : compiler.printWithFragments source names = .ok text) :
    ∀ name ∈ names, compiler.table.contains name := by
  obtain ⟨texts, prints, -⟩ := except_bind_eq_ok.1 printed
  clear printed
  induction names generalizing texts with
  | nil => exact fun _ mem => by cases mem
  | cons name rest ih =>
    rw [List.mapM_cons] at prints
    obtain ⟨first, printsFirst, prints⟩ := except_bind_eq_ok.1 prints
    obtain ⟨others, printsRest, -⟩ := except_bind_eq_ok.1 prints
    refine List.forall_mem_cons.2 ⟨?_, ih others printsRest⟩
    rw [NameMap.contains, Option.isSome_iff_exists]
    rw [Compiler.printNamedFragment] at printsFirst
    split at printsFirst
    · exact ⟨_, ‹_›⟩
    · cases printsFirst

section

variable {schema : Schema} {options : Options} {document document' : Document}
  (reworded : document.Reworded document') {library library' : FragmentLibrary}

include reworded

private theorem mirrors_printWithFragments (source source' : String) (names : List Name) :
    Mirrors (fun _ _ => True)
      (CompileM.ofExcept
        ((Compiler.ofDocument schema document options).printWithFragments source names))
      (CompileM.ofExcept
        ((Compiler.ofDocument schema document' options).printWithFragments source' names)) := by
  refine mirrors_ofExcept fun text printed => ?_
  have contains : ∀ name ∈ names,
      (Compiler.ofDocument schema document' options).table.contains name := by
    intro name mem
    obtain ⟨definition, found⟩ := Option.isSome_iff_exists.1
      (contains_of_printWithFragments printed name mem)
    obtain ⟨definition', found', -⟩ := reworded.table.exists_of_find? found
    exact Option.isSome_iff_exists.2 ⟨definition', found'⟩
  obtain ⟨text', printed'⟩ := exists_printWithFragments contains source'
  exact ⟨text', printed', trivial⟩

variable (linked : (FragmentTable.ofList document.fragments).library = .ok library)
  (linked' : (FragmentTable.ofList document'.fragments).library = .ok library')

include linked linked'

omit reworded in
private theorem mirrors_library :
    Mirrors (fun found found' => found = library ∧ found' = library')
      (Compiler.ofDocument schema document options).library
      (Compiler.ofDocument schema document' options).library := by
  intro before before' same found after run
  have acyclic : (Compiler.ofDocument schema document options).table.library = .ok library := linked
  have acyclic' : (Compiler.ofDocument schema document' options).table.library = .ok library' :=
    linked'
  rw [run_library fun _ => FragmentTable.exists_library_iff.1 ⟨library, acyclic⟩, acyclic] at run
  rw [run_library fun _ => FragmentTable.exists_library_iff.1 ⟨library', acyclic'⟩, acyclic']
  cases run
  exact ⟨library', _, rfl, ⟨rfl, rfl⟩, same.typesUsed_eq, same.references_eq, rfl⟩

private theorem mirrors_resolveSelections {selections selections' : WrittenSelections}
    (same : Reworded Eq selections selections') (root : Name) :
    Mirrors Eq
      ((Compiler.ofDocument schema document options).resolveSelections root
        (link library.find? selections))
      ((Compiler.ofDocument schema document' options).resolveSelections root
        (link library'.find? selections')) := by
  have targets := targetReworded_library reworded linked linked'
  have site : (Site.start library root selections).Reworded library.find? library'.find?
      (Site.start library' root selections') := by
    refine ⟨rfl, ?_, ?_, ?_⟩
    · exact (reworded_link _ fun name _ => targets name).trans (same.link library'.find?)
    · exact linkedBy_iff.1 (FragmentTable.linkedBy_link linked (FragmentTable.isNamed_ofList _) _)
    · exact linkedBy_iff.1 (FragmentTable.linkedBy_link linked' (FragmentTable.isNamed_ofList _) _)
  exact mirrors_resolution targets site

private theorem mirrors_compileOperation {definition definition' : OperationDefinition}
    (same : definition.Reworded document.sources document'.sources definition') :
    Mirrors (fun operation operation' => operation.withoutSources = operation'.withoutSources)
      ((Compiler.ofDocument schema document options).compileOperation definition)
      ((Compiler.ofDocument schema document' options).compileOperation definition') := by
  have name : definition.name = definition'.name :=
    (congrArg OperationDefinition.name same.others_eq :)
  have operationType : definition.operationType = definition'.operationType :=
    (congrArg OperationDefinition.operationType same.others_eq :)
  have taken : List.Forall₂ (fun first second =>
        VariableDefinition.relocate .nowhere first = VariableDefinition.relocate .nowhere second)
      definition.variableDefinitions definition'.variableDefinitions := by
    exact map_eq_map_iff_forall₂.1
      (congrArg OperationDefinition.variableDefinitions same.others_eq :)
  rw [Compiler.compileOperation, Compiler.compileOperation]
  refine (mirrors_library linked linked').bind ?_
  rintro _ _ ⟨rfl, rfl⟩
  refine (mirrors_requireName name).bind_eq fun name => ?_
  refine (mirrors_tell _ _).bind_eq fun _ => ?_
  refine Mirrors.bind_eq ?_ fun variableDefinitions => ?_
  · have all := mirrors_mapM taken fun _ _ same => mirrors_compileVariable
      (rfl : (Compiler.ofDocument schema document options).schema
        = (Compiler.ofDocument schema document' options).schema) same
    rwa [List.forall₂_eq_eq_eq] at all
  refine (mirrors_requireRoot rfl operationType).bind_eq fun root => ?_
  refine (mirrors_resolveSelections reworded linked linked' same.selections root).bind_eq
    fun resolved => ?_
  refine (mirrors_printWithFragments reworded _ _ resolved.references).bind fun _ _ _ => ?_
  refine (mirrors_tell _ _).bind_eq fun _ => mirrors_pure ?_
  have path : (Compiler.ofDocument schema document options).sources.path? definition.location
      = (Compiler.ofDocument schema document' options).sources.path? definition'.location :=
    same.path_eq
  simp only [Compiled.Operation.withoutSources, operationType, path]

private theorem mirrors_compileFragment {definition definition' : FragmentDefinition}
    (same : definition.Reworded document.sources document'.sources definition') :
    Mirrors (fun fragment fragment' => fragment.withoutSources = fragment'.withoutSources)
      ((Compiler.ofDocument schema document options).compileFragment definition)
      ((Compiler.ofDocument schema document' options).compileFragment definition') := by
  have targets := targetReworded_library reworded linked linked'
  have fragment : (definition.link library.find?).Reworded library.find? library'.find?
      (definition'.link library'.find?) := by
    refine ⟨same.link fun name _ => targets name, ?_, ?_⟩
    · exact Fragment.linkedBy_iff.2
        (FragmentTable.linkedBy_link linked (FragmentTable.isNamed_ofList _) _)
    · exact Fragment.linkedBy_iff.2
        (FragmentTable.linkedBy_link linked' (FragmentTable.isNamed_ofList _) _)
  rw [Compiler.compileFragment, Compiler.compileFragment]
  refine (mirrors_library linked linked').bind ?_
  rintro _ _ ⟨rfl, rfl⟩
  refine (mirrors_tell _ _).bind_eq fun _ => ?_
  refine (mirrors_resolveFragment targets fragment).bind_eq fun resolved => mirrors_pure ?_
  have path : (Compiler.ofDocument schema document options).sources.path? definition.location
      = (Compiler.ofDocument schema document' options).sources.path? definition'.location :=
    same.path_eq
  simp only [Compiled.Fragment.withoutSources, same.name_eq, same.typeCondition_eq, path]
  rfl

private theorem mirrors_compile :
    Mirrors (fun compiled compiled' => compiled.withoutSources = compiled'.withoutSources)
      (Compiler.ofDocument schema document options).compile
      (Compiler.ofDocument schema document' options).compile := by
  rw [Compiler.compile, Compiler.compile]
  refine (mirrors_mapM reworded.operations fun _ _ =>
    mirrors_compileOperation reworded linked linked').bind fun operations operations' same => ?_
  refine (mirrors_mapM reworded.table.values fun _ _ =>
    mirrors_compileFragment reworded linked linked').bind
    fun fragments fragments' sameFragments => ?_
  refine mirrors_get.bind fun state state' sameState => mirrors_pure ?_
  have operationName : ∀ operation operation' : Compiled.Operation,
      operation.withoutSources = operation'.withoutSources → operation.name = operation'.name :=
    fun _ _ eq => (congrArg Compiled.Operation.name eq :)
  have fragmentName : ∀ fragment fragment' : Compiled.Fragment,
      fragment.withoutSources = fragment'.withoutSources → fragment.name = fragment'.name :=
    fun _ _ eq => (congrArg Compiled.Fragment.name eq :)
  have operationMaps := (NameMap.related_ofList_map same operationName).map_eq
  have fragmentMaps := (NameMap.related_ofList_map sameFragments fragmentName).map_eq
  rw [Compiled.Document.withoutSources, Compiled.Document.withoutSources]
  dsimp only
  rw [sameState.typesUsed_eq, operationMaps, fragmentMaps]

end

/-- **Equivalent ways of writing selections compile alike.** If the selections of any operations and
fragments are reworded, by joining adjacent fields or splitting one, by wrapping selections in an
inline fragment without a type condition or unwrapping it, or by repeating what is selected already
or leaving repetitions out, anywhere and at any depth, then both documents compile to the same apart
from the texts, or neither compiles. -/
theorem map_withoutSources_compileDocument (schema : Schema) (options : Options)
    {document document' : Document} (reworded : document.Reworded document') :
    (compileDocument schema document options).toOption.map Compiled.Document.withoutSources
      = (compileDocument schema document' options).toOption.map
          Compiled.Document.withoutSources := by
  have compiles : ∀ {document document' : Document}, document.Reworded document' →
      ∀ compiled, compileDocument schema document options = .ok compiled →
        ∃ compiled', compileDocument schema document' options = .ok compiled' ∧
          compiled.withoutSources = compiled'.withoutSources := by
    intro document document' reworded compiled h
    rcases run : (Compiler.ofDocument schema document options).compile.run {} with ⟨result, after⟩
    have eq : result = .ok compiled := by
      rw [compileDocument, run] at h
      exact h
    rw [eq] at run
    obtain ⟨library, linked⟩ := exists_library_of_compile rfl run
    obtain ⟨library', linked'⟩ := FragmentTable.exists_library_iff.2
      (acyclic_of_reworded reworded (FragmentTable.exists_library_iff.1 ⟨library, linked⟩))
    obtain ⟨compiled', after', run', same, -⟩ :=
      mirrors_compile reworded linked linked' (.refl {}) compiled after run
    exact ⟨compiled', congrArg Prod.fst run', same⟩
  cases first : compileDocument schema document options with
  | ok compiled =>
    obtain ⟨compiled', second, same⟩ := compiles reworded compiled first
    rw [second]
    exact congrArg some same
  | error e =>
    cases second : compileDocument schema document' options with
    | error e' => rfl
    | ok compiled' =>
      obtain ⟨compiled, again, -⟩ := compiles reworded.symm compiled' second
      cases first.symm.trans again

/-- A query of the parts of a dog, with its owner selected twice. -/
def splitOwner : Document :=
  queryDocument [plainField "dog" [plainSpread "Parts", plainField "name" []]]
    [plainFragment "Parts" "Dog" [plainField "owner" [plainField "id" []],
      plainField "owner" [plainField "kennel" []]]]

/-- The same with the owner selected once, with what is selected of the dog wrapped, and with its
parts spread once more. -/
def joinedOwner : Document :=
  queryDocument [plainField "dog" [
      .inlineFragment none [] none [plainSpread "Parts", plainField "name" []],
      plainSpread "Parts"]]
    [plainFragment "Parts" "Dog" [
      plainField "owner" [plainField "id" [], plainField "kennel" []]]]

/-- All three laws leave what is compiled for the dog. -/
theorem map_withoutSources_compileDocument_joinedOwner :
    splitOwner.Reworded joinedOwner ∧
      (∃ compiled, compileDocument petSchema splitOwner {} = .ok compiled) ∧
      (compileDocument petSchema splitOwner {}).toOption.map Compiled.Document.withoutSources
        = (compileDocument petSchema joinedOwner {}).toOption.map
            Compiled.Document.withoutSources := by
  have dog : Reworded Eq [plainSpread "Parts", plainField "name" []]
      [.inlineFragment none [] none [plainSpread "Parts", plainField "name" []],
        plainSpread "Parts"] :=
    .trans (.again List.mem_cons_self) (.append .wrap (.refl [plainSpread "Parts"]))
  have owner : Reworded Eq
      [plainField "owner" [plainField "id" []], plainField "owner" [plainField "kennel" []]]
      [plainField "owner" [plainField "id" [], plainField "kennel" []]] := .merge
  have reworded : splitOwner.Reworded joinedOwner :=
    .cons (.operation ⟨rfl, rfl, .field dog⟩) (.cons (.fragment ⟨rfl, rfl, owner⟩) .nil)
  exact ⟨reworded, ⟨_, by cbv⟩, map_withoutSources_compileDocument petSchema {} reworded⟩

end GraphQLCompiler
