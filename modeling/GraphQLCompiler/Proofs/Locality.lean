import GraphQLCompiler.Proofs.Compilation
import GraphQLCompiler.Proofs.Relocation
import Mathlib

/-!
# Locality

Fragments are found by name in the whole document. Still, what a definition compiles to is decided
by the fragments that spreads lead to from it. If two documents have the same fragments of these
names, a definition compiles to the same in both, or stops with the same error, and uses the same
types, whatever else the documents hold and in whatever order (`endsAlike_of_agree`).

The same fragment has other places in another document, so fragments are the same here if two
relocations bring them together. The fragments that spreads lead to are linked to the same then
(`find?_library_of_agree`), and resolution depends on nothing else. After resolution the names that
are referenced are looked up again to be printed, and spreads lead to all of them.
-/

namespace GraphQLCompiler

open CompileM

/-! ### What a definition depends on -/

namespace Document

/-- The names that spreads **lead to** from selections: those that are spread in them, and those
that are spread in a fragment whose name spreads lead to. There need not be a fragment of the
name. -/
inductive LeadsTo (document : Document) (selections : WrittenSelections) : Name → Prop where
  | own {name : Name} (spread : ∃ selection ∈ selections, selection.HasSpread name) :
    LeadsTo document selections name
  | fragment {name other : Name} {definition : FragmentDefinition}
      (before : LeadsTo document selections name)
      (found : document.fragment? name = some definition)
      (spread : ∃ selection ∈ definition.selections, selection.HasSpread other) :
    LeadsTo document selections other

/-- Whether two documents **agree** on what some selections depend on: for each name that spreads
lead to, relocations make the same of the fragment that one has and the fragment that the other
has, or neither has one. -/
def AgreeOn (document document' : Document) (r r' : Relocation) (selections : WrittenSelections) :
    Prop :=
  ∀ name, document.LeadsTo selections name →
    (document.fragment? name).map (FragmentDefinition.relocate r)
      = (document'.fragment? name).map (FragmentDefinition.relocate r')

end Document

/-- Whether results are **alike**: values that are related, or errors of which relocations make the
same. -/
inductive ResultsAlike {α : Type} (r r' : Relocation) (related : α → α → Prop) :
    Except CompileError α → Except CompileError α → Prop where
  | ok {a b : α} (h : related a b) : ResultsAlike r r' related (.ok a) (.ok b)
  | error {e e' : CompileError} (h : e.relocate r = e'.relocate r') :
    ResultsAlike r r' related (.error e) (.error e')

theorem ResultsAlike.mono {α : Type} {r r' : Relocation} {related related' : α → α → Prop}
    {result result' : Except CompileError α} (h : ResultsAlike r r' related result result')
    (weaker : ∀ a b, related a b → related' a b) : ResultsAlike r r' related' result result' := by
  cases h with
  | ok related => exact .ok (weaker _ _ related)
  | error same => exact .error same

/-- Whether two runs **end alike**: with results that are alike, and in the same state. -/
structure EndsAlike {α : Type} (r r' : Relocation) (related : α → α → Prop)
    (run run' : Except CompileError α × CompilerState) : Prop where
  result : ResultsAlike r r' related run.1 run'.1
  state : run.2 = run'.2

/-- Whether compiled operations are the same but for the path of their file. -/
def Compiled.Operation.SameButPath (operation operation' : Compiled.Operation) : Prop :=
  { operation with filePath := none } = { operation' with filePath := none }

/-- Whether compiled fragments are the same but for the path of their file. -/
def Compiled.Fragment.SameButPath (fragment fragment' : Compiled.Fragment) : Prop :=
  { fragment with filePath := none } = { fragment' with filePath := none }

/-! ### Libraries -/

section

variable {table table' : FragmentTable} {library library' : FragmentLibrary} {r r' : Relocation}
  {selections : WrittenSelections}

private theorem leadsTo_of_spreadsFrom {document : Document} {name : Name}
    (h : (FragmentTable.ofList document.fragments).SpreadsFrom selections name) :
    document.LeadsTo selections name := by
  obtain ⟨first, mem, path⟩ := h
  induction path with
  | refl =>
    obtain ⟨selection, memSelection, spread⟩ := mem_spreadNames_iff.1 mem
    exact .own ⟨selection, memSelection, mem_spreadNames_iff_hasSpread.1 spread⟩
  | tail _ spreads ih =>
    obtain ⟨definition, found, mem⟩ := spreads
    rw [FragmentTable.find?_ofList] at found
    obtain ⟨selection, memSelection, spread⟩ := mem_spreadNames_iff.1 mem
    exact .fragment ih found ⟨selection, memSelection, mem_spreadNames_iff_hasSpread.1 spread⟩

/-- Selections that relocations make the same of are linked to the same if they find the same
fragments. -/
private theorem relocateLinked_link_eq {selections' : WrittenSelections}
    {find find' : Name → Option Fragment} (same : relocate r selections = relocate r' selections')
    (agree : ∀ name ∈ spreadNames selections,
      (find name).map (Fragment.relocate r) = (find' name).map (Fragment.relocate r')) :
    relocateLinked r (link find selections) = relocateLinked r' (link find' selections') := by
  rw [relocateLinked_link, relocateLinked_link, ← same]
  refine link_congr (relocate r selections) fun name mem => agree name ?_
  rwa [spreadNames_relocate] at mem

private theorem relocate_link_eq {definition definition' : FragmentDefinition}
    {find find' : Name → Option Fragment}
    (same : definition.relocate r = definition'.relocate r')
    (agree : ∀ name ∈ spreadNames definition.selections,
      (find name).map (Fragment.relocate r) = (find' name).map (Fragment.relocate r')) :
    (definition.link find).relocate r = (definition'.link find').relocate r' := by
  have selections := relocateLinked_link_eq (congrArg FragmentDefinition.selections same) agree
  have name :=
    (congrArg FragmentDefinition.name same :)
  have typeCondition := congrArg FragmentDefinition.typeCondition same
  have location := congrArg FragmentDefinition.location same
  simp only [FragmentDefinition.relocate] at name typeCondition location
  rw [FragmentDefinition.link, FragmentDefinition.link, Fragment.relocate, Fragment.relocate,
    selections, name, typeCondition, location]

/-- **Linked alike.** Tables that have the same fragments of the names that spreads lead to have
libraries that hold the same linked fragments of these names. -/
theorem find?_library_of_agree (acyclic : table.library = .ok library)
    (acyclic' : table'.library = .ok library')
    (agree : ∀ name, table.SpreadsFrom selections name →
      (table.find? name).map (FragmentDefinition.relocate r)
        = (table'.find? name).map (FragmentDefinition.relocate r'))
    {name : Name} (leads : table.SpreadsFrom selections name) :
    (library.find? name).map (Fragment.relocate r)
      = (library'.find? name).map (Fragment.relocate r') := by
  refine FragmentTable.find?_library_induction acyclic (fun name target =>
    table.SpreadsFrom selections name →
      target.map (Fragment.relocate r) = (library'.find? name).map (Fragment.relocate r'))
    ?_ ?_ name leads
  · intro name missing leads
    have agrees := agree name leads
    rw [missing, Option.map_none, eq_comm, Option.map_eq_none_iff] at agrees
    rw [FragmentTable.find?_library acyclic', agrees]
    rfl
  · intro name definition found below leads
    have agrees := agree name leads
    rw [found, Option.map_some, eq_comm, Option.map_eq_some_iff] at agrees
    obtain ⟨definition', found', same⟩ := agrees
    rw [FragmentTable.find?_library acyclic', found', Option.map_some, Option.map_some]
    refine congrArg some (relocate_link_eq same.symm fun other spread => below other spread ?_)
    obtain ⟨first, mem, path⟩ := leads
    exact ⟨first, mem, path.tail ⟨definition, found, spread⟩⟩

end

/-! ### Computations that are alike -/

namespace CompileM

variable {α β : Type} {memo : NameMap (List Name) → Prop} {r r' : Relocation}

/-- Computations are **alike** if they end alike from every state whose remembered references
satisfy an invariant, and keep the invariant. -/
def Alike (memo : NameMap (List Name) → Prop) (r r' : Relocation) (related : α → α → Prop)
    (m m' : CompileM α) : Prop :=
  ∀ state : CompilerState, memo state.references →
    EndsAlike r r' related (m.run state) (m'.run state) ∧ memo (m.run state).2.references

theorem alike_pure {related : α → α → Prop} {a b : α} (h : related a b) :
    Alike memo r r' related (pure a) (pure b) :=
  fun _ inv => ⟨⟨.ok h, rfl⟩, inv⟩

theorem Alike.bind {related : α → α → Prop} {related' : β → β → Prop} {m m' : CompileM α}
    {next next' : α → CompileM β} (h : Alike memo r r' related m m')
    (h' : ∀ a b, related a b → Alike memo r r' related' (next a) (next' b)) :
    Alike memo r r' related' (m >>= next) (m' >>= next') := by
  intro state inv
  obtain ⟨⟨result, same⟩, kept⟩ := h state inv
  rw [run_bind, run_bind]
  rcases first : m.run state with ⟨_, after⟩
  rcases first' : m'.run state with ⟨_, after'⟩
  rw [first, first'] at result same
  rw [first] at kept
  cases same
  cases result with
  | ok related => exact h' _ _ related after kept
  | error same => exact ⟨⟨.error same, rfl⟩, kept⟩

/-- Computations of which relocations make the same are alike, and have the same values. -/
theorem alike_of_relocate_eq {sure : Prop} {post : α → Prop} {m m' : CompileM α}
    (same : m.relocate r = m'.relocate r') (h : Ensures memo sure m post) :
    Alike memo r r' (fun a b => a = b ∧ post a) m m' := by
  intro state inv
  refine ⟨?_, h.kept state inv⟩
  have holds := h.holds state inv
  have runs : (m.relocate r).run state = (m'.relocate r').run state := by rw [same]
  rw [run_relocate, run_relocate] at runs
  rcases run : m.run state with ⟨e | a, after⟩ <;>
    rcases run' : m'.run state with ⟨e' | b, after'⟩
  all_goals
    rw [run, run'] at runs
    rw [run] at holds
    obtain ⟨results, rfl⟩ := Prod.mk.inj runs
  · exact ⟨.error (Except.error.inj results), rfl⟩
  · cases results
  · cases results
  · obtain rfl : a = b := Except.ok.inj results
    exact ⟨.ok ⟨rfl, holds a rfl⟩, rfl⟩

theorem Alike.mono {related related' : α → α → Prop} {m m' : CompileM α}
    (h : Alike memo r r' related m m') (weaker : ∀ a b, related a b → related' a b) :
    Alike memo r r' related' m m' := by
  intro state inv
  obtain ⟨⟨result, same⟩, kept⟩ := h state inv
  exact ⟨⟨result.mono weaker, same⟩, kept⟩

theorem alike_tell (events : List LogEvent) :
    Alike memo r r' (fun _ _ => True) (tell events) (tell events) :=
  fun _ inv => ⟨⟨.ok trivial, rfl⟩, inv⟩

end CompileM

/-! ### Compilation -/

/-- Two documents without cycles are linked without changes to what is remembered. -/
private theorem alike_library {memo : NameMap (List Name) → Prop} {r r' : Relocation}
    {compiler compiler' : Compiler} {library library' : FragmentLibrary}
    (acyclic : compiler.table.library = .ok library)
    (acyclic' : compiler'.table.library = .ok library') :
    Alike memo r r' (fun found found' => found = library ∧ found' = library') compiler.library
      compiler'.library := by
  intro state inv
  rw [run_library fun _ => FragmentTable.exists_library_iff.1 ⟨library, acyclic⟩,
    run_library fun _ => FragmentTable.exists_library_iff.1 ⟨library', acyclic'⟩, acyclic, acyclic']
  exact ⟨⟨.ok ⟨rfl, rfl⟩, rfl⟩, inv⟩

section

variable {schema : Schema} {options : Options} {document document' : Document}
  {library library' : FragmentLibrary} {r r' : Relocation}

/-- Fragments that are the same have the same text. -/
private theorem printNamedFragment_eq {name : Name}
    (same : (document.fragment? name).map (FragmentDefinition.relocate r)
      = (document'.fragment? name).map (FragmentDefinition.relocate r')) :
    (Compiler.ofDocument schema document options).printNamedFragment name
      = (Compiler.ofDocument schema document' options).printNamedFragment name := by
  have find? : ∀ document : Document, (Compiler.ofDocument schema document options).table.find? name
      = document.fragment? name := fun document => FragmentTable.find?_ofList _ name
  rw [Compiler.printNamedFragment, Compiler.printNamedFragment, find?, find?]
  cases found : document.fragment? name with
  | none =>
    rw [found, Option.map_none, eq_comm, Option.map_eq_none_iff] at same
    rw [same]
  | some definition =>
    rw [found, Option.map_some, eq_comm, Option.map_eq_some_iff] at same
    obtain ⟨definition', found', same⟩ := same
    rw [found']
    refine congrArg Except.ok ?_
    rw [← printFragment_relocate r, ← same, printFragment_relocate r']
    rfl

section

variable {definition definition' : OperationDefinition}
  {memo : NameMap (List Name) → Prop} (same : definition.relocate r = definition'.relocate r')

include same

private theorem alike_requireName :
    Alike memo r r' (fun name name' => name = name') (Compiler.requireName definition)
      (Compiler.requireName definition') := by
  refine (alike_of_relocate_eq ?_ (ensures_requireName False.elim)).mono fun _ _ => And.left
  rw [← requireName_relocate, ← requireName_relocate, same]

private theorem alike_requireRoot :
    Alike memo r r' (fun root root' => root = root')
      ((Compiler.ofDocument schema document options).requireRoot definition)
      ((Compiler.ofDocument schema document' options).requireRoot definition') := by
  refine (alike_of_relocate_eq ?_ (ensures_requireRoot False.elim)).mono fun _ _ => And.left
  rw [← requireRoot_relocate, ← requireRoot_relocate, same]
  rfl

private theorem alike_compileVariables :
    Alike memo r r' (fun compiled compiled' => compiled = compiled')
      (definition.variableDefinitions.mapM
        (Compiler.ofDocument schema document options).compileVariable)
      (definition'.variableDefinitions.mapM
        (Compiler.ofDocument schema document' options).compileVariable) := by
  refine (alike_of_relocate_eq ?_ (ensures_mapM fun _ _ =>
    ensures_compileVariable False.elim)).mono fun _ _ => And.left
  rw [← mapM_relocate r (compileVariable_relocate r _),
    ← mapM_relocate r' (compileVariable_relocate r' _)]
  have moved := congrArg OperationDefinition.variableDefinitions same
  exact congrArg (List.mapM (Compiler.ofDocument schema document options).compileVariable) moved

end

/-- Names that spreads lead to are printed alike. -/
private theorem alike_printWithFragments {memo : NameMap (List Name) → Prop}
    {selections : WrittenSelections} (agree : document.AgreeOn document' r r' selections)
    (source : String) {names : List Name}
    (reachable : ∀ name ∈ names,
      (Compiler.ofDocument schema document options).table.Reachable selections name) :
    Alike memo r r' (fun text text' => text = text')
      (CompileM.ofExcept
        ((Compiler.ofDocument schema document options).printWithFragments source names))
      (CompileM.ofExcept
        ((Compiler.ofDocument schema document' options).printWithFragments source names)) := by
  have texts : names.mapM (Compiler.ofDocument schema document options).printNamedFragment
      = names.mapM (Compiler.ofDocument schema document' options).printNamedFragment := by
    induction names with
    | nil => rfl
    | cons name rest ih =>
      obtain ⟨first, others⟩ := List.forall_mem_cons.1 reachable
      rw [List.mapM_cons, List.mapM_cons, ih others,
        printNamedFragment_eq (agree name (leadsTo_of_spreadsFrom first.reached))]
  have same : (Compiler.ofDocument schema document options).printWithFragments source names
      = (Compiler.ofDocument schema document' options).printWithFragments source names := by
    rw [Compiler.printWithFragments, Compiler.printWithFragments, texts]
  obtain ⟨text, printed⟩ := exists_printWithFragments
    (fun name mem => (reachable name mem).defined) source
  rw [← same, printed]
  exact alike_pure rfl

variable (acyclic : (FragmentTable.ofList document.fragments).library = .ok library)
  (acyclic' : (FragmentTable.ofList document'.fragments).library = .ok library')

include acyclic acyclic'

/-- The fragments that spreads lead to from selections on which documents agree are linked to the
same. -/
private theorem find?_library_of_agreeOn {selections : WrittenSelections}
    (agree : document.AgreeOn document' r r' selections) {name : Name}
    (mem : name ∈ spreadNames selections) :
    (library.find? name).map (Fragment.relocate r)
      = (library'.find? name).map (Fragment.relocate r') := by
  refine find?_library_of_agree acyclic acyclic' (fun name leads => ?_) ⟨name, mem, .refl⟩
  rw [FragmentTable.find?_ofList, FragmentTable.find?_ofList]
  exact agree name (leadsTo_of_spreadsFrom leads)

private theorem alike_resolveSelections {selections selections' : WrittenSelections}
    (same : relocate r selections = relocate r' selections')
    (agree : document.AgreeOn document' r r' selections) (root : Name) :
    let compiler := Compiler.ofDocument schema document options
    let compiler' := Compiler.ofDocument schema document' options
    Alike (Remembers compiler.settings library.find?) r r'
      (fun resolved resolved' => resolved = resolved' ∧
        ∀ name ∈ resolved.references, compiler.table.Reachable selections name)
      (compiler.resolveSelections root (link library.find? selections))
      (compiler'.resolveSelections root (link library'.find? selections')) := by
  intro compiler compiler'
  have named : compiler.table.IsNamed := FragmentTable.isNamed_ofList document.fragments
  have sites : (Site.start library root selections).relocate r
      = (Site.start library' root selections').relocate r' :=
    congrArg (Site.mk root) (relocateLinked_link_eq same fun name mem =>
      find?_library_of_agreeOn acyclic acyclic' agree mem)
  refine alike_of_relocate_eq ?_ ((ensures_resolveSelections acyclic named root selections
    False.elim).mono fun resolved ⟨describes, _⟩ name mem => ?_)
  · change ((Site.start library root selections).resolution compiler.settings).relocate r
      = ((Site.start library' root selections').resolution compiler.settings).relocate r'
    rw [← Site.resolution_relocate, ← Site.resolution_relocate, sites]
  · exact FragmentTable.reachable_of_references acyclic named ((describes.mem_iff name).1 mem)

private theorem alike_compileOperation {definition definition' : OperationDefinition}
    (same : definition.relocate r = definition'.relocate r')
    (agree : document.AgreeOn document' r r' definition.selections) :
    let compiler := Compiler.ofDocument schema document options
    let compiler' := Compiler.ofDocument schema document' options
    Alike (Remembers compiler.settings library.find?) r r' Compiled.Operation.SameButPath
      (compiler.compileOperation definition) (compiler'.compileOperation definition') := by
  intro compiler compiler'
  rw [Compiler.compileOperation, Compiler.compileOperation]
  refine (alike_library acyclic acyclic').bind ?_
  rintro linked linked' ⟨eq, eq'⟩
  rw [eq, eq']
  refine (alike_requireName same).bind ?_
  rintro name _ rfl
  refine (alike_tell _).bind fun _ _ _ => ?_
  refine (alike_compileVariables same).bind ?_
  rintro variableDefinitions _ rfl
  refine (alike_requireRoot same).bind ?_
  rintro root _ rfl
  refine (alike_resolveSelections acyclic acyclic'
    (congrArg OperationDefinition.selections same) agree root).bind ?_
  rintro resolved _ ⟨rfl, reachable⟩
  have source : compiler.printOperation definition = compiler'.printOperation definition' := by
    rw [← printOperation_relocate r, same, printOperation_relocate r']
    rfl
  have operationType : definition.operationType = definition'.operationType :=
    (congrArg OperationDefinition.operationType same :)
  dsimp only
  rw [← source, ← operationType]
  -- spreads lead to all references, so they are printed alike
  refine (alike_printWithFragments agree _ reachable).bind ?_
  rintro text _ rfl
  exact (alike_tell _).bind fun _ _ _ => alike_pure rfl

private theorem alike_compileFragment {definition definition' : FragmentDefinition}
    (same : definition.relocate r = definition'.relocate r')
    (agree : document.AgreeOn document' r r' definition.selections) :
    let compiler := Compiler.ofDocument schema document options
    let compiler' := Compiler.ofDocument schema document' options
    Alike (fun _ => True) r r' Compiled.Fragment.SameButPath (compiler.compileFragment definition)
      (compiler'.compileFragment definition') := by
  intro compiler compiler'
  rw [Compiler.compileFragment, Compiler.compileFragment]
  refine (alike_library acyclic acyclic').bind ?_
  rintro linked linked' ⟨eq, eq'⟩
  rw [eq, eq']
  have name : definition.name = definition'.name :=
    (congrArg FragmentDefinition.name same :)
  have typeCondition : definition.typeCondition = definition'.typeCondition :=
    (congrArg FragmentDefinition.typeCondition same :)
  have source : compiler.printFragment definition = compiler'.printFragment definition' := by
    rw [← printFragment_relocate r, same, printFragment_relocate r']
    rfl
  have fragments := relocate_link_eq same fun name mem =>
    find?_library_of_agreeOn acyclic acyclic' agree mem
  have resolutions :
      (resolveFragment compiler.settings (definition.link library.find?)).relocate r
        = (resolveFragment compiler'.settings (definition'.link library'.find?)).relocate r' := by
    rw [← resolveFragment_relocate, ← resolveFragment_relocate, fragments]
    rfl
  rw [name, typeCondition, source]
  refine (alike_tell _).bind fun _ _ _ => ?_
  refine (alike_of_relocate_eq resolutions ensures_true).bind ?_
  rintro resolved _ ⟨rfl, -⟩
  exact alike_pure rfl

end

/-- **Compilation is local.** For two documents without cycles, an operation or a fragment compiles
to the same in both, or stops with the same error, and uses the same types, if they agree on what it
depends on. The definition itself may have other places too. The same is what relocations make the
same, and the path of the file of a compiled definition may differ. -/
theorem endsAlike_of_agree (schema : Schema) (options : Options) {document document' : Document}
    (acyclic : ∀ name, ¬ document.OnCycle name) (acyclic' : ∀ name, ¬ document'.OnCycle name)
    (r r' : Relocation) :
    let compiler := Compiler.ofDocument schema document options
    let compiler' := Compiler.ofDocument schema document' options
    (∀ definition definition' : OperationDefinition,
      definition.relocate r = definition'.relocate r' →
      document.AgreeOn document' r r' definition.selections →
      EndsAlike r r' Compiled.Operation.SameButPath
        ((compiler.compileOperation definition).run {})
        ((compiler'.compileOperation definition').run {})) ∧
    (∀ definition definition' : FragmentDefinition,
      definition.relocate r = definition'.relocate r' →
      document.AgreeOn document' r r' definition.selections →
      EndsAlike r r' Compiled.Fragment.SameButPath
        ((compiler.compileFragment definition).run {})
        ((compiler'.compileFragment definition').run {})) := by
  intro compiler compiler'
  have exists_library : ∀ document : Document, (∀ name, ¬ document.OnCycle name) →
      ∃ library, (FragmentTable.ofList document.fragments).library = .ok library :=
    fun document acyclic => FragmentTable.exists_library_iff.2 fun name loop =>
      acyclic name (Document.onCycle_iff.2 loop)
  obtain ⟨library, linked⟩ := exists_library document acyclic
  obtain ⟨library', linked'⟩ := exists_library document' acyclic'
  refine ⟨fun definition definition' same agree => ?_, fun definition definition' same agree => ?_⟩
  · exact (alike_compileOperation linked linked' same agree {} (remembers_empty _ _)).1
  · exact (alike_compileFragment linked linked' same agree {} trivial).1

/-- A query of the parts of a pet. -/
def partsQuery : OperationDefinition where
  operationType := .query
  name := some "Q"
  variableDefinitions := []
  directives := []
  location := some ⟨1, 0, 24⟩
  selections := [.field none "pet" [] [] (some ⟨1, 8, 22⟩) [.spread "Parts" [] (some ⟨1, 12, 20⟩) ()]]

/-- The parts of a pet, one of which pets do not have. -/
def colouredParts : FragmentDefinition where
  name := "Parts"
  typeCondition := "Pet"
  directives := []
  location := some ⟨1, 30, 60⟩
  selections := [.field none "colour" [] [] (some ⟨1, 52, 58⟩) []]

/-- The way to a place further back in another file. -/
def furtherBack : Relocation := fun span => some ⟨2, span.start + 100, span.stop + 100⟩

/-- The query and the fragment in other places, after another fragment and the other way round. -/
def furtherBackDocument : Document where
  sources := [(2, "pets.graphql")]
  definitions := [.fragment (plainFragment "Unused" "Nobody" [plainSpread "Undefined"]),
    .fragment (colouredParts.relocate furtherBack), .operation (partsQuery.relocate furtherBack)]

/-- The unknown field is reported at its other place. -/
theorem endsAlike_of_agree_furtherBack :
    let document : Document := ⟨[], [.operation partsQuery, .fragment colouredParts]⟩
    document.AgreeOn furtherBackDocument furtherBack some partsQuery.selections ∧
      ((Compiler.ofDocument petSchema document {}).compileOperation partsQuery |>.run {}).1
        = .error (.unknownField "Pet" "colour" (some ⟨1, 52, 58⟩)) ∧
      ((Compiler.ofDocument petSchema furtherBackDocument {}).compileOperation
          (partsQuery.relocate furtherBack) |>.run {}).1
        = .error (.unknownField "Pet" "colour" (some ⟨2, 152, 158⟩)) := by
  intro document
  have agree : document.AgreeOn furtherBackDocument furtherBack some partsQuery.selections := by
    have parts : ∀ name, document.LeadsTo partsQuery.selections name → name = "Parts" := by
      intro name leads
      induction leads with
      | own spread =>
        obtain ⟨selection, mem, spread⟩ := spread
        have named := mem_spreadNames_iff.2 ⟨selection, mem, mem_spreadNames_iff_hasSpread.2 spread⟩
        exact List.mem_singleton.1 named
      | fragment _ found spread ih =>
        subst ih
        cases found
        obtain ⟨selection, mem, spread⟩ := spread
        have named := mem_spreadNames_iff.2 ⟨selection, mem, mem_spreadNames_iff_hasSpread.2 spread⟩
        cases named
    intro name leads
    rw [parts name leads]
    exact congrArg some (FragmentDefinition.relocate_some _).symm
  have acyclic : ∀ document : Document,
      (∃ library, (FragmentTable.ofList document.fragments).library = .ok library) →
      ∀ name, ¬ document.OnCycle name :=
    fun document linked name loop =>
      FragmentTable.exists_library_iff.1 linked name (Document.onCycle_iff.1 loop)
  have first : ((Compiler.ofDocument petSchema document {}).compileOperation partsQuery |>.run {}).1
      = .error (.unknownField "Pet" "colour" (some ⟨1, 52, 58⟩)) := by cbv
  have alike := (endsAlike_of_agree petSchema {} (acyclic document ⟨_, by cbv⟩)
    (acyclic furtherBackDocument ⟨_, by cbv⟩) furtherBack some).1 partsQuery
    (partsQuery.relocate furtherBack) (OperationDefinition.relocate_some _).symm agree
  refine ⟨agree, first, ?_⟩
  obtain ⟨result, -⟩ := alike
  generalize ((Compiler.ofDocument petSchema furtherBackDocument {}).compileOperation
    (partsQuery.relocate furtherBack) |>.run {}).1 = other at result
  rw [first] at result
  cases result with
  | error same => exact congrArg Except.error (same.trans (CompileError.relocate_some _)).symm

end GraphQLCompiler
