import GraphQLCompiler.Proofs.Blame
import GraphQLCompiler.Proofs.Execution

/-!
# Justified errors

An error of compilation tells what is wrong, and points at a **node** of the document. It is
**justified** if both are so: the node is one of the definition that was compiled, or of a fragment
that spreads lead to from it, and what the error says of the node and the schema is true
(`Document.Justifies`).

All errors of the definitions of a document are justified, whatever a compiler was asked for before
(`justified_of_error`). The first faults of selections are, as long as the selections come from
nodes of the definition and are collected at a composite type; that they come from such nodes is
inherited, by sub-selections and by the fragments that are spread. So the argument is one about
faults, and compilation has no other errors. In a document whose nodes all have locations, the only
errors without one are those of types that do not take selections.
-/

namespace GraphQLCompiler

open CompileM

/-! ### Nodes -/

/-- A node of a document, of those that errors are about. -/
inductive Node where
  | operation (definition : OperationDefinition)
  | fragment (definition : FragmentDefinition)
  | variableDefinition (definition : VariableDefinition)
  | selection (selection : Selection Unit)

namespace Node

/-- Where a node is written. -/
def location : Node → Option Span
  | operation definition => definition.location
  | fragment definition => definition.location
  | variableDefinition definition => definition.location
  | selection (.field _ _ _ _ location _) => location
  | selection (.inlineFragment _ _ location _) => location
  | selection (.spread _ _ location _) => location

/-- The nodes that are written right inside a node. -/
def children : Node → List Node
  | operation definition =>
    definition.variableDefinitions.map variableDefinition ++ definition.selections.map selection
  | fragment definition => definition.selections.map selection
  | variableDefinition _ => []
  | selection outer => outer.selections.map selection

/-- The name of the field that a node selects. -/
def fieldName? : Node → Option Name
  | selection (.field _ name _ _ _ _) => some name
  | _ => none

/-- The name of the fragment that a node spreads. -/
def spreadName? : Node → Option Name
  | selection (.spread name _ _ _) => some name
  | _ => none

/-- The type condition of a node, of a fragment or an inline fragment. -/
def typeCondition? : Node → Option Name
  | fragment definition => some definition.typeCondition
  | selection (.inlineFragment typeCondition _ _ _) => typeCondition
  | _ => none

/-- The type that a node names: the bare type of a variable, or a type condition. -/
def typeName? : Node → Option Name
  | variableDefinition definition => some definition.type.bare
  | node => node.typeCondition?

end Node

namespace Document

/-- The nodes of a definition: those that are written in it, and those of the fragments that it
spreads. -/
inductive HasNode (document : Document) (definition : Node) : Node → Prop where
  | self : HasNode document definition definition
  | inside {outer inner : Node} (outside : HasNode document definition outer)
      (mem : inner ∈ outer.children) : HasNode document definition inner
  | spread {name : Name} {directives : List Directive} {location : Option Span}
      {fragment : FragmentDefinition}
      (spread : HasNode document definition (.selection (.spread name directives location ())))
      (found : document.fragment? name = some fragment) :
    HasNode document definition (.fragment fragment)

/-- Whether an error is **justified** by a definition, given as a node, of a document. -/
def Justifies (document : Document) (schema : Schema) (definition : Node) : CompileError → Prop
  | .unknownField typeName fieldName location =>
    schema.isComposite typeName ∧ schema.fieldDefinition? typeName fieldName = none ∧
      ∃ node, document.HasNode definition node ∧ node.fieldName? = some fieldName ∧
        node.location = location
  | .unknownFragment name location =>
    document.fragment? name = none ∧
      ∃ node, document.HasNode definition node ∧ node.spreadName? = some name ∧
        node.location = location
  | .unknownType name location =>
    schema.typeKind? name = none ∧
      ∃ node, document.HasNode definition node ∧ node.typeName? = some name ∧
        node.location = location
  | .notCompositeType name location =>
    location = none ∧ (∃ kind, schema.typeKind? name = some kind ∧ ¬ kind.isComposite) ∧
      ∃ node, document.HasNode definition node ∧ node.typeCondition? = some name
  | .missingRootOperationType operationType location =>
    schema.rootType? operationType = none ∧
      ∃ operation, definition = .operation operation ∧ operation.operationType = operationType ∧
        operation.location = location
  | .anonymousOperation location =>
    ∃ operation, definition = .operation operation ∧ operation.name = none ∧
      operation.location = location
  | .fragmentCycle name location =>
    document.OnCycle name ∧
      ∃ fragment, document.fragment? name = some fragment ∧ fragment.location = location

end Document

/-! ### Faults of selections that come from nodes -/

section

variable {schema : Schema} {options : Options} {document : Document} {definition : Node}
  {library : FragmentLibrary}

variable (document definition library) in
/-- Whether a linked selection comes from a node of a definition. -/
def Stems (selection : LinkedSelection) : Prop :=
  ∃ written, document.HasNode definition (.selection written) ∧
    written.link library.find? = selection

/-- The node that a field comes from. -/
theorem Stems.field {aliasName : Option Name} {name : Name} {arguments : List Argument}
    {directives : List Directive} {location : Option Span} {selections : List LinkedSelection}
    (h : Stems document definition library
      (.field aliasName name arguments directives location selections)) :
    ∃ written, document.HasNode definition
        (.selection (.field aliasName name arguments directives location written)) ∧
      link library.find? written = selections := by
  obtain ⟨written, has, eq⟩ := h
  cases written <;> rw [Selection.link] at eq <;> cases eq
  exact ⟨_, has, rfl⟩

/-- The node that an inline fragment comes from. -/
theorem Stems.inlineFragment {typeCondition : Option Name} {directives : List Directive}
    {location : Option Span} {selections : List LinkedSelection}
    (h : Stems document definition library
      (.inlineFragment typeCondition directives location selections)) :
    ∃ written, document.HasNode definition
        (.selection (.inlineFragment typeCondition directives location written)) ∧
      link library.find? written = selections := by
  obtain ⟨written, has, eq⟩ := h
  cases written <;> rw [Selection.link] at eq <;> cases eq
  exact ⟨_, has, rfl⟩

/-- The node that a spread comes from. -/
theorem Stems.spread {name : Name} {directives : List Directive} {location : Option Span}
    {target : Option Fragment}
    (h : Stems document definition library (.spread name directives location target)) :
    document.HasNode definition (.selection (.spread name directives location ())) ∧
      library.find? name = target := by
  obtain ⟨written, has, eq⟩ := h
  cases written <;> rw [Selection.link] at eq <;> cases eq
  exact ⟨has, rfl⟩

/-- What is linked of the selections of a node comes from nodes. -/
theorem stems_link {outer : Node} (outside : document.HasNode definition outer)
    {selections : WrittenSelections}
    (inside : ∀ selection ∈ selections, .selection selection ∈ outer.children) :
    ∀ selection ∈ link library.find? selections, Stems document definition library selection := by
  intro selection mem
  rw [link_eq_map] at mem
  obtain ⟨written, mem, eq⟩ := List.mem_map.1 mem
  exact ⟨written, outside.inside (inside written mem), eq⟩

variable (acyclic : (FragmentTable.ofList document.fragments).library = .ok library)

include acyclic

/-- What a name stands for, in the document and in its library. -/
theorem Document.find?_library (name : Name) : library.find? name
    = (document.fragment? name).map fun fragment => fragment.link library.find? := by
  rw [FragmentTable.find?_library acyclic, FragmentTable.find?_ofList]
  rfl

/-- The definition of a fragment that is spread is a node too. -/
theorem Stems.fragment {name : Name} {directives : List Directive} {location : Option Span}
    {fragment : Fragment}
    (h : Stems document definition library (.spread name directives location (some fragment))) :
    ∃ written, document.HasNode definition (.fragment written) ∧
      written.link library.find? = fragment := by
  obtain ⟨has, found⟩ := h.spread
  rw [Document.find?_library acyclic, Option.map_eq_some_iff] at found
  obtain ⟨written, found, eq⟩ := found
  exact ⟨written, has.spread found, eq⟩

/-- Coming from nodes is inherited. -/
theorem hereditary_stems : Hereditary (Stems document definition library) where
  field h := by
    obtain ⟨written, has, rfl⟩ := h.field
    exact stems_link has fun selection mem => List.mem_map_of_mem mem
  inlineFragment h := by
    obtain ⟨written, has, rfl⟩ := h.inlineFragment
    exact stems_link has fun selection mem => List.mem_map_of_mem mem
  spread h := by
    obtain ⟨written, has, rfl⟩ := h.fragment acyclic
    exact stems_link has fun selection mem => List.mem_map_of_mem mem

end

/-! ### Justified faults -/

section

variable {schema : Schema} {options : Options} {document : Document} {definition : Node}
  {library : FragmentLibrary}

/-- A defined type that is no type to narrow a composite type to is named as such. -/
private theorem typeFaults_narrow_subset {parent : Name} (composite : schema.isComposite parent)
    (typeCondition : Name) :
    typeFaults schema (schema.narrow parent typeCondition) ⊆ typeFaults schema typeCondition := by
  unfold Schema.narrow
  split
  · rw [typeFaults_eq_nil_iff.2 composite]
    exact List.nil_subset _
  · exact List.Subset.refl _

/-- A fault of a type condition is justified by the node that has the condition. -/
private theorem justifies_typeFaults {node : Node} (has : document.HasNode definition node)
    {typeCondition : Name} (named : node.typeCondition? = some typeCondition) {kind : TypeKind}
    (known : schema.typeKind? typeCondition = some kind) :
    ∀ e ∈ typeFaults schema typeCondition, document.Justifies schema definition e := by
  intro e mem
  simp only [typeFaults, known] at mem
  split at mem
  · cases mem
  · rename_i leaf
    cases List.mem_singleton.1 mem
    exact ⟨rfl, ⟨kind, known, leaf⟩, node, has, named⟩

/-- The faults of the type condition of a fragment are justified by its definition. -/
private theorem justifies_conditionFaults {written : FragmentDefinition}
    (has : document.HasNode definition (.fragment written)) :
    ∀ e ∈ (written.link library.find?).conditionFaults schema,
      document.Justifies schema definition e := by
  intro e mem
  unfold Fragment.conditionFaults at mem
  split at mem
  · rename_i unknown
    cases List.mem_singleton.1 mem
    exact ⟨unknown, _, has, rfl, rfl⟩
  · rename_i kind known
    exact justifies_typeFaults has rfl known e mem

mutual

private theorem selection_justifies
    (acyclic : (FragmentTable.ofList document.fragments).library = .ok library)
    {e : CompileError} : ∀ (parent : Name) (selection : LinkedSelection),
      schema.isComposite parent → Stems document definition library selection →
      (selection.faults schema options parent).head? = some e →
      document.Justifies schema definition e
  | parent, .field _ name _ _ location _, composite, stems, first => by
    obtain ⟨written, has, -⟩ := stems.field
    rw [Selection.faults] at first
    split at first
    · rename_i missing
      cases first
      exact ⟨composite, missing, _, has, rfl, rfl⟩
    · cases first
  | parent, .inlineFragment none _ location selections, composite, stems, first => by
    -- without a condition the type stays as it is, so it is defined and composite
    simp only [Selection.faults, Option.getD_none, Schema.narrow_self] at first
    split at first
    · rename_i unknown
      rw [Schema.isComposite, unknown] at composite
      cases composite
    · split at first
      · rw [typeFaults_eq_nil_iff.2 composite, List.nil_append] at first
        exact selections_justify acyclic parent selections composite
          ((hereditary_stems acyclic).inlineFragment stems) first
      · cases first
  | parent, .inlineFragment (some typeCondition) _ location selections, composite, stems,
      first => by
    obtain ⟨written, has, -⟩ := stems.inlineFragment
    simp only [Selection.faults, Option.getD_some] at first
    split at first
    · rename_i unknown
      cases first
      exact ⟨unknown, _, has, rfl, rfl⟩
    · rename_i kind known
      split at first
      · rcases mem_or_of_head?_typeFaults first with mem | ⟨narrowed, first⟩
        · exact justifies_typeFaults has rfl known e (typeFaults_narrow_subset composite _ mem)
        · exact selections_justify acyclic _ selections narrowed
            ((hereditary_stems acyclic).inlineFragment stems) first
      · cases first
  | parent, .spread name _ location none, composite, stems, first => by
    obtain ⟨has, missing⟩ := stems.spread
    rw [Document.find?_library acyclic, Option.map_eq_none_iff] at missing
    rw [Selection.faults] at first
    cases first
    exact ⟨missing, _, has, rfl, rfl⟩
  | parent, .spread _ _ _ (some fragment), composite, stems, first => by
    rw [Selection.faults] at first
    exact fragment_justifies acyclic parent fragment composite (stems.fragment acyclic)
      ((hereditary_stems acyclic).spread stems) first

private theorem fragment_justifies
    (acyclic : (FragmentTable.ofList document.fragments).library = .ok library)
    {e : CompileError} : ∀ (parent : Name) (fragment : Fragment), schema.isComposite parent →
      (∃ written, document.HasNode definition (.fragment written) ∧
        written.link library.find? = fragment) →
      (∀ selection ∈ fragment.selections, Stems document definition library selection) →
      (fragment.faults schema options parent).head? = some e →
      document.Justifies schema definition e
  | parent, ⟨name, typeCondition, location, selections⟩, composite, comes, stems, first => by
    obtain ⟨written, has, eq⟩ := comes
    have place : written.location = location := congrArg Fragment.location eq
    have named : (Node.fragment written).typeCondition? = some typeCondition :=
      congrArg (some ∘ Fragment.typeCondition) eq
    rw [Fragment.faults_eq] at first
    split at first
    · rename_i unknown
      cases first
      exact ⟨unknown, _, has, named, place⟩
    · rename_i kind known
      unfold faultsInside at first
      split at first
      · rcases mem_or_of_head?_typeFaults first with mem | ⟨narrowed, first⟩
        · exact justifies_typeFaults has named known e (typeFaults_narrow_subset composite _ mem)
        · exact selections_justify acyclic _ selections narrowed stems first
      · cases first

/-- The first fault of selections that come from nodes is justified, at a composite type. -/
theorem selections_justify
    (acyclic : (FragmentTable.ofList document.fragments).library = .ok library)
    {e : CompileError} : ∀ (parent : Name) (selections : List LinkedSelection),
      schema.isComposite parent →
      (∀ selection ∈ selections, Stems document definition library selection) →
      (faults schema options parent selections).head? = some e →
      document.Justifies schema definition e
  | _, [], _, _, first => by
    rw [faults] at first
    cases first
  | parent, selection :: rest, composite, stems, first => by
    obtain ⟨stemsFirst, stemsRest⟩ := List.forall_mem_cons.1 stems
    rw [faults, List.head?_append, Option.or_eq_some_iff] at first
    rcases first with first | ⟨-, first⟩
    · exact selection_justifies acyclic parent selection composite stemsFirst first
    · exact selections_justify acyclic parent rest composite stemsRest first

end

/-- Justified errors account for the selections that come from nodes of a definition. -/
theorem accountsFor_stems (settings : Settings) (definition : Node)
    (acyclic : (FragmentTable.ofList document.fragments).library = .ok library) :
    AccountsFor settings library.find? (document.Justifies settings.schema definition)
      (Stems document definition library) where
  hereditary := hereditary_stems acyclic
  linked := by
    rintro _ ⟨written, -, rfl⟩
    have linked := FragmentTable.linkedBy_link acyclic
      (FragmentTable.isNamed_ofList document.fragments) [written]
    rw [link, link, LinkedBy] at linked
    exact linked.1
  faults parent selections composite stems e first :=
    selections_justify acyclic parent selections composite stems first
  condition name directives location fragment stems := by
    obtain ⟨written, has, rfl⟩ := stems.fragment acyclic
    exact justifies_conditionFaults has

end

/-! ### Documents with locations -/

mutual

/-- Whether a selection and everything that is written inside it have a location. -/
def Selection.isLocated : Selection Unit → Bool
  | .field _ _ _ _ location selections => location.isSome && areLocated selections
  | .inlineFragment _ _ location selections => location.isSome && areLocated selections
  | .spread _ _ location _ => location.isSome

/-- Whether selections and everything that is written inside them have locations. -/
def areLocated : WrittenSelections → Bool
  | [] => true
  | selection :: rest => selection.isLocated && areLocated rest

end

/-- Whether a node and all nodes that are written inside it have a location. -/
def Node.isLocated : Node → Bool
  | operation definition => definition.location.isSome &&
    definition.variableDefinitions.all (·.location.isSome) && areLocated definition.selections
  | fragment definition => definition.location.isSome && areLocated definition.selections
  | variableDefinition definition => definition.location.isSome
  | selection outer => outer.isLocated

/-- Whether all nodes of a document have a location. -/
def Document.isLocated (document : Document) : Bool :=
  document.operations.all (fun definition => (Node.operation definition).isLocated) &&
    document.fragments.all fun definition => (Node.fragment definition).isLocated

section

variable {document : Document} {definition node : Node}

private theorem areLocated_eq_all (selections : WrittenSelections) :
    areLocated selections = selections.all Selection.isLocated := by
  induction selections with
  | nil => rw [areLocated, List.all_nil]
  | cons selection rest ih => rw [areLocated, ih, List.all_cons]

theorem Node.isSome_location (located : node.isLocated) : node.location.isSome := by
  cases node with
  | operation definition =>
    simp only [isLocated, Bool.and_eq_true] at located
    exact located.1.1
  | fragment definition =>
    simp only [isLocated, Bool.and_eq_true] at located
    exact located.1
  | variableDefinition definition => exact located
  | selection outer =>
    cases outer <;> simp only [isLocated, Selection.isLocated, Bool.and_eq_true] at located
    · exact located.1
    · exact located.1
    · exact located

/-- What is written inside a node is located with it. -/
theorem Node.isLocated_of_mem_children {inner : Node} (located : node.isLocated)
    (mem : inner ∈ node.children) : inner.isLocated := by
  have inside : ∀ {selections : WrittenSelections}, areLocated selections →
      ∀ node ∈ selections.map Node.selection, node.isLocated := by
    intro selections all node mem
    obtain ⟨selection, written, rfl⟩ := List.mem_map.1 mem
    rw [areLocated_eq_all, List.all_eq_true] at all
    exact all selection written
  cases node with
  | operation definition =>
    simp only [isLocated, Bool.and_eq_true, List.all_eq_true] at located
    rcases List.mem_append.1 mem with mem | mem
    · obtain ⟨variableDefinition, written, rfl⟩ := List.mem_map.1 mem
      exact located.1.2 variableDefinition written
    · exact inside located.2 inner mem
  | fragment definition =>
    simp only [isLocated, Bool.and_eq_true] at located
    exact inside located.2 inner mem
  | variableDefinition definition => cases mem
  | selection outer =>
    cases outer <;> simp only [isLocated, Selection.isLocated, Bool.and_eq_true] at located
    · exact inside located.2 inner mem
    · exact inside located.2 inner mem
    · cases mem

theorem Document.mem_fragments_of_fragment? {name : Name} {fragment : FragmentDefinition}
    (found : document.fragment? name = some fragment) : fragment ∈ document.fragments :=
  List.mem_reverse.1 (List.mem_of_find?_eq_some found)

theorem Document.isLocated_of_mem_fragments (located : document.isLocated)
    {fragment : FragmentDefinition} (mem : fragment ∈ document.fragments) :
    (Node.fragment fragment).isLocated := by
  rw [Document.isLocated, Bool.and_eq_true, List.all_eq_true, List.all_eq_true] at located
  exact located.2 fragment mem

/-- The nodes of the definitions of a located document have locations. -/
theorem Document.HasNode.isLocated (has : document.HasNode definition node)
    (located : document.isLocated) (own : definition.isLocated) : node.isLocated := by
  induction has with
  | self => exact own
  | inside _ mem ih => exact Node.isLocated_of_mem_children ih mem
  | spread _ found _ =>
    exact Document.isLocated_of_mem_fragments located (Document.mem_fragments_of_fragment? found)

/-- In a located document, justified errors have locations but for those of types that do not take
selections. -/
theorem Document.Justifies.location_eq_none_iff {schema : Schema} {e : CompileError}
    (justified : document.Justifies schema definition e) (located : document.isLocated)
    (own : definition.isLocated) :
    e.location = none ↔ ∃ typeName location, e = .notCompositeType typeName location := by
  have known : ∀ {node : Node}, document.HasNode definition node → node.location ≠ none :=
    fun has => Option.isSome_iff_ne_none.1 (Node.isSome_location (has.isLocated located own))
  constructor
  · intro none
    cases e with
    | notCompositeType name location => exact ⟨name, location, rfl⟩
    | unknownField typeName fieldName location =>
      obtain ⟨-, -, node, has, -, place⟩ := justified
      exact absurd (place.trans none) (known has)
    | unknownFragment name location =>
      obtain ⟨-, node, has, -, place⟩ := justified
      exact absurd (place.trans none) (known has)
    | unknownType name location =>
      obtain ⟨-, node, has, -, place⟩ := justified
      exact absurd (place.trans none) (known has)
    | missingRootOperationType operationType location =>
      obtain ⟨-, operation, rfl, -, place⟩ := justified
      exact absurd (place.trans none) (known .self)
    | anonymousOperation location =>
      obtain ⟨operation, rfl, -, place⟩ := justified
      exact absurd (place.trans none) (known .self)
    | fragmentCycle name location =>
      obtain ⟨-, fragment, found, place⟩ := justified
      have isSome := Node.isSome_location (Document.isLocated_of_mem_fragments located
        (Document.mem_fragments_of_fragment? found))
      exact absurd (place.trans none) (Option.isSome_iff_ne_none.1 isSome)
  · rintro ⟨typeName, location, rfl⟩
    exact justified.1

end

/-! ### Errors of compilation -/

section

variable {schema : Schema} {document : Document} {options : Options} {library : FragmentLibrary}
  (rooted : ∀ operationType root, schema.rootType? operationType = some root →
    schema.isObject root)

include rooted

/-- What operations stop with is justified. -/
private theorem operation_accounted (definition : OperationDefinition) :
    definition.Accounted (Compiler.ofDocument schema document options) library
      (document.Justifies schema (.operation definition))
      (Stems document (.operation definition) library) where
  name anonymous := ⟨definition, rfl, anonymous, rfl⟩
  variableTypes variableDefinition mem unknown :=
    ⟨unknown, .variableDefinition variableDefinition,
      .inside .self (List.mem_append_left _ (List.mem_map_of_mem mem)), rfl, rfl⟩
  root missing := ⟨missing, definition, rfl, rfl, rfl⟩
  type root found e mem := by
    have clean : typeFaults schema root = [] :=
      typeFaults_eq_nil_iff.2 (Schema.isComposite_of_isObject (rooted _ root found))
    change e ∈ typeFaults schema root at mem
    rw [clean] at mem
    cases mem
  holds := stems_link .self fun _ mem => List.mem_append_right _ (List.mem_map_of_mem mem)

/-- **Errors are justified.** Whatever a compiler was asked for before, the errors of the operations
and the fragments of its document are justified, if root types are object types. -/
theorem justifies_of_reached {state : CompilerState}
    (reached : (Compiler.ofDocument schema document options).Reached state) :
    let compiler := Compiler.ofDocument schema document options
    (∀ (definition : OperationDefinition) (e : CompileError),
      ((compiler.compileOperation definition).run state).1 = .error e →
      document.Justifies schema (.operation definition) e) ∧
    ∀ (definition : FragmentDefinition) (e : CompileError),
      ((compiler.compileFragment definition).run state).1 = .error e →
      document.Justifies schema (.fragment definition) e := by
  intro compiler
  have named : compiler.table.IsNamed := FragmentTable.isNamed_ofList document.fragments
  cases found : compiler.table.library with
  | error cycle =>
    -- the search stops everything that comes after it
    have justified : ∀ definition : Node, document.Justifies schema definition cycle := by
      intro definition
      obtain ⟨name, fragment, rfl, defined, loop⟩ :=
        FragmentTable.justifies_of_library_eq_error found
      rw [show compiler.table = FragmentTable.ofList document.fragments from rfl,
        FragmentTable.find?_ofList] at defined
      exact ⟨Document.onCycle_iff.2 loop, fragment, defined, rfl⟩
    refine ⟨fun definition e eq => ?_, fun definition e eq => ?_⟩
    · rw [run_compileOperation_of_cyclic found reached.checked] at eq
      cases eq
      exact justified _
    · rw [run_compileFragment_of_cyclic found reached.checked] at eq
      cases eq
      exact justified _
  | ok library =>
    have remembers := reached.remembersFound found named
    refine ⟨fun definition e eq => ?_, fun definition e eq => ?_⟩
    · have accounts := accountsFor_stems compiler.settings (.operation definition) found
      exact (blames_compileOperation accounts found
        (operation_accounted rooted definition)).blames state remembers e eq
    · have accounts := accountsFor_stems compiler.settings (.fragment definition) found
      have accounted : (definition.link library.find?).Accounted compiler.settings
          (document.Justifies schema (.fragment definition))
          (Stems document (.fragment definition) library) :=
        ⟨justifies_conditionFaults .self,
          stems_link .self fun _ mem => List.mem_map_of_mem mem⟩
      exact (blames_compileFragment accounts found accounted).blames state remembers e eq

end

/-- Whether a result, if it is an error, is justified by a definition, and tells where unless it is
the error of a type that does not take selections. -/
def Document.JustifiesResult {α : Type} (document : Document) (schema : Schema) (definition : Node)
    (result : Except CompileError α) : Prop :=
  ∀ e, result = .error e → document.Justifies schema definition e ∧
    (e.location = none ↔ ∃ typeName location, e = .notCompositeType typeName location)

/-- **Errors are justified and located.** If root types are object types and all nodes of a document
have a location, then every error of one of its definitions is justified, whatever the compiler was
asked for before, and only errors of types that do not take selections have no location. -/
theorem justifiesResult_of_isLocated (schema : Schema) (document : Document) (options : Options)
    (rooted : ∀ operationType root, schema.rootType? operationType = some root →
      schema.isObject root)
    (located : document.isLocated) {state : CompilerState}
    (reached : (Compiler.ofDocument schema document options).Reached state) :
    let compiler := Compiler.ofDocument schema document options
    (∀ definition ∈ document.operations, document.JustifiesResult schema (.operation definition)
      ((compiler.compileOperation definition).run state).1) ∧
    ∀ definition ∈ document.fragments, document.JustifiesResult schema (.fragment definition)
      ((compiler.compileFragment definition).run state).1 := by
  intro compiler
  obtain ⟨operations, fragments⟩ := justifies_of_reached rooted reached
  have own := located
  rw [Document.isLocated, Bool.and_eq_true, List.all_eq_true, List.all_eq_true] at own
  refine ⟨fun definition mem e eq => ?_, fun definition mem e eq => ?_⟩
  · have justified := operations definition e eq
    exact ⟨justified, justified.location_eq_none_iff located (own.1 definition mem)⟩
  · have justified := fragments definition e eq
    exact ⟨justified, justified.location_eq_none_iff located (own.2 definition mem)⟩

/-- A query for the tag of a pet, by a fragment, though pets have no such field. -/
def taggedPet : Document where
  sources := []
  definitions := [
    .operation {
      operationType := .query, name := some "Q", variableDefinitions := [], directives := []
      location := some ⟨0, 0, 26⟩
      selections := [
        .field none "pet" [] [] (some ⟨0, 10, 24⟩) [.spread "Tag" [] (some ⟨0, 16, 22⟩) ()]] },
    .fragment {
      name := "Tag", typeCondition := "Pet", directives := [], location := some ⟨0, 27, 54⟩
      selections := [.field none "tag" [] [] (some ⟨0, 49, 52⟩) []] }]

/-- After the fragment did not compile, the error of the query points into the fragment. -/
theorem justifiesResult_of_isLocated_taggedPet :
    let compiler := Compiler.ofDocument petSchema taggedPet {}
    ∃ state, compiler.Reached state ∧ ∃ definition ∈ taggedPet.operations, ∃ e,
      ((compiler.compileOperation definition).run state).1 = .error e ∧
      taggedPet.Justifies petSchema (.operation definition) e ∧ e.location = some ⟨0, 49, 52⟩ := by
  intro compiler
  have reached : compiler.Reached _ := .fragment (taggedPet.fragments.headD default) .fresh
  have stops : ((compiler.compileOperation (taggedPet.operations.headD default)).run
      ((compiler.compileFragment (taggedPet.fragments.headD default)).run {}).2).1
        = .error (.unknownField "Pet" "tag" (some ⟨0, 49, 52⟩)) := by cbv
  have rooted : ∀ operationType root, petSchema.rootType? operationType = some root →
      petSchema.isObject root := petSchema_wellFormed.rootsAreObjects
  have justified := (justifiesResult_of_isLocated petSchema taggedPet {} rooted rfl reached).1
    (taggedPet.operations.headD default) List.mem_cons_self
  exact ⟨_, reached, _, List.mem_cons_self, _, stops, (justified _ stops).1, rfl⟩

end GraphQLCompiler
