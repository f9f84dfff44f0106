import GraphQLCompiler.Compiler
import GraphQLCompiler.Proofs.Agreement
import GraphQLCompiler.Proofs.Recasting

/-!
# Relocation

Syntax nodes know the place in a source that they come from. A **relocation** moves places, or
forgets them. Nothing that compilation decides depends on places: they are carried into errors, and
into nothing else but the paths of files. So compilation commutes with relocation: what is compiled
from relocated definitions is what is compiled from the definitions, with the place of an error moved
(`resolve_relocate`, `resolveFragment_relocate`).

The proof has one equation for each function, in the order of the calls. An error of a computation
is relocated by `CompileM.relocate`, which goes through sequences, so that the equations compose. The
induction for resolution is on the height of collections, as resolution itself.
-/

namespace GraphQLCompiler

open CompileM

/-- A **relocation** says where each place goes. Places that go nowhere are forgotten. -/
abbrev Relocation := Span → Option Span

variable {α β τ : Type} (r : Relocation)

/-! ### Definitions as written -/

mutual

/-- A selection as written, relocated. -/
def Selection.relocate : Selection Unit → Selection Unit
  | .field aliasName name arguments directives location selections =>
    .field aliasName name arguments directives (location.bind r) (relocate selections)
  | .inlineFragment typeCondition directives location selections =>
    .inlineFragment typeCondition directives (location.bind r) (relocate selections)
  | .spread name directives location target => .spread name directives (location.bind r) target

/-- Selections as written, relocated. -/
def relocate : WrittenSelections → WrittenSelections
  | [] => []
  | selection :: rest => selection.relocate :: relocate rest

end

/-- The definition of a variable, relocated. -/
def VariableDefinition.relocate (definition : VariableDefinition) : VariableDefinition :=
  { definition with location := definition.location.bind r }

/-- An operation, relocated. -/
def OperationDefinition.relocate (definition : OperationDefinition) : OperationDefinition :=
  { definition with
    variableDefinitions := definition.variableDefinitions.map (VariableDefinition.relocate r)
    location := definition.location.bind r
    selections := GraphQLCompiler.relocate r definition.selections }

/-- A fragment, relocated. -/
def FragmentDefinition.relocate (definition : FragmentDefinition) : FragmentDefinition :=
  { definition with
    location := definition.location.bind r
    selections := GraphQLCompiler.relocate r definition.selections }

mutual

private theorem selection_relocate_some : ∀ selection : Selection Unit,
    selection.relocate some = selection
  | .field _ _ _ _ _ selections => by
    rw [Selection.relocate, Option.bind_fun_some, relocate_some selections]
  | .inlineFragment _ _ _ selections => by
    rw [Selection.relocate, Option.bind_fun_some, relocate_some selections]
  | .spread _ _ _ _ => by rw [Selection.relocate, Option.bind_fun_some]

/-- A relocation that leaves every place alone leaves selections alone. -/
theorem relocate_some : ∀ selections : WrittenSelections, relocate some selections = selections
  | [] => by rw [relocate]
  | selection :: rest => by
    rw [relocate, selection_relocate_some selection, relocate_some rest]

end

theorem OperationDefinition.relocate_some (definition : OperationDefinition) :
    definition.relocate some = definition := by
  have unmoved : VariableDefinition.relocate some = id := by
    funext definition
    rw [VariableDefinition.relocate, Option.bind_fun_some]
    rfl
  rw [relocate, unmoved, List.map_id, Option.bind_fun_some, GraphQLCompiler.relocate_some]

theorem FragmentDefinition.relocate_some (definition : FragmentDefinition) :
    definition.relocate some = definition := by
  rw [relocate, Option.bind_fun_some, GraphQLCompiler.relocate_some]

theorem isEmpty_relocate (selections : WrittenSelections) :
    (relocate r selections).isEmpty = selections.isEmpty := by
  cases selections with
  | nil => rw [relocate]
  | cons selection rest => rw [relocate]; rfl

/-! ### Printing -/

mutual

private theorem selection_print_relocate (indent : String) : ∀ selection : Selection Unit,
    (selection.relocate r).print indent = selection.print indent
  | .field _ _ _ _ _ selections => by
    simp only [Selection.relocate, Selection.print, isEmpty_relocate,
      printSelections_relocate _ selections]
  | .inlineFragment _ _ _ selections => by
    simp only [Selection.relocate, Selection.print, printSelections_relocate _ selections]
  | .spread _ _ _ _ => by simp only [Selection.relocate, Selection.print]

private theorem printSelections_relocate (indent : String) : ∀ selections : WrittenSelections,
    printSelections indent (relocate r selections) = printSelections indent selections
  | [] => by rw [relocate]
  | selection :: rest => by
    rw [relocate, printSelections, printSelections, selection_print_relocate indent selection,
      printSelections_relocate indent rest]

end

private theorem insertTypename_relocate (schema : Schema) (parent : Name)
    (selections : WrittenSelections) : insertTypename schema parent (relocate r selections)
      = relocate r (insertTypename schema parent selections) := by
  have starts : startsWithTypename (relocate r selections) = startsWithTypename selections := by
    rcases selections with _ | ⟨⟨_ | _, _, _, _, _, _⟩ | _ | _, rest⟩ <;>
      simp only [relocate, Selection.relocate, startsWithTypename]
  have added : relocate r (typenameField :: selections) = typenameField :: relocate r selections := by
    rw [relocate, typenameField, Selection.relocate, relocate]
    rfl
  rw [insertTypename, insertTypename, isEmpty_relocate, starts]
  split
  · rfl
  · exact added.symm

mutual

private theorem selection_withTypename_relocate (schema : Schema) (parent : Name) :
    ∀ selection : Selection Unit, (selection.relocate r).withTypename schema parent
      = (selection.withTypename schema parent).relocate r
  | .field _ name _ _ _ selections => by
    rw [Selection.relocate, Selection.withTypename, Selection.withTypename]
    split
    · rw [Selection.relocate]
    · dsimp only
      rw [Selection.relocate, withTypenameInside_relocate schema _ selections,
        insertTypename_relocate]
  | .inlineFragment _ _ _ selections => by
    rw [Selection.relocate, Selection.withTypename, Selection.withTypename, Selection.relocate,
      withTypenameInside_relocate schema _ selections, insertTypename_relocate]
  | .spread _ _ _ _ => by
    rw [Selection.relocate, Selection.withTypename, Selection.withTypename, Selection.relocate]

private theorem withTypenameInside_relocate (schema : Schema) (parent : Name) :
    ∀ selections : WrittenSelections, withTypenameInside schema parent (relocate r selections)
      = relocate r (withTypenameInside schema parent selections)
  | [] => by rw [relocate, withTypenameInside, relocate]
  | selection :: rest => by
    rw [relocate, withTypenameInside, withTypenameInside, relocate,
      selection_withTypename_relocate schema parent selection,
      withTypenameInside_relocate schema parent rest]

end

private theorem withTypename_relocate (schema : Schema) (parent : Name)
    (selections : WrittenSelections) : withTypename schema parent (relocate r selections)
      = relocate r (withTypename schema parent selections) := by
  rw [withTypename, withTypenameInside_relocate, insertTypename_relocate, withTypename]

private theorem fragment_print_relocate (definition : FragmentDefinition) :
    (definition.relocate r).print = definition.print := by
  simp only [FragmentDefinition.print, printSelectionSet, FragmentDefinition.relocate,
    printSelections_relocate]

private theorem operation_print_relocate (definition : OperationDefinition) :
    (definition.relocate r).print = definition.print := by
  have texts : printVariables (definition.variableDefinitions.map
      (VariableDefinition.relocate r)) = printVariables definition.variableDefinitions := by
    rw [printVariables, printVariables, List.isEmpty_map, List.map_map]
    rfl
  simp only [OperationDefinition.print, OperationDefinition.isShorthand, printSelectionSet,
    OperationDefinition.relocate, printSelections_relocate, texts, List.isEmpty_map]
  rfl

/-- The text of a fragment does not depend on places. -/
theorem printFragment_relocate (compiler : Compiler) (definition : FragmentDefinition) :
    compiler.printFragment (definition.relocate r) = compiler.printFragment definition := by
  have typenames : (definition.relocate r).withTypename compiler.schema
      = (definition.withTypename compiler.schema).relocate r := by
    simp only [FragmentDefinition.withTypename, FragmentDefinition.relocate, withTypename_relocate]
  rw [Compiler.printFragment, Compiler.printFragment, typenames, fragment_print_relocate,
    fragment_print_relocate]

/-- The text of an operation does not depend on places. -/
theorem printOperation_relocate (compiler : Compiler) (definition : OperationDefinition) :
    compiler.printOperation (definition.relocate r) = compiler.printOperation definition := by
  have typenames : (definition.relocate r).withTypename compiler.schema
      = (definition.withTypename compiler.schema).relocate r := by
    rw [OperationDefinition.withTypename, OperationDefinition.withTypename]
    simp only [OperationDefinition.relocate]
    split
    · rfl
    · rw [withTypename_relocate]
  rw [Compiler.printOperation, Compiler.printOperation, typenames, operation_print_relocate,
    operation_print_relocate]

/-! ### Linked selections -/

mutual

/-- A linked selection, relocated with the fragments in it. -/
def Selection.relocateLinked : LinkedSelection → LinkedSelection
  | .field aliasName name arguments directives location selections =>
    .field aliasName name arguments directives (location.bind r) (relocateLinked selections)
  | .inlineFragment typeCondition directives location selections =>
    .inlineFragment typeCondition directives (location.bind r) (relocateLinked selections)
  | .spread name directives location none => .spread name directives (location.bind r) none
  | .spread name directives location (some fragment) =>
    .spread name directives (location.bind r) (some fragment.relocate)

/-- A linked fragment, relocated. -/
def Fragment.relocate : Fragment → Fragment
  | ⟨name, typeCondition, location, selections⟩ =>
    ⟨name, typeCondition, location.bind r, relocateLinked selections⟩

/-- Linked selections, relocated. -/
def relocateLinked : List LinkedSelection → List LinkedSelection
  | [] => []
  | selection :: rest => selection.relocateLinked :: relocateLinked rest

end

theorem relocateLinked_eq_map (selections : List LinkedSelection) :
    relocateLinked r selections = selections.map (Selection.relocateLinked r) := by
  induction selections with
  | nil => rw [relocateLinked, List.map_nil]
  | cons selection rest ih => rw [relocateLinked, ih, List.map_cons]

@[simp] theorem Fragment.name_relocate (fragment : Fragment) :
    (fragment.relocate r).name = fragment.name := by
  cases fragment
  rw [Fragment.relocate]

@[simp] theorem Fragment.typeCondition_relocate (fragment : Fragment) :
    (fragment.relocate r).typeCondition = fragment.typeCondition := by
  cases fragment
  rw [Fragment.relocate]

@[simp] theorem Fragment.location_relocate (fragment : Fragment) :
    (fragment.relocate r).location = fragment.location.bind r := by
  cases fragment
  rw [Fragment.relocate]

@[simp] theorem Fragment.selections_relocate (fragment : Fragment) :
    (fragment.relocate r).selections = relocateLinked r fragment.selections := by
  cases fragment
  rw [Fragment.relocate]

mutual

private theorem selection_relocateLinked_link (find : Name → Option Fragment) :
    ∀ selection : Selection Unit, (selection.link find).relocateLinked r
      = (selection.relocate r).link fun name => (find name).map (Fragment.relocate r)
  | .field _ _ _ _ _ selections => by
    rw [Selection.link, Selection.relocateLinked, Selection.relocate, Selection.link,
      relocateLinked_link find selections]
  | .inlineFragment _ _ _ selections => by
    rw [Selection.link, Selection.relocateLinked, Selection.relocate, Selection.link,
      relocateLinked_link find selections]
  | .spread name _ _ _ => by
    rw [Selection.link, Selection.relocate, Selection.link]
    cases find name <;> rw [Selection.relocateLinked] <;> rfl

/-- Linking commutes with relocation. -/
theorem relocateLinked_link (find : Name → Option Fragment) : ∀ selections : WrittenSelections,
    relocateLinked r (link find selections)
      = link (fun name => (find name).map (Fragment.relocate r)) (relocate r selections)
  | [] => by rw [link, relocateLinked, relocate, link]
  | selection :: rest => by
    rw [link, relocateLinked, relocate, link, selection_relocateLinked_link find selection,
      relocateLinked_link find rest]

end

mutual

private theorem addSpreadNames_relocate : ∀ (selection : Selection Unit) (names : List Name),
    (selection.relocate r).addSpreadNames names = selection.addSpreadNames names
  | .field _ _ _ _ _ selections, names => by
    rw [Selection.relocate, Selection.addSpreadNames, Selection.addSpreadNames,
      addSpreadNamesOf_relocate selections]
  | .inlineFragment _ _ _ selections, names => by
    rw [Selection.relocate, Selection.addSpreadNames, Selection.addSpreadNames,
      addSpreadNamesOf_relocate selections]
  | .spread _ _ _ _, names => by
    rw [Selection.relocate, Selection.addSpreadNames, Selection.addSpreadNames]

private theorem addSpreadNamesOf_relocate : ∀ (selections : WrittenSelections)
    (names : List Name),
    addSpreadNamesOf (relocate r selections) names = addSpreadNamesOf selections names
  | [], names => by rw [relocate]
  | selection :: rest, names => by
    rw [relocate, addSpreadNamesOf, addSpreadNamesOf, addSpreadNames_relocate selection,
      addSpreadNamesOf_relocate rest]

end

/-- Relocated selections have the same spreads. -/
theorem spreadNames_relocate (selections : WrittenSelections) :
    spreadNames (relocate r selections) = spreadNames selections :=
  addSpreadNamesOf_relocate r selections []

/-! ### Collections -/

/-- An error, relocated. -/
def CompileError.relocate : CompileError → CompileError
  | .unknownField typeName fieldName location => .unknownField typeName fieldName (location.bind r)
  | .unknownFragment fragmentName location => .unknownFragment fragmentName (location.bind r)
  | .unknownType typeName location => .unknownType typeName (location.bind r)
  | .notCompositeType typeName location => .notCompositeType typeName (location.bind r)
  | .missingRootOperationType operationType location =>
    .missingRootOperationType operationType (location.bind r)
  | .anonymousOperation location => .anonymousOperation (location.bind r)
  | .fragmentCycle fragmentName location => .fragmentCycle fragmentName (location.bind r)

theorem CompileError.relocate_some (e : CompileError) : e.relocate some = e := by
  cases e <;> rw [relocate, Option.bind_fun_some]

/-- A failure of collection, relocated. -/
def Failure.relocate (failure : Failure) : Failure :=
  { failure with error := failure.error.relocate r }

/-- Relocation as a recasting. -/
abbrev Relocation.recasting : Recasting where
  selections := relocateLinked r
  fragment := Fragment.relocate r
  name_fragment := Fragment.name_relocate r

/-- A collection, relocated. -/
abbrev Collection.relocate (collection : Collection) : Collection :=
  collection.recast (Relocation.recasting r)

/-- What collecting ends with, relocated. -/
def relocateOutcome : Except Failure Collection → Except Failure Collection
  | .error failure => .error (failure.relocate r)
  | .ok collection => .ok (collection.relocate r)

private theorem compositeKind_relocate (schema : Schema) (typeName : Name)
    (collection : Collection) : compositeKind schema typeName (collection.relocate r)
      = (compositeKind schema typeName collection).mapError (Failure.relocate r) := by
  rw [compositeKind, compositeKind]
  split
  · rfl
  · split <;> rfl

/-- Collecting at a type of some kind commutes with relocation if it does at every kind. -/
private theorem compositeKind_bind_relocate {schema : Schema} {typeName : Name}
    {collection : Collection} {next next' : TypeKind → Except Failure Collection}
    (h : ∀ kind, next' kind = relocateOutcome r (next kind)) :
    (compositeKind schema typeName (collection.relocate r) >>= next')
      = relocateOutcome r (compositeKind schema typeName collection >>= next) := by
  rw [compositeKind_relocate]
  cases compositeKind schema typeName collection with
  | error failure => rfl
  | ok kind => exact h kind

section

variable (settings : Settings)

mutual

private theorem collectSelection_relocate (parent : Name) (kind : TypeKind) :
    ∀ (selection : LinkedSelection) (collection : Collection),
      collectSelection settings parent kind (selection.relocateLinked r) (collection.relocate r)
        = relocateOutcome r (collectSelection settings parent kind selection collection)
  | .field aliasName name arguments directives location selections, collection => by
    rw [Selection.relocateLinked, collectSelection, collectSelection]
    split
    · rfl
    · exact congrArg Except.ok (collection.recast_addField _ (responseName aliasName name)
        ⟨parent, name, _, arguments, directives, selections⟩)
  | .inlineFragment typeCondition directives location selections, collection => by
    rw [Selection.relocateLinked]
    simp only [collectSelection]
    split
    · rfl
    · split
      · exact compositeKind_bind_relocate r fun inner =>
          collectEach_relocate _ inner selections collection
      · rfl
  | .spread _ _ _ none, collection => by
    rw [Selection.relocateLinked, collectSelection, collectSelection]
    rfl
  | .spread _ _ _ (some fragment), collection => by
    rw [Selection.relocateLinked, collectSelection, collectSelection]
    exact collectFragment_relocate parent kind fragment collection

private theorem collectFragment_relocate (parent : Name) (kind : TypeKind) :
    ∀ (fragment : Fragment) (collection : Collection),
      collectFragment settings parent kind (fragment.relocate r) (collection.relocate r)
        = relocateOutcome r (collectFragment settings parent kind fragment collection)
  | ⟨name, typeCondition, location, selections⟩, collection => by
    have relocated : Fragment.relocate r ⟨name, typeCondition, location, selections⟩
        = ⟨name, typeCondition, location.bind r, relocateLinked r selections⟩ := by
      rw [Fragment.relocate]
    have recorded : ∀ effective, (if collection.hasExpanded effective name = true then
          collection.relocate r
        else (collection.relocate r).addExpansion effective
          ⟨name, typeCondition, location.bind r, relocateLinked r selections⟩)
        = (if collection.hasExpanded effective name = true then collection
          else collection.addExpansion effective
            ⟨name, typeCondition, location, selections⟩).relocate r := by
      intro effective
      split
      · rfl
      · rw [← relocated]
        exact collection.recast_addExpansion (Relocation.recasting r) effective
          ⟨name, typeCondition, location, selections⟩
    rw [relocated]
    simp only [collectFragment, Collection.hasExpanded_recast]
    split
    · rfl
    · split
      · rfl
      · rw [recorded]
        split
        · exact compositeKind_bind_relocate r fun inner =>
            collectEach_relocate _ inner selections _
        · rfl

private theorem collectEach_relocate (parent : Name) (kind : TypeKind) :
    ∀ (selections : List LinkedSelection) (collection : Collection),
      collectEach settings parent kind (relocateLinked r selections) (collection.relocate r)
        = relocateOutcome r (collectEach settings parent kind selections collection)
  | [], collection => by
    rw [relocateLinked, collectEach, collectEach]
    rfl
  | selection :: rest, collection => by
    rw [relocateLinked, collectEach, collectEach,
      collectSelection_relocate parent kind selection collection]
    cases collectSelection settings parent kind selection collection with
    | error failure => rfl
    | ok first => exact collectEach_relocate parent kind rest first

end

/-- **Collecting** commutes with relocation. -/
theorem collect_relocate (parent : Name) (selections : List LinkedSelection)
    (collection : Collection) :
    collect settings parent (relocateLinked r selections) (collection.relocate r)
      = relocateOutcome r (collect settings parent selections collection) := by
  rw [collect, collect]
  exact compositeKind_bind_relocate r fun kind =>
    collectEach_relocate r settings parent kind selections collection

end

/-- A field that applies, relocated. -/
abbrev ApplicableField.relocate (field : ApplicableField) : ApplicableField :=
  field.recast (Relocation.recasting r)

/-- A site, relocated. -/
def Site.relocate (site : Site) : Site :=
  { site with selections := relocateLinked r site.selections }

theorem ApplicableField.site_relocate (field : ApplicableField) :
    (field.relocate r).site = field.site.relocate r := by
  rw [ApplicableField.site, ApplicableField.site, Site.relocate, occurrences_recast,
    relocateLinked_eq_map, List.map_flatMap, List.flatMap_map]
  congr 1
  exact List.flatMap_congr fun occurrence _ => relocateLinked_eq_map r occurrence.selections

theorem Fragment.site_relocate (fragment : Fragment) :
    (fragment.relocate r).site = fragment.site.relocate r := by
  rw [Fragment.site, Fragment.site, typeCondition_relocate, selections_relocate]
  rfl

/-! ### Computations -/

namespace CompileM

/-- A computation with its error relocated. -/
def relocate (m : CompileM α) : CompileM α := ExceptT.adapt (CompileError.relocate r) m

theorem run_relocate (m : CompileM α) (state : CompilerState) : (m.relocate r).run state
    = ((m.run state).1.mapError (CompileError.relocate r), (m.run state).2) := rfl

theorem bind_relocate {m m' : CompileM α} {next next' : α → CompileM β} (h : m' = m.relocate r)
    (h' : ∀ a, next' a = (next a).relocate r) : (m' >>= next') = (m >>= next).relocate r := by
  rw [h, funext h']
  funext state
  change (m.relocate r >>= _).run state = ((m >>= next).relocate r).run state
  rw [run_bind, run_relocate, run_relocate, run_bind]
  rcases m.run state with ⟨_ | _, after⟩ <;> rfl

theorem pure_relocate (a : α) : (pure a : CompileM α) = (pure a : CompileM α).relocate r := rfl

theorem throw_relocate (e : CompileError) :
    (throw (e.relocate r) : CompileM α) = (throw e : CompileM α).relocate r := rfl

theorem tell_relocate (events : List LogEvent) : tell events = (tell events).relocate r := rfl

theorem useType_relocate (schema : Schema) (name : Name) :
    useType schema name = (useType schema name).relocate r := rfl

theorem remembered?_relocate (name : Name) : remembered? name = (remembered? name).relocate r := rfl

theorem remember_relocate (name : Name) (names : List Name) :
    remember name names = (remember name names).relocate r := rfl

theorem fail_relocate (failure : Failure) :
    (fail (failure.relocate r) : CompileM α) = (fail failure : CompileM α).relocate r :=
  bind_relocate r (tell_relocate r failure.events) fun _ => throw_relocate r failure.error

theorem map_relocate {m m' : CompileM α} (h : m' = m.relocate r) (f : α → β) :
    f <$> m' = (f <$> m).relocate r := by
  rw [← bind_pure_comp, ← bind_pure_comp]
  exact bind_relocate r h fun a => pure_relocate r (f a)

theorem mapM_relocate {f f' : α → CompileM β} {g : α → α} (h : ∀ a, f' (g a) = (f a).relocate r)
    (xs : List α) : (xs.map g).mapM f' = (xs.mapM f).relocate r := by
  induction xs with
  | nil =>
    rw [List.map_nil, List.mapM_nil, List.mapM_nil]
    exact pure_relocate r []
  | cons x rest ih =>
    rw [List.map_cons, List.mapM_cons, List.mapM_cons]
    exact bind_relocate r (h x) fun y => bind_relocate r ih fun ys => pure_relocate r (y :: ys)

end CompileM

/-! ### Resolution -/

/-- Whether the resolution of collections below a height commutes with relocation. -/
private def Relocating (settings : Settings) (n : Nat) : Prop :=
  ∀ (parent : Name) (lower : Collection), lower.height < n →
    resolve settings parent (lower.relocate r) = (resolve settings parent lower).relocate r

section

variable {r} {settings : Settings} {n : Nat} (relocating : Relocating r settings n)

include relocating

private theorem resolution_relocate_of_lt (site : Site) (low : height site.selections < n) :
    (site.relocate r).resolution settings = (site.resolution settings).relocate r := by
  have collects : collect settings site.parent (relocateLinked r site.selections) {}
      = relocateOutcome r (collect settings site.parent site.selections {}) :=
    collect_relocate r settings site.parent site.selections {}
  rw [Site.resolution, Site.resolution, Site.relocate]
  dsimp only
  rw [collects]
  cases collected : collect settings site.parent site.selections {} with
  | error failure => exact fail_relocate r failure
  | ok collection =>
    have lower : collection.height < n :=
      Nat.lt_of_le_of_lt (height_collect_le collected (Nat.le_refl _) (Nat.zero_le _)) low
    exact bind_relocate r (tell_relocate r collection.events) fun _ =>
      relocating site.parent collection lower

private theorem resolveField_relocate (parent : Name) (field : ApplicableField) {m : Nat}
    (bound : ∀ occurrence ∈ field.occurrences, height occurrence.selections < n)
    (bound' : ∀ occurrence ∈ (field.relocate r).occurrences, height occurrence.selections < m) :
    resolveField settings (resolveBelow settings m) parent (field.relocate r) bound'
      = (resolveField settings (resolveBelow settings n) parent field bound).relocate r := by
  have low : height field.site.selections < n := by
    have first := bound field.first List.mem_cons_self
    exact height_flatMap_lt (Nat.lt_of_le_of_lt (Nat.zero_le _) first) bound
  have conditional : (field.relocate r).occurrences.any
      (fun occurrence => isConditional occurrence.directives)
      = field.occurrences.any fun occurrence => isConditional occurrence.directives := by
    rw [field.occurrences_recast, List.any_map]
    rfl
  rw [resolveField, resolveField, conditional]
  refine bind_relocate r (useType_relocate r settings.schema field.bareType) fun _ => ?_
  have type : (field.relocate r).bareType = field.bareType := rfl
  rw [type]
  dsimp only
  split
  · rename_i composite
    rw [resolveSubselections_eq settings (type ▸ composite),
      resolveSubselections_eq settings composite, field.site_relocate]
    exact bind_relocate r
      (map_relocate r (resolution_relocate_of_lt relocating field.site low) some)
      fun resolved => pure_relocate r _
  · exact bind_relocate r (pure_relocate r none) fun resolved => pure_relocate r _

private theorem resolveFields_relocate (parent : Name) (fields : List ApplicableField)
    {fields' : List ApplicableField} (eq : fields' = fields.map (ApplicableField.relocate r))
    {m : Nat}
    (bound : ∀ field ∈ fields, ∀ occurrence ∈ field.occurrences, height occurrence.selections < n)
    (bound' : ∀ field ∈ fields', ∀ occurrence ∈ field.occurrences,
      height occurrence.selections < m) (references : List Name) :
    resolveFields settings (resolveBelow settings m) parent fields' bound' references
      = (resolveFields settings (resolveBelow settings n) parent fields bound
          references).relocate r := by
  induction fields generalizing fields' references with
  | nil =>
    subst eq
    exact pure_relocate r _
  | cons field rest ih =>
    rw [List.map_cons] at eq
    subst eq
    rw [resolveFields, resolveFields]
    refine bind_relocate r (resolveField_relocate relocating parent field _ _) fun compiled => ?_
    exact bind_relocate r (ih rfl _ _ _) fun others => pure_relocate r _

private theorem resolveFragment_relocate_of_le (fragment : Fragment) (low : fragment.height ≤ n) :
    resolveFragment settings (fragment.relocate r)
      = (resolveFragment settings fragment).relocate r := by
  rw [fragment.height_eq] at low
  cases known : settings.schema.typeKind? fragment.typeCondition with
  | none =>
    rw [resolveFragment_eq_throw known,
      resolveFragment_eq_throw ((fragment.typeCondition_relocate r).symm ▸ known),
      fragment.typeCondition_relocate, fragment.location_relocate]
    exact throw_relocate r (.unknownType fragment.typeCondition fragment.location)
  | some kind =>
    rw [resolveFragment_eq known,
      resolveFragment_eq ((fragment.typeCondition_relocate r).symm ▸ known),
      fragment.site_relocate, fragment.name_relocate]
    refine bind_relocate r (resolution_relocate_of_lt relocating fragment.site low)
      fun resolved => ?_
    exact bind_relocate r (remember_relocate r _ _) fun _ => pure_relocate r _

private theorem spreadReferences_relocate (fragments : List Fragment) {fragments' : List Fragment}
    (eq : fragments' = fragments.map (Fragment.relocate r)) {m : Nat}
    (bound : ∀ fragment ∈ fragments, fragment.height ≤ n)
    (bound' : ∀ fragment ∈ fragments', fragment.height ≤ m) (references : List Name) :
    spreadReferences settings (resolveBelow settings m) fragments' bound' references
      = (spreadReferences settings (resolveBelow settings n) fragments bound
          references).relocate r := by
  induction fragments generalizing fragments' references with
  | nil =>
    subst eq
    exact pure_relocate r _
  | cons fragment rest ih =>
    rw [List.map_cons] at eq
    subst eq
    rw [spreadReferences, spreadReferences]
    refine bind_relocate r ?_ fun own => ih rfl _ _ _
    rw [fragmentReferences, fragmentReferences, fragment.name_relocate]
    refine bind_relocate r (remembered?_relocate r fragment.name) fun found => ?_
    cases found with
    | some names => exact bind_relocate r (tell_relocate r _) fun _ => pure_relocate r names
    | none =>
      exact map_relocate r
        (resolveFragment_relocate_of_le relocating fragment (bound fragment List.mem_cons_self))
        Resolved.references

end

section

variable {settings : Settings} {collection : Collection}
  (relocating : Relocating r settings collection.height)

include relocating

private theorem resolveFieldsAt_relocate (parent : Name) (references : List Name) :
    resolveFieldsAt settings (collection.relocate r) (resolveBelow settings _) parent references
      = (resolveFieldsAt settings collection (resolveBelow settings _) parent
          references).relocate r :=
  resolveFields_relocate relocating parent _ (collection.applicableFields_recast _ _ parent) _ _ _

private theorem spreadReferencesAt_relocate (parent : Name) (references : List Name) :
    spreadReferencesAt settings (collection.relocate r) (resolveBelow settings _) parent references
      = (spreadReferencesAt settings collection (resolveBelow settings _) parent
          references).relocate r :=
  spreadReferences_relocate relocating _ (collection.fragmentsAt_recast _ _ parent) _ _ _

private theorem resolveBranches_relocate (objects references : List Name) :
    resolveBranches settings (collection.relocate r) (resolveBelow settings _) objects references
      = (resolveBranches settings collection (resolveBelow settings _) objects
          references).relocate r := by
  induction objects generalizing references with
  | nil => exact pure_relocate r _
  | cons object rest ih =>
    rw [resolveBranches, resolveBranches]
    refine bind_relocate r ?_ fun branch => bind_relocate r (ih _) fun others => pure_relocate r _
    rw [resolveBranch, resolveBranch]
    refine bind_relocate r (resolveFieldsAt_relocate r relocating object references)
      fun fields => ?_
    refine bind_relocate r (spreadReferencesAt_relocate r relocating object _)
      fun references => ?_
    rw [collection.spreadNamesAt_recast]
    exact pure_relocate r _

end

/-- **Resolution** commutes with relocation. -/
theorem resolve_relocate (settings : Settings) (parent : Name) (collection : Collection) :
    resolve settings parent (collection.relocate r)
      = (resolve settings parent collection).relocate r := by
  have relocating : ∀ n, Relocating r settings n := by
    intro n
    induction n with
    | zero => exact fun _ _ low => absurd low (Nat.not_lt_zero _)
    | succ n ih =>
      intro parent collection low
      have relocating : Relocating r settings collection.height := fun parent lower lt =>
        ih parent lower (Nat.lt_of_lt_of_le lt (Nat.le_of_lt_succ low))
      rw [resolve.eq_1, resolve.eq_1, resolveWith, resolveWith]
      dsimp only
      rw [collection.expandedNames_recast, collection.narrowedTypes_recast,
        collection.spreadNamesAt_recast]
      refine bind_relocate r (resolveFieldsAt_relocate r relocating parent _) fun fields => ?_
      refine bind_relocate r (resolveBranches_relocate r relocating _ _) fun branches => ?_
      exact bind_relocate r (spreadReferencesAt_relocate r relocating parent _)
        fun references => pure_relocate r _
  exact relocating _ parent collection (Nat.lt_succ_self _)

/-- The resolution of a site commutes with relocation. -/
theorem Site.resolution_relocate (settings : Settings) (site : Site) :
    (site.relocate r).resolution settings = (site.resolution settings).relocate r :=
  resolution_relocate_of_lt (fun parent lower _ => resolve_relocate r settings parent lower) site
    (Nat.lt_succ_self _)

/-- The resolution of a fragment commutes with relocation. -/
theorem resolveFragment_relocate (settings : Settings) (fragment : Fragment) :
    resolveFragment settings (fragment.relocate r)
      = (resolveFragment settings fragment).relocate r :=
  resolveFragment_relocate_of_le (fun parent lower _ => resolve_relocate r settings parent lower)
    fragment (Nat.le_refl _)

/-! ### Parts of operations -/

theorem requireName_relocate (definition : OperationDefinition) :
    Compiler.requireName (definition.relocate r)
      = (Compiler.requireName definition).relocate r := by
  rw [Compiler.requireName, Compiler.requireName, OperationDefinition.relocate]
  dsimp only
  split
  · exact pure_relocate r _
  · exact throw_relocate r (.anonymousOperation definition.location)

theorem requireRoot_relocate (compiler : Compiler) (definition : OperationDefinition) :
    compiler.requireRoot (definition.relocate r)
      = (compiler.requireRoot definition).relocate r := by
  rw [Compiler.requireRoot, Compiler.requireRoot, OperationDefinition.relocate]
  dsimp only
  split
  · exact pure_relocate r _
  · exact throw_relocate r (.missingRootOperationType definition.operationType definition.location)

theorem compileVariable_relocate (compiler : Compiler) (definition : VariableDefinition) :
    compiler.compileVariable (definition.relocate r)
      = (compiler.compileVariable definition).relocate r := by
  rw [Compiler.compileVariable, Compiler.compileVariable, VariableDefinition.relocate]
  dsimp only
  split
  · exact throw_relocate r (.unknownType definition.type.bare definition.location)
  · exact bind_relocate r (useType_relocate r _ _) fun _ => pure_relocate r _

end GraphQLCompiler
