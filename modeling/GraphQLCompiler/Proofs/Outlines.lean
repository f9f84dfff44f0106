import GraphQLCompiler.Proofs.Consistency
import GraphQLCompiler.Proofs.Determinacy
import GraphQLCompiler.Proofs.ResolvedAt
import GraphQLCompiler.Proofs.RewordedDocument

/-!
# Outlines

The **outline** of linked selections keeps the selections as they are written and forgets what the
fragments that they spread select. Without merging, reading never looks into a fragment, so outlines
commute with reading (`Recasting.commutes_outline`). Selections of one outline are then compiled to
the same selection set, though their fragments differ and are resolved for the references that they
add: determinacy up to a recasting excludes that anything of that can be seen in the fields, at any
depth (`separated_of_sameOutlines`).
-/

namespace GraphQLCompiler

/-! ### Outlines of linked selections -/

/-- The outline of a fragment, without its selections. -/
def Fragment.outline (fragment : Fragment) : Fragment :=
  { fragment with location := none, selections := [] }

mutual

/-- The outline of a selection, without what fragments select and without places. -/
def Selection.outline : LinkedSelection → LinkedSelection
  | .field aliasName name arguments directives _ selections =>
    .field aliasName name arguments directives none (outline selections)
  | .inlineFragment typeCondition directives _ selections =>
    .inlineFragment typeCondition directives none (outline selections)
  | .spread name directives _ fragment => .spread name directives none (fragment.map .outline)

/-- The outline of selections. -/
def outline : List LinkedSelection → List LinkedSelection
  | [] => []
  | selection :: rest => selection.outline :: outline rest

end

/-- Outlines as a recasting. -/
def Recasting.outline : Recasting where
  selections := GraphQLCompiler.outline
  fragment := Fragment.outline
  name_fragment _ := rfl

section

variable {settings : Settings}

private theorem readingInside_eq_nil (separate : settings.options.mergeFragmentFields = false)
    (typeName : Name) (fragment : Fragment) : readingInside settings typeName fragment = [] := by
  rw [readingInside, if_neg (by simp [separate])]

mutual

private theorem selection_reading_outline
    (separate : settings.options.mergeFragmentFields = false) :
    ∀ (parent : Name) (selection : LinkedSelection),
      selection.outline.reading settings parent
        = (selection.reading settings parent).map (Mention.recast .outline)
  | parent, .field _ _ _ _ _ _ => by
    rw [Selection.outline, Selection.reading, Selection.reading]
    rfl
  | parent, .inlineFragment typeCondition _ _ selections => by
    simp only [Selection.outline, Selection.reading]
    split
    · exact reading_outline separate _ selections
    · rfl
  | parent, .spread _ _ _ none => by
    rw [Selection.outline, Option.map_none, Selection.reading, Selection.reading]
    rfl
  | parent, .spread _ _ _ (some fragment) => by
    rw [Selection.outline, Option.map_some, Selection.reading, Selection.reading,
      Fragment.reading_eq, Fragment.reading_eq, readingInside_eq_nil separate,
      readingInside_eq_nil separate]
    rfl

private theorem reading_outline (separate : settings.options.mergeFragmentFields = false) :
    ∀ (parent : Name) (selections : List LinkedSelection),
      reading settings parent (outline selections)
        = (reading settings parent selections).map (Mention.recast .outline)
  | parent, [] => by
    rw [outline, reading]
    rfl
  | parent, selection :: rest => by
    rw [outline, reading, reading, List.map_append,
      selection_reading_outline separate parent selection, reading_outline separate parent rest]

end

variable (separate : settings.options.mergeFragmentFields = false)

include separate

/-- **Without merging, outlines commute with reading.** -/
theorem Recasting.commutes_outline : Recasting.outline.Commutes settings := reading_outline separate

/-- Sites with the same outline are similar up to it. -/
theorem Site.similarUpTo_outline {site site' : Site} (parent_eq : site.parent = site'.parent)
    (same : outline site.selections = outline site'.selections) :
    site.SimilarUpTo settings .outline site' := by
  refine ⟨parent_eq, ?_⟩
  have mentions : ∀ site : Site, (site.mentions settings).map (Mention.recast .outline)
      = reading settings site.parent (outline site.selections) := fun site =>
    (reading_outline separate site.parent site.selections).symm
  rw [mentions, mentions, parent_eq, same]

end

/-! ### Outlines of selections as written -/

mutual

private theorem selection_outline_link_relocate (find : Name → Option Fragment) (r : Relocation) :
    ∀ selection : Selection Unit,
      ((selection.relocate r).link find).outline = (selection.link find).outline
  | .field _ _ _ _ _ selections => by
    simp only [Selection.relocate, Selection.link, Selection.outline,
      outline_link_relocate find r selections]
  | .inlineFragment _ _ _ selections => by
    simp only [Selection.relocate, Selection.link, Selection.outline,
      outline_link_relocate find r selections]
  | .spread _ _ _ _ => by simp only [Selection.relocate, Selection.link, Selection.outline]

/-- Outlines do not depend on places. -/
theorem outline_link_relocate (find : Name → Option Fragment) (r : Relocation) :
    ∀ selections : WrittenSelections,
      outline (link find (relocate r selections)) = outline (link find selections)
  | [] => by rw [relocate]
  | selection :: rest => by
    rw [relocate, link, link, outline, outline, selection_outline_link_relocate find r selection,
      outline_link_relocate find r rest]

end

/-- Whether look-ups find fragments of the same outlines. -/
abbrev FindAlike (find find' : Name → Option Fragment) : Prop :=
  ∀ name, (find name).map Fragment.outline = (find' name).map Fragment.outline

variable {find find' : Name → Option Fragment}

mutual

private theorem selection_outline_link_congr (alike : FindAlike find find') :
    ∀ selection : Selection Unit, (selection.link find).outline = (selection.link find').outline
  | .field _ _ _ _ _ selections => by
    simp only [Selection.link, Selection.outline, outline_link_congr alike selections]
  | .inlineFragment _ _ _ selections => by
    simp only [Selection.link, Selection.outline, outline_link_congr alike selections]
  | .spread name _ _ _ => by simp only [Selection.link, Selection.outline, alike name]

/-- Outlines depend on the outlines of fragments only. -/
theorem outline_link_congr (alike : FindAlike find find') : ∀ selections : WrittenSelections,
    outline (link find selections) = outline (link find' selections)
  | [] => by rw [link, link]
  | selection :: rest => by
    rw [link, link, outline, outline, selection_outline_link_congr alike selection,
      outline_link_congr alike rest]

end

/-- Selections that are the same up to places have the same outline. -/
theorem outline_link_eq (alike : FindAlike find find') {r r' : Relocation}
    {selections selections' : WrittenSelections}
    (written : relocate r selections = relocate r' selections') :
    outline (link find selections) = outline (link find' selections') := by
  rw [← outline_link_relocate find r, written, outline_link_relocate find r',
    outline_link_congr alike]

/-! ### Documents -/

/-- Documents have the **same outlines of fragments** if their fragments have the same names and type
conditions. -/
def Document.SameOutlines (document document' : Document) : Prop :=
  ∀ name, (document.fragment? name).map FragmentDefinition.typeCondition
    = (document'.fragment? name).map FragmentDefinition.typeCondition

/-- The outlines of linked fragments are told by their names and type conditions. -/
private theorem map_outline_find?_library {document : Document} {library : FragmentLibrary}
    (acyclic : (FragmentTable.ofList document.fragments).library = .ok library) (name : Name) :
    (library.find? name).map Fragment.outline
      = ((document.fragment? name).map FragmentDefinition.typeCondition).map
          fun typeCondition => ⟨name, typeCondition, none, []⟩ := by
  have named := FragmentTable.isNamed_ofList document.fragments
  have find?_eq : (FragmentTable.ofList document.fragments).find? name = document.fragment? name :=
    FragmentTable.find?_ofList _ name
  rw [FragmentTable.find?_library acyclic, ← find?_eq, Option.map_map, Option.map_map]
  refine Option.map_congr fun definition found => ?_
  rw [← named name definition found]
  rfl

/-- A fragment of a document is compiled from its definition. -/
private theorem exists_fragment?_of_definition {schema : Schema} {document : Document}
    {options : Options} {library : FragmentLibrary} {compiled : Compiled.Document}
    (whole : (Compiler.ofDocument schema document options).CompiledDocument library compiled)
    {name : Name} {definition : FragmentDefinition}
    (found : document.fragment? name = some definition) :
    ∃ fragment, compiled.fragment? name = some fragment ∧
      (Compiler.ofDocument schema document options).CompiledFragment library definition
        fragment := by
  have tabled : (FragmentTable.ofList document.fragments).find? name = some definition :=
    (FragmentTable.find?_ofList _ name).trans found
  rw [← FragmentTable.isNamed_ofList _ name definition tabled]
  exact exists_compiledFragment whole (List.mem_map.2 ⟨_, NameMap.mem_of_find?_eq_some tabled, rfl⟩)

/-- Selections that are the same up to places, linked to fragments of the same outlines, are compiled
to the same selection set. -/
private theorem selectionSet_eq_of_written {settings : Settings}
    (separate : settings.options.mergeFragmentFields = false) {library library' : FragmentLibrary}
    (alike : FindAlike library.find? library'.find?) {r r' : Relocation} {parent parent' : Name}
    (parent_eq : parent = parent') {selections selections' : WrittenSelections}
    (written : relocate r selections = relocate r' selections')
    {selectionSet selectionSet' : Compiled.SelectionSet}
    (compiles : (Site.start library parent selections).CompilesTo settings library.find?
      selectionSet)
    (compiles' : (Site.start library' parent' selections').CompilesTo settings library'.find?
      selectionSet') : selectionSet = selectionSet' :=
  compiles.eq_of_similarUpTo (Recasting.commutes_outline separate)
    (Site.similarUpTo_outline separate parent_eq (outline_link_eq alike written)) compiles'

/-- Lists that are related to related lists one by one are related. -/
private theorem forall₂_of_forall₂ {α β γ δ : Type} {between : α → β → Prop} {left : α → γ → Prop}
    {right : β → δ → Prop} {related : γ → δ → Prop}
    (step : ∀ a b c d, between a b → left a c → right b d → related c d) {xs : List α}
    {ys : List β} (h : List.Forall₂ between xs ys) {zs : List γ} {ws : List δ}
    (lefts : List.Forall₂ left xs zs) (rights : List.Forall₂ right ys ws) :
    List.Forall₂ related zs ws := by
  induction h generalizing zs ws with
  | nil =>
    cases lefts
    cases rights
    exact .nil
  | cons first _ ih =>
    obtain _ | ⟨firstLeft, restLeft⟩ := lefts
    obtain _ | ⟨firstRight, restRight⟩ := rights
    exact .cons (step _ _ _ _ first firstLeft firstRight) (ih restLeft restRight)

/-- **Without merging, fields do not depend on what fragments select.** If two documents have the
same operations, and fragments of the same names and type conditions, the operations are compiled to
the same fields at every depth, whatever the fragments select. So are the fragments whose own
definition is the same in both, with their spreads and branches. Places may differ throughout. -/
theorem separated_of_sameOutlines {schema : Schema} {document document' : Document}
    {options : Options} {r r' : Relocation} {compiled compiled' : Compiled.Document}
    (separate : options.mergeFragmentFields = false)
    (operations : document.operations.map (OperationDefinition.relocate r)
      = document'.operations.map (OperationDefinition.relocate r'))
    (same : document.SameOutlines document')
    (h : compileDocument schema document options = .ok compiled)
    (h' : compileDocument schema document' options = .ok compiled') :
    compiled.operations.map (fun entry => (entry.1, entry.2.fields))
        = compiled'.operations.map (fun entry => (entry.1, entry.2.fields)) ∧
      ∀ name definition definition', document.fragment? name = some definition →
        document'.fragment? name = some definition' →
        definition.relocate r = definition'.relocate r' →
        ∃ fragment fragment', compiled.fragment? name = some fragment ∧
          compiled'.fragment? name = some fragment' ∧
          fragment.selectionSet = fragment'.selectionSet := by
  obtain ⟨library, acyclic, whole⟩ := exists_compiledDocument h
  obtain ⟨library', acyclic', whole'⟩ := exists_compiledDocument h'
  have alike : FindAlike library.find? library'.find? := fun name => by
    rw [map_outline_find?_library acyclic, map_outline_find?_library acyclic', same name]
  constructor
  · obtain ⟨compiledOperations, all, eq⟩ := whole.operations
    obtain ⟨compiledOperations', all', eq'⟩ := whole'.operations
    have related : List.Forall₂ (fun operation operation' : Compiled.Operation =>
        operation.name = operation'.name ∧ operation.fields = operation'.fields)
        compiledOperations compiledOperations' := by
      refine forall₂_of_forall₂ ?_ (map_eq_map_iff_forall₂.1 operations) all all'
      rintro definition definition' operation operation' written ⟨root, made⟩ ⟨root', made'⟩
      have names := congrArg OperationDefinition.name written
      have types : definition.operationType = definition'.operationType := by
        have types := congrArg OperationDefinition.operationType written
        exact types
      have roots : root = root' := by
        have rooted := made.root_eq
        rw [types] at rooted
        exact Option.some.inj (rooted.symm.trans made'.root_eq)
      obtain ⟨selectionSet, fields, compiles⟩ := made.compilesTo
      obtain ⟨selectionSet', fields', compiles'⟩ := made'.compilesTo
      refine ⟨?_, ?_⟩
      · exact Option.some.inj (made.name_eq.symm.trans (names.trans made'.name_eq))
      · rw [fields, fields', selectionSet_eq_of_written separate alike roots
          (congrArg OperationDefinition.selections written) compiles compiles']
    have entries : NameMap.Related (fun operation operation' : Compiled.Operation =>
        operation.fields = operation'.fields) compiled.operations compiled'.operations := by
      rw [eq, eq']
      exact (NameMap.related_ofList_map related fun _ _ => And.left).imp fun _ _ entry =>
        ⟨entry.1, entry.2.2⟩
    exact entries.map_eq
  · intro name definition definition' found found' written
    obtain ⟨fragment, compiledFound, made⟩ := exists_fragment?_of_definition whole found
    obtain ⟨fragment', compiledFound', made'⟩ := exists_fragment?_of_definition whole' found'
    refine ⟨fragment, fragment', compiledFound, compiledFound', ?_⟩
    exact selectionSet_eq_of_written separate alike
      (congrArg FragmentDefinition.typeCondition written)
      (congrArg FragmentDefinition.selections written) made.compilesTo made'.compilesTo

/-- A query and a fragment that spread a fragment of dogs with some selections. -/
def spreadOfDogs (selections : WrittenSelections) : Document :=
  queryDocument [plainField "dog" [plainField "name" [], plainSpread "Dogs"]]
    [plainFragment "Named" "Dog" [plainField "name" [], plainSpread "Dogs"],
      plainFragment "Dogs" "Dog" selections]

private theorem fragment?_spreadOfDogs (selections : WrittenSelections) (name : Name) :
    (spreadOfDogs selections).fragment? name
      = if "Dogs" = name then some (plainFragment "Dogs" "Dog" selections)
        else if "Named" = name then
          some (plainFragment "Named" "Dog" [plainField "name" [], plainSpread "Dogs"])
        else none := by
  have fragments : (spreadOfDogs selections).fragments.reverse
      = [plainFragment "Dogs" "Dog" selections,
        plainFragment "Named" "Dog" [plainField "name" [], plainSpread "Dogs"]] := rfl
  rw [Document.fragment?, fragments, List.find?_cons, List.find?_cons, List.find?_nil]
  by_cases dogs : "Dogs" = name <;> by_cases named : "Named" = name <;>
    simp [dogs, named, plainFragment]

/-- Whether the fragment of dogs selects their names or the name of their type, what spreads it shows
what it selects itself. -/
theorem separated_of_sameOutlines_dogs :
    ∃ compiled compiled',
      compileDocument petSchema (spreadOfDogs [plainField "name" []])
        { mergeFragmentFields := false } = .ok compiled ∧
      compileDocument petSchema (spreadOfDogs [plainField "__typename" []])
        { mergeFragmentFields := false } = .ok compiled' ∧
      compiled.operations.map (fun entry => (entry.1, entry.2.fields))
        = compiled'.operations.map (fun entry => (entry.1, entry.2.fields)) ∧
      ∃ fragment fragment', compiled.fragment? "Named" = some fragment ∧
        compiled'.fragment? "Named" = some fragment' ∧
        fragment.selectionSet = fragment'.selectionSet := by
  obtain ⟨compiled, h⟩ : ∃ compiled,
      compileDocument petSchema (spreadOfDogs [plainField "name" []])
        { mergeFragmentFields := false } = .ok compiled := ⟨_, by cbv⟩
  obtain ⟨compiled', h'⟩ : ∃ compiled',
      compileDocument petSchema (spreadOfDogs [plainField "__typename" []])
        { mergeFragmentFields := false } = .ok compiled' := ⟨_, by cbv⟩
  have operations : (spreadOfDogs [plainField "name" []]).operations
      = (spreadOfDogs [plainField "__typename" []]).operations := rfl
  have same : (spreadOfDogs [plainField "name" []]).SameOutlines
      (spreadOfDogs [plainField "__typename" []]) := by
    intro name
    rw [fragment?_spreadOfDogs, fragment?_spreadOfDogs]
    split
    · rfl
    · rfl
  obtain ⟨fields, fragments⟩ := separated_of_sameOutlines (r := some) rfl
    (congrArg (List.map (OperationDefinition.relocate some)) operations) same h h'
  refine ⟨compiled, compiled', h, h', fields, ?_⟩
  exact fragments "Named" _ _ (fragment?_spreadOfDogs _ _) (fragment?_spreadOfDogs _ _) rfl

end GraphQLCompiler
