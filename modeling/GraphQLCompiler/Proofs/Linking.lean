import GraphQLCompiler.Fragment.Library
import GraphQLCompiler.Proofs.FirstOccurrence
import Mathlib.Logic.Relation

/-!
# The laws of linking

The library of a document without cycles holds every fragment of its table, linked to the library
itself (`find?_library`). So the fragments of a library are told apart by their names: wherever
linked selections spread a name, they hold the fragment that the library has for it
(`linkedBy_link`).

The library exists exactly if no fragment reaches itself (`exists_library_iff`): the search keeps a
path of fragments that spread one another, and meets a name of the path again only on a cycle.
Conversely, a fragment of a library is higher than those that it spreads.
-/

namespace GraphQLCompiler

variable {τ : Type}

/-- A sequence of steps that may fail has a result if both steps have one. -/
theorem except_bind_eq_ok {ε α β : Type} {first : Except ε α} {next : α → Except ε β} {result : β} :
    (first >>= next) = .ok result ↔ ∃ a, first = .ok a ∧ next a = .ok result := by
  cases first with
  | error e => exact ⟨fun h => (by cases h), fun ⟨_, h, _⟩ => (by cases h)⟩
  | ok a =>
    constructor
    · exact fun h => ⟨a, rfl, h⟩
    · rintro ⟨_, h, eq⟩
      cases h
      exact eq

/-- A sequence of steps that may fail fails if a step does. -/
theorem except_bind_eq_error {ε α β : Type} {first : Except ε α} {next : α → Except ε β} {e : ε} :
    (first >>= next) = .error e ↔ first = .error e ∨ ∃ a, first = .ok a ∧ next a = .error e := by
  cases first with
  | error e' =>
    constructor
    · intro h
      cases h
      exact .inl rfl
    · rintro (h | ⟨_, h, _⟩)
      · cases h
        rfl
      · cases h
  | ok a =>
    constructor
    · exact fun h => .inr ⟨a, rfl, h⟩
    · rintro (h | ⟨_, h, eq⟩)
      · cases h
      · cases h
        exact eq

/-! ### Names of spread fragments -/

/-- The names of the fragments spread in a selection. -/
def Selection.spreadNames (selection : Selection τ) : List Name := selection.addSpreadNames []

mutual

private theorem mem_addSpreadNames {name : Name} : ∀ (selection : Selection τ) (names : List Name),
    name ∈ selection.addSpreadNames names ↔ name ∈ names ∨ name ∈ selection.addSpreadNames []
  | .field _ _ _ _ _ selections, names => by
    rw [Selection.addSpreadNames, Selection.addSpreadNames]
    exact mem_addSpreadNamesOf selections names
  | .inlineFragment _ _ _ selections, names => by
    rw [Selection.addSpreadNames, Selection.addSpreadNames]
    exact mem_addSpreadNamesOf selections names
  | .spread _ _ _ _, names => by
    rw [Selection.addSpreadNames, Selection.addSpreadNames, mem_addName, mem_addName]
    simp

private theorem mem_addSpreadNamesOf {name : Name} : ∀ (selections : List (Selection τ))
    (names : List Name),
    name ∈ addSpreadNamesOf selections names ↔
      name ∈ names ∨ name ∈ addSpreadNamesOf selections []
  | [], names => by simp [addSpreadNamesOf]
  | selection :: rest, names => by
    rw [addSpreadNamesOf, addSpreadNamesOf, mem_addSpreadNamesOf rest,
      mem_addSpreadNames selection, mem_addSpreadNamesOf rest (selection.addSpreadNames []),
      or_assoc]

end

@[simp] theorem not_mem_spreadNames_nil {name : Name} :
    name ∉ spreadNames ([] : List (Selection τ)) := by
  simp [spreadNames, addSpreadNamesOf]

@[simp] theorem mem_spreadNames_cons {name : Name} {selection : Selection τ}
    {rest : List (Selection τ)} :
    name ∈ spreadNames (selection :: rest) ↔
      name ∈ selection.spreadNames ∨ name ∈ spreadNames rest := by
  rw [spreadNames, addSpreadNamesOf, mem_addSpreadNamesOf]
  rfl

theorem mem_spreadNames_iff {name : Name} {selections : List (Selection τ)} :
    name ∈ spreadNames selections ↔ ∃ selection ∈ selections, name ∈ selection.spreadNames := by
  induction selections with
  | nil => simp
  | cons selection rest ih => simp [ih]

@[simp] theorem mem_spreadNames_field {name : Name} {aliasName : Option Name} {fieldName : Name}
    {arguments : List Argument} {directives : List Directive} {location : Option Span}
    {selections : List (Selection τ)} :
    name ∈ (Selection.field aliasName fieldName arguments directives location
      selections).spreadNames ↔ name ∈ spreadNames selections := by
  rw [Selection.spreadNames, Selection.addSpreadNames, spreadNames]

@[simp] theorem mem_spreadNames_inlineFragment {name : Name} {typeCondition : Option Name}
    {directives : List Directive} {location : Option Span} {selections : List (Selection τ)} :
    name ∈ (Selection.inlineFragment typeCondition directives location selections).spreadNames ↔
      name ∈ spreadNames selections := by
  rw [Selection.spreadNames, Selection.addSpreadNames, spreadNames]

@[simp] theorem mem_spreadNames_spread {name other : Name} {directives : List Directive}
    {location : Option Span} {target : τ} :
    name ∈ (Selection.spread other directives location target).spreadNames ↔ name = other := by
  rw [Selection.spreadNames, Selection.addSpreadNames, mem_addName]
  simp

/-! ### Linked selections -/

theorem link_eq_map (find : Name → Option Fragment) (selections : WrittenSelections) :
    link find selections = selections.map (Selection.link find) := by
  induction selections with
  | nil => rw [link, List.map_nil]
  | cons selection rest ih => rw [link, ih, List.map_cons]

mutual

private theorem selection_link_congr {find find' : Name → Option Fragment} :
    ∀ selection : Selection Unit, (∀ name ∈ selection.spreadNames, find name = find' name) →
      selection.link find = selection.link find'
  | .field _ _ _ _ _ selections, h => by
    rw [Selection.link, Selection.link, link_congr selections fun name mem => h name (by simpa)]
  | .inlineFragment _ _ _ selections, h => by
    rw [Selection.link, Selection.link, link_congr selections fun name mem => h name (by simpa)]
  | .spread name _ _ _, h => by
    rw [Selection.link, Selection.link, h name (by simp)]

/-- What linking makes of selections depends on the fragments that they spread only. -/
theorem link_congr {find find' : Name → Option Fragment} : ∀ selections : List (Selection Unit),
    (∀ name ∈ spreadNames selections, find name = find' name) →
      link find selections = link find' selections
  | [], _ => by rw [link, link]
  | selection :: rest, h => by
    rw [link, link, selection_link_congr selection fun name mem => h name (by simp [mem]),
      link_congr rest fun name mem => h name (by simp [mem])]

end

mutual

private theorem mem_spreadNames_selection_link {find : Name → Option Fragment} {name : Name} :
    ∀ selection : Selection Unit,
      name ∈ (selection.link find).spreadNames ↔ name ∈ selection.spreadNames
  | .field _ _ _ _ _ selections => by
    rw [Selection.link, mem_spreadNames_field, mem_spreadNames_field, mem_spreadNames_link]
  | .inlineFragment _ _ _ selections => by
    rw [Selection.link, mem_spreadNames_inlineFragment, mem_spreadNames_inlineFragment,
      mem_spreadNames_link]
  | .spread _ _ _ _ => by
    rw [Selection.link, mem_spreadNames_spread, mem_spreadNames_spread]

/-- Linked selections spread the same fragments. -/
theorem mem_spreadNames_link {find : Name → Option Fragment} {name : Name} :
    ∀ selections : List (Selection Unit),
      name ∈ spreadNames (link find selections) ↔ name ∈ spreadNames selections
  | [] => by rw [link]; simp
  | selection :: rest => by
    rw [link, mem_spreadNames_cons, mem_spreadNames_cons,
      mem_spreadNames_selection_link selection, mem_spreadNames_link rest]

end

mutual

/-- Whether a selection holds, at each spread, the fragment that a function finds. -/
def Selection.LinkedBy (find : Name → Option Fragment) : LinkedSelection → Prop
  | .field _ _ _ _ _ selections => LinkedBy find selections
  | .inlineFragment _ _ _ selections => LinkedBy find selections
  | .spread name _ _ none => find name = none
  | .spread name _ _ (some fragment) =>
    find name = some fragment ∧ fragment.name = name ∧ fragment.LinkedBy find

/-- Whether the selections of a fragment hold the fragments that a function finds. -/
def Fragment.LinkedBy (find : Name → Option Fragment) : Fragment → Prop
  | ⟨_, _, _, selections⟩ => GraphQLCompiler.LinkedBy find selections

/-- Whether selections hold, at each spread, the fragment that a function finds. -/
def LinkedBy (find : Name → Option Fragment) : List LinkedSelection → Prop
  | [] => True
  | selection :: rest => selection.LinkedBy find ∧ LinkedBy find rest

end

theorem Fragment.linkedBy_iff {find : Name → Option Fragment} {fragment : Fragment} :
    fragment.LinkedBy find ↔ GraphQLCompiler.LinkedBy find fragment.selections := by
  cases fragment
  rw [Fragment.LinkedBy]

theorem linkedBy_iff {find : Name → Option Fragment} {selections : List LinkedSelection} :
    LinkedBy find selections ↔ ∀ selection ∈ selections, selection.LinkedBy find := by
  induction selections with
  | nil => simp [LinkedBy]
  | cons selection rest ih => rw [LinkedBy, ih, List.forall_mem_cons]

theorem linkedBy_flatMap {α : Type} {find : Name → Option Fragment} {xs : List α}
    {f : α → List LinkedSelection} (h : ∀ x ∈ xs, LinkedBy find (f x)) :
    LinkedBy find (xs.flatMap f) := by
  refine linkedBy_iff.2 fun selection mem => ?_
  obtain ⟨x, hx, mem⟩ := List.mem_flatMap.1 mem
  exact linkedBy_iff.1 (h x hx) selection mem

namespace FragmentTable

/-! ### Spreads along a table -/

/-- A fragment of a table spreads another fragment, at any depth. -/
def Spreads (table : FragmentTable) (name other : Name) : Prop :=
  ∃ definition, table.find? name = some definition ∧ other ∈ spreadNames definition.selections

/-- No fragment of a table reaches itself along spreads. -/
def Acyclic (table : FragmentTable) : Prop := ∀ name, ¬ Relation.TransGen table.Spreads name name

/-- A table whose keys are the names of its fragments. -/
def IsNamed (table : FragmentTable) : Prop :=
  ∀ name definition, table.find? name = some definition → definition.name = name

theorem isNamed_ofList (definitions : List FragmentDefinition) : (ofList definitions).IsNamed := by
  intro name definition found
  have mem := NameMap.mem_of_mem_ofList (NameMap.mem_of_find?_eq_some found)
  obtain ⟨_, -, eq⟩ := List.mem_map.1 mem
  cases eq
  rfl

/-- The fragments of a table are found by their names. -/
theorem find?_of_mem_values {definitions : List FragmentDefinition}
    {definition : FragmentDefinition} (mem : definition ∈ (ofList definitions).values) :
    (ofList definitions).find? definition.name = some definition := by
  obtain ⟨⟨name, _⟩, pair, rfl⟩ := List.mem_map.1 mem
  have found := NameMap.find?_eq_some_of_mem (NameMap.nodup_keys_ofList _) pair
  rwa [isNamed_ofList definitions name _ found]

/-- The names of the fragments of a table are its keys. -/
theorem map_name_values (definitions : List FragmentDefinition) :
    (ofList definitions).values.map FragmentDefinition.name = (ofList definitions).keys := by
  unfold NameMap.values NameMap.keys
  rw [List.map_map]
  refine List.map_congr_left fun p mem => ?_
  have found : (ofList definitions).find? p.1 = some p.2 :=
    NameMap.find?_eq_some_of_mem (NameMap.nodup_keys_ofList _) mem
  exact isNamed_ofList definitions p.1 p.2 found

/-! ### What the search keeps -/

/-- A library that holds fragments of a table together with everything that they spread. -/
private def Holds (table : FragmentTable) (library : FragmentLibrary) : Prop :=
  ∀ name fragment, library.find? name = some fragment →
    ∃ definition, table.find? name = some definition ∧
      fragment = definition.link library.find? ∧
      ∀ other ∈ spreadNames definition.selections, table.contains other → library.contains other

/-- A library that has everything that another has. -/
private def Extends (library larger : FragmentLibrary) : Prop :=
  ∀ name fragment, library.find? name = some fragment → larger.find? name = some fragment

private theorem contains_of_extends {library larger : FragmentLibrary}
    (h : Extends library larger) {name : Name} (mem : library.contains name) :
    larger.contains name := by
  obtain ⟨fragment, found⟩ := Option.isSome_iff_exists.1 mem
  exact Option.isSome_iff_exists.2 ⟨fragment, h name fragment found⟩

variable {table : FragmentTable}

/-- A fragment whose spreads a library holds is linked as before when a new fragment is added. -/
private theorem link_insert {library : FragmentLibrary} {name : Name} (known : table.contains name)
    (fresh : library.find? name = none) (fragment : Fragment) {definition : FragmentDefinition}
    (spread : ∀ other ∈ spreadNames definition.selections, table.contains other →
      library.contains other) :
    definition.link (library.insert name fragment).find? = definition.link library.find? := by
  unfold FragmentDefinition.link
  congr 1
  refine link_congr _ fun other mem => ?_
  rw [NameMap.find?_insert]
  split
  · rename_i eq
    -- the new name is not spread, since the library would hold it already
    have held := spread other mem (eq ▸ known)
    rw [NameMap.contains, ← eq, fresh] at held
    cases held
  · rfl

/-- Holding fragments of a table is kept when a fragment is added whose spreads are held. -/
private theorem holds_insert {library : FragmentLibrary} {name : Name}
    {definition : FragmentDefinition} (h : Holds table library)
    (found : table.find? name = some definition) (fresh : library.find? name = none)
    (spread : ∀ other ∈ spreadNames definition.selections, table.contains other →
      library.contains other) :
    Holds table (library.insert name (definition.link library.find?)) := by
  have known : table.contains name := Option.isSome_iff_exists.2 ⟨definition, found⟩
  have grown : ∀ other, library.contains other →
      (library.insert name (definition.link library.find?)).contains other := by
    intro other mem
    rw [NameMap.contains, NameMap.find?_insert]
    split
    · rfl
    · exact mem
  intro other fragment mem
  rw [NameMap.find?_insert] at mem
  split at mem
  · rename_i eq
    subst eq
    cases mem
    exact ⟨definition, found, (link_insert known fresh _ spread).symm,
      fun other mem has => grown other (spread other mem has)⟩
  · obtain ⟨own, foundOwn, rfl, spreadOwn⟩ := h other fragment mem
    exact ⟨own, foundOwn, (link_insert known fresh _ spreadOwn).symm,
      fun other mem has => grown other (spreadOwn other mem has)⟩

private theorem extends_insert {library : FragmentLibrary} {name : Name} (fragment : Fragment)
    (fresh : library.find? name = none) : Extends library (library.insert name fragment) := by
  intro other own found
  rw [NameMap.find?_insert]
  split
  · rename_i eq
    rw [← eq, fresh] at found
    cases found
  · exact found

/-- What a search below a path of names makes of a library. -/
private structure Visited (table : FragmentTable) (path : List Name)
    (library result : FragmentLibrary) (names : List Name) : Prop where
  holds : Holds table result
  larger : Extends library result
  has : ∀ name ∈ names, table.contains name → result.contains name
  /-- The names of the path are left to those who started the search from them. -/
  waits : ∀ name ∈ path, library.find? name = none → result.find? name = none

theorem visit_of_undefined {path : List Name} {library : FragmentLibrary} {name : Name}
    (missing : table.find? name = none) : visit table path library name = .ok library := by
  rw [visit]
  split
  · rfl
  · rename_i found
    rw [missing] at found
    cases found

theorem visit_of_defined {path : List Name} {library : FragmentLibrary} {name : Name}
    {definition : FragmentDefinition} (found : table.find? name = some definition) :
    visit table path library name =
      if library.contains name then .ok library
      else if name ∈ path then .error (.fragmentCycle name definition.location)
      else do
        let linked ← visitAll table (name :: path) library (spreadNames definition.selections)
        return linked.insert name (definition.link linked.find?) := by
  rw [visit]
  split
  · rename_i missing
    rw [found] at missing
    cases missing
  · rename_i own foundOwn
    rw [found] at foundOwn
    cases foundOwn
    rfl

private theorem visited_self {path : List Name} {library : FragmentLibrary} {names : List Name}
    (holds : Holds table library)
    (has : ∀ name ∈ names, table.contains name → library.contains name) :
    Visited table path library library names :=
  ⟨holds, fun _ _ found => found, has, fun _ _ fresh => fresh⟩

private theorem visited_visit (path : List Name) (library : FragmentLibrary) (name : Name) :
    ∀ {result}, Holds table library → visit table path library name = .ok result →
      Visited table path library result [name] := by
  refine visit.induct table
    (fun path library name => ∀ {result}, Holds table library →
      visit table path library name = .ok result → Visited table path library result [name])
    (fun path library names => ∀ {result}, Holds table library →
      visitAll table path library names = .ok result → Visited table path library result names)
    ?undefined ?known ?cycle ?new ?nil ?cons path library name
  case undefined =>
    intro path library name missing result holds h
    rw [visit_of_undefined missing] at h
    cases h
    refine visited_self holds fun other mem has => ?_
    rw [List.mem_singleton.1 mem, NameMap.contains, missing] at has
    cases has
  case known =>
    intro path library name definition found has result holds h
    rw [visit_of_defined found, if_pos has] at h
    cases h
    exact visited_self holds fun other mem _ => by rwa [List.mem_singleton.1 mem]
  case cycle =>
    intro path library name definition found has mem result holds h
    rw [visit_of_defined found, if_neg has, if_pos mem] at h
    cases h
  case new =>
    intro path library name definition found has notMem ih result holds h
    rw [visit_of_defined found, if_neg has, if_neg notMem] at h
    obtain ⟨linked, hl, h⟩ := except_bind_eq_ok.1 h
    cases h
    obtain ⟨holdsLinked, larger, spread, waits⟩ := ih holds hl
    -- the name is on the path of the search below it, which has left it out
    have fresh : linked.find? name = none := by
      refine waits name List.mem_cons_self ?_
      simpa [NameMap.contains] using has
    refine ⟨holds_insert holdsLinked found fresh spread, ?_, ?_, ?_⟩
    · exact fun other fragment mem =>
        extends_insert _ fresh other fragment (larger other fragment mem)
    · intro other mem _
      rw [List.mem_singleton.1 mem, NameMap.contains, NameMap.find?_insert, if_pos rfl]
      rfl
    · intro other mem missing
      have ne : name ≠ other := fun eq => notMem (eq ▸ mem)
      rw [NameMap.find?_insert, if_neg ne]
      exact waits other (List.mem_cons_of_mem _ mem) missing
  case nil =>
    intro path library result holds h
    rw [visitAll] at h
    cases h
    exact visited_self holds fun _ mem => by cases mem
  case cons =>
    intro path library name rest ihName ihRest result holds h
    rw [visitAll] at h
    obtain ⟨middle, hm, h⟩ := except_bind_eq_ok.1 h
    obtain ⟨holdsMiddle, larger, has, waits⟩ := ihName holds hm
    obtain ⟨holdsResult, larger', has', waits'⟩ := ihRest middle holdsMiddle h
    refine ⟨holdsResult, fun other fragment mem => larger' _ _ (larger _ _ mem), ?_,
      fun other mem fresh => waits' _ mem (waits _ mem fresh)⟩
    intro other mem known
    rcases List.mem_cons.1 mem with rfl | mem
    · exact contains_of_extends larger' (has _ List.mem_cons_self known)
    · exact has' other mem known

/-! ### The library -/

/-- A search from each of some names makes a library that has all of them. -/
private theorem visited_foldlM : ∀ (names : List Name) (library : FragmentLibrary) {result},
    Holds table library → names.foldlM (visit table []) library = .ok result →
    Visited table [] library result names
  | [], library, result, holds, h => by
    cases h
    exact visited_self holds fun _ mem => by cases mem
  | name :: rest, library, result, holds, h => by
    rw [List.foldlM_cons] at h
    obtain ⟨middle, hm, h⟩ := except_bind_eq_ok.1 h
    obtain ⟨holdsMiddle, larger, has, -⟩ := visited_visit [] library name holds hm
    obtain ⟨holdsResult, larger', has', -⟩ := visited_foldlM rest middle holdsMiddle h
    refine ⟨holdsResult, fun other fragment mem => larger' _ _ (larger _ _ mem), ?_,
      fun _ mem => by cases mem⟩
    intro other mem known
    rcases List.mem_cons.1 mem with rfl | mem
    · exact contains_of_extends larger' (has _ List.mem_cons_self known)
    · exact has' other mem known

/-- **The law of the library**: it has the fragments of the table, linked to the library itself. -/
theorem find?_library {library : FragmentLibrary} (h : table.library = .ok library) (name : Name) :
    library.find? name
      = (table.find? name).map fun definition => definition.link library.find? := by
  have empty : Holds table [] := fun _ _ found => by cases found
  obtain ⟨holds, -, has, -⟩ := visited_foldlM table.keys [] empty h
  cases known : table.find? name with
  | none =>
    cases found : library.find? name with
    | none => rfl
    | some fragment =>
      obtain ⟨definition, defined, -⟩ := holds name fragment found
      rw [known] at defined
      cases defined
  | some definition =>
    have mem : name ∈ table.keys := List.mem_map.2 ⟨_, NameMap.mem_of_find?_eq_some known, rfl⟩
    obtain ⟨fragment, found⟩ := Option.isSome_iff_exists.1
      (has name mem (Option.isSome_iff_exists.2 ⟨definition, known⟩))
    obtain ⟨own, defined, eq, -⟩ := holds name fragment found
    rw [known] at defined
    cases defined
    rw [found, eq]
    rfl

/-- Whether an error names a fragment that reaches itself, and its definition. -/
def Justifies (table : FragmentTable) (e : CompileError) : Prop :=
  ∃ name definition, e = .fragmentCycle name definition.location ∧
    table.find? name = some definition ∧ Relation.TransGen table.Spreads name name

/-- A search stops at a fragment that reaches itself only. -/
private theorem justifies_of_visit_eq_error {e : CompileError} :
    ∀ (path : List Name) (library : FragmentLibrary) (name : Name),
      (∀ start ∈ path, Relation.TransGen table.Spreads start name) →
      visit table path library name = .error e → table.Justifies e := by
  intro path library name
  refine visit.induct table
    (fun path library name =>
      (∀ start ∈ path, Relation.TransGen table.Spreads start name) →
      visit table path library name = .error e → table.Justifies e)
    (fun path library names =>
      (∀ name ∈ names, ∀ start ∈ path, Relation.TransGen table.Spreads start name) →
      visitAll table path library names = .error e → table.Justifies e)
    ?undefined ?known ?cycle ?new ?nil ?cons path library name
  case undefined =>
    intro path library name missing _ h
    rw [visit_of_undefined missing] at h
    cases h
  case known =>
    intro path library name definition found has _ h
    rw [visit_of_defined found, if_pos has] at h
    cases h
  case cycle =>
    intro path library name definition found has mem reaches h
    rw [visit_of_defined found, if_neg has, if_pos mem] at h
    cases h
    exact ⟨name, definition, rfl, found, reaches name mem⟩
  case new =>
    intro path library name definition found has notMem ih reaches h
    rw [visit_of_defined found, if_neg has, if_neg notMem] at h
    -- the name joins the path, and reaches what it spreads in one step
    refine ih (fun other mem start hs => ?_) ?_
    · have step : table.Spreads name other := ⟨definition, found, mem⟩
      rcases List.mem_cons.1 hs with rfl | hs
      · exact .single step
      · exact (reaches start hs).tail step
    · rcases except_bind_eq_error.1 h with h | ⟨_, _, h⟩
      · exact h
      · cases h
  case nil =>
    intro path library _ h
    rw [visitAll] at h
    cases h
  case cons =>
    intro path library name rest ihName ihRest reaches h
    rw [visitAll] at h
    rcases except_bind_eq_error.1 h with h | ⟨middle, _, h⟩
    · exact ihName (reaches name List.mem_cons_self) h
    · exact ihRest middle (fun other mem => reaches other (List.mem_cons_of_mem _ mem)) h

/-- **The error of a table** names a fragment that reaches itself. -/
theorem justifies_of_library_eq_error {e : CompileError} (h : table.library = .error e) :
    table.Justifies e := by
  have all : ∀ (names : List Name) (library : FragmentLibrary),
      names.foldlM (visit table []) library = .error e → table.Justifies e := by
    intro names
    induction names with
    | nil =>
      intro library h
      cases h
    | cons name rest ih =>
      intro library h
      rw [List.foldlM_cons] at h
      rcases except_bind_eq_error.1 h with h | ⟨middle, _, h⟩
      · exact justifies_of_visit_eq_error [] library name (fun _ mem => by cases mem) h
      · exact ih middle h
  exact all table.keys [] h

/-! ### Induction on a library -/

mutual

private theorem height_le_of_mem_selection {find : Name → Option Fragment} {name : Name}
    {fragment : Fragment} (found : find name = some fragment) :
    ∀ selection : Selection Unit, name ∈ selection.spreadNames →
      fragment.height ≤ (selection.link find).height
  | .field _ _ _ _ _ selections, mem => by
    rw [mem_spreadNames_field] at mem
    rw [Selection.link, Selection.height]
    exact Nat.le_succ_of_le (height_le_of_mem found selections mem)
  | .inlineFragment _ _ _ selections, mem => by
    rw [mem_spreadNames_inlineFragment] at mem
    rw [Selection.link, Selection.height]
    exact height_le_of_mem found selections mem
  | .spread _ _ _ _, mem => by
    rw [mem_spreadNames_spread] at mem
    refine Nat.le_of_eq ?_
    rw [Selection.link, ← mem, found, Selection.height]

/-- Linked selections are as high as the fragments that they spread. -/
private theorem height_le_of_mem {find : Name → Option Fragment} {name : Name}
    {fragment : Fragment} (found : find name = some fragment) :
    ∀ selections : WrittenSelections, name ∈ spreadNames selections →
      fragment.height ≤ height (link find selections)
  | [], mem => absurd mem not_mem_spreadNames_nil
  | selection :: rest, mem => by
    rw [link, height]
    rcases mem_spreadNames_cons.1 mem with mem | mem
    · exact Nat.le_trans (height_le_of_mem_selection found selection mem) (Nat.le_max_left _ _)
    · exact Nat.le_trans (height_le_of_mem found rest mem) (Nat.le_max_right _ _)

end

/-- **Induction on a library**: what passes from the names that a definition spreads to the name of
the definition holds of all names, each with the fragment that it stands for or without one. -/
theorem find?_library_induction {library : FragmentLibrary} (h : table.library = .ok library)
    (property : Name → Option Fragment → Prop)
    (missing : ∀ name, table.find? name = none → property name none)
    (step : ∀ name definition, table.find? name = some definition →
      (∀ other ∈ spreadNames definition.selections, property other (library.find? other)) →
      property name (some (definition.link library.find?)))
    (name : Name) : property name (library.find? name) := by
  -- by the height of the fragment: the fragments that it spreads are lower
  have key : ∀ (n : Nat) (name : Name),
      (∀ fragment, library.find? name = some fragment → fragment.height < n) →
      property name (library.find? name) := by
    intro n
    induction n with
    | zero =>
      intro name low
      cases found : library.find? name with
      | none =>
        rw [find?_library h, Option.map_eq_none_iff] at found
        exact missing name found
      | some fragment => exact absurd (low fragment found) (Nat.not_lt_zero _)
    | succ n ih =>
      intro name low
      rw [find?_library h]
      cases defined : table.find? name with
      | none => exact missing name defined
      | some definition =>
        have linked : library.find? name = some (definition.link library.find?) := by
          rw [find?_library h, defined]
          rfl
        have below := low _ linked
        rw [Fragment.height_eq] at below
        refine step name definition defined fun other mem => ih other fun fragment found => ?_
        exact Nat.lt_of_le_of_lt (height_le_of_mem found definition.selections mem)
          (Nat.lt_of_succ_lt_succ below)
  exact key (((library.find? name).elim 0 Fragment.height) + 1) name fun fragment found => by
    rw [found]
    exact Nat.lt_succ_self _

/-- What passes from the fragments that a definition spreads to the definition holds of all
fragments of the library. -/
theorem library_induction {library : FragmentLibrary} (h : table.library = .ok library)
    {property : Fragment → Prop}
    (step : ∀ name definition, table.find? name = some definition →
      (∀ other ∈ spreadNames definition.selections, ∀ fragment,
        library.find? other = some fragment → property fragment) →
      property (definition.link library.find?))
    {name : Name} {fragment : Fragment} (found : library.find? name = some fragment) :
    property fragment := by
  refine find?_library_induction h
    (fun _ target => ∀ fragment, target = some fragment → property fragment)
    (fun _ _ _ none => by cases none) (fun name definition defined lower => ?_) name fragment found
  rintro _ ⟨⟩
  exact step name definition defined lower

/-- A fragment that is linked is higher than the fragments that it spreads. -/
private theorem height_lt_of_spreads {library : FragmentLibrary} (h : table.library = .ok library)
    {name other : Name} {definition spread : FragmentDefinition}
    (spreads : table.Spreads name other) (found : table.find? name = some definition)
    (foundSpread : table.find? other = some spread) :
    (spread.link library.find?).height < (definition.link library.find?).height := by
  have linked : library.find? other = some (spread.link library.find?) := by
    rw [find?_library h, foundSpread]
    rfl
  obtain ⟨own, foundOwn, mem⟩ := spreads
  cases found.symm.trans foundOwn
  rw [(definition.link library.find?).height_eq]
  exact Nat.lt_succ_of_le (height_le_of_mem linked definition.selections mem)

/-- **A library exists** exactly if no fragment of the table reaches itself. -/
theorem exists_library_iff : (∃ library, table.library = .ok library) ↔ table.Acyclic := by
  constructor
  case mpr =>
    intro acyclic
    cases h : table.library with
    | error e =>
      obtain ⟨name, _, _, _, loop⟩ := justifies_of_library_eq_error h
      exact absurd loop (acyclic name)
    | ok library => exact ⟨library, rfl⟩
  rintro ⟨library, h⟩ name loop
  -- by induction on the spreads: the last fragment is lower than the first
  have descends : ∀ last, Relation.TransGen table.Spreads name last →
      ∀ definition inner, table.find? name = some definition → table.find? last = some inner →
      (inner.link library.find?).height < (definition.link library.find?).height := by
    intro last path
    induction path with
    | single spreads =>
      intro definition inner found foundInner
      exact height_lt_of_spreads h spreads found foundInner
    | tail _ spreads ih =>
      intro definition inner found foundInner
      obtain ⟨middle, foundMiddle, mem⟩ := spreads
      exact Nat.lt_trans (height_lt_of_spreads h ⟨middle, foundMiddle, mem⟩ foundMiddle foundInner)
        (ih definition middle found foundMiddle)
  obtain ⟨_, ⟨definition, found, -⟩, -⟩ := Relation.TransGen.head'_iff.1 loop
  exact Nat.lt_irrefl _ (descends name loop definition definition found found)

/-! ### Fragments by name -/

mutual

private theorem selection_linkedBy_link {find : Name → Option Fragment} :
    ∀ selection : Selection Unit,
      (∀ name ∈ selection.spreadNames, ∀ fragment, find name = some fragment →
        fragment.name = name ∧ fragment.LinkedBy find) →
      (selection.link find).LinkedBy find
  | .field _ _ _ _ _ selections, lower => by
    rw [Selection.link, Selection.LinkedBy]
    exact linkedBy_link_of_lower selections fun name mem => lower name (by simpa)
  | .inlineFragment _ _ _ selections, lower => by
    rw [Selection.link, Selection.LinkedBy]
    exact linkedBy_link_of_lower selections fun name mem => lower name (by simpa)
  | .spread name _ _ _, lower => by
    rw [Selection.link]
    cases found : find name with
    | none => rwa [Selection.LinkedBy]
    | some fragment =>
      rw [Selection.LinkedBy]
      exact ⟨found, lower name (mem_spreadNames_spread.2 rfl) fragment found⟩

private theorem linkedBy_link_of_lower {find : Name → Option Fragment} :
    ∀ selections : WrittenSelections,
      (∀ name ∈ spreadNames selections, ∀ fragment, find name = some fragment →
        fragment.name = name ∧ fragment.LinkedBy find) →
      LinkedBy find (link find selections)
  | [], _ => by rw [link, LinkedBy]; trivial
  | selection :: rest, lower => by
    rw [link, LinkedBy]
    have lowerFirst := fun name mem => lower name (mem_spreadNames_cons.2 (.inl mem))
    have lowerRest := fun name mem => lower name (mem_spreadNames_cons.2 (.inr mem))
    exact ⟨selection_linkedBy_link selection lowerFirst, linkedBy_link_of_lower rest lowerRest⟩

end

/-- The linked fragments of a table without cycles are those of its library. -/
theorem linked_eq {library : FragmentLibrary} (h : table.library = .ok library) :
    table.linked = library := by
  rw [linked, h]
  rfl

/-- The fragments of a library have its names. -/
theorem name_eq_of_find?_library {library : FragmentLibrary} (h : table.library = .ok library)
    (named : table.IsNamed) {name : Name} {fragment : Fragment}
    (found : library.find? name = some fragment) : fragment.name = name := by
  rw [find?_library h, Option.map_eq_some_iff] at found
  obtain ⟨definition, defined, rfl⟩ := found
  exact named name definition defined

/-- The fragments of a library are linked to it, at every depth. -/
theorem linkedBy_of_find?_library {library : FragmentLibrary} (h : table.library = .ok library)
    (named : table.IsNamed) {name : Name} {fragment : Fragment}
    (found : library.find? name = some fragment) : fragment.LinkedBy library.find? := by
  refine library_induction h (fun name definition defined lower => ?_) found
  exact Fragment.linkedBy_iff.2 (linkedBy_link_of_lower _ fun other mem fragment found =>
    ⟨name_eq_of_find?_library h named found, lower other mem fragment found⟩)

/-- What is linked to a library holds its fragments, at every depth. -/
theorem linkedBy_link {library : FragmentLibrary} (h : table.library = .ok library)
    (named : table.IsNamed) (selections : WrittenSelections) :
    LinkedBy library.find? (link library.find? selections) :=
  linkedBy_link_of_lower selections fun _ _ _ found =>
    ⟨name_eq_of_find?_library h named found, linkedBy_of_find?_library h named found⟩

end FragmentTable

end GraphQLCompiler
