import GraphQLCompiler.Proofs.Gathering

/-!
# Faults of selections

Collecting stops with the first error that it meets. The **faults** of selections at a type are the
errors that a reading would meet, in order and as often as it would meet them. Like readings they
know nothing of what was met before.

A fragment that is passed over because it has been expanded at the type has no faults there, since
collecting would have stopped at the first of them. So collecting stops with the first fault,
whether it passes over repeated fragments or not (`errorOf_collect`).
-/

namespace GraphQLCompiler

section

variable (schema : Schema) (options : Options)

/-- The fault of a type that selections cannot be collected at. -/
def typeFaults (typeName : Name) : List CompileError :=
  match schema.typeKind? typeName with
  | none => [.unknownType typeName none]
  | some kind => if kind.isComposite then [] else [.notCompositeType typeName none]

mutual

/-- The faults of a selection at a type. -/
def Selection.faults (parent : Name) : LinkedSelection → List CompileError
  | .field _ name _ _ location _ =>
    match schema.fieldDefinition? parent name with
    | none => [.unknownField parent name location]
    | some _ => []
  | .inlineFragment typeCondition _ location selections =>
    let condition := typeCondition.getD parent
    let effective := schema.narrow parent condition
    match schema.typeKind? condition with
    | none => [.unknownType condition location]
    | some _ =>
      if applies schema condition effective then typeFaults schema effective ++
        faults effective selections
      else []
  | .spread name _ location none => [.unknownFragment name location]
  | .spread _ _ _ (some fragment) => fragment.faults parent

/-- The faults of the spread of a fragment at a type. -/
def Fragment.faults (parent : Name) : Fragment → List CompileError
  | ⟨_, typeCondition, location, selections⟩ =>
    let effective := schema.narrow parent typeCondition
    match schema.typeKind? typeCondition with
    | none => [.unknownType typeCondition location]
    | some _ =>
      if options.mergeFragmentFields then typeFaults schema effective ++
        faults effective selections
      else []

/-- The faults of selections at a type. -/
def faults (parent : Name) : List LinkedSelection → List CompileError
  | [] => []
  | selection :: rest => selection.faults parent ++ faults parent rest

end

/-- The faults inside a fragment that is expanded at a type. -/
def faultsInside (typeName : Name) (fragment : Fragment) : List CompileError :=
  if options.mergeFragmentFields then typeFaults schema typeName ++
    faults schema options typeName fragment.selections
  else []

end

variable {schema : Schema} {options : Options}

theorem Fragment.faults_eq (parent : Name) (fragment : Fragment) :
    fragment.faults schema options parent = match schema.typeKind? fragment.typeCondition with
      | none => [.unknownType fragment.typeCondition fragment.location]
      | some _ =>
        faultsInside schema options (schema.narrow parent fragment.typeCondition) fragment := by
  cases fragment
  rw [Fragment.faults]
  rfl

theorem faults_eq_flatMap (parent : Name) (selections : List LinkedSelection) :
    faults schema options parent selections
      = selections.flatMap (Selection.faults schema options parent) := by
  induction selections with
  | nil => rw [faults, List.flatMap_nil]
  | cons selection rest ih => rw [faults, ih, List.flatMap_cons]

theorem faults_append (parent : Name) (selections more : List LinkedSelection) :
    faults schema options parent (selections ++ more)
      = faults schema options parent selections ++ faults schema options parent more := by
  simp only [faults_eq_flatMap, List.flatMap_append]

theorem faults_singleton (parent : Name) (selection : LinkedSelection) :
    faults schema options parent [selection] = selection.faults schema options parent := by
  rw [faults, faults, List.append_nil]

/-- Selections can be collected at composite types. -/
theorem typeFaults_eq_nil_iff {typeName : Name} :
    typeFaults schema typeName = [] ↔ schema.isComposite typeName := by
  unfold typeFaults Schema.isComposite
  cases schema.typeKind? typeName with
  | none => simp
  | some kind => cases composite : kind.isComposite <;> simp [composite]

/-- The first fault at a type is one of the type, or of what is collected at it if the type is
composite. -/
theorem mem_or_of_head?_typeFaults {typeName : Name} {more : List CompileError} {e : CompileError}
    (h : (typeFaults schema typeName ++ more).head? = some e) :
    e ∈ typeFaults schema typeName ∨ schema.isComposite typeName ∧ more.head? = some e := by
  cases faults : typeFaults schema typeName with
  | nil =>
    rw [faults, List.nil_append] at h
    exact .inr ⟨typeFaults_eq_nil_iff.1 faults, h⟩
  | cons first rest =>
    rw [faults] at h
    cases h
    exact .inl List.mem_cons_self

/-! ### Faultless fragments -/

section

variable {settings : Settings}

mutual

private theorem selection_faultsInside_eq_nil {typeName : Name} {fragment : Fragment} :
    ∀ (parent : Name) (selection : LinkedSelection),
      .fragment typeName fragment ∈ selection.reading settings parent →
      selection.faults settings.schema settings.options parent = [] →
      faultsInside settings.schema settings.options typeName fragment = []
  | _, .field _ _ _ _ _ _, mem, _ => by simp [Selection.reading] at mem
  | parent, .inlineFragment typeCondition _ _ selections, mem, clean => by
    simp only [Selection.reading] at mem
    simp only [Selection.faults] at clean
    split at clean
    · cases clean
    · split at mem
      · rename_i ap
        rw [if_pos ap, List.append_eq_nil_iff] at clean
        exact faultsInside_eq_nil _ selections mem clean.2
      · cases mem
  | _, .spread _ _ _ none, mem, _ => by simp [Selection.reading] at mem
  | parent, .spread _ _ _ (some other), mem, clean => by
    rw [Selection.reading] at mem
    rw [Selection.faults] at clean
    exact fragment_faultsInside_eq_nil parent other mem clean

private theorem fragment_faultsInside_eq_nil {typeName : Name} {fragment : Fragment} :
    ∀ (parent : Name) (other : Fragment),
      .fragment typeName fragment ∈ other.reading settings parent →
      other.faults settings.schema settings.options parent = [] →
      faultsInside settings.schema settings.options typeName fragment = []
  | parent, ⟨name, typeCondition, location, selections⟩, mem, clean => by
    rw [Fragment.reading_eq] at mem
    rw [Fragment.faults_eq] at clean
    split at clean
    · cases clean
    · rcases List.mem_cons.1 mem with eq | mem
      · cases eq
        exact clean
      · unfold readingInside at mem
        unfold faultsInside at clean
        split at mem
        · rename_i merge
          rw [if_pos merge, List.append_eq_nil_iff] at clean
          exact faultsInside_eq_nil _ selections mem clean.2
        · cases mem

/-- Selections without faults mention no fragment with faults inside. -/
private theorem faultsInside_eq_nil {typeName : Name} {fragment : Fragment} :
    ∀ (parent : Name) (selections : List LinkedSelection),
      .fragment typeName fragment ∈ reading settings parent selections →
      faults settings.schema settings.options parent selections = [] →
      faultsInside settings.schema settings.options typeName fragment = []
  | _, [], mem, _ => by simp [reading] at mem
  | parent, selection :: rest, mem, clean => by
    rw [reading] at mem
    rw [faults, List.append_eq_nil_iff] at clean
    rcases List.mem_append.1 mem with mem | mem
    · exact selection_faultsInside_eq_nil parent selection mem clean.1
    · exact faultsInside_eq_nil parent rest mem clean.2

end

/-- Whether the fragments of a height at most that are mentioned have no faults inside. -/
def Faultless (settings : Settings) (n : Nat) (mentions : List Mention) : Prop :=
  ∀ typeName fragment, .fragment typeName fragment ∈ mentions → fragment.height ≤ n →
    faultsInside settings.schema settings.options typeName fragment = []

private theorem faultless_nil {n : Nat} : Faultless settings n [] := fun _ _ mem => by cases mem

/-- A fragment that is about to be expanded leaves what is lower than it faultless. -/
private theorem Faultless.append_fragment {n : Nat} {past mentions : List Mention}
    {typeName : Name} {fragment : Fragment} (h : Faultless settings n past)
    (low : fragment.height ≤ n)
    (same : SameFirsts mentions (past ++ [.fragment typeName fragment])) :
    Faultless settings (height fragment.selections) mentions := by
  rw [fragment.height_eq] at low
  intro otherType other mem lower
  rcases List.mem_append.1 (same.mem_iff.1 mem) with old | new
  · exact h otherType other old (by omega)
  · cases List.mem_singleton.1 new
    rw [fragment.height_eq] at lower
    omega

/-- Collecting selections without faults leaves what is mentioned faultless. -/
private theorem Faultless.append_reading {n : Nat} {past mentions : List Mention}
    (h : Faultless settings n past) {parent : Name} {selections : List LinkedSelection}
    (clean : faults settings.schema settings.options parent selections = [])
    (same : SameFirsts mentions (past ++ reading settings parent selections)) :
    Faultless settings n mentions := by
  intro typeName fragment mem lower
  rcases List.mem_append.1 (same.mem_iff.1 mem) with old | new
  · exact h typeName fragment old lower
  · exact faultsInside_eq_nil parent selections new clean

/-! ### The first fault -/

/-- The error of a computation that stopped. -/
def errorOf {α : Type} : Except Failure α → Option CompileError
  | .error failure => some failure.error
  | .ok _ => none

/-- A first step that stops with the first of some faults, followed by others. -/
private theorem errorOf_bind {α β : Type} {first : Except Failure α}
    {next : α → Except Failure β} {own others : List CompileError}
    (h : errorOf first = own.head?)
    (h' : ∀ result, first = .ok result → errorOf (next result) = others.head?) :
    errorOf (first >>= next) = (own ++ others).head? := by
  cases first with
  | error failure =>
    obtain ⟨rest, rfl⟩ : ∃ rest, own = failure.error :: rest := by
      cases own with
      | nil => cases h
      | cons fault rest =>
        cases h
        exact ⟨rest, rfl⟩
    rfl
  | ok result =>
    have clean : own = [] := List.head?_eq_none_iff.1 h.symm
    rw [clean]
    exact h' result rfl

private theorem errorOf_compositeKind (typeName : Name) (collection : Collection) :
    errorOf (compositeKind settings.schema typeName collection)
      = (typeFaults settings.schema typeName).head? := by
  unfold compositeKind typeFaults
  cases settings.schema.typeKind? typeName with
  | none => rfl
  | some kind =>
    by_cases composite : kind.isComposite <;> simp [composite, errorOf, Collection.stop]

mutual

private theorem errorOf_collectSelection {find : Name → Option Fragment} {n : Nat} (parent : Name)
    (kind : TypeKind) (known : settings.schema.typeKind? parent = some kind) :
    ∀ (selection : LinkedSelection) (collection : Collection) (past : List Mention),
      selection.LinkedBy find → selection.height ≤ n → Expanded settings find n past →
      Faultless settings n past → collection.Holds settings.schema past →
      errorOf (collectSelection settings parent kind selection collection)
        = (selection.faults settings.schema settings.options parent).head?
  | .field aliasName name arguments directives location selections, collection, past, _, _, _, _,
      _ => by
    rw [collectSelection, Selection.faults]
    cases settings.schema.fieldDefinition? parent name <;> rfl
  | .inlineFragment typeCondition _ location selections, collection, past, linked, low, expanded,
      faultless, holds => by
    rw [Selection.LinkedBy] at linked
    rw [Selection.height] at low
    simp only [collectSelection, Selection.faults, Schema.narrow_eq known]
    cases settings.schema.typeKind? (typeCondition.getD parent) with
    | none => rfl
    | some _ =>
      dsimp only
      split
      · refine errorOf_bind (errorOf_compositeKind _ _) fun inner hk => ?_
        exact errorOf_collectEach _ inner (compositeKind_eq_ok.1 hk).1 selections collection past
          linked low expanded faultless holds
      · rfl
  | .spread name _ location none, collection, past, _, _, _, _, _ => by
    rw [collectSelection, Selection.faults]
    rfl
  | .spread name _ location (some fragment), collection, past, linked, low, expanded, faultless,
      holds => by
    rw [Selection.LinkedBy] at linked
    rw [Selection.height] at low
    obtain ⟨found, rfl, linked⟩ := linked
    rw [collectSelection, Selection.faults]
    exact errorOf_collectFragment parent kind known fragment collection past found linked low
      expanded faultless holds

private theorem errorOf_collectFragment {find : Name → Option Fragment} {n : Nat} (parent : Name)
    (kind : TypeKind) (known : settings.schema.typeKind? parent = some kind) :
    ∀ (fragment : Fragment) (collection : Collection) (past : List Mention),
      find fragment.name = some fragment → fragment.LinkedBy find → fragment.height ≤ n →
      Expanded settings find n past → Faultless settings n past →
      collection.Holds settings.schema past →
      errorOf (collectFragment settings parent kind fragment collection)
        = (fragment.faults settings.schema settings.options parent).head?
  | ⟨name, typeCondition, location, selections⟩, collection, past, found, linked, low, expanded,
      faultless, holds => by
    have linkedInside := Fragment.linkedBy_iff.1 linked
    simp only [collectFragment, Schema.narrow_eq known]
    rw [Fragment.faults_eq]
    generalize settings.schema.narrow parent typeCondition = effective
    dsimp only
    cases settings.schema.typeKind? typeCondition with
    | none => rfl
    | some _ =>
      dsimp only
      split
      · rename_i repeated
        -- a fragment that is passed over was expanded before, and collecting did not stop in it
        have mem := mem_of_hasExpanded holds expanded found repeated.1
        rw [faultless effective _ mem low]
        rfl
      · obtain ⟨mentions, first, expandedNow, holdsNow⟩ :=
          exists_holds_recorded holds expanded found low effective
        have faultlessNow : Faultless settings (height selections) mentions :=
          faultless.append_fragment low first
        unfold faultsInside
        split
        · refine errorOf_bind (errorOf_compositeKind _ _) fun inner hk => ?_
          exact errorOf_collectEach effective inner (compositeKind_eq_ok.1 hk).1 selections _
            mentions linkedInside (Nat.le_refl _) expandedNow faultlessNow holdsNow
        · rfl

private theorem errorOf_collectEach {find : Name → Option Fragment} {n : Nat} (parent : Name)
    (kind : TypeKind) (known : settings.schema.typeKind? parent = some kind) :
    ∀ (selections : List LinkedSelection) (collection : Collection) (past : List Mention),
      LinkedBy find selections → height selections ≤ n → Expanded settings find n past →
      Faultless settings n past → collection.Holds settings.schema past →
      errorOf (collectEach settings parent kind selections collection)
        = (faults settings.schema settings.options parent selections).head?
  | [], collection, past, _, _, _, _, _ => by
    rw [collectEach, faults]
    rfl
  | selection :: rest, collection, past, linked, low, expanded, faultless, holds => by
    rw [LinkedBy] at linked
    rw [height, Nat.max_le] at low
    rw [collectEach, faults]
    have first := errorOf_collectSelection parent kind known selection collection past linked.1
      low.1 expanded faultless holds
    refine errorOf_bind first fun middle hm => ?_
    obtain ⟨mentions, holdsMiddle, same⟩ := gathers_collectSelection parent kind known selection
      collection past hm linked.1 low.1 expanded holds
    have linkedOne : LinkedBy find [selection] := ⟨linked.1, trivial⟩
    have sameOne : SameFirsts mentions (past ++ reading settings parent [selection]) := by
      simpa [reading] using same
    -- collecting did not stop in the first selection, so it has no faults
    have clean : faults settings.schema settings.options parent [selection] = [] := by
      rw [hm] at first
      rw [faults, faults, List.append_nil]
      exact List.head?_eq_none_iff.1 first.symm
    exact errorOf_collectEach parent kind known rest middle mentions linked.2 low.2
      (expanded.append_reading parent linkedOne sameOne) (faultless.append_reading clean sameOne)
      holdsMiddle

end

/-- **Collecting stops with the first fault** of the type or of the selections, whatever happens to
repeated fragments. -/
theorem errorOf_collect {find : Name → Option Fragment} {parent : Name}
    {selections : List LinkedSelection} (linked : LinkedBy find selections) :
    errorOf (collect settings parent selections {})
      = (typeFaults settings.schema parent
          ++ faults settings.schema settings.options parent selections).head? := by
  unfold collect
  refine errorOf_bind (errorOf_compositeKind _ _) fun kind hk => ?_
  exact errorOf_collectEach parent kind (compositeKind_eq_ok.1 hk).1 selections {} [] linked
    (Nat.le_refl _) expanded_nil faultless_nil Collection.holds_empty

end

end GraphQLCompiler
