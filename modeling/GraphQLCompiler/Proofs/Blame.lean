import GraphQLCompiler.Proofs.Compilation
import GraphQLCompiler.Proofs.Faults

/-!
# Blame

Compilation stops at places of two kinds: where selections are collected at a composite type, with
the first of their faults, and where a fragment is resolved on its own, with a fault of its type
condition. Besides, operations stop where their name, their variables and their root types are
looked up. So to know something of the errors of compilation it is enough to know it of these
faults, for all selections that compilation comes to (`AccountsFor`).

That nothing else is to **blame** is a judgement about computations (`CompileM.Blames`), which has a
rule for each way to put them together. Its invariant is that the names that are remembered are
those of fragments. So the names that an operation gathers are found when they are printed with it,
whatever was compiled before: this last look-up has no node to point at, and never fails.
-/

namespace GraphQLCompiler

open CompileM

variable {α β : Type}

namespace CompileM

/-- A computation **blames** nothing but errors of some kind if its errors are of the kind, from
every state whose remembered references satisfy an invariant. Besides, its results have a property,
and the invariant is kept whether it stops or not. -/
structure Blames (memo : NameMap (List Name) → Prop) (blame : CompileError → Prop) (m : CompileM α)
    (post : α → Prop) : Prop where
  ensures : Ensures memo False m post
  blames : ∀ state : CompilerState, memo state.references →
    ∀ e, (m.run state).1 = .error e → blame e

variable {memo : NameMap (List Name) → Prop} {blame : CompileError → Prop}

/-! ### Rules -/

/-- A computation that is sure to have a result blames nothing. -/
theorem Ensures.blames {m : CompileM α} {post : α → Prop} (h : Ensures memo True m post) :
    Blames memo blame m post := by
  refine ⟨h.imp False.elim, fun state inv e eq => ?_⟩
  obtain ⟨a, result⟩ := h.succeeds state inv trivial
  rw [result] at eq
  cases eq

theorem blames_pure {a : α} {post : α → Prop} (h : post a) :
    Blames memo blame (pure a : CompileM α) post :=
  (ensures_pure h).blames

theorem blames_tell {events : List LogEvent} : Blames memo blame (tell events) fun _ => True :=
  ensures_tell.blames

theorem blames_useType {schema : Schema} {name : Name} :
    Blames memo blame (useType schema name) fun _ => True :=
  ensures_useType.blames

theorem blames_throw {e : CompileError} {post : α → Prop} (h : blame e) :
    Blames memo blame (throw e : CompileM α) post := by
  refine ⟨ensures_throw id, fun _ _ _ eq => ?_⟩
  cases eq
  exact h

theorem Blames.mono {m : CompileM α} {post post' : α → Prop} (h : Blames memo blame m post)
    (weaker : ∀ a, post a → post' a) : Blames memo blame m post' :=
  ⟨h.ensures.mono weaker, h.blames⟩

theorem Blames.bind {m : CompileM α} {next : α → CompileM β} {post : α → Prop} {post' : β → Prop}
    (h : Blames memo blame m post) (h' : ∀ a, post a → Blames memo blame (next a) post') :
    Blames memo blame (m >>= next) post' := by
  refine ⟨h.ensures.bind fun a ha => (h' a ha).ensures, fun state inv e => ?_⟩
  have kept := h.ensures.kept state inv
  have holds := h.ensures.holds state inv
  have blamed := h.blames state inv
  rw [run_bind]
  rcases hm : m.run state with ⟨e' | a, after⟩
  all_goals rw [hm] at kept holds blamed
  · intro eq
    cases eq
    exact blamed _ rfl
  · exact (h' a (holds a rfl)).blames after kept e

theorem blames_fail {failure : Failure} {post : α → Prop} (h : blame failure.error) :
    Blames memo blame (fail failure : CompileM α) post :=
  blames_tell.bind fun _ _ => blames_throw h

theorem blames_mapM {f : α → CompileM β} {xs : List α}
    (h : ∀ x ∈ xs, Blames memo blame (f x) fun _ => True) :
    Blames memo blame (xs.mapM f) fun _ => True := by
  induction xs with
  | nil =>
    rw [List.mapM_nil]
    exact blames_pure trivial
  | cons x rest ih =>
    rw [List.mapM_cons]
    obtain ⟨first, others⟩ := List.forall_mem_cons.1 h
    exact first.bind fun y _ => (ih others).bind fun ys _ => blames_pure trivial

end CompileM

/-! ### Names of fragments -/

/-- Whether all of some names are those of fragments. -/
def AllFound (find : Name → Option Fragment) (names : List Name) : Prop :=
  ∀ name ∈ names, (find name).isSome

/-- Whether all names that are remembered are those of fragments, for whatever they are
remembered. -/
def RemembersFound (find : Name → Option Fragment) (references : NameMap (List Name)) : Prop :=
  ∀ name names, references.find? name = some names → AllFound find names

theorem AllFound.unionNames {find : Name → Option Fragment} {names more : List Name}
    (h : AllFound find names) (h' : AllFound find more) :
    AllFound find (unionNames names more) := fun name mem =>
  (mem_unionNames.1 mem).elim (h name) (h' name)

theorem RemembersFound.insert {find : Name → Option Fragment} {references : NameMap (List Name)}
    (h : RemembersFound find references) (name : Name) {names : List Name}
    (found : AllFound find names) : RemembersFound find (references.insert name names) := by
  intro other names' eq
  rw [NameMap.find?_insert] at eq
  split at eq
  · cases eq
    exact found
  · exact h other names' eq

/-! ### What resolution stops with -/

/-- The faults of the type condition of a fragment that is resolved on its own. -/
def Fragment.conditionFaults (schema : Schema) (fragment : Fragment) : List CompileError :=
  match schema.typeKind? fragment.typeCondition with
  | none => [.unknownType fragment.typeCondition fragment.location]
  | some _ => typeFaults schema fragment.typeCondition

/-- Errors of some kind **account for** linked selections with a property, which is inherited, if
the first faults of such selections at composite types are of the kind, and so are the faults of
the type conditions of fragments that such selections spread. -/
structure AccountsFor (settings : Settings) (find : Name → Option Fragment)
    (blame : CompileError → Prop) (property : LinkedSelection → Prop) : Prop where
  hereditary : Hereditary property
  linked : ∀ selection, property selection → selection.LinkedBy find
  faults : ∀ parent selections, settings.schema.isComposite parent →
    (∀ selection ∈ selections, property selection) →
    ∀ e, (faults settings.schema settings.options parent selections).head? = some e → blame e
  condition : ∀ name directives location fragment,
    property (.spread name directives location (some fragment)) →
    ∀ e ∈ fragment.conditionFaults settings.schema, blame e

/-- All errors account for all linked selections. -/
theorem accountsFor_linkedBy (settings : Settings) (find : Name → Option Fragment) :
    AccountsFor settings find (fun _ => True) (Selection.LinkedBy find) where
  hereditary := hereditary_linkedBy find
  linked _ := id
  faults _ _ _ _ _ _ := trivial
  condition _ _ _ _ _ _ _ := trivial

section

variable {settings : Settings} {find : Name → Option Fragment} {blame : CompileError → Prop}
  {property : LinkedSelection → Prop}

/-- What collecting at a type stops with, if the faults of the type are of the kind too. -/
theorem AccountsFor.collect (accounts : AccountsFor settings find blame property) {parent : Name}
    (type : ∀ e ∈ typeFaults settings.schema parent, blame e) {selections : List LinkedSelection}
    (holds : ∀ selection ∈ selections, property selection) {failure : Failure}
    (h : collect settings parent selections {} = .error failure) : blame failure.error := by
  have linked : LinkedBy find selections :=
    linkedBy_iff.2 fun selection mem => accounts.linked selection (holds selection mem)
  have first : errorOf (GraphQLCompiler.collect settings parent selections {})
      = (typeFaults settings.schema parent
          ++ GraphQLCompiler.faults settings.schema settings.options parent selections).head? :=
    errorOf_collect linked
  rw [h, errorOf] at first
  rcases mem_or_of_head?_typeFaults first.symm with mem | ⟨composite, first⟩
  · exact type _ mem
  · exact accounts.faults parent selections composite holds _ first

/-- Selections of a site that have the property, with what has been collected at it. -/
structure Site.Accounted (settings : Settings) (find : Name → Option Fragment)
    (property : LinkedSelection → Prop) (site : Site) (collection : Collection) : Prop where
  collected : site.Collected settings find collection
  holds : ∀ selection ∈ site.selections, property selection

theorem AccountsFor.accounted (accounts : AccountsFor settings find blame property) (site : Site)
    (holds : ∀ selection ∈ site.selections, property selection) {collection : Collection}
    (h : GraphQLCompiler.collect settings site.parent site.selections {} = .ok collection) :
    site.Accounted settings find property collection :=
  ⟨site.collected_of_collect (fun selection mem => accounts.linked selection (holds selection mem))
    h, holds⟩

section

variable (settings find blame property) in
/-- A way to resolve lower collections with nothing else to blame than what accounts for their
sites. -/
def Blaming {n : Nat} (recur : ResolveBelow n) : Prop :=
  ∀ (site : Site) (collection : Collection) (lt : collection.height < n),
    site.Accounted settings find property collection →
    Blames (RemembersFound find) blame (recur site.parent collection lt) fun resolved =>
      AllFound find resolved.references

variable {n : Nat} {recur : ResolveBelow n}

private theorem blames_resolveSubselections (accounts : AccountsFor settings find blame property)
    (blaming : Blaming settings find blame property recur) {field : ApplicableField}
    (composite : settings.schema.isComposite field.bareType)
    (holds : ∀ selection ∈ field.site.selections, property selection)
    {bound : ∀ occurrence ∈ field.occurrences, height occurrence.selections < n} :
    Blames (RemembersFound find) blame (resolveSubselections settings recur field bound)
      fun resolved => AllFound find resolved.references := by
  unfold resolveSubselections
  split
  · rename_i merged
    rw [mergeSelections_eq composite] at merged
    have type : ∀ e ∈ typeFaults settings.schema field.bareType, blame e := by
      simp [typeFaults_eq_nil_iff.2 composite]
    exact blames_fail (accounts.collect type holds merged)
  · rename_i collection merged
    rw [mergeSelections_eq composite] at merged
    exact blames_tell.bind fun _ _ =>
      blaming field.site collection _ (accounts.accounted field.site holds merged)

private theorem blames_resolveField (accounts : AccountsFor settings find blame property)
    (blaming : Blaming settings find blame property recur) {parent : Name}
    {field : ApplicableField} (holds : ∀ selection ∈ field.site.selections, property selection)
    {bound : ∀ occurrence ∈ field.occurrences, height occurrence.selections < n} :
    Blames (RemembersFound find) blame (resolveField settings recur parent field bound)
      fun result => AllFound find result.2 := by
  unfold resolveField
  refine blames_useType.bind fun _ _ => ?_
  dsimp only
  split
  · rename_i composite
    rw [← bind_pure_comp, bind_assoc]
    exact (blames_resolveSubselections accounts blaming composite holds).bind
      fun resolved found => blames_pure found
  · have nothing : Blames (RemembersFound find) blame (pure none : CompileM (Option Resolved))
        fun resolved => resolved = none := blames_pure rfl
    refine nothing.bind ?_
    rintro _ rfl
    exact blames_pure fun _ mem => by cases mem

private theorem blames_resolveFields (accounts : AccountsFor settings find blame property)
    (blaming : Blaming settings find blame property recur) {parent : Name} :
    ∀ (fields : List ApplicableField) (bound : ∀ field ∈ fields,
      ∀ occurrence ∈ field.occurrences, height occurrence.selections < n) (references : List Name),
    (∀ field ∈ fields, ∀ selection ∈ field.site.selections, property selection) →
    AllFound find references →
    Blames (RemembersFound find) blame
      (resolveFields settings recur parent fields bound references)
      fun result => AllFound find result.2
  | [], _, references, _, found => blames_pure found
  | field :: rest, bound, references, holds, found => by
    obtain ⟨holdsFirst, holdsRest⟩ := List.forall_mem_cons.1 holds
    rw [resolveFields]
    refine (blames_resolveField accounts blaming holdsFirst).bind fun first own => ?_
    refine (blames_resolveFields accounts blaming rest _ _ holdsRest (found.unionNames own)).bind
      fun others all => ?_
    exact blames_pure all

/-- A fragment that is resolved on its own, whose selections have the property. -/
structure Fragment.Accounted (settings : Settings) (blame : CompileError → Prop)
    (property : LinkedSelection → Prop) (fragment : Fragment) : Prop where
  condition : ∀ e ∈ fragment.conditionFaults settings.schema, blame e
  holds : ∀ selection ∈ fragment.selections, property selection

private theorem blames_resolveFragmentWith (accounts : AccountsFor settings find blame property)
    {fragment : Fragment} {recur : ResolveBelow fragment.height}
    (blaming : Blaming settings find blame property recur)
    (accounted : fragment.Accounted settings blame property) :
    Blames (RemembersFound find) blame (resolveFragmentWith settings fragment recur)
      fun resolved => AllFound find resolved.references := by
  have condition := accounted.condition
  unfold Fragment.conditionFaults at condition
  unfold resolveFragmentWith
  split
  · rename_i unknown
    rw [unknown] at condition
    exact blames_throw (condition _ (List.mem_singleton_self _))
  · rename_i kind known
    rw [known] at condition
    split
    · rename_i failure collected
      exact blames_fail (accounts.collect condition accounted.holds collected)
    · rename_i collection collected
      refine blames_tell.bind fun _ _ => ?_
      refine (blaming fragment.site collection _
        (accounts.accounted fragment.site accounted.holds collected)).bind fun resolved found => ?_
      have remember : Ensures (RemembersFound find) True
          (remember fragment.name resolved.references) fun _ => True :=
        ensures_remember fun references remembers => remembers.insert fragment.name found
      exact remember.blames.bind fun _ _ => blames_pure found

private theorem blames_fragmentReferences (accounts : AccountsFor settings find blame property)
    {fragment : Fragment} {recur : ResolveBelow fragment.height}
    (blaming : Blaming settings find blame property recur)
    (accounted : fragment.Accounted settings blame property) :
    Blames (RemembersFound find) blame (fragmentReferences settings fragment recur)
      (AllFound find) := by
  unfold fragmentReferences
  have remembered : Ensures (RemembersFound find) True (remembered? fragment.name)
      fun known => ∃ references, RemembersFound find references ∧
        references.find? fragment.name = known := ensures_remembered?
  refine remembered.blames.bind fun known ⟨references, remembers, eq⟩ => ?_
  cases known with
  | none =>
    exact (blames_resolveFragmentWith accounts blaming accounted).bind
      fun resolved found => blames_pure found
  | some names =>
    exact blames_tell.bind fun _ _ => blames_pure (remembers fragment.name names eq)

private theorem blames_spreadReferences (accounts : AccountsFor settings find blame property)
    (blaming : Blaming settings find blame property recur) :
    ∀ (fragments : List Fragment) (bound : ∀ fragment ∈ fragments, fragment.height ≤ n)
      (references : List Name),
    (∀ fragment ∈ fragments, fragment.Accounted settings blame property) →
    AllFound find references →
    Blames (RemembersFound find) blame
      (spreadReferences settings recur fragments bound references) (AllFound find)
  | [], _, references, _, found => blames_pure found
  | fragment :: rest, bound, references, accounted, found => by
    obtain ⟨accountedFirst, accountedRest⟩ := List.forall_mem_cons.1 accounted
    rw [spreadReferences]
    have blamingBelow : Blaming settings find blame property (n := fragment.height)
        fun parent lower lt =>
          recur parent lower (Nat.lt_of_lt_of_le lt (bound fragment List.mem_cons_self)) :=
      fun site collection _ => blaming site collection _
    refine (blames_fragmentReferences accounts blamingBelow accountedFirst).bind
      fun own foundOwn => ?_
    exact blames_spreadReferences accounts blaming rest _ _ accountedRest
      (found.unionNames foundOwn)

end

/-! ### Collections of sites -/

namespace Site

variable {site : Site} {collection : Collection}

/-- What is inherited by the fields that apply at a type. -/
theorem Accounted.field (accounts : AccountsFor settings find blame property)
    (h : site.Accounted settings find property collection) {typeName : Name} :
    ∀ field ∈ applicableFields settings.schema typeName collection,
      ∀ selection ∈ field.site.selections, property selection := fun _ applicable =>
  h.collected.inherited_field accounts.hereditary h.holds applicable

/-- What is inherited by the fragments that apply at a type. -/
theorem Accounted.fragment (accounts : AccountsFor settings find blame property)
    (h : site.Accounted settings find property collection) {typeName : Name} :
    ∀ fragment ∈ fragmentsAt settings.schema typeName collection,
      fragment.Accounted settings blame property := by
  intro fragment applicable
  obtain ⟨_, mentioned, -⟩ := h.collected.mem_fragmentsAt.1 applicable
  obtain ⟨name, directives, location, spread⟩ :=
    inherited accounts.hereditary site.parent site.selections h.holds mentioned
  exact ⟨accounts.condition name directives location fragment spread,
    accounts.hereditary.spread spread⟩

/-- The names that are expanded at a site are found. -/
theorem Accounted.expanded (h : site.Accounted settings find property collection) :
    AllFound find (GraphQLCompiler.unionNames [] (collection.fragments.map Fragment.name)) := by
  intro name mem
  obtain ⟨typeName, fragment, mentioned, rfl⟩ := h.collected.mem_expanded_iff.1 mem
  exact Option.isSome_iff_exists.2 ⟨fragment, (h.collected.found mentioned).1⟩

end Site

section

variable {site : Site} {collection : Collection} {recur : ResolveBelow collection.height}
  (accounts : AccountsFor settings find blame property)
  (blaming : Blaming settings find blame property recur)
  (accounted : site.Accounted settings find property collection)

include accounts blaming accounted

private theorem blames_resolveBranches : ∀ objects references : List Name,
    AllFound find references →
    Blames (RemembersFound find) blame
      (resolveBranches settings collection recur objects references)
      fun result => AllFound find result.2
  | [], references, found => blames_pure found
  | object :: rest, references, found => by
    rw [resolveBranches]
    have branch : Blames (RemembersFound find) blame
        (resolveBranch settings collection recur object references)
        fun result => AllFound find result.2 := by
      unfold resolveBranch
      refine (blames_resolveFields accounts blaming _ _ _ (accounted.field accounts) found).bind
        fun fields foundFields => ?_
      refine (blames_spreadReferences accounts blaming _ _ _ (accounted.fragment accounts)
        foundFields).bind fun references foundSpread => ?_
      exact blames_pure foundSpread
    refine branch.bind fun first foundFirst => ?_
    refine (blames_resolveBranches rest _ foundFirst).bind fun others foundOthers => ?_
    exact blames_pure foundOthers

private theorem blames_resolveWith :
    Blames (RemembersFound find) blame (resolveWith settings site.parent collection recur)
      fun resolved => AllFound find resolved.references := by
  unfold resolveWith
  refine (blames_resolveFields accounts blaming _ _ _ (accounted.field accounts)
    accounted.expanded).bind fun fields foundFields => ?_
  refine (blames_resolveBranches accounts blaming accounted _ _ foundFields).bind
    fun branches foundBranches => ?_
  refine (blames_spreadReferences accounts blaming _ _ _ (accounted.fragment accounts)
    foundBranches).bind fun references found => ?_
  exact blames_pure found

end

/-- **What resolution blames** accounts for the selections of the site, and all names that it
gathers are found. -/
theorem blames_resolve (accounts : AccountsFor settings find blame property) {parent : Name}
    {collection : Collection} : ∀ site : Site, site.parent = parent →
    site.Accounted settings find property collection →
    Blames (RemembersFound find) blame (resolve settings parent collection) fun resolved =>
      AllFound find resolved.references := by
  induction parent, collection using resolve.induct with
  | case1 parent collection ih =>
    rintro site rfl accounted
    rw [resolve.eq_1]
    refine blames_resolveWith accounts (fun inner lower lt accountedInner => ?_) accounted
    exact ih inner.parent lower lt inner rfl accountedInner

theorem blames_resolveFragment (accounts : AccountsFor settings find blame property)
    {fragment : Fragment} (accounted : fragment.Accounted settings blame property) :
    Blames (RemembersFound find) blame (resolveFragment settings fragment) fun resolved =>
      AllFound find resolved.references :=
  blames_resolveFragmentWith accounts
    (fun _ _ _ accountedInner => blames_resolve accounts _ rfl accountedInner) accounted

end

/-! ### Definitions -/

section

variable {compiler : Compiler} {library : FragmentLibrary} {blame : CompileError → Prop}
  {property : LinkedSelection → Prop}

variable (compiler library blame property) in
/-- An operation whose selections have the property, where what else operations stop with is of the
kind too. -/
structure OperationDefinition.Accounted (definition : OperationDefinition) : Prop where
  name : definition.name = none → blame (.anonymousOperation definition.location)
  variableTypes : ∀ variableDefinition ∈ definition.variableDefinitions,
    compiler.schema.typeKind? variableDefinition.type.bare = none →
    blame (.unknownType variableDefinition.type.bare variableDefinition.location)
  root : compiler.schema.rootType? definition.operationType = none →
    blame (.missingRootOperationType definition.operationType definition.location)
  type : ∀ root, compiler.schema.rootType? definition.operationType = some root →
    ∀ e ∈ typeFaults compiler.schema root, blame e
  holds : ∀ selection ∈ link library.find? definition.selections, property selection

variable (accounts : AccountsFor compiler.settings library.find? blame property)

private theorem blames_compileVariable {memo : NameMap (List Name) → Prop}
    {definition : VariableDefinition}
    (unknown : compiler.schema.typeKind? definition.type.bare = none →
      blame (.unknownType definition.type.bare definition.location)) :
    Blames memo blame (compiler.compileVariable definition) fun _ => True := by
  unfold Compiler.compileVariable
  dsimp only
  split
  · rename_i missing
    exact blames_throw (unknown missing)
  · exact blames_useType.bind fun _ _ => blames_pure trivial

private theorem blames_requireName {memo : NameMap (List Name) → Prop}
    {definition : OperationDefinition}
    (anonymous : definition.name = none → blame (.anonymousOperation definition.location)) :
    Blames memo blame (Compiler.requireName definition) fun _ => True := by
  unfold Compiler.requireName
  split
  · exact blames_pure trivial
  · rename_i missing
    exact blames_throw (anonymous missing)

private theorem blames_requireRoot {memo : NameMap (List Name) → Prop}
    {definition : OperationDefinition}
    (rootless : compiler.schema.rootType? definition.operationType = none →
      blame (.missingRootOperationType definition.operationType definition.location)) :
    Blames memo blame (compiler.requireRoot definition) fun root =>
      compiler.schema.rootType? definition.operationType = some root := by
  unfold Compiler.requireRoot
  split
  · rename_i found
    exact blames_pure found
  · rename_i missing
    exact blames_throw (rootless missing)

include accounts

private theorem blames_resolveSelections {root : Name} {selections : WrittenSelections}
    (type : ∀ e ∈ typeFaults compiler.schema root, blame e)
    (holds : ∀ selection ∈ link library.find? selections, property selection) :
    Blames (RemembersFound library.find?) blame
      (compiler.resolveSelections root (link library.find? selections)) fun resolved =>
        AllFound library.find? resolved.references := by
  unfold Compiler.resolveSelections
  split
  · rename_i failure collected
    exact blames_fail (accounts.collect type holds collected)
  · rename_i collection collected
    refine blames_tell.bind fun _ _ => ?_
    exact blames_resolve accounts (.start library root selections) rfl
      (accounts.accounted (.start library root selections) holds collected)

/-- **What the compilation of an operation blames**: nothing but what accounts for the operation.
What is printed is found. -/
theorem blames_compileOperation (acyclic : compiler.table.library = .ok library)
    {definition : OperationDefinition}
    (accounted : definition.Accounted compiler library blame property) :
    Blames (RemembersFound library.find?) blame (compiler.compileOperation definition)
      fun _ => True := by
  unfold Compiler.compileOperation
  refine (ensures_library acyclic).blames.bind fun linked linkedEq => ?_
  rw [linkedEq]
  refine (blames_requireName accounted.name).bind fun name _ => blames_tell.bind fun _ _ => ?_
  refine (blames_mapM fun variableDefinition mem =>
    blames_compileVariable (accounted.variableTypes variableDefinition mem)).bind fun _ _ => ?_
  refine (blames_requireRoot accounted.root).bind fun root rootEq => ?_
  refine (blames_resolveSelections accounts (accounted.type root rootEq) accounted.holds).bind
    fun resolved found => ?_
  have defined : ∀ name ∈ resolved.references, compiler.table.contains name := by
    intro name mem
    have isSome := found name mem
    rwa [FragmentTable.find?_library acyclic, Option.isSome_map] at isSome
  refine (Ensures.blames (ensures_ofExcept fun _ => exists_printWithFragments defined _)).bind
    fun text _ => ?_
  exact blames_tell.bind fun _ _ => blames_pure trivial

/-- **What the compilation of a fragment blames**: nothing but what accounts for the fragment. -/
theorem blames_compileFragment (acyclic : compiler.table.library = .ok library)
    {definition : FragmentDefinition}
    (accounted : (definition.link library.find?).Accounted compiler.settings blame property) :
    Blames (RemembersFound library.find?) blame (compiler.compileFragment definition)
      fun _ => True := by
  unfold Compiler.compileFragment
  refine (ensures_library acyclic).blames.bind fun linked linkedEq => ?_
  rw [linkedEq]
  refine blames_tell.bind fun _ _ => ?_
  exact (blames_resolveFragment accounts accounted).bind fun resolved _ => blames_pure trivial

end

/-- Whatever a compiler was asked for before, the names that it remembers are those of its
fragments. -/
theorem Compiler.Reached.remembersFound {compiler : Compiler} {library : FragmentLibrary}
    (acyclic : compiler.table.library = .ok library) (named : compiler.table.IsNamed)
    {state : CompilerState} (reached : compiler.Reached state) :
    RemembersFound library.find? state.references := by
  have accounts := accountsFor_linkedBy compiler.settings library.find?
  have linked : ∀ selections : WrittenSelections,
      ∀ selection ∈ link library.find? selections, selection.LinkedBy library.find? :=
    fun selections => linkedBy_iff.1 (FragmentTable.linkedBy_link acyclic named selections)
  induction reached with
  | fresh => exact fun _ _ found => by cases found
  | operation definition _ ih =>
    have accounted : definition.Accounted compiler library (fun _ => True)
        (Selection.LinkedBy library.find?) :=
      ⟨fun _ => trivial, fun _ _ _ => trivial, fun _ => trivial, fun _ _ _ _ => trivial,
        linked definition.selections⟩
    exact (blames_compileOperation accounts acyclic accounted).ensures.kept _ ih
  | fragment definition _ ih =>
    have accounted : (definition.link library.find?).Accounted compiler.settings (fun _ => True)
        (Selection.LinkedBy library.find?) := ⟨fun _ _ => trivial, linked definition.selections⟩
    exact (blames_compileFragment accounts acyclic accounted).ensures.kept _ ih

end GraphQLCompiler
