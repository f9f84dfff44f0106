import GraphQLCompiler.Compiled.Serialization
import GraphQLCompiler.Proofs.Decoding
import GraphQLCompiler.Proofs.MemberOrder
import GraphQLCompiler.Proofs.Recording

/-!
# Serialization loses nothing

A compiled document is read back from its JSON, whatever is left out of it
(`Compiled.Document.toJson_loses_nothing`). All that is asked of the document is that the types in
it have names, so that their notation can be read.

The decoder only looks members up by their keys. So the members may as well be rearranged, and the
document that is read has its maps rearranged likewise. Both are proved at once, for all
rearrangements, of which leaving the JSON as it is is one. A field is read back by induction on the
tree: its own members do not depend on the fields inside it, and those are read back already
(`Compiled.Field.isRead`).
-/

namespace GraphQLCompiler

namespace Compiled

variable (r : Rearrangement)

theorem fieldsToJson_eq_map (fields : List Field) :
    fieldsToJson fields = fields.map Field.toJson := by
  induction fields with
  | nil => rfl
  | cons field rest ih => rw [fieldsToJson, ih, List.map_cons]

theorem inlineFragmentsToJson_eq_map (inlineFragments : List InlineFragment) :
    inlineFragmentsToJson inlineFragments = inlineFragments.map InlineFragment.toJson := by
  induction inlineFragments with
  | nil => rfl
  | cons branch rest ih => rw [inlineFragmentsToJson, ih, List.map_cons]

end Compiled

/-! ### Reading values -/

namespace Json

variable (r : Rearrangement) {α β : Type}

theorem toString?_rearrange (text : String) :
    toString? ((string text).rearrange r) = some text := by
  rw [rearrange_string, toString?]

theorem toBool?_rearrange (b : Bool) : toBool? ((bool b).rearrange r) = some b := by
  rw [rearrange_bool, toBool?]

private theorem mapM_eq_some_map {f : α → Option β} {g : α → β} {l : List α}
    (h : ∀ a ∈ l, f a = some (g a)) : l.mapM f = some (l.map g) := by
  induction l with
  | nil => rfl
  | cons a rest ih =>
    rw [List.mapM_cons, h a List.mem_cons_self, ih fun b mem => h b (List.mem_cons_of_mem _ mem)]
    rfl

theorem toList?_rearrange {read : Json → Option α} {write : β → Json} {result : β → α}
    {values : List β}
    (h : ∀ value ∈ values, read ((write value).rearrange r) = some (result value)) :
    toList? read ((array (values.map write)).rearrange r) = some (values.map result) := by
  rw [rearrange_array, toList?, List.map_map, List.mapM_map]
  exact mapM_eq_some_map h

theorem toStrings?_rearrange (texts : List String) :
    toStrings? ((strings texts).rearrange r) = some texts := by
  rw [toStrings?, strings, toList?_rearrange r fun text _ => toString?_rearrange r text,
    List.map_id']

/-- A map is read back in its new order if its values are. -/
theorem toMap?_rearrange {read : Json → Option α} {write : β → Json} {result : β → α}
    {m : NameMap β}
    (h : ∀ value ∈ m.values, read ((write value).rearrange r) = some (result value)) :
    toMap? read ((object (m.mapValues write)).rearrange r)
      = some (r.order (m.mapValues result)) := by
  have reads : ((m.mapValues write).mapValues (rearrange r)).mapValues read
      = (m.mapValues result).mapValues some := by
    simp only [NameMap.mapValues, List.map_map]
    exact List.map_congr_left fun p mem => Prod.ext rfl (h p.2 (List.mem_map_of_mem mem))
  have split : ∀ members : NameMap Json, toMap? read (object members)
      = (members.mapValues read).mapM fun p => p.2.map fun value => (p.1, value) := fun members => by
    rw [toMap?, NameMap.mapValues, List.mapM_map]
    rfl
  -- an order goes by the keys alone, so it can be brought in front of reading
  rw [rearrange_object, split, rearranged, ← r.order_mapValues, reads, r.order_mapValues,
    NameMap.mapValues, List.mapM_map]
  exact (mapM_eq_some_map fun p _ => rfl).trans (congrArg some (List.map_id _))

theorem member?_rearranged {read : Json → Option α} {members : NameMap Json} (key : String)
    {json : Json} (h : members.find? key = some json) :
    member? read (rearranged r members) key = read (json.rearrange r) := by
  rw [member?, find?_rearranged, h, Option.map_some, Option.bind_some]

theorem memberIfAny?_rearranged {read : Json → Option α} {write : β → Json} {result : β → α}
    {members : NameMap Json} {key : String} {value : Option β}
    (h : members.find? key = value.map write)
    (reads : ∀ v, read ((write v).rearrange r) = some (result v)) :
    memberIfAny? read (rearranged r members) key = some (value.map result) := by
  rw [memberIfAny?, find?_rearranged, h]
  cases value with
  | none => rfl
  | some v => exact congrArg (Option.map some) (reads v)

end Json

namespace Compiled

variable (r : Rearrangement)

open Json

theorem Variable.ofJson?_rearrange {v : Variable} (isName : IsName v.type.bare) :
    Variable.ofJson? (v.toJson.rearrange r) = some v := by
  simp only [Variable.toJson, rearrange_object, ofJson?, member?, find?_rearranged]
  simp [NameMap.find?, toString?_rearrange, TypeRef.read_print isName]

theorem Argument.ofJson?_rearrange (a : Argument) :
    Argument.ofJson? (a.toJson.rearrange r) = some (a.rearrange r) := by
  simp only [Argument.toJson, rearrange_object, ofJson?, member?, find?_rearranged]
  simp [NameMap.find?, toString?_rearrange, Argument.rearrange]

/-! ### Looking members up -/

theorem find?_optionalMember (name : String) (value : Option Json) (key : String) :
    NameMap.find? (optionalMember name value) key = if name = key then value else none := by
  cases value with
  | none => simp [optionalMember]
  | some v => rfl

/-- The members of a field. -/
def Field.members (field : Field) : NameMap Json :=
  field.ownMembers ++ optionalMembers field.selectionSet

theorem Field.toJson_eq (field : Field) : field.toJson = .object field.members := by
  cases field
  rw [toJson]
  rfl

theorem SelectionSet.members_eq (selectionSet : SelectionSet) :
    SelectionSet.members selectionSet = [
      ("fields", .array (selectionSet.fields.map Field.toJson)),
      ("fragmentSpreads", .strings selectionSet.fragmentSpreads),
      ("inlineFragments", .array (selectionSet.inlineFragments.map InlineFragment.toJson))] := by
  cases selectionSet
  rw [members, fieldsToJson_eq_map, inlineFragmentsToJson_eq_map]

theorem find?_optionalMembers {selectionSet : Option SelectionSet} {key : String}
    (other : key ∉ ["fields", "fragmentSpreads", "inlineFragments"]) :
    NameMap.find? (optionalMembers selectionSet) key = none := by
  cases selectionSet with
  | none => rfl
  | some inner =>
    rw [optionalMembers, SelectionSet.members_eq]
    grind [NameMap.find?]

theorem Field.find?_members_of_own {field : Field} {key : String}
    (other : key ∉ ["fields", "fragmentSpreads", "inlineFragments"]) :
    field.members.find? key = NameMap.find? field.ownMembers key := by
  rw [members, NameMap.find?_append, find?_optionalMembers other, Option.or_none]

theorem Field.find?_args (field : Field) : field.members.find? "args"
    = Option.map (fun arguments => .array (arguments.map Argument.toJson))
      (if field.arguments.isEmpty then none else some field.arguments) := by
  rw [find?_members_of_own (by decide)]
  simp [ownMembers, NameMap.find?, NameMap.find?_append, NameMap.find?_ite, find?_optionalMember,
    apply_ite (Option.map _)]

theorem Field.find?_isConditional (field : Field) : field.members.find? "isConditional"
    = Option.map .bool (if field.isConditional then some true else none) := by
  rw [find?_members_of_own (by decide)]
  simp [ownMembers, NameMap.find?, NameMap.find?_append, NameMap.find?_ite, find?_optionalMember,
    apply_ite (Option.map _)]

theorem Field.find?_description (field : Field) :
    field.members.find? "description" = field.description.map .string := by
  rw [find?_members_of_own (by decide)]
  simp [ownMembers, NameMap.find?, NameMap.find?_append, NameMap.find?_ite, find?_optionalMember]

/-- What is left out of a field has the value for which it is left out. -/
theorem Field.ofMembers?_rearranged {field : Field} (isName : IsName field.type.bare)
    (selectionSet : Option SelectionSet) :
    Field.ofMembers? (rearranged r field.members) selectionSet = some { field with
      arguments := field.arguments.map (Argument.rearrange r), selectionSet } := by
  have argumentsRead := memberIfAny?_rearranged r field.find?_args fun arguments =>
    toList?_rearrange r fun a _ => Argument.ofJson?_rearrange r a
  have argumentsEq : (Option.map (List.map (Argument.rearrange r))
      (if field.arguments.isEmpty then none else some field.arguments)).getD []
        = field.arguments.map (Argument.rearrange r) := by
    cases field.arguments <;> rfl
  have isConditionalEq : (if field.isConditional then some true else none).getD false
      = field.isConditional := by
    cases field.isConditional <;> rfl
  rw [ofMembers?, member?_rearranged r "responseName" rfl, member?_rearranged r "fieldName" rfl,
    member?_rearranged r "type" rfl, argumentsRead,
    memberIfAny?_rearranged r field.find?_isConditional (toBool?_rearrange r),
    memberIfAny?_rearranged r field.find?_description (toString?_rearrange r)]
  simp only [toString?_rearrange, Option.bind_eq_bind, Option.bind_some, TypeRef.read_print isName,
    argumentsEq, Option.map_id_fun', id, isConditionalEq]
  rfl

/-! ### Reading the tree of fields -/

/-- Whether a field is read back. -/
def Field.IsRead (field : Field) : Prop :=
  Field.ofJson? (field.toJson.rearrange r) = some (field.rearrange r)

theorem fieldsIn?_rearranged {members : NameMap Json} {fields : List Field}
    (h : members.find? "fields" = some (.array (fields.map Field.toJson)))
    (read : ∀ field ∈ fields, field.IsRead r) :
    fieldsIn? (rearranged r members) = some (rearrangeFields r fields) := by
  rw [fieldsIn?_eq_member?, member?_rearranged r _ h, toList?_rearrange r read,
    rearrangeFields_eq_map]

theorem InlineFragment.ofJson?_rearrange {branch : InlineFragment}
    (read : ∀ field ∈ branch.fields, field.IsRead r) :
    InlineFragment.ofJson? ((InlineFragment.toJson branch).rearrange r)
      = some (InlineFragment.rearrange r branch) := by
  obtain ⟨typeCondition, possibleTypes, fields, fragmentSpreads⟩ := branch
  rw [InlineFragment.toJson, fieldsToJson_eq_map, rearrange_object, ofJson?, ofMembers?,
    fieldsIn?_rearranged r rfl read]
  simp only [member?, find?_rearranged]
  simp [NameMap.find?, toString?_rearrange, toStrings?_rearrange, InlineFragment.rearrange]

/-- A selection set is read back if the fields in it are. -/
theorem selectionSetOfMembers?_rearranged {members : NameMap Json} {selectionSet : SelectionSet}
    (fields : members.find? "fields" = some (.array (selectionSet.fields.map Field.toJson)))
    (fragmentSpreads : members.find? "fragmentSpreads"
      = some (.strings selectionSet.fragmentSpreads))
    (inlineFragments : members.find? "inlineFragments"
      = some (.array (selectionSet.inlineFragments.map InlineFragment.toJson)))
    (read : ∀ field ∈ allFields selectionSet, field.IsRead r) :
    selectionSetOfMembers? (rearranged r members) (fieldsIn? (rearranged r members))
        (branchesIn? (rearranged r members))
      = some (some (SelectionSet.rearrange r selectionSet)) := by
  have composite : (rearranged r members).contains "fields" := by
    rw [NameMap.contains, find?_rearranged, fields]
    rfl
  have fieldsRead := fieldsIn?_rearranged r fields fun field mem =>
    read field (List.mem_append_left _ mem)
  have branchesRead : branchesIn? (rearranged r members)
      = some (rearrangeBranches r selectionSet.inlineFragments) := by
    rw [branchesIn?_eq_member?, member?_rearranged r _ inlineFragments, toList?_rearrange r,
      rearrangeBranches_eq_map]
    exact fun branch memBranch => InlineFragment.ofJson?_rearrange r fun field mem =>
      read field (List.mem_append_right _ (List.mem_flatMap.2 ⟨branch, memBranch, mem⟩))
  rw [selectionSetOfMembers?, if_pos composite, fieldsRead, branchesRead,
    member?_rearranged r _ fragmentSpreads, toStrings?_rearrange]
  cases selectionSet
  rfl

/-- The selection set of a field is read back if the fields in it are. -/
theorem selectionSetOfMembers?_members {field : Field}
    (read : ∀ inner, field.selectionSet = some inner → ∀ child ∈ allFields inner, child.IsRead r) :
    selectionSetOfMembers? (rearranged r field.members) (fieldsIn? (rearranged r field.members))
        (branchesIn? (rearranged r field.members))
      = some (rearrangeOptional r field.selectionSet) := by
  have own : ∀ key ∈ ["fields", "fragmentSpreads", "inlineFragments"],
      field.members.find? key = NameMap.find? (optionalMembers field.selectionSet) key := by
    intro key mem
    have none : NameMap.find? field.ownMembers key = none := by
      simp only [List.mem_cons, List.not_mem_nil, or_false] at mem
      rcases mem with rfl | rfl | rfl <;>
        simp [Field.ownMembers, NameMap.find?, NameMap.find?_append, NameMap.find?_ite, find?_optionalMember]
    rw [Field.members, NameMap.find?_append, none, Option.none_or]
  cases composite : field.selectionSet with
  | none =>
    have leaf : ¬(rearranged r field.members).contains "fields" := by
      rw [NameMap.contains, find?_rearranged, own _ (by decide), composite]
      exact Bool.false_ne_true
    rw [selectionSetOfMembers?, if_neg leaf]
    rfl
  | some inner =>
    rw [composite, optionalMembers, SelectionSet.members_eq] at own
    exact selectionSetOfMembers?_rearranged r (own "fields" (by decide))
      (own "fragmentSpreads" (by decide)) (own "inlineFragments" (by decide))
      (read inner composite)

/-- **A field is read back** if the types in it have names. -/
theorem Field.isRead (field : Field)
    (named : ∀ inner, Among [field] inner → IsName inner.type.bare) : field.IsRead r := by
  induction field using Field.induction with
  | step field ih =>
    have inside := selectionSetOfMembers?_members r fun inner composite child mem =>
      ih inner composite child mem fun other among =>
        named other (.inside List.mem_cons_self composite (among.of_mem mem))
    rw [IsRead, toJson_eq, rearrange_object, ofJson?, inside, Option.bind_eq_bind,
      Option.bind_some, ofMembers?_rearranged r (named field (.here List.mem_cons_self))]
    cases field
    rfl

/-! ### Reading definitions -/

theorem operationTypeOfJson?_rearrange (type : OperationType) :
    operationTypeOfJson? ((string type.keyword).rearrange r) = some type := by
  rw [operationTypeOfJson?, toString?_rearrange]
  cases type <;> rfl

/-- The members that every operation has. -/
def Operation.ownMembers (o : Operation) : NameMap Json := [
  ("operationName", .string o.name),
  ("operationType", .string o.operationType.keyword),
  ("rootType", .string o.rootType),
  ("variables", .array (o.variableDefinitions.map Variable.toJson)),
  ("source", .string o.source),
  ("sourceWithFragments", .string o.sourceWithFragments),
  ("fields", .array (o.fields.map Field.toJson)),
  ("fragmentsReferenced", .strings o.fragmentsReferenced)]

/-- The members of a definition with the path of its file, if there is one, in front. -/
def withFilePath (filePath : Option String) (members : NameMap Json) : NameMap Json :=
  optionalMember "filePath" (filePath.map .string) ++ members

theorem find?_withFilePath_of_find? {filePath : Option String} {members : NameMap Json}
    (key : String) {json : Json} (other : key ≠ "filePath") (h : members.find? key = some json) :
    (withFilePath filePath members).find? key = some json := by
  rw [withFilePath, NameMap.find?_append, find?_optionalMember, if_neg other.symm, Option.none_or, h]

theorem find?_filePath {filePath : Option String} {members : NameMap Json}
    (other : members.find? "filePath" = none) :
    (withFilePath filePath members).find? "filePath" = filePath.map .string := by
  rw [withFilePath, NameMap.find?_append, find?_optionalMember, if_pos rfl, other, Option.or_none]

theorem Operation.toJson_eq (o : Operation) :
    o.toJson = .object (withFilePath o.filePath o.ownMembers) := by
  rw [toJson, fieldsToJson_eq_map]
  rfl

theorem Operation.ofJson?_rearrange {o : Operation}
    (variablesNamed : ∀ v ∈ o.variableDefinitions, IsName v.type.bare)
    (named : ∀ field, Among o.fields field → IsName field.type.bare) :
    Operation.ofJson? (o.toJson.rearrange r) = some (o.rearrange r) := by
  have read := fun field mem => Field.isRead r field fun inner among =>
    named inner (among.of_mem mem)
  have found := @find?_withFilePath_of_find? o.filePath o.ownMembers
  have variablesRead : toList? Variable.ofJson?
      ((array (o.variableDefinitions.map Variable.toJson)).rearrange r)
        = some o.variableDefinitions := by
    rw [toList?_rearrange r fun v mem => Variable.ofJson?_rearrange r (variablesNamed v mem)]
    exact congrArg some (List.map_id _)
  rw [toJson_eq, rearrange_object, ofJson?,
    memberIfAny?_rearranged r (find?_filePath rfl) (toString?_rearrange r),
    member?_rearranged r _ (found "operationName" (by decide) rfl),
    member?_rearranged r _ (found "operationType" (by decide) rfl),
    member?_rearranged r _ (found "rootType" (by decide) rfl),
    member?_rearranged r _ (found "variables" (by decide) rfl),
    member?_rearranged r _ (found "source" (by decide) rfl),
    member?_rearranged r _ (found "sourceWithFragments" (by decide) rfl),
    member?_rearranged r _ (found "fragmentsReferenced" (by decide) rfl),
    fieldsIn?_rearranged r (found "fields" (by decide) rfl) read,
    toString?_rearrange, toString?_rearrange, toString?_rearrange, toString?_rearrange,
    operationTypeOfJson?_rearrange, variablesRead, toStrings?_rearrange, Option.map_id_fun']
  rfl

/-- The members that every fragment has. -/
def Fragment.ownMembers (f : Fragment) : NameMap Json := [
  ("fragmentName", .string f.name),
  ("source", .string f.source),
  ("typeCondition", .string f.typeCondition),
  ("possibleTypes", .strings f.possibleTypes),
  ("fields", .array (f.selectionSet.fields.map Field.toJson)),
  ("fragmentSpreads", .strings f.selectionSet.fragmentSpreads),
  ("inlineFragments", .array (f.selectionSet.inlineFragments.map InlineFragment.toJson)),
  ("fragmentsReferenced", .strings f.fragmentsReferenced)]

theorem Fragment.toJson_eq (f : Fragment) :
    f.toJson = .object (withFilePath f.filePath f.ownMembers) := by
  rw [toJson, SelectionSet.members_eq, List.append_assoc, List.append_assoc]
  rfl

theorem Fragment.ofJson?_rearrange {f : Fragment}
    (named : ∀ field, Among (allFields f.selectionSet) field → IsName field.type.bare) :
    Fragment.ofJson? (f.toJson.rearrange r) = some (f.rearrange r) := by
  have read := fun field mem => Field.isRead r field fun inner among =>
    named inner (among.of_mem mem)
  have found := @find?_withFilePath_of_find? f.filePath f.ownMembers
  have selectionSet := selectionSetOfMembers?_rearranged r (found "fields" (by decide) rfl)
    (found "fragmentSpreads" (by decide) rfl) (found "inlineFragments" (by decide) rfl) read
  rw [toJson_eq, rearrange_object, ofJson?,
    memberIfAny?_rearranged r (find?_filePath rfl) (toString?_rearrange r),
    member?_rearranged r _ (found "fragmentName" (by decide) rfl),
    member?_rearranged r _ (found "source" (by decide) rfl),
    member?_rearranged r _ (found "typeCondition" (by decide) rfl),
    member?_rearranged r _ (found "possibleTypes" (by decide) rfl),
    member?_rearranged r _ (found "fragmentsReferenced" (by decide) rfl), selectionSet,
    toString?_rearrange, toString?_rearrange, toString?_rearrange,
    toStrings?_rearrange, toStrings?_rearrange, Option.map_id_fun']
  rfl

/-! ### Documents -/

/-- Whether the types of the variables and fields of a document have names. -/
def Document.HasNamedTypes (d : Document) : Prop := ∀ name, d.Needs name → IsName name

theorem Document.ofJson?_rearrange {d : Document} (named : d.HasNamedTypes) :
    ofJson? (d.toJson.rearrange r) = some (d.rearrange r) := by
  have operationsRead := toMap?_rearrange r fun o mem => Operation.ofJson?_rearrange r (o := o)
    (fun v memVariables => named _ (.variable mem memVariables))
    (fun field among => named _ (.operationField mem among))
  have fragmentsRead := toMap?_rearrange r fun f mem => Fragment.ofJson?_rearrange r (f := f)
    fun field among => named _ (.fragmentField mem among)
  have members : d.toJson = .object [
      ("operations", .object (d.operations.mapValues Operation.toJson)),
      ("fragments", .object (d.fragments.mapValues Fragment.toJson)),
      ("typesUsed", .strings d.typesUsed)] := rfl
  rw [members, rearrange_object, ofJson?, member?_rearranged r "operations" rfl,
    member?_rearranged r "fragments" rfl, member?_rearranged r "typesUsed" rfl,
    operationsRead, fragmentsRead, toStrings?_rearrange]
  rfl

/-- **Serialization loses nothing.** A compiled document is read back from its JSON, and from JSON
with the members of objects in another order it is read back up to that order. So documents with
the same JSON are the same, and documents whose JSON is the same when the order of members is
forgotten are the same when that of their maps is. -/
theorem Document.toJson_loses_nothing {d : Document} (named : d.HasNamedTypes) :
    ofJson? d.toJson = some d ∧ (∀ r, ofJson? (d.toJson.rearrange r) = some (d.rearrange r)) ∧
      ∀ d' : Document, d'.HasNamedTypes → (d.toJson = d'.toJson → d = d') ∧
        (d.toJson.rearrange .sorting = d'.toJson.rearrange .sorting →
          d.rearrange .sorting = d'.rearrange .sorting) := by
  have read : ∀ {d : Document}, d.HasNamedTypes → ofJson? d.toJson = some d := by
    intro d named
    have identity := ofJson?_rearrange .identity named
    rwa [Json.rearrange_identity, Document.rearrange_identity] at identity
  refine ⟨read named, fun r => ofJson?_rearrange r named, fun d' named' => ⟨fun same => ?_, ?_⟩⟩
  · exact Option.some.inj ((read named).symm.trans (same ▸ read named'))
  · intro same
    have sorted := ofJson?_rearrange .sorting named
    rw [same, ofJson?_rearrange .sorting named'] at sorted
    exact (Option.some.inj sorted).symm

/-- A field of a scalar type. -/
def nameField : Field where
  responseName := "name"
  fieldName := "name"
  type := .named "String" true
  arguments := []
  isConditional := false
  description := some "The name of the character"
  selectionSet := none

/-- A conditional field with an argument and a branch. -/
def heroField : Field where
  responseName := "hero"
  fieldName := "hero"
  type := .list (.named "Character" true) false
  arguments := [{ name := "episode", value := .object [("kind", .string "Variable"),
    ("variableName", .string "episode")] }]
  isConditional := true
  description := none
  selectionSet := some {
    fields := []
    fragmentSpreads := []
    inlineFragments := [{
      typeCondition := "Droid", possibleTypes := ["Droid"], fields := [nameField],
      fragmentSpreads := [] }] }

/-- A document of one operation. -/
def heroDocument : Document where
  operations := [("Hero", {
    filePath := some "query.graphql"
    name := "Hero"
    operationType := .query
    rootType := "Query"
    variableDefinitions := [{ name := "episode", type := .named "Episode" false }]
    source := ""
    sourceWithFragments := ""
    fields := [heroField]
    fragmentsReferenced := [] })]
  fragments := []
  typesUsed := ["Episode"]

/-- The document is read back from its JSON. -/
theorem Document.toJson_loses_nothing_hero :
    heroDocument.HasNamedTypes ∧ ofJson? heroDocument.toJson = some heroDocument := by
  have leaf : ∀ {field}, Among [nameField] field → field = nameField := by
    rintro field (mem | ⟨mem, composite, -⟩)
    · exact List.mem_singleton.1 mem
    · rw [List.mem_singleton.1 mem] at composite
      cases composite
  have inside : ∀ {field}, Among [heroField] field → field = heroField ∨ field = nameField := by
    rintro field (mem | ⟨mem, composite, among⟩)
    · exact .inl (List.mem_singleton.1 mem)
    · rw [List.mem_singleton.1 mem] at composite
      cases composite
      exact .inr (leaf among)
  have named : heroDocument.HasNamedTypes := by
    rintro name (⟨operationMem, mem⟩ | ⟨operationMem, among⟩ | ⟨fragmentMem, -⟩)
    · rw [List.mem_singleton.1 operationMem] at mem
      rw [List.mem_singleton.1 mem]
      decide
    · rw [List.mem_singleton.1 operationMem] at among
      rcases inside among with rfl | rfl <;> decide
    · cases fragmentMem
  exact ⟨named, (toJson_loses_nothing named).1⟩

end Compiled

end GraphQLCompiler
