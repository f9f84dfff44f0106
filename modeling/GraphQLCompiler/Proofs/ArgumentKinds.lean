import GraphQLCompiler.Compiled.ArgumentValue
import GraphQLCompiler.Proofs.FirstOccurrence
import GraphQLCompiler.Proofs.NumberLiterals

/-!
# Kinds of argument values

The JSON of an argument tells what was written, but for two things. A number that is too large
becomes null. And the object that stands for a variable can be spelled as an object literal, with
the fields `kind` and `variableName` (`Value.Spells`).

Apart from these the JSON of a value and the value are of one kind at every depth
(`Value.toJson_tells`). In particular the JSON of a value in which no object spells a variable is
that of a value with a variable only if it has that variable itself.

Values are taken as they are parsed: numbers are literals of the grammar, and the names of the
fields of an object are distinct (`Value.IsWritten`).
-/

namespace GraphQLCompiler

namespace Value

/-! ### Values inside values -/

/-- A value is in others at any depth: in itself, in lists and in the fields of objects. -/
inductive IsIn (inner : Value) : Value → Prop
  | self : IsIn inner inner
  | item {items : List Value} {item : Value} (mem : item ∈ items) (isIn : inner.IsIn item) :
      IsIn inner (.list items)
  | field {fields : List (Name × Value)} {field : Name × Value} (mem : field ∈ fields)
      (isIn : inner.IsIn field.2) : IsIn inner (.object fields)

/-- Whether a value is well-formed, apart from those inside it. -/
def IsProper : Value → Prop
  | .int literal => IsIntLiteral literal
  | .float literal => IsFloatLiteral literal
  | .object fields => (fields.map Prod.fst).Nodup
  | _ => True

/-- Whether a value is well-formed at every depth. -/
def IsWritten (value : Value) : Prop :=
  ∀ inner : Value, inner.IsIn value → inner.IsProper

theorem IsWritten.isProper {value : Value} (written : value.IsWritten) : value.IsProper :=
  written value .self

theorem isWritten_list {items : List Value} :
    (Value.list items).IsWritten ↔ ∀ item ∈ items, item.IsWritten := by
  constructor
  · exact fun written item mem inner isIn => written inner (.item mem isIn)
  · rintro written inner (_ | ⟨mem, isIn⟩)
    · exact trivial
    · exact written _ mem inner isIn

theorem isWritten_object {fields : List (Name × Value)} :
    (Value.object fields).IsWritten ↔
      (fields.map Prod.fst).Nodup ∧ ∀ field ∈ fields, field.2.IsWritten := by
  constructor
  · exact fun written =>
      ⟨written.isProper, fun field mem inner isIn => written inner (.field mem isIn)⟩
  · rintro ⟨nodup, written⟩ inner (_ | _ | ⟨mem, isIn⟩)
    · exact nodup
    · exact written _ mem inner isIn

/-! ### Kinds of values -/

/-- Whether a value is a number. -/
def IsNumber (value : Value) : Prop :=
  ∃ literal, value = .int literal ∨ value = .float literal

/-- Whether a value is a number that is at least halfway between the greatest floating point number
and the next power of two. -/
def IsTooLarge (value : Value) : Prop :=
  ∃ literal d, (value = .int literal ∨ value = .float literal) ∧
    Decimal.read? literal = some d ∧ Binary64.overflowBound ≤ d.abs

/-- Whether a value is a text: a string or the name of an enum value. -/
def IsText (value : Value) (text : String) : Prop := value = .string text ∨ value = .enum text

/-- Whether a value is an object literal with what the JSON of a variable has. -/
def Spells (value : Value) (name : Name) : Prop :=
  ∃ kind variableName, value = .object [("kind", kind), ("variableName", variableName)] ∧
    kind.IsText "Variable" ∧ variableName.IsText name

/-- Whether a value spells a variable at some depth. -/
def SpellsInside (value : Value) : Prop :=
  ∃ (inner : Value) (name : Name), inner.IsIn value ∧ inner.Spells name

theorem SpellsInside.mono {value outer : Value} (spells : value.SpellsInside)
    (into : ∀ {inner : Value}, inner.IsIn value → inner.IsIn outer) : outer.SpellsInside := by
  obtain ⟨inner, name, isIn, spells⟩ := spells
  exact ⟨inner, name, into isIn, spells⟩

end Value

/-- Whether a JSON value is a number. -/
def Json.IsNumber (json : Json) : Prop := (∃ n, json = .int n) ∨ ∃ x, json = .float x

/-! ### Converting parts -/

theorem itemsToJson_eq_map (items : List Value) : itemsToJson items = items.map Value.toJson := by
  induction items with
  | nil => rfl
  | cons item rest ih => rw [itemsToJson, ih, List.map_cons]

theorem objectFieldsToJson_eq_map (fields : List (Name × Value)) :
    objectFieldsToJson fields = fields.map fun field => (field.1, field.2.toJson) := by
  induction fields with
  | nil => rfl
  | cons field rest ih => rw [objectFieldsToJson, ih, List.map_cons]

theorem floatToJson_cases {literal : String} {d : Decimal} (read : Decimal.read? literal = some d) :
    Binary64.overflowBound ≤ d.abs ∧ floatToJson literal = .null ∨
      ¬Binary64.overflowBound ≤ d.abs ∧ (floatToJson literal).IsNumber := by
  rw [← Binary64.ofDecimal?_eq_none_iff, floatToJson, read, Option.bind_some]
  cases Binary64.ofDecimal? d with
  | none => exact .inl ⟨rfl, rfl⟩
  | some x => exact .inr ⟨Option.some_ne_none x, .inr ⟨x, rfl⟩⟩

/-- Integers of 64 bits are not too large. -/
theorem lt_overflowBound_of_isInt64 {n : Int} (small : isInt64 n) :
    |(n : ℚ)| < Binary64.overflowBound := by
  have bounds : -9223372036854775808 ≤ n ∧ n ≤ 9223372036854775807 := by
    simpa only [isInt64, Bool.and_eq_true, decide_eq_true_eq] using small
  have abs : |n| ≤ 2 ^ 63 := abs_le.2 ⟨by omega, by omega⟩
  have far : (2 : ℚ) ^ 970 + 2 ^ 970 ≤ 2 ^ 1024 := calc
    (2 : ℚ) ^ 970 + 2 ^ 970 = 2 ^ 971 := by rw [← two_mul, ← pow_succ']
    _ ≤ 2 ^ 1024 := pow_le_pow_right₀ (by norm_num) (by norm_num)
  calc |(n : ℚ)| = (|n| : ℤ) := (Int.cast_abs ..).symm
    _ ≤ 2 ^ 63 := by exact_mod_cast abs
    _ < 2 ^ 970 := pow_lt_pow_right₀ (by norm_num) (by norm_num)
    _ ≤ Binary64.overflowBound := le_sub_iff_add_le.2 far

theorem intToJson_cases {literal : String} {n : Int} {d : Decimal}
    (readInt : readInt? literal = some n) (read : Decimal.read? literal = some d)
    (same : d.abs = |(n : ℚ)|) :
    Binary64.overflowBound ≤ d.abs ∧ intToJson literal = .null ∨
      ¬Binary64.overflowBound ≤ d.abs ∧ (intToJson literal).IsNumber := by
  rw [intToJson, readInt]
  dsimp only
  split
  · rename_i small
    rw [same]
    exact .inr ⟨not_le.2 (lt_overflowBound_of_isInt64 small), .inl ⟨n, rfl⟩⟩
  · exact floatToJson_cases read

namespace Value

variable {value : Value}

/-- A number becomes null if it is too large, and a number otherwise. -/
theorem IsNumber.toJson_cases (number : value.IsNumber) (proper : value.IsProper) :
    value.IsTooLarge ∧ value.toJson = .null ∨ ¬value.IsTooLarge ∧ value.toJson.IsNumber := by
  have tooLarge : ∀ {literal d}, (value = .int literal ∨ value = .float literal) →
      Decimal.read? literal = some d → (value.IsTooLarge ↔ Binary64.overflowBound ≤ d.abs) := by
    rintro literal d eq read
    refine ⟨?_, fun le => ⟨literal, d, eq, read, le⟩⟩
    rintro ⟨other, d', eq', read', le⟩
    obtain rfl : literal = other := by
      rcases eq with rfl | rfl <;> rcases eq' with eq' | eq' <;> cases eq' <;> rfl
    rwa [Option.some.inj (read.symm.trans read')]
  obtain ⟨literal, eq⟩ := number
  rcases eq with rfl | rfl
  · obtain ⟨n, d, readInt, read, same⟩ := exists_readInt? proper
    rw [tooLarge (.inl rfl) read]
    exact intToJson_cases readInt read same
  · obtain ⟨d, read⟩ := exists_read? (.inr proper)
    rw [tooLarge (.inr rfl) read]
    exact floatToJson_cases read

theorem toJson_object {fields : List (Name × Value)} (proper : (Value.object fields).IsProper) :
    (Value.object fields).toJson = .object (fields.map fun field => (field.1, field.2.toJson)) := by
  have nodup : ((objectFieldsToJson fields).map Prod.fst).Nodup := by
    rw [objectFieldsToJson_eq_map, List.map_map]
    exact proper
  rw [toJson, NameMap.ofList_of_nodup nodup, objectFieldsToJson_eq_map]

theorem toJson_list (items : List Value) :
    (Value.list items).toJson = .array (items.map toJson) := by
  rw [toJson, itemsToJson_eq_map]

/-! ### Kinds of JSON -/

theorem toJson_eq_null_iff (proper : value.IsProper) :
    value.toJson = .null ↔ value = .null ∨ value.IsTooLarge := by
  by_cases number : value.IsNumber
  · have notNull : value ≠ .null := by
      rintro rfl
      simp [IsNumber] at number
    rcases number.toJson_cases proper with ⟨large, eq⟩ | ⟨notLarge, ⟨n, eq⟩ | ⟨x, eq⟩⟩ <;>
      simp [*]
  · have notLarge : ¬value.IsTooLarge := fun ⟨literal, _, eq, _⟩ => number ⟨literal, eq⟩
    cases value <;> simp_all [toJson, variableToJson, IsNumber]

theorem isNumber_toJson_iff (proper : value.IsProper) :
    value.toJson.IsNumber ↔ value.IsNumber ∧ ¬value.IsTooLarge := by
  by_cases number : value.IsNumber
  · rcases number.toJson_cases proper with ⟨large, eq⟩ | ⟨notLarge, isNumber⟩
    · simp [*, Json.IsNumber]
    · simp [*]
  · cases value <;> simp_all [toJson, variableToJson, IsNumber, Json.IsNumber]

/-- Whether a value has a JSON that is neither null nor a number need not be asked of numbers. -/
private theorem toJson_eq_iff_of_others (proper : value.IsProper) {json : Json} {property : Prop}
    (other : json ≠ .null ∧ ¬json.IsNumber) (numbers : property → ¬value.IsNumber)
    (others : ¬value.IsNumber → (value.toJson = json ↔ property)) :
    value.toJson = json ↔ property := by
  by_cases number : value.IsNumber
  · refine iff_of_false ?_ fun holds => numbers holds number
    rintro rfl
    rcases number.toJson_cases proper with ⟨-, null⟩ | ⟨-, isNumber⟩
    · exact other.1 null
    · exact other.2 isNumber
  · exact others number

theorem toJson_eq_bool_iff (proper : value.IsProper) (b : Bool) :
    value.toJson = .bool b ↔ value = .boolean b := by
  refine toJson_eq_iff_of_others proper (by simp [Json.IsNumber]) ?_ fun notNumber => ?_
  · rintro rfl
    simp [IsNumber]
  · cases value <;> simp_all [toJson, variableToJson, IsNumber]

theorem toJson_eq_string_iff (proper : value.IsProper) (text : String) :
    value.toJson = .string text ↔ value.IsText text := by
  refine toJson_eq_iff_of_others proper (by simp [Json.IsNumber]) ?_ fun notNumber => ?_
  · rintro (rfl | rfl) <;> simp [IsNumber]
  · cases value <;> simp_all [toJson, variableToJson, IsNumber, IsText]

theorem toJson_eq_array_iff (proper : value.IsProper) (items : List Json) :
    value.toJson = .array items ↔ ∃ values, value = .list values ∧ items = values.map toJson := by
  refine toJson_eq_iff_of_others proper (by simp [Json.IsNumber]) ?_ fun notNumber => ?_
  · rintro ⟨values, rfl, -⟩
    simp [IsNumber]
  · cases value <;> simp_all [toJson, itemsToJson_eq_map, variableToJson, IsNumber, eq_comm]

/-- Objects come from variables and from object literals. -/
theorem toJson_eq_object_iff (proper : value.IsProper) (members : List (String × Json)) :
    value.toJson = .object members ↔
      (∃ name, value = .var name ∧ .object members = variableToJson name) ∨
      ∃ fields, value = .object fields ∧
        members = fields.map fun field => (field.1, field.2.toJson) := by
  refine toJson_eq_iff_of_others proper (by simp [Json.IsNumber]) ?_ fun notNumber => ?_
  · rintro (⟨name, rfl, -⟩ | ⟨fields, rfl, -⟩) <;> simp [IsNumber]
  · cases value with
    | object fields => simp [toJson_object proper, eq_comm]
    | var name => simp [toJson, eq_comm]
    | _ => simp_all [toJson, IsNumber]

theorem variableToJson_injective : Function.Injective variableToJson := by
  intro name other eq
  injection eq with members
  injection members with _ members
  injection members with member
  injection member with _ json
  injection json

/-- The object that names a variable comes from the variable and from what spells it. -/
theorem toJson_eq_variableToJson_iff (written : value.IsWritten) (name : Name) :
    value.toJson = variableToJson name ↔ value = .var name ∨ value.Spells name := by
  rw [variableToJson, toJson_eq_object_iff written.isProper]
  refine or_congr ⟨?_, ?_⟩ ⟨?_, ?_⟩
  · rintro ⟨other, rfl, eq⟩
    rw [variableToJson_injective eq]
  · rintro rfl
    exact ⟨name, rfl, rfl⟩
  · rintro ⟨fields, rfl, eq⟩
    obtain ⟨⟨key, kind⟩, rest, rfl, kindEq, eq⟩ := List.map_eq_cons_iff.1 eq.symm
    obtain ⟨⟨nameKey, variableName⟩, rest, rfl, nameEq, eq⟩ := List.map_eq_cons_iff.1 eq
    obtain rfl := List.map_eq_nil_iff.1 eq
    obtain ⟨rfl, kindEq⟩ := Prod.mk.inj kindEq
    obtain ⟨rfl, nameEq⟩ := Prod.mk.inj nameEq
    have inside := (isWritten_object.1 written).2
    have kindWritten : kind.IsWritten := inside _ List.mem_cons_self
    have nameWritten : variableName.IsWritten :=
      inside _ (List.mem_cons_of_mem _ List.mem_cons_self)
    exact ⟨kind, variableName, rfl, (toJson_eq_string_iff kindWritten.isProper _).1 kindEq,
      (toJson_eq_string_iff nameWritten.isProper _).1 nameEq⟩
  · rintro ⟨kind, variableName, rfl, isKind, isName⟩
    refine ⟨_, rfl, ?_⟩
    rcases isKind with rfl | rfl <;> rcases isName with rfl | rfl <;> rfl

/-- No variable is in what has the JSON of a text. -/
theorem not_isIn_of_toJson_eq_string (proper : value.IsProper) {text : String} {name : Name}
    (eq : value.toJson = .string text) : ¬(Value.var name).IsIn value := by
  intro isIn
  rcases (toJson_eq_string_iff proper text).1 eq with rfl | rfl <;> cases isIn

/-- **A value with the JSON of one that has a variable** has that variable, or an object literal
that spells a variable. -/
theorem isIn_of_toJson_eq {other : Value} {name : Name} (isIn : (Value.var name).IsIn other)
    (otherWritten : other.IsWritten) (written : value.IsWritten)
    (same : value.toJson = other.toJson) :
    (Value.var name).IsIn value ∨ value.SpellsInside := by
  induction isIn generalizing value with
  | self =>
    rcases (toJson_eq_variableToJson_iff written name).1 same with rfl | spells
    · exact .inl .self
    · exact .inr ⟨value, name, .self, spells⟩
  | item mem isIn ih =>
    rw [toJson_list, toJson_eq_array_iff written.isProper] at same
    obtain ⟨values, rfl, eq⟩ := same
    obtain ⟨v, vMem, vEq⟩ := List.mem_map.1 (eq ▸ List.mem_map_of_mem mem)
    exact (ih (isWritten_list.1 otherWritten _ mem) (isWritten_list.1 written v vMem) vEq).imp
      (.item vMem) (·.mono (.item vMem))
  | @field fields field mem isIn ih =>
    rw [toJson_object otherWritten.isProper, toJson_eq_object_iff written.isProper] at same
    have fieldWritten := (isWritten_object.1 otherWritten).2 field mem
    have memMap : (field.1, field.2.toJson) ∈ fields.map fun field => (field.1, field.2.toJson) :=
      List.mem_map_of_mem mem
    rcases same with ⟨spelled, rfl, eq⟩ | ⟨fields', rfl, eq⟩
    · -- the members of the object of a variable are strings
      refine absurd isIn ?_
      injection eq with eq
      rw [eq] at memMap
      simp only [List.mem_cons, Prod.mk.injEq, List.not_mem_nil, or_false] at memMap
      rcases memMap with ⟨-, eq⟩ | ⟨-, eq⟩ <;>
        exact not_isIn_of_toJson_eq_string fieldWritten.isProper eq
    · rw [eq] at memMap
      obtain ⟨v, vMem, vEq⟩ := List.mem_map.1 memMap
      exact (ih fieldWritten ((isWritten_object.1 written).2 v vMem) (Prod.mk.inj vEq).2).imp
        (.field vMem) (·.mono (.field vMem))

/-- **The JSON of a value tells what was written.** It is null for null and for numbers that are
too large, an object that names a variable for the variable and for what spells it, and otherwise
of the kind of the value. So only a value that spells a variable has the JSON of a value with a
variable that it does not have itself. -/
theorem toJson_tells (written : value.IsWritten) :
    (value.toJson = .null ↔ value = .null ∨ value.IsTooLarge) ∧
    (∀ b, value.toJson = .bool b ↔ value = .boolean b) ∧
    (value.toJson.IsNumber ↔ value.IsNumber ∧ ¬value.IsTooLarge) ∧
    (∀ text, value.toJson = .string text ↔ value.IsText text) ∧
    (∀ items, value.toJson = .array items ↔
      ∃ values, value = .list values ∧ items = values.map toJson) ∧
    (∀ name, value.toJson = variableToJson name ↔ value = .var name ∨ value.Spells name) ∧
    (∀ members, (∀ name, .object members ≠ variableToJson name) →
      (value.toJson = .object members ↔ ∃ fields, value = .object fields ∧
        members = fields.map fun field => (field.1, field.2.toJson))) ∧
    ∀ other name, other.IsWritten → (Value.var name).IsIn other → value.toJson = other.toJson →
      (Value.var name).IsIn value ∨ value.SpellsInside := by
  have proper := written.isProper
  refine ⟨toJson_eq_null_iff proper, toJson_eq_bool_iff proper, isNumber_toJson_iff proper,
    toJson_eq_string_iff proper, toJson_eq_array_iff proper, toJson_eq_variableToJson_iff written,
    fun members notVariable => ?_, fun other name otherWritten isIn same =>
      isIn_of_toJson_eq isIn otherWritten written same⟩
  rw [toJson_eq_object_iff proper, or_iff_right]
  rintro ⟨name, -, eq⟩
  exact notVariable name eq

/-! ### What is confused -/

/-- A number that is too large. -/
def hugeNumber : Value := .float "1e999"

/-- An object literal that spells the variable `x`. -/
def spelledVariable : Value :=
  .object [("kind", .enum "Variable"), ("variableName", .string "x")]

theorem isWritten_spelledVariable : spelledVariable.IsWritten := by
  rw [spelledVariable, isWritten_object]
  refine ⟨by decide, fun field mem => ?_⟩
  simp only [List.mem_cons, List.not_mem_nil, or_false] at mem
  rcases mem with rfl | rfl <;> rintro inner ⟨⟩ <;> trivial

theorem not_isIn_spelledVariable (name : Name) : ¬(Value.var name).IsIn spelledVariable := by
  rintro (_ | _ | ⟨mem, isIn⟩)
  simp only [List.mem_cons, List.not_mem_nil, or_false] at mem
  rcases mem with rfl | rfl <;> cases isIn

/-- A list of an object literal that spells a variable has the JSON of the list of the variable. -/
theorem toJson_tells_spelledVariable :
    (Value.list [spelledVariable]).IsWritten ∧
      (Value.list [spelledVariable]).toJson = (Value.list [.var "x"]).toJson ∧
      (Value.list [spelledVariable]).SpellsInside := by
  have written : (Value.list [spelledVariable]).IsWritten :=
    isWritten_list.2 fun item mem => List.mem_singleton.1 mem ▸ isWritten_spelledVariable
  have otherWritten : (Value.list [.var "x"]).IsWritten := by
    rintro inner (_ | ⟨mem, isIn⟩)
    · trivial
    · obtain rfl := List.mem_singleton.1 mem
      cases isIn
      trivial
  have isIn : (Value.var "x").IsIn (Value.list [.var "x"]) := .item List.mem_cons_self .self
  obtain ⟨-, -, -, -, -, -, -, shared⟩ := toJson_tells written
  refine ⟨written, rfl, (shared _ "x" otherWritten isIn rfl).resolve_left ?_⟩
  rintro (_ | ⟨mem, isIn⟩)
  exact not_isIn_spelledVariable "x" (List.mem_singleton.1 mem ▸ isIn)

/-- A number that is too large has the JSON of null, and an object literal without variables can
have that of a variable. -/
theorem toJson_confuses :
    (hugeNumber.IsWritten ∧ hugeNumber ≠ .null ∧ hugeNumber.toJson = .null) ∧
      spelledVariable.IsWritten ∧ (∀ name, ¬(Value.var name).IsIn spelledVariable) ∧
      spelledVariable.toJson = (Value.var "x").toJson := by
  refine ⟨⟨?_, by simp [hugeNumber], rfl⟩, isWritten_spelledVariable, not_isIn_spelledVariable, rfl⟩
  rintro inner ⟨⟩
  rfl

end Value

end GraphQLCompiler
