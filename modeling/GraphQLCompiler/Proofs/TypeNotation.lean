import GraphQLCompiler.Syntax.TypeRef
import Mathlib.Data.List.TakeWhile

/-!
# Reading the notation of types

A type reference can be read back from its text if its type has a name. The brackets that open
tell nothing that those that close do not tell. So what opens is skipped, the name is taken, and
what follows it is applied from the left: a closing bracket makes a list of what was read, and an
exclamation mark excludes null.
-/

namespace GraphQLCompiler

namespace TypeRef

/-- A reference that excludes null. -/
def exclude : TypeRef → TypeRef
  | named name _ => named name true
  | list item _ => list item true

/-- Applies a character that follows the name of a type. -/
def applyChar (type : TypeRef) (c : Char) : TypeRef :=
  if c = '!' then type.exclude else list type false

/-- The reference that a text writes. -/
def read (text : String) : TypeRef :=
  let unopened := text.toList.dropWhile (· = '[')
  (unopened.dropWhile isNameContinue).foldl applyChar
    (named (String.ofList (unopened.takeWhile isNameContinue)) false)

/-- What follows the name in the text of a reference. -/
def suffix : TypeRef → List Char
  | named _ nonNull => (mark nonNull).toList
  | list item nonNull => item.suffix ++ ']' :: (mark nonNull).toList

theorem toList_print (type : TypeRef) :
    ∃ depth, type.print.toList = List.replicate depth '[' ++ type.bare.toList ++ type.suffix := by
  induction type with
  | named name nonNull => exact ⟨0, by simp [print, bare, suffix]⟩
  | list item nonNull ih =>
    obtain ⟨depth, eq⟩ := ih
    exact ⟨depth + 1, by simp [print, bare, suffix, eq, List.replicate_succ]⟩

/-- Following a name with the suffix of a reference gives the reference. -/
theorem foldl_suffix (type : TypeRef) :
    type.suffix.foldl applyChar (named type.bare false) = type := by
  induction type with
  | named name nonNull => cases nonNull <;> rfl
  | list item nonNull ih =>
    rw [suffix, bare, List.foldl_append, ih]
    cases nonNull <;> rfl

/-- What follows the name does not go on with it. -/
theorem isNameContinue_suffix (type : TypeRef) : ∀ c ∈ type.suffix, isNameContinue c = false := by
  have others : ∀ nonNull, ∀ c ∈ (mark nonNull).toList, isNameContinue c = false := by
    rintro (_ | _) c mem
    · cases mem
    · rw [List.mem_singleton.1 mem]
      rfl
  induction type with
  | named name nonNull => exact others nonNull
  | list item nonNull ih =>
    intro c mem
    rcases List.mem_append.1 mem with mem | mem
    · exact ih c mem
    · rcases List.mem_cons.1 mem with rfl | mem
      · decide
      · exact others nonNull c mem

end TypeRef

theorem isNameContinue_of_isName {name : Name} (isName : IsName name) :
    ∀ c ∈ name.toList, isNameContinue c := by
  unfold IsName at isName
  split at isName
  · cases isName
  · rename_i first rest eq
    obtain ⟨start, others⟩ := Bool.and_eq_true_iff.1 isName
    rw [eq]
    intro c mem
    rcases List.mem_cons.1 mem with rfl | mem
    · simp only [isNameStart, isNameContinue, Char.isAlphanum, Bool.or_eq_true] at start ⊢
      exact start.imp_left .inl
    · exact List.all_eq_true.1 others c mem

theorem toList_ne_nil_of_isName {name : Name} (isName : IsName name) : name.toList ≠ [] := by
  intro empty
  simp [IsName, empty] at isName

/-- **A reference to a named type is read back** from its text. -/
theorem TypeRef.read_print {type : TypeRef} (isName : IsName type.bare) :
    read type.print = type := by
  obtain ⟨depth, eq⟩ := type.toList_print
  have name := isNameContinue_of_isName isName
  have unopened : type.print.toList.dropWhile (· = '[') = type.bare.toList ++ type.suffix := by
    rw [eq, List.append_assoc, List.dropWhile_append_of_pos]
    · obtain ⟨c, rest, eq⟩ := List.exists_cons_of_ne_nil (toList_ne_nil_of_isName isName)
      have notOpen : c ≠ '[' := by
        rintro rfl
        exact absurd (name '[' (eq ▸ List.mem_cons_self)) (by decide)
      rw [eq]
      exact List.dropWhile_cons_of_neg (by simpa using notOpen)
    · intro c mem
      simpa using List.eq_of_mem_replicate mem
  have stop : ∀ positive, ¬isNameContinue (type.suffix.get ⟨0, positive⟩) := fun positive => by
    rw [type.isNameContinue_suffix _ (List.get_mem _ _)]
    exact Bool.false_ne_true
  rw [read, unopened, List.takeWhile_append_of_pos name, List.dropWhile_append_of_pos name,
    List.takeWhile_eq_nil_iff.2 stop, List.dropWhile_eq_self_iff.2 stop, List.append_nil,
    String.ofList_toList, foldl_suffix]

end GraphQLCompiler
