/-!
# Ordered maps and sets of names

Answers list things in the order in which they were first met, so maps and sets keep that order.
A **name map** is a list of pairs. Replacing the value of a key keeps the key's place.

## Main definitions

* `NameMap.insert`: the last value wins, the first place stays.
* `NameMap.push`: adds to the list of values of a key.
* `addName`, `unionNames`: sets of names as lists without repetition.
-/

namespace GraphQLCompiler

/-- A map from names in order of insertion. -/
abbrev NameMap (α : Type) := List (String × α)

namespace NameMap

variable {α : Type}

/-- The keys in order. -/
def keys (m : NameMap α) : List String := m.map Prod.fst

/-- The values in order of their keys. -/
def values (m : NameMap α) : List α := m.map Prod.snd

/-- The value of a key. -/
def find? : NameMap α → String → Option α
  | [], _ => none
  | (k, v) :: rest, key => if k = key then some v else find? rest key

/-- Whether a name is a key. -/
def contains (m : NameMap α) (key : String) : Bool := (m.find? key).isSome

/-- Sets the value of a key: in its place if the key is there, at the end otherwise. -/
def insert : NameMap α → String → α → NameMap α
  | [], key, value => [(key, value)]
  | (k, v) :: rest, key, value =>
    if k = key then (k, value) :: rest else (k, v) :: insert rest key value

/-- Appends a value to the list of a key, which starts empty. -/
def push : NameMap (List α) → String → α → NameMap (List α)
  | [], key, value => [(key, [value])]
  | (k, vs) :: rest, key, value =>
    if k = key then (k, vs ++ [value]) :: rest else (k, vs) :: push rest key value

/-- The map of a list of pairs, read from the left. -/
def ofList (pairs : List (String × α)) : NameMap α :=
  pairs.foldl (fun m p => m.insert p.1 p.2) []

/-! ### Look-up after a change -/

@[simp] theorem find?_nil (key : String) : find? ([] : NameMap α) key = none := rfl

theorem find?_insert (m : NameMap α) (key other : String) (value : α) :
    (m.insert key value).find? other = if key = other then some value else m.find? other := by
  induction m with
  | nil => rfl
  | cons p rest ih =>
    by_cases h : p.1 = key <;> by_cases h' : p.1 = other <;> grind [insert, find?]

theorem mem_of_find?_eq_some {m : NameMap α} {key : String} {value : α}
    (h : m.find? key = some value) : (key, value) ∈ m := by
  induction m with
  | nil => simp at h
  | cons p rest ih =>
    obtain ⟨k, v⟩ := p
    by_cases hk : k = key <;> simp_all [find?]

/-- Setting a key adds it at the end unless it is there. -/
theorem keys_insert (m : NameMap α) (key : String) (value : α) :
    (m.insert key value).keys = if key ∈ m.keys then m.keys else m.keys ++ [key] := by
  induction m with
  | nil => rfl
  | cons p rest ih =>
    by_cases h : p.1 = key <;> grind [insert, keys]

/-- Setting keys never makes one occur twice. -/
theorem nodup_keys_insert {m : NameMap α} (h : m.keys.Nodup) (key : String) (value : α) :
    (m.insert key value).keys.Nodup := by
  rw [keys_insert]
  split
  · exact h
  · rename_i hk
    exact List.nodup_append.2 ⟨h, by simp, by grind⟩

/-- Appending to a key adds the key at the end unless it is there. -/
theorem keys_push (m : NameMap (List α)) (key : String) (value : α) :
    (m.push key value).keys = if key ∈ m.keys then m.keys else m.keys ++ [key] := by
  induction m with
  | nil => rfl
  | cons p rest ih =>
    by_cases h : p.1 = key <;> grind [push, keys]

/-- Appending to keys never makes one occur twice. -/
theorem nodup_keys_push {m : NameMap (List α)} (h : m.keys.Nodup) (key : String) (value : α) :
    (m.push key value).keys.Nodup := by
  rw [keys_push]
  split
  · exact h
  · rename_i hk
    exact List.nodup_append.2 ⟨h, by simp, by grind⟩

/-- Appending to keys leaves none without values. -/
theorem ne_nil_of_mem_push {m : NameMap (List α)} (h : ∀ p ∈ m, p.2 ≠ []) {key : String}
    {value : α} : ∀ p ∈ m.push key value, p.2 ≠ [] := by
  induction m with
  | nil => simp [push]
  | cons p rest ih =>
    obtain ⟨first, others⟩ := List.forall_mem_cons.1 h
    rw [push]
    split
    · exact List.forall_mem_cons.2 ⟨by simp, others⟩
    · exact List.forall_mem_cons.2 ⟨first, ih others⟩

/-- Appending to a key adds one value. -/
theorem mem_flatten_values_push {m : NameMap (List α)} {key : String} {value x : α} :
    x ∈ (m.push key value).values.flatten ↔ x ∈ m.values.flatten ∨ x = value := by
  induction m with
  | nil => simp [push, values]
  | cons p rest ih =>
    by_cases h : p.1 = key <;> simp only [values, List.map_cons, List.flatten_cons,
      List.mem_append, push, h, if_true, if_false, List.mem_singleton] at ih ⊢ <;> grind

/-- A map without other keys than one is empty or has the value of that key. -/
theorem eq_nil_or_singleton {m : NameMap α} (h : m.keys.Nodup) {key : String}
    (only : ∀ other ∈ m.keys, other = key) : m = [] ∨ ∃ value, m = [(key, value)] := by
  match m with
  | [] => exact .inl rfl
  | [(other, value)] =>
    obtain rfl : other = key := only other List.mem_cons_self
    exact .inr ⟨value, rfl⟩
  | (first, _) :: (second, _) :: _ =>
    obtain rfl : first = key := only first List.mem_cons_self
    obtain rfl : second = first := only second (List.mem_cons_of_mem _ List.mem_cons_self)
    exact absurd List.mem_cons_self (List.nodup_cons.1 h).1

end NameMap

/-! ### Sets of names -/

/-- Adds a name at the end of a set unless it is there. -/
def addName (names : List String) (name : String) : List String :=
  if name ∈ names then names else names ++ [name]

/-- Adds names to a set one by one. -/
def unionNames (names more : List String) : List String := more.foldl addName names

@[simp] theorem mem_addName {names : List String} {name other : String} :
    other ∈ addName names name ↔ other ∈ names ∨ other = name := by
  grind [addName]

@[simp] theorem mem_unionNames {names more : List String} {other : String} :
    other ∈ unionNames names more ↔ other ∈ names ∨ other ∈ more := by
  induction more generalizing names with
  | nil => simp [unionNames]
  | cons name rest ih =>
    rw [unionNames, List.foldl_cons, ← unionNames, ih, mem_addName, List.mem_cons, or_assoc]

theorem nodup_addName {names : List String} (h : names.Nodup) (name : String) :
    (addName names name).Nodup := by
  unfold addName
  split
  · exact h
  · rename_i hn
    exact List.nodup_append.2 ⟨h, by simp, by grind⟩

theorem nodup_unionNames {names : List String} (h : names.Nodup) (more : List String) :
    (unionNames names more).Nodup := by
  induction more generalizing names with
  | nil => exact h
  | cons name rest ih => exact ih (nodup_addName h name)

/-! ### Counting what is left -/

/-- The count of the names that are not among some others. -/
def countOutside (names seen : List String) : Nat := names.countP fun name => name ∉ seen

theorem countOutside_le {seen more : List String} (sub : seen ⊆ more) (names : List String) :
    countOutside names more ≤ countOutside names seen :=
  List.countP_mono_left fun name _ => by simpa using fun h hs => h (sub hs)

/-- Fewer names are left when one of them has been added to those seen. -/
theorem countOutside_lt {names seen more : List String} {name : String} (sub : seen ⊆ more)
    (mem : name ∈ names) (fresh : name ∉ seen) (added : name ∈ more) :
    countOutside names more < countOutside names seen := by
  induction names with
  | nil => simp at mem
  | cons first rest ih =>
    have le := countOutside_le sub rest
    simp only [countOutside, List.countP_cons] at le ih ⊢
    by_cases h : name = first
    · subst h
      rw [if_neg (by simpa using added), if_pos (by simpa using fresh)]
      omega
    · have lt := ih (by simpa [h] using mem)
      have fewer : decide (first ∉ more) = true → decide (first ∉ seen) = true := by
        simpa using fun hm hs => hm (sub hs)
      split
      · rw [if_pos (fewer ‹_›)]
        omega
      · split <;> omega

end GraphQLCompiler
