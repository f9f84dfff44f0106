import GraphQLCompiler.NameMap
import Mathlib.Data.List.Induction

/-!
# Lists up to later repetitions

What a selection set selects is read in order, and what is selected again adds nothing: the order
of first occurrence is all that answers show. Two lists are the same **up to repetitions** if they
have the same elements in the order of their first occurrence. The relation is kept by everything
that compilation does with lists: appending, filtering and replacing each element by some others.

A name map that is filled by appending to its keys is determined by the pairs that were appended:
its keys are in the order of their first occurrence, and the values of a key in the order of the
pairs (`NameMap.collate_eq`).
-/

namespace GraphQLCompiler

variable {α β : Type}

/-- **Induction on erasing repetitions**, from the left: an element that is there already is erased,
a new one is kept. -/
theorem eraseDups_induction [DecidableEq α] (motive : List α → List α → Prop) (nil : motive [] [])
    (again : ∀ erased xs a, a ∈ xs → motive erased xs → motive erased (xs ++ [a]))
    (fresh : ∀ erased xs a, a ∉ xs → motive erased xs → motive (erased ++ [a]) (xs ++ [a]))
    (xs : List α) : motive xs.eraseDups xs := by
  induction xs using List.reverseRecOn with
  | nil => exact nil
  | append_singleton xs a ih =>
    rw [List.eraseDups_append]
    by_cases mem : a ∈ xs
    · have gone : [a].removeAll xs = [] := by simpa [List.removeAll] using mem
      rw [gone, List.eraseDups_nil, List.append_nil]
      exact again _ xs a mem ih
    · have kept : [a].removeAll xs = [a] := by simpa [List.removeAll] using mem
      rw [kept, List.eraseDups_cons, List.filter_nil, List.eraseDups_nil]
      exact fresh _ xs a mem ih

open Classical in
/-- Two lists are the same **up to repetitions** if they have the same elements in the order of
their first occurrence. -/
def SameFirsts (xs ys : List α) : Prop := xs.eraseDups = ys.eraseDups

namespace SameFirsts

@[refl] theorem refl (xs : List α) : SameFirsts xs xs := rfl

@[symm] theorem symm {xs ys : List α} (h : SameFirsts xs ys) : SameFirsts ys xs := Eq.symm h

theorem trans {xs ys zs : List α} (h : SameFirsts xs ys) (h' : SameFirsts ys zs) :
    SameFirsts xs zs :=
  Eq.trans h h'

theorem mem_iff {xs ys : List α} (h : SameFirsts xs ys) {a : α} : a ∈ xs ↔ a ∈ ys := by
  classical
  unfold SameFirsts at h
  rw [← List.mem_eraseDups, h, List.mem_eraseDups]

theorem subset {xs ys : List α} (h : SameFirsts xs ys) : xs ⊆ ys := fun _ mem => h.mem_iff.1 mem

/-- What repeats adds nothing. -/
theorem append_of_subset {xs ys : List α} (h : ys ⊆ xs) : SameFirsts (xs ++ ys) xs := by
  classical
  unfold SameFirsts
  have none : ys.removeAll xs = [] := by
    simpa [List.removeAll, List.filter_eq_nil_iff] using fun a mem => h mem
  rw [List.eraseDups_append, none, List.eraseDups_nil, List.append_nil]

/-- Erasing later repetitions of the elements with a property is the same as choosing them once
the repetitions are erased. -/
private theorem eraseDups_filter [DecidableEq α] (p : α → Bool) : ∀ xs : List α,
    (xs.filter p).eraseDups = xs.eraseDups.filter p
  | [] => rfl
  | a :: rest => by
    have shorter : (rest.filter fun b => !b == a).length < rest.length + 1 :=
      Nat.lt_succ_of_le (List.length_filter_le _ _)
    have swap : (rest.filter p).filter (fun b => !b == a)
        = (rest.filter fun b => !b == a).filter p := by
      simp only [List.filter_filter, Bool.and_comm]
    have ih := eraseDups_filter p (rest.filter fun b => !b == a)
    by_cases ha : p a = true
    · rw [List.filter_cons_of_pos ha, List.eraseDups_cons, List.eraseDups_cons,
        List.filter_cons_of_pos ha, swap, ih]
    · have same : (rest.filter p).filter (fun b => !b == a) = rest.filter p :=
        List.filter_eq_self.2 fun b mem => by
          have hb : p b = true := (List.mem_filter.1 mem).2
          have ne : b ≠ a := fun eq => ha (eq ▸ hb)
          simpa using ne
      rw [List.filter_cons_of_neg ha, List.eraseDups_cons, List.filter_cons_of_neg ha,
        ← ih, ← swap, same]
termination_by xs => xs.length

theorem append {xs xs' ys ys' : List α} (h : SameFirsts xs xs') (h' : SameFirsts ys ys') :
    SameFirsts (xs ++ ys) (xs' ++ ys') := by
  classical
  have outside : ys.removeAll xs = ys.filter fun a => decide (a ∉ xs') := by
    simp [List.removeAll, h.mem_iff]
  have outside' : ys'.removeAll xs' = ys'.filter fun a => decide (a ∉ xs') := by
    simp [List.removeAll]
  unfold SameFirsts at h h' ⊢
  rw [List.eraseDups_append, List.eraseDups_append, outside, outside', eraseDups_filter,
    eraseDups_filter, h, h']

/-- Replacing each element by some others keeps two lists the same up to repetitions. -/
theorem flatMap {xs ys : List α} (h : SameFirsts xs ys) (f : α → List β) :
    SameFirsts (xs.flatMap f) (ys.flatMap f) := by
  classical
  have erased : ∀ zs : List α, SameFirsts (zs.flatMap f) (zs.eraseDups.flatMap f) := by
    refine eraseDups_induction (fun erased zs => SameFirsts (zs.flatMap f) (erased.flatMap f)) rfl
      (fun _ zs a mem ih => ?_) fun _ zs a _ ih => ?_
    · -- what replaces an element that is repeated is repeated too
      rw [List.flatMap_append]
      refine (append_of_subset fun b hb => ?_).trans ih
      exact List.mem_flatMap.2 ⟨a, mem, by simpa using hb⟩
    · rw [List.flatMap_append, List.flatMap_append]
      exact ih.append (refl _)
  have same : xs.eraseDups = ys.eraseDups := h
  exact (erased xs).trans (same ▸ (erased ys).symm)

theorem map {xs ys : List α} (h : SameFirsts xs ys) (f : α → β) :
    SameFirsts (xs.map f) (ys.map f) := by
  simpa only [List.map_eq_flatMap] using h.flatMap fun a => [f a]

theorem filterMap {xs ys : List α} (h : SameFirsts xs ys) (f : α → Option β) :
    SameFirsts (xs.filterMap f) (ys.filterMap f) := by
  have eq : ∀ zs : List α, zs.filterMap f = zs.flatMap fun a => (f a).toList := by
    intro zs
    induction zs with
    | nil => rfl
    | cons a rest ih => cases hf : f a <;> simp [hf, ih]
  simpa only [eq] using h.flatMap fun a => (f a).toList

theorem filter {xs ys : List α} (h : SameFirsts xs ys) (p : α → Bool) :
    SameFirsts (xs.filter p) (ys.filter p) := by
  simpa only [← List.filterMap_eq_filter] using h.filterMap (Option.guard p)

/-- Lists that are the same up to repetitions start with the same element. -/
theorem head?_eq {xs ys : List α} (h : SameFirsts xs ys) : xs.head? = ys.head? := by
  classical
  have erased : ∀ zs : List α, zs.eraseDups.head? = zs.head? := by
    intro zs
    cases zs <;> simp [List.eraseDups_cons]
  rw [← erased xs, ← erased ys, show xs.eraseDups = ys.eraseDups from h]

/-- Two lists that are the same up to repetitions start with the same element. -/
theorem exists_eq_cons {a : α} {xs ys : List α} (h : SameFirsts (a :: xs) ys) :
    ∃ zs, ys = a :: zs :=
  List.head?_eq_some_iff.1 h.head?_eq.symm

/-- Erasing later repetitions does not depend on how elements are compared. -/
theorem eraseDups_eq [DecidableEq α] {xs ys : List α} (h : SameFirsts xs ys) :
    xs.eraseDups = ys.eraseDups := by
  unfold SameFirsts at h
  convert h

/-- Erasing repetitions leaves a list the same up to repetitions. -/
theorem eraseDups_self [DecidableEq α] (xs : List α) : SameFirsts xs.eraseDups xs := by
  refine eraseDups_induction SameFirsts rfl (fun _ xs a mem ih => ?_) (fun _ _ a _ ih => ?_) xs
  · exact ih.trans (append_of_subset (List.cons_subset.2 ⟨mem, List.nil_subset xs⟩)).symm
  · exact ih.append (refl [a])

/-- Replacing each element by lists that are the same up to repetitions. -/
theorem flatMap_congr {xs : List α} {f g : α → List β}
    (h : ∀ a ∈ xs, SameFirsts (f a) (g a)) : SameFirsts (xs.flatMap f) (xs.flatMap g) := by
  induction xs with
  | nil => rfl
  | cons a rest ih =>
    rw [List.flatMap_cons, List.flatMap_cons]
    exact (h a List.mem_cons_self).append (ih fun b mem => h b (List.mem_cons_of_mem _ mem))

/-- Steps that do nothing for what has been **seen** before come to the same for lists that are
the same up to repetitions. -/
theorem foldl_eq {step : β → α → β} (seen : β → α → Prop) (marks : ∀ b a, seen (step b a) a)
    (keeps : ∀ b a other, seen b a → seen (step b other) a)
    (absorbs : ∀ b a, seen b a → step b a = b) {xs ys : List α} (h : SameFirsts xs ys) (b : β) :
    xs.foldl step b = ys.foldl step b := by
  classical
  have seen_foldl : ∀ (zs : List α) (b : β) (a : α), seen b a ∨ a ∈ zs →
      seen (zs.foldl step b) a := by
    intro zs
    induction zs with
    | nil => exact fun b a h => h.elim id fun mem => by cases mem
    | cons first rest ih =>
      intro b a h
      refine ih (step b first) a ?_
      rcases h with old | mem
      · exact .inl (keeps b a first old)
      · rcases List.mem_cons.1 mem with rfl | mem
        · exact .inl (marks b a)
        · exact .inr mem
  have erased : ∀ zs : List α, zs.foldl step b = zs.eraseDups.foldl step b := by
    refine eraseDups_induction (fun erased zs => zs.foldl step b = erased.foldl step b) rfl
      (fun _ zs a mem ih => ?_) fun _ zs a _ ih => ?_
    · rw [List.foldl_append, ← ih]
      exact absorbs _ a (seen_foldl zs b a (.inr mem))
    · rw [List.foldl_append, List.foldl_append, ih]
  have same : xs.eraseDups = ys.eraseDups := h.eraseDups_eq
  rw [erased xs, erased ys, same]

end SameFirsts

/-! ### Name maps filled one by one -/

namespace NameMap

/-- The map of values by key, filled from the left. -/
def collate (pairs : List (String × α)) : NameMap (List α) :=
  pairs.foldl (fun m p => m.push p.1 p.2) []

@[simp] theorem collate_nil : collate ([] : List (String × α)) = [] := rfl

@[simp] theorem collate_append_singleton (pairs : List (String × α)) (p : String × α) :
    collate (pairs ++ [p]) = (collate pairs).push p.1 p.2 := by
  simp [collate]

/-- The values of a key among some pairs. -/
def valuesOf (pairs : List (String × α)) (key : String) : List α :=
  (pairs.filter (·.1 = key)).map Prod.snd

theorem mem_valuesOf {pairs : List (String × α)} {key : String} {a : α} :
    a ∈ valuesOf pairs key ↔ (key, a) ∈ pairs := by
  constructor
  · intro h
    obtain ⟨⟨k, v⟩, mem, rfl⟩ := List.mem_map.1 h
    obtain ⟨mem, eq⟩ := List.mem_filter.1 mem
    rwa [show k = key by simpa using eq] at mem
  · intro h
    exact List.mem_map.2 ⟨(key, a), List.mem_filter.2 ⟨h, by simp⟩, rfl⟩

/-- Appending to a key of a map whose values are given by a function. -/
private theorem push_map_of_nodup (keys : List String) (nodup : keys.Nodup)
    (f : String → List α) (key : String) (a : α) :
    push (keys.map fun k => (k, f k)) key a
      = (keys.map fun k => (k, if k = key then f k ++ [a] else f k))
        ++ if key ∈ keys then [] else [(key, [a])] := by
  induction keys with
  | nil => simp [push]
  | cons k rest ih =>
    obtain ⟨fresh, nodup⟩ := List.nodup_cons.1 nodup
    by_cases h : k = key
    · subst h
      have others : rest.map (fun other => (other, if other = k then f other ++ [a] else f other))
          = rest.map fun other => (other, f other) :=
        List.map_congr_left fun other mem => by
          have ne : other ≠ k := fun eq => fresh (eq ▸ mem)
          rw [if_neg ne]
      simp only [List.map_cons, push, if_true, others, List.mem_cons, true_or, List.append_nil]
    · have ne : key ≠ k := fun eq => h eq.symm
      simp only [List.map_cons, push, if_neg h, ih nodup, List.cons_append, List.mem_cons, ne,
        false_or]

private theorem nodup_eraseDups (names : List String) : names.eraseDups.Nodup := by
  induction names using List.reverseRecOn with
  | nil => simp
  | append_singleton names name ih =>
    rw [List.eraseDups_append]
    refine List.nodup_append.2 ⟨ih, ?_, ?_⟩ <;>
      by_cases mem : name ∈ names <;> simp [List.removeAll, mem] <;> grind

/-- **A map filled one by one** has the keys in the order of first occurrence, each with its values
in order. -/
theorem collate_eq (pairs : List (String × α)) :
    collate pairs
      = (pairs.map Prod.fst).eraseDups.map fun key => (key, valuesOf pairs key) := by
  induction pairs using List.reverseRecOn with
  | nil => rfl
  | append_singleton pairs p ih =>
    have values : ∀ key, valuesOf (pairs ++ [p]) key
        = if key = p.1 then valuesOf pairs key ++ [p.2] else valuesOf pairs key := by
      intro key
      by_cases h : p.1 = key
      · simp [valuesOf, List.filter_append, h]
      · have h' : key ≠ p.1 := fun eq => h eq.symm
        simp [valuesOf, List.filter_append, h, h']
    rw [collate_append_singleton, ih, push_map_of_nodup _ (nodup_eraseDups _), List.map_append,
      List.eraseDups_append, List.map_append]
    simp only [values, List.mem_eraseDups]
    congr 1
    -- a key that is new comes last, with nothing but the new value
    by_cases mem : p.1 ∈ pairs.map Prod.fst
    · have gone : (List.map Prod.fst [p]).removeAll (pairs.map Prod.fst) = [] := by
        simpa [List.removeAll] using mem
      rw [gone, if_pos mem]
      rfl
    · have kept : (List.map Prod.fst [p]).removeAll (pairs.map Prod.fst) = [p.1] := by
        simpa [List.removeAll] using mem
      have empty : valuesOf pairs p.1 = [] := by
        rw [List.eq_nil_iff_forall_not_mem]
        exact fun a ha => mem (List.mem_map.2 ⟨_, mem_valuesOf.1 ha, rfl⟩)
      rw [kept, if_neg mem]
      simp [List.eraseDups_cons, empty]

/-- The values of a key in a map filled one by one. -/
theorem find?_collate (pairs : List (String × α)) (key : String) :
    (collate pairs).find? key
      = if key ∈ pairs.map Prod.fst then some (valuesOf pairs key) else none := by
  have look : ∀ keys : List String, find? (keys.map fun k => (k, valuesOf pairs k)) key
      = if key ∈ keys then some (valuesOf pairs key) else none := by
    intro keys
    induction keys with
    | nil => rfl
    | cons k rest ih =>
      by_cases h : k = key
      · simp [find?, h]
      · simp [find?, h, ih, Ne.symm h]
  rw [collate_eq, look]
  simp only [List.mem_eraseDups]

/-- Every value was given with its key. -/
theorem mem_flatten_values_collate {pairs : List (String × α)} {a : α} :
    a ∈ (collate pairs).values.flatten ↔ ∃ key, (key, a) ∈ pairs := by
  simp only [collate_eq, values, List.map_map, List.mem_flatten, List.mem_map,
    Function.comp_apply, List.mem_eraseDups]
  constructor
  · rintro ⟨_, ⟨key, -, rfl⟩, mem⟩
    exact ⟨key, mem_valuesOf.1 mem⟩
  · rintro ⟨key, mem⟩
    exact ⟨_, ⟨key, ⟨_, mem, rfl⟩, rfl⟩, mem_valuesOf.2 mem⟩

/-- Every key has the values that were given with it. -/
theorem exists_mem_collate_iff {pairs : List (String × α)} {key : String} {a : α} :
    (∃ values, (key, values) ∈ collate pairs ∧ a ∈ values) ↔ (key, a) ∈ pairs := by
  rw [collate_eq]
  constructor
  · rintro ⟨values, mem, has⟩
    obtain ⟨_, -, eq⟩ := List.mem_map.1 mem
    cases eq
    exact mem_valuesOf.1 has
  · intro mem
    have known : key ∈ (pairs.map Prod.fst).eraseDups :=
      List.mem_eraseDups.2 (List.mem_map.2 ⟨_, mem, rfl⟩)
    exact ⟨_, List.mem_map.2 ⟨key, known, rfl⟩, mem_valuesOf.2 mem⟩

/-- The keys are those of the pairs. -/
theorem keys_collate (pairs : List (String × α)) :
    (collate pairs).keys = (pairs.map Prod.fst).eraseDups := by
  rw [collate_eq, keys, List.map_map]
  exact List.map_id _

theorem mem_keys_collate {pairs : List (String × α)} {key : String} :
    key ∈ (collate pairs).keys ↔ key ∈ pairs.map Prod.fst := by
  rw [keys_collate, List.mem_eraseDups]

theorem nodup_keys_collate (pairs : List (String × α)) : (collate pairs).keys.Nodup := by
  rw [keys_collate]
  exact nodup_eraseDups _

/-! ### Maps of pairs -/

private theorem mem_of_mem_insert {m : NameMap α} {key : String} {value : α} {p : String × α}
    (h : p ∈ m.insert key value) : p ∈ m ∨ p = (key, value) := by
  induction m with
  | nil => exact .inr (List.mem_singleton.1 h)
  | cons first rest ih =>
    unfold insert at h
    split at h
    · rename_i eq
      rcases List.mem_cons.1 h with rfl | mem
      · exact .inr (by rw [eq])
      · exact .inl (List.mem_cons_of_mem _ mem)
    · rcases List.mem_cons.1 h with rfl | mem
      · exact .inl List.mem_cons_self
      · exact (ih mem).imp_left (List.mem_cons_of_mem _)

/-- The last pair is set in the map of the others. -/
theorem ofList_append_singleton (pairs : List (String × α)) (p : String × α) :
    ofList (pairs ++ [p]) = (ofList pairs).insert p.1 p.2 := by
  rw [ofList, List.foldl_append]
  rfl

/-- Of several pairs with one key the last counts. -/
theorem find?_ofList (pairs : List (String × α)) (key : String) :
    (ofList pairs).find? key = (pairs.reverse.find? fun p => p.1 = key).map Prod.snd := by
  induction pairs using List.reverseRecOn with
  | nil => rfl
  | append_singleton pairs p ih =>
    rw [ofList_append_singleton, find?_insert, ih, List.reverse_append, List.reverse_singleton,
      List.singleton_append, List.find?_cons]
    by_cases eq : p.1 = key
    · rw [if_pos eq, decide_eq_true eq]
      rfl
    · rw [if_neg eq, decide_eq_false eq]

/-- What is kept by setting the value of a key to that of a pair holds of the map of the pairs. -/
theorem ofList_induction (property : NameMap α → Prop) (pairs : List (String × α))
    (empty : property []) (step : ∀ m, ∀ p ∈ pairs, property m → property (m.insert p.1 p.2)) :
    property (ofList pairs) := by
  induction pairs using List.reverseRecOn with
  | nil => exact empty
  | append_singleton pairs p ih =>
    rw [ofList_append_singleton]
    refine step _ p (List.mem_append_right _ (List.mem_singleton_self p)) (ih fun m q mem => ?_)
    exact step m q (List.mem_append_left _ mem)

/-- The map of some pairs holds nothing but pairs of them. -/
theorem mem_of_mem_ofList {pairs : List (String × α)} : ofList pairs ⊆ pairs := by
  refine ofList_induction (· ⊆ pairs) pairs (List.nil_subset _) fun m p mem sub q hq => ?_
  rcases mem_of_mem_insert hq with old | rfl
  · exact sub old
  · exact mem

theorem nodup_keys_ofList (pairs : List (String × α)) : (ofList pairs).keys.Nodup :=
  ofList_induction (fun m => m.keys.Nodup) pairs List.nodup_nil fun _ p _ nodup =>
    nodup_keys_insert nodup p.1 p.2

theorem find?_eq_some_of_mem {m : NameMap α} (nodup : m.keys.Nodup) {key : String} {value : α}
    (mem : (key, value) ∈ m) : m.find? key = some value := by
  induction m with
  | nil => cases mem
  | cons first rest ih =>
    obtain ⟨fresh, nodupRest⟩ := List.nodup_cons.1 nodup
    unfold find?
    rcases List.mem_cons.1 mem with rfl | mem
    · exact if_pos rfl
    · rw [if_neg, ih nodupRest mem]
      rintro rfl
      exact fresh (List.mem_map.2 ⟨_, mem, rfl⟩)

private theorem insert_of_not_mem_keys {m : NameMap α} {key : String} (fresh : key ∉ m.keys)
    (value : α) : m.insert key value = m ++ [(key, value)] := by
  induction m with
  | nil => rfl
  | cons first rest ih =>
    have ne : first.1 ≠ key := fun eq => fresh (eq ▸ List.mem_cons_self)
    have freshRest : key ∉ keys rest := fun mem => fresh (List.mem_cons_of_mem _ mem)
    rw [insert, if_neg ne, ih freshRest]
    rfl

/-- Pairs without repeated keys are the map of the pairs. -/
theorem ofList_of_nodup {pairs : List (String × α)} (nodup : (pairs.map Prod.fst).Nodup) :
    ofList pairs = pairs := by
  induction pairs using List.reverseRecOn with
  | nil => rfl
  | append_singleton pairs p ih =>
    rw [List.map_append] at nodup
    obtain ⟨nodupInit, -, fresh⟩ := List.nodup_append.1 nodup
    rw [ofList_append_singleton, ih nodupInit]
    exact insert_of_not_mem_keys (fun mem => fresh p.1 mem p.1 List.mem_cons_self rfl) p.2

/-- Values with distinct keys are all kept in the map of them by key. -/
theorem values_ofList_of_nodup {key : α → String} {values : List α}
    (nodup : (values.map key).Nodup) :
    (ofList (values.map fun value => (key value, value))).values = values := by
  rw [ofList_of_nodup (by rwa [List.map_map]), NameMap.values, List.map_map]
  exact List.map_id values

/-- Each of the pairs without repeated keys is found in the map of the pairs. -/
theorem find?_ofList_of_mem {pairs : List (String × α)} (nodup : (pairs.map Prod.fst).Nodup)
    {key : String} {value : α} (mem : (key, value) ∈ pairs) :
    (ofList pairs).find? key = some value := by
  rw [ofList_of_nodup nodup]
  exact find?_eq_some_of_mem nodup mem

end NameMap

end GraphQLCompiler
