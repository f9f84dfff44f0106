import GraphQLCompiler.Proofs.Linking
import GraphQLCompiler.Resolution
import Mathlib.Data.List.Forall2

/-!
# Rules for computations

Compilation is a computation with a state that may stop with an error. One judgement about such a
computation is enough for what is proved here, and it follows the structure of the computation: it
**ensures** a property of its results, and that it has a result if some condition is met
(`CompileM.Ensures`). Of the state the judgement knows the remembered references only, of which an
invariant is kept whether the computation stops or not.
-/

namespace GraphQLCompiler

variable {α β : Type}

/-- Each element of a list is related to an element of a list that is related to it in order. -/
theorem exists_related_of_mem {relation : α → β → Prop} {xs : List α} {ys : List β}
    (all : List.Forall₂ relation xs ys) {x : α} (mem : x ∈ xs) : ∃ y ∈ ys, relation x y := by
  induction all with
  | nil => cases mem
  | @cons _ first _ _ related _ ih =>
    rcases List.mem_cons.1 mem with rfl | mem
    · exact ⟨first, List.mem_cons_self, related⟩
    · obtain ⟨y, memRest, relatedRest⟩ := ih mem
      exact ⟨y, List.mem_cons_of_mem _ memRest, relatedRest⟩

/-- Related elements of two lists are elements of them. -/
theorem forall₂_mem {relation : α → β → Prop} {xs : List α} {ys : List β}
    (all : List.Forall₂ relation xs ys) :
    List.Forall₂ (fun x y => relation x y ∧ x ∈ xs ∧ y ∈ ys) xs ys := by
  induction all with
  | nil => exact .nil
  | cons related _ ih =>
    refine .cons ⟨related, List.mem_cons_self, List.mem_cons_self⟩ (ih.imp ?_)
    rintro x y ⟨related, mem, mem'⟩
    exact ⟨related, List.mem_cons_of_mem _ mem, List.mem_cons_of_mem _ mem'⟩

/-- Two lists have the same images if their elements have, one by one. -/
theorem map_eq_map_iff_forall₂ {γ : Type} {f : α → γ} {g : β → γ} {xs : List α} {ys : List β} :
    xs.map f = ys.map g ↔ List.Forall₂ (fun x y => f x = g y) xs ys := by
  rw [← List.forall₂_eq_eq_eq, List.forall₂_map_left_iff, List.forall₂_map_right_iff]

namespace CompileM

/-- What a sequence of computations gives, and the state after it. -/
theorem run_bind (m : CompileM α) (next : α → CompileM β) (state : CompilerState) :
    (m >>= next).run state = match m.run state with
      | (.ok a, after) => (next a).run after
      | (.error e, after) => (.error e, after) := by
  rw [ExceptT.run_bind]
  change StateT.bind m.run _ state = _
  unfold StateT.bind
  rcases m.run state with ⟨_ | _, after⟩ <;> rfl

/-- A computation **ensures** a property of its results under a condition if, from every state whose
remembered references satisfy an invariant, its results have the property, the invariant holds
afterwards, and there is a result if the condition is met. -/
structure Ensures (memo : NameMap (List Name) → Prop) (sure : Prop) (m : CompileM α)
    (post : α → Prop) : Prop where
  kept : ∀ state : CompilerState, memo state.references → memo (m.run state).2.references
  holds : ∀ state : CompilerState, memo state.references →
    ∀ a, (m.run state).1 = .ok a → post a
  succeeds : ∀ state : CompilerState, memo state.references → sure →
    ∃ a, (m.run state).1 = .ok a

variable {memo : NameMap (List Name) → Prop} {sure : Prop}

/-! ### Consequences -/

theorem Ensures.mono {m : CompileM α} {post post' : α → Prop} (h : Ensures memo sure m post)
    (weaker : ∀ a, post a → post' a) : Ensures memo sure m post' :=
  ⟨h.kept, fun state inv a eq => weaker a (h.holds state inv a eq), h.succeeds⟩

theorem Ensures.imp {sure' : Prop} {m : CompileM α} {post : α → Prop} (h : Ensures memo sure m post)
    (stronger : sure' → sure) : Ensures memo sure' m post :=
  ⟨h.kept, h.holds, fun state inv met => h.succeeds state inv (stronger met)⟩

/-- What is ensured of results from any state is ensured besides. -/
theorem Ensures.and {m : CompileM α} {post post' : α → Prop} (h : Ensures memo sure m post)
    (h' : Ensures (fun _ => True) False m post') :
    Ensures memo sure m fun a => post a ∧ post' a :=
  ⟨h.kept, fun state inv a eq => ⟨h.holds state inv a eq, h'.holds state trivial a eq⟩, h.succeeds⟩

/-- Nothing is asked of a computation without an invariant, a condition and a property. -/
theorem ensures_true {m : CompileM α} : Ensures (fun _ => True) False m fun _ => True :=
  ⟨fun _ _ => trivial, fun _ _ _ _ => trivial, fun _ _ => False.elim⟩

/-! ### Sequences -/

theorem ensures_pure {a : α} {post : α → Prop} (h : post a) :
    Ensures memo sure (pure a : CompileM α) post where
  kept _ inv := inv
  holds _ _ b eq := by
    cases eq
    exact h
  succeeds _ _ _ := ⟨a, rfl⟩

theorem Ensures.bind {m : CompileM α} {next : α → CompileM β} {post : α → Prop}
    {post' : β → Prop} (h : Ensures memo sure m post)
    (h' : ∀ a, post a → Ensures memo sure (next a) post') :
    Ensures memo sure (m >>= next) post' := by
  refine ⟨fun state inv => ?_, fun state inv => ?_, fun state inv met => ?_⟩
  all_goals
    have kept := h.kept state inv
    have holds := h.holds state inv
    rw [run_bind]
    rcases hm : m.run state with ⟨e | a, after⟩
    all_goals rw [hm] at kept holds
  -- each part twice, for a first computation that stops and for one that has a result
  · exact kept
  · exact (h' a (holds a rfl)).kept after kept
  · exact fun _ eq => by cases eq
  · exact (h' a (holds a rfl)).holds after kept
  · obtain ⟨a, eq⟩ := h.succeeds state inv met
    rw [hm] at eq
    cases eq
  · exact (h' a (holds a rfl)).succeeds after kept met

theorem Ensures.map {m : CompileM α} {f : α → β} {post : β → Prop}
    (h : Ensures memo sure m fun a => post (f a)) : Ensures memo sure (f <$> m) post := by
  rw [← bind_pure_comp]
  exact h.bind fun a ha => ensures_pure ha

/-- What is ensured for each of some elements is ensured for all of them in order. -/
theorem ensures_mapM {f : α → CompileM β} {post : α → β → Prop} {xs : List α}
    (h : ∀ x ∈ xs, Ensures memo sure (f x) (post x)) :
    Ensures memo sure (xs.mapM f) (List.Forall₂ post xs) := by
  induction xs with
  | nil =>
    rw [List.mapM_nil]
    exact ensures_pure .nil
  | cons x rest ih =>
    rw [List.mapM_cons]
    refine (h x List.mem_cons_self).bind fun y hy => ?_
    refine (ih fun other mem => h other (List.mem_cons_of_mem _ mem)).bind fun ys hys => ?_
    exact ensures_pure (.cons hy hys)

/-! ### Errors -/

theorem ensures_throw {e : CompileError} {post : α → Prop} (h : ¬ sure) :
    Ensures memo sure (throw e : CompileM α) post :=
  ⟨fun _ inv => inv, fun _ _ _ eq => (by cases eq), fun _ _ met => absurd met h⟩

theorem ensures_fail {failure : Failure} {post : α → Prop} (h : ¬ sure) :
    Ensures memo sure (fail failure : CompileM α) post :=
  ⟨fun _ inv => inv, fun _ _ _ eq => (by cases eq), fun _ _ met => absurd met h⟩

theorem ensures_ofExcept {result : Except CompileError α} (h : sure → ∃ a, result = .ok a) :
    Ensures memo sure (ofExcept result) fun a => result = .ok a := by
  cases result with
  | error e =>
    refine ensures_throw fun met => ?_
    obtain ⟨_, eq⟩ := h met
    cases eq
  | ok a => exact ensures_pure rfl

/-! ### The state -/

theorem ensures_get : Ensures memo sure (get : CompileM CompilerState) fun _ => True :=
  ⟨fun _ inv => inv, fun _ _ _ _ => trivial, fun state _ _ => ⟨state, rfl⟩⟩

theorem ensures_tell {events : List LogEvent} : Ensures memo sure (tell events) fun _ => True :=
  ⟨fun _ inv => inv, fun _ _ _ _ => trivial, fun _ _ _ => ⟨(), rfl⟩⟩

theorem ensures_useType {schema : Schema} {name : Name} :
    Ensures memo sure (useType schema name) fun _ => True :=
  ⟨fun _ inv => inv, fun _ _ _ _ => trivial, fun _ _ _ => ⟨(), rfl⟩⟩

theorem ensures_checkOnce {check : Except CompileError α} (h : sure → ∃ a, check = .ok a) :
    Ensures memo sure (checkOnce check) fun _ => True := by
  have marked : Ensures memo sure
      (modify fun state => { state with cyclesChecked := true } : CompileM PUnit) fun _ => True :=
    ⟨fun _ inv => inv, fun _ _ _ _ => trivial, fun _ _ _ => ⟨(), rfl⟩⟩
  refine ensures_get.bind fun state _ => ?_
  split
  · exact ensures_pure trivial
  · exact (ensures_ofExcept h).bind fun _ _ => marked

theorem ensures_remembered? {name : Name} :
    Ensures memo sure (remembered? name) fun found => ∃ references, memo references ∧
      references.find? name = found where
  kept _ inv := inv
  holds state inv _ eq := by
    cases eq
    exact ⟨state.references, inv, rfl⟩
  succeeds state _ _ := ⟨state.references.find? name, rfl⟩

theorem ensures_remember {name : Name} {names : List Name}
    (h : ∀ references, memo references → memo (references.insert name names)) :
    Ensures memo sure (remember name names) fun _ => True :=
  ⟨fun state inv => h state.references inv, fun _ _ _ _ => trivial, fun _ _ _ => ⟨(), rfl⟩⟩

end CompileM

end GraphQLCompiler
