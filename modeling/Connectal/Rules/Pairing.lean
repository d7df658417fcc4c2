import Mathlib.Data.List.Basic

/-! Requests that wait in two places at once: in the queue of their origin, and
at the server they were sent to. Answers carry no names. The next answer of a
server goes to the oldest request of an origin, so it depends on the order of the
queues alone which request gets which answer. A request that is never answered
stays in both places. -/
namespace Rules
namespace Pairing

variable {α ι κ β : Type*}

/-- The items with a given key, in order. -/
def having [DecidableEq κ] (key : α → κ) (k : κ) (items : List α) : List α := items.filter fun x => key x = k

/-- Remove the oldest item with a given key. -/
def dropOldest [DecidableEq κ] (key : α → κ) (k : κ) (items : List α) : List α := items.eraseP fun x => key x = k

section Keys

variable [DecidableEq κ] {key : α → κ} {k : κ} {items older newer : List α} {x y : α}

@[simp] theorem having_nil : having key k [] = [] := rfl

@[simp] theorem having_append : having key k (items ++ newer) = having key k items ++ having key k newer :=
  List.filter_append ..

@[simp] theorem having_singleton : having key k [x] = if key x = k then [x] else [] := by
  by_cases h : key x = k <;> simp [having, h]

theorem mem_having : x ∈ having key k items ↔ x ∈ items ∧ key x = k := by
  simp [having]

theorem having_eq_nil (h : ∀ y ∈ items, key y ≠ k) : having key k items = [] := by
  simpa [having] using h

/-- The oldest item with its key comes first among those with that key, and items
with other keys do not notice when it is gone. -/
theorem having_oldest (h : ∀ y ∈ older, key y ≠ key x) (k : κ) :
    having key k (older ++ x :: newer) = having key k [x] ++ having key k (older ++ newer) := by
  by_cases hk : key x = k
  · subst hk
    rw [having_append, having_append, having_eq_nil h]
    simp [having]
  · simp [having, hk]

/-- An item that comes first among those with its key is the oldest of them. -/
theorem exists_oldest {rest : List α} (h : having key k items = x :: rest) :
    ∃ older newer, items = older ++ x :: newer ∧ key x = k ∧ (∀ y ∈ older, key y ≠ k) ∧
      rest = having key k (older ++ newer) := by
  obtain ⟨older, newer, rfl, hOlder, hKey, hRest⟩ := List.filter_eq_cons_iff.mp h
  have hNone : ∀ y ∈ older, key y ≠ k := by simpa using hOlder
  refine ⟨older, newer, rfl, by simpa using hKey, hNone, ?_⟩
  rw [having_append, having_eq_nil hNone, List.nil_append]
  exact hRest.symm

theorem dropOldest_eq (h : ∀ y ∈ older, key y ≠ key x) :
    dropOldest key (key x) (older ++ x :: newer) = older ++ newer := by
  rw [dropOldest, List.eraseP_append_right _ (by simpa using h)]
  simp

theorem dropOldest_sublist : (dropOldest key k items).Sublist items := List.eraseP_sublist

end Keys

section Answers

variable {origin : α → ι} {server : α → κ} {answer : α → Option β} {items older newer : List α} {x y : α}

/-- No request that will be answered stands behind one that will not, neither
with its origin nor at its server. -/
def Clear (origin : α → ι) (server : α → κ) (answer : α → Option β) (items : List α) : Prop :=
  items.Pairwise fun x y => answer x = none → answer y ≠ none → origin x ≠ origin y ∧ server x ≠ server y

theorem Clear.snoc (h : Clear origin server answer items)
    (hNew : answer y ≠ none → ∀ x ∈ items, answer x = none → origin x ≠ origin y ∧ server x ≠ server y) :
    Clear origin server answer (items ++ [y]) := by
  rw [Clear, List.pairwise_append]
  refine ⟨h, List.pairwise_singleton _ _, ?_⟩
  intro x hx z hz hNone hSome
  rw [List.mem_singleton] at hz
  subst hz
  exact hNew hSome x hx hNone

/-- A server whose oldest request is never answered answers none. -/
theorem Clear.silent [DecidableEq κ] (h : Clear origin server answer (older ++ x :: newer))
    (hOldest : ∀ y ∈ older, server y ≠ server x) (hNone : answer x = none) :
    (having server (server x) (older ++ x :: newer)).filterMap answer = [] := by
  have hBehind := (List.pairwise_cons.mp (List.pairwise_append.mp h).2.1).1
  rw [List.filterMap_eq_nil_iff]
  intro y hy
  obtain ⟨hMem, hServer⟩ := mem_having.mp hy
  rcases List.mem_append.mp hMem with hOlder | hNewer
  · exact absurd hServer (hOldest y hOlder)
  · by_contra hSome
    rcases List.mem_cons.mp hNewer with rfl | hNewer
    · exact hSome hNone
    · exact (hBehind y hNewer hNone hSome).2 hServer.symm

/-- The oldest request that will be answered comes first with its origin and at
its server. -/
theorem Clear.exists_next (h : Clear origin server answer items) (hSome : ∃ x ∈ items, answer x ≠ none) :
    ∃ older x newer, items = older ++ x :: newer ∧ answer x ≠ none ∧
      (∀ y ∈ older, origin y ≠ origin x) ∧ ∀ y ∈ older, server y ≠ server x := by
  induction items with
  | nil => simp at hSome
  | cons z rest ih =>
    by_cases hz : answer z = none
    · obtain ⟨x, hx, hAnswer⟩ := hSome
      have hx' : x ∈ rest := by
        rcases List.mem_cons.mp hx with rfl | hx
        · exact absurd hz hAnswer
        · exact hx
      obtain ⟨hFirst, hRest⟩ := List.pairwise_cons.mp h
      obtain ⟨older, y, newer, rfl, hy, hOrigin, hServer⟩ := ih hRest ⟨x, hx', hAnswer⟩
      obtain ⟨hO, hS⟩ := hFirst y (by simp) hz hy
      exact ⟨z :: older, y, newer, rfl, hy, List.forall_mem_cons.mpr ⟨hO, hOrigin⟩,
        List.forall_mem_cons.mpr ⟨hS, hServer⟩⟩
    · exact ⟨[], z, rest, rfl, hz, by simp, by simp⟩

end Answers

end Pairing
end Rules
