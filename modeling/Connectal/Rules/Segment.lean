import Mathlib.Data.List.Basic

/-! Stretches of a growing list. A module that passes the items of one list
through several queues in order is described by positions in that list: each
queue holds the stretch between two neighbouring positions. -/
namespace Rules

variable {α : Type*} {l : List α}

theorem getElem?_concat_eq_some {x y : α} {i : Nat} :
    (l ++ [x])[i]? = some y ↔ l[i]? = some y ∨ (i = l.length ∧ x = y) := by
  rcases Nat.lt_trichotomy i l.length with hi | rfl | hi
  · rw [List.getElem?_append_left hi]
    simp [Nat.ne_of_lt hi]
  · simp
  · rw [List.getElem?_eq_none (by simp; omega), List.getElem?_eq_none (Nat.le_of_lt hi)]
    simp [Nat.ne_of_gt hi]

theorem getElem?_set_eq_some {x y : α} {i j : Nat} (hi : i < l.length) :
    (l.set i x)[j]? = some y ↔ (j = i ∧ x = y) ∨ (j ≠ i ∧ l[j]? = some y) := by
  rw [List.getElem?_set]
  split
  · next hEq => simp [hEq.symm, hi]
  · next hNe => simp [Ne.symm hNe]

/-- The items of `l` from position `i` up to but not including position `j`. -/
def segment (l : List α) (i j : Nat) : List α := (l.take j).drop i

theorem segment_length (l : List α) (i : Nat) : segment l i l.length = l.drop i := by
  simp [segment]

theorem segment_append {j : Nat} (hj : j ≤ l.length) (m : List α) (i : Nat) :
    segment (l ++ m) i j = segment l i j := by
  rw [segment, List.take_append_of_le_length hj, segment]

theorem segment_push {i j : Nat} {x : α} (hij : i ≤ j) (hx : l[j]? = some x) :
    segment l i (j + 1) = segment l i j ++ [x] := by
  have hj : j < l.length := (List.getElem_of_getElem? hx).1
  rw [segment, List.take_add_one, hx, Option.toList_some, List.drop_append_of_le_length, segment]
  rw [List.length_take]
  omega

theorem segment_pop {i j : Nat} {x : α} {rest : List α}
    (h : segment l i j = x :: rest) : i < j ∧ l[i]? = some x ∧ rest = segment l (i + 1) j := by
  have hLen : i < j := by
    by_contra hle
    have : segment l i j = [] := by
      rw [segment, List.drop_eq_nil_iff, List.length_take]
      omega
    rw [this] at h
    cases h
  have hHead : (segment l i j)[0]? = some x := by rw [h]; rfl
  rw [segment, List.getElem?_drop, Nat.add_zero, List.getElem?_take_of_lt hLen] at hHead
  refine ⟨hLen, hHead, ?_⟩
  have hTail := congrArg List.tail h
  rw [segment, List.tail_drop, List.tail_cons] at hTail
  exact hTail.symm

end Rules
