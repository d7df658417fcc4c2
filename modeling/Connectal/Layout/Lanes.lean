import Mathlib.Data.List.Basic

/-! A stream that is dealt out to `n` lanes in turn, or handed out in groups of `n`. -/
namespace Layout

variable {α : Type*} {n i p : Nat}

/-- The items of lane `i`, if the first item goes to lane `p`. -/
def lane (n i : Nat) : Nat → List α → List α
  | _, [] => []
  | p, x :: xs => (if p = i then [x] else []) ++ lane n i ((p + 1) % n) xs

/-- How many items go to other lanes before lane `i` gets one. -/
def distance (n p i : Nat) : Nat := (i + n - p) % n

theorem distance_eq (hi : i < n) (hp : p < n) : distance n p i = if p ≤ i then i - p else i + n - p := by
  unfold distance
  split
  · next h =>
    rw [show i + n - p = i - p + n by omega, Nat.add_mod_right, Nat.mod_eq_of_lt (by omega)]
  · next h => exact Nat.mod_eq_of_lt (by omega)

theorem distance_lt (hn : 0 < n) (p i : Nat) : distance n p i < n := Nat.mod_lt _ hn

theorem succ_mod_eq (hp : p < n) : (p + 1) % n = if p + 1 = n then 0 else p + 1 := by
  split
  · next h => rw [h, Nat.mod_self]
  · next h => exact Nat.mod_eq_of_lt (by omega)

theorem lane_append (n i : Nat) (hp : p < n) (l m : List α) :
    lane n i p (l ++ m) = lane n i p l ++ lane n i ((p + l.length) % n) m := by
  induction l generalizing p with
  | nil => rw [List.length_nil, Nat.add_zero, Nat.mod_eq_of_lt hp]; rfl
  | cons x l ih =>
    have hNext : (p + 1) % n < n := Nat.mod_lt _ (by omega)
    have hEnd : ((p + 1) % n + l.length) % n = (p + (x :: l).length) % n := by
      rw [Nat.mod_add_mod, List.length_cons, Nat.add_assoc, Nat.add_comm 1]
    rw [List.cons_append, lane, lane, ih hNext, hEnd, List.append_assoc]

theorem add_distance (hi : i < n) (hp : p < n) : (p + distance n p i) % n = i := by
  rw [distance_eq hi hp]
  split
  · next h => rw [Nat.add_sub_cancel' h, Nat.mod_eq_of_lt hi]
  · next h => rw [show p + (i + n - p) = i + n by omega, Nat.add_mod_right, Nat.mod_eq_of_lt hi]

theorem distance_add (hp : p < n) {k : Nat} (hk : k < n) : distance n p ((p + k) % n) = k := by
  rw [distance_eq (Nat.mod_lt _ (by omega)) hp]
  rcases Nat.lt_or_ge (p + k) n with hLt | hGe
  · rw [Nat.mod_eq_of_lt hLt, if_pos (by omega)]
    omega
  · rw [Nat.mod_eq_sub_mod hGe, Nat.mod_eq_of_lt (by omega), if_neg (by omega)]
    omega

variable {l : List α}

/-- A lane gets at most one of `n` items in a row. -/
theorem lane_short (hi : i < n) (hp : p < n) (h : l.length ≤ n) :
    lane n i p l = (l[distance n p i]?).toList := by
  induction l generalizing p with
  | nil => rfl
  | cons x l ih =>
    have hNext : (p + 1) % n < n := Nat.mod_lt _ (by omega)
    have hLength : l.length < n := h
    rw [lane, ih hNext (Nat.le_of_lt hLength), distance_eq hi hp, distance_eq hi hNext, succ_mod_eq hp]
    by_cases hHere : p = i
    · subst hHere
      rw [if_pos rfl, if_pos (Nat.le_refl _), Nat.sub_self]
      have hFar : l.length ≤ if (if p + 1 = n then 0 else p + 1) ≤ p
          then p - (if p + 1 = n then 0 else p + 1) else p + n - (if p + 1 = n then 0 else p + 1) := by
        split_ifs <;> omega
      rw [List.getElem?_eq_none hFar]
      rfl
    · have hStep : (if p ≤ i then i - p else i + n - p) =
          (if (if p + 1 = n then 0 else p + 1) ≤ i then i - (if p + 1 = n then 0 else p + 1)
            else i + n - (if p + 1 = n then 0 else p + 1)) + 1 := by
        split_ifs <;> omega
      rw [if_neg hHere, hStep, List.getElem?_cons_succ]
      rfl

theorem lane_next (hp : p < n) {k : Nat} (hk : k < n) (l : List α) :
    (lane n ((p + k) % n) p l).head? = l[k]? := by
  induction l generalizing p k with
  | nil => rfl
  | cons x l ih =>
    rw [lane]
    cases k with
    | zero =>
      rw [Nat.add_zero, Nat.mod_eq_of_lt hp, if_pos rfl]
      rfl
    | succ k =>
      have hOther : p ≠ (p + (k + 1)) % n := by
        intro hEq
        rcases Nat.lt_or_ge (p + (k + 1)) n with hLt | hGe
        · rw [Nat.mod_eq_of_lt hLt] at hEq
          omega
        · rw [Nat.mod_eq_sub_mod hGe, Nat.mod_eq_of_lt (by omega)] at hEq
          omega
      have hShift : (p + (k + 1)) % n = ((p + 1) % n + k) % n := by
        rw [Nat.mod_add_mod, Nat.add_assoc, Nat.add_comm 1]
      rw [if_neg hOther, hShift, List.nil_append, List.getElem?_cons_succ]
      exact ih (Nat.mod_lt _ (by omega)) (by omega)

theorem mapM_range_eq_some {k : Nat} {f : Nat → Option α} {xs : List α} (hf : ∀ j < k, f j = l[j]?) :
    (List.range k).mapM f = some xs ↔ k ≤ l.length ∧ xs = l.take k := by
  induction k generalizing xs with
  | zero => simp [eq_comm]
  | succ k ih =>
    have ih (xs : List α) := @ih xs fun j hj => hf j (Nat.lt_succ_of_lt hj)
    simp only [List.range_succ, List.mapM_append, List.mapM_cons, List.mapM_nil, Option.bind_eq_bind,
      Option.bind_eq_some_iff, Option.pure_def, Option.some.injEq, ih, hf k (Nat.lt_succ_self k)]
    constructor
    · rintro ⟨_, ⟨-, rfl⟩, _, ⟨x, hx, _, rfl, rfl⟩, rfl⟩
      obtain ⟨hk, rfl⟩ := List.getElem_of_getElem? hx
      exact ⟨hk, List.take_append_getElem hk⟩
    · rintro ⟨hk, rfl⟩
      exact ⟨_, ⟨Nat.le_of_lt hk, rfl⟩, _, ⟨l[k], List.getElem?_eq_getElem hk, _, rfl, rfl⟩,
        List.take_append_getElem hk⟩

/-- The whole groups of `n` items; fewer than `n` items at the end are left out. -/
def groups (n : Nat) (l : List α) : List (List α) :=
  (List.range (l.length / n)).map fun j => (l.drop (n * j)).take n

theorem groups_append {m : List α} (h : l.length % n = 0) : groups n (l ++ m) = groups n l ++ groups n m := by
  rcases Nat.eq_zero_or_pos n with rfl | hn
  · simp [groups]
  have hLength := Nat.div_add_mod l.length n
  rw [h, Nat.add_zero] at hLength
  have hCount : (l ++ m).length / n = l.length / n + m.length / n := by
    rw [List.length_append, ← hLength, Nat.mul_add_div hn, Nat.mul_div_cancel_left _ hn]
  rw [groups, hCount, List.range_add, List.map_append, List.map_map]
  congr 1
  · -- a group of the first part does not reach into the second part
    refine List.map_congr_left fun j hj => ?_
    have hEnd : n * (j + 1) ≤ n * (l.length / n) := Nat.mul_le_mul_left n (List.mem_range.mp hj)
    rw [Nat.mul_succ, hLength] at hEnd
    rw [List.drop_append_of_le_length (by omega), List.take_append_of_le_length (by rw [List.length_drop]; omega)]
  · refine List.map_congr_left fun j _ => ?_
    show ((l ++ m).drop (n * (l.length / n + j))).take n = _
    rw [Nat.mul_add, hLength, ← List.drop_drop, List.drop_left]

theorem groups_singleton (hn : 0 < n) (h : l.length = n) : groups n l = [l] := by
  rw [groups, h, Nat.div_self hn]
  simp [← h]

theorem groups_short (h : l.length < n) : groups n l = [] := by
  rw [groups, Nat.div_eq_of_lt h]
  rfl

theorem groups_map {β : Type*} (f : α → β) (l : List α) : groups n (l.map f) = (groups n l).map (List.map f) := by
  simp only [groups, List.length_map, List.map_map, Function.comp_def, List.map_take, List.map_drop]

theorem length_of_mem_groups {g : List α} (h : g ∈ groups n l) : g.length = n := by
  obtain ⟨j, hj, rfl⟩ := List.mem_map.mp h
  have hEnd : n * (j + 1) ≤ n * (l.length / n) := Nat.mul_le_mul_left n (List.mem_range.mp hj)
  have hDiv := Nat.mul_div_le l.length n
  rw [Nat.mul_succ] at hEnd
  rw [List.length_take, List.length_drop]
  omega

end Layout
