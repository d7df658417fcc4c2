import Mathlib.Algebra.BigOperators.Group.Finset.Basic
import Mathlib.Algebra.BigOperators.Fin
import Mathlib.Data.List.Basic

/-! Values that are dealt out to `k` columns in turn. A list of such values starts
in some column; what matters about the list is the sum of each column, so lists
of different lengths can stand for the same sums. -/
namespace Layout

variable {S : Type*} [AddCommMonoid S] {k c : Nat}

/-- The sum of column `c` of a list whose first value is number `start`. -/
def column (k c : Nat) : Nat → List S → S
  | _, [] => 0
  | start, x :: rest => (if start % k = c then x else 0) + column k c (start + 1) rest

@[simp] theorem column_nil (k c start : Nat) : column k c start ([] : List S) = 0 := rfl

theorem column_cons (k c start : Nat) (x : S) (rest : List S) :
    column k c start (x :: rest) = (if start % k = c then x else 0) + column k c (start + 1) rest := rfl

theorem column_append (k c start : Nat) (front back : List S) :
    column k c start (front ++ back) =
      column k c start front + column k c (start + front.length) back := by
  induction front generalizing start with
  | nil => simp
  | cons x rest ih =>
    have hNext : start + 1 + rest.length = start + (rest.length + 1) := by omega
    rw [List.cons_append, column_cons, column_cons, ih, List.length_cons, hNext, add_assoc]

theorem column_singleton (k c start : Nat) (x : S) :
    column k c start [x] = if start % k = c then x else 0 := by
  rw [column_cons, column_nil, add_zero]

variable {start : Nat}

theorem column_congr {start' : Nat} (h : start % k = start' % k) (l : List S) :
    column k c start l = column k c start' l := by
  induction l generalizing start start' with
  | nil => rfl
  | cons x rest ih =>
    have hNext : (start + 1) % k = (start' + 1) % k := by
      rw [Nat.add_mod, h, ← Nat.add_mod]
    rw [column_cons, column_cons, h, ih hNext]

theorem column_eq_zero {l : List S} (h : ∀ i < l.length, (start + i) % k ≠ c) : column k c start l = 0 := by
  induction l generalizing start with
  | nil => rfl
  | cons x rest ih =>
    have hHead := h 0 (by simp)
    have hRest : column k c (start + 1) rest = 0 := by
      apply ih
      intro i hi
      rw [Nat.add_assoc, Nat.add_comm 1]
      exact h (i + 1) (by simpa using hi)
    rw [column_cons, hRest, if_neg (by simpa using hHead), add_zero]

theorem column_head {x : S} {rest : List S} (hRow : start + rest.length < k) :
    column k start start (x :: rest) = x := by
  have hRest : column k start (start + 1) rest = 0 := by
    apply column_eq_zero
    intro i hi
    rw [Nat.mod_eq_of_lt (by omega)]
    omega
  rw [column_cons, hRest, if_pos (Nat.mod_eq_of_lt (by omega)), add_zero]

/-- A value that is replaced, at the end of a list of whole rows, by its sum with
a new value of the same column. -/
theorem column_rotate {n : Nat} {x y : S} {rest : List S} (hRows : (x :: rest).length = n * k) :
    column k c (start + 1) (rest ++ [y + x]) =
      (if start % k = c then y else 0) + column k c start (x :: rest) := by
  have hEnd : start + 1 + rest.length = start + n * k := by
    rw [← hRows, List.length_cons]
    omega
  rw [column_append, column_singleton, hEnd, Nat.add_mul_mod_self_right, column_cons]
  split
  · rw [add_comm, add_assoc]
  · rw [add_zero, zero_add, zero_add]

/-- The columns of values that are numbered row by row. -/
theorem column_rows (hc : c < k) (f : Nat → S) (n : Nat) :
    column k c 0 ((List.range (n * k)).map f) = ∑ r ∈ Finset.range n, f (r * k + c) := by
  have hRow : ∀ (m start : Nat), start % k = 0 → m ≤ k →
      column k c start ((List.range m).map fun j => f (start + j)) = if c < m then f (start + c) else 0 := by
    intro m start hStart
    induction m with
    | zero => simp
    | succ m ih =>
      intro hm
      have hLast : (start + m) % k = m := by
        rw [Nat.add_mod, hStart, Nat.zero_add, Nat.mod_mod, Nat.mod_eq_of_lt (by omega)]
      rw [List.range_succ, List.map_append, column_append, ih (by omega), List.map_singleton,
        List.length_map, List.length_range, column_singleton, hLast]
      rcases Nat.lt_trichotomy c m with hLess | rfl | hGreater
      · rw [if_pos hLess, if_neg (by omega), if_pos (by omega), add_zero]
      · rw [if_neg (lt_irrefl c), if_pos rfl, if_pos (Nat.lt_succ_self c), zero_add]
      · rw [if_neg (by omega), if_neg (by omega), if_neg (by omega), add_zero]
  induction n with
  | zero => simp
  | succ n ih =>
    have hNew := hRow k (n * k) (Nat.mul_mod_left n k) le_rfl
    rw [if_pos hc] at hNew
    rw [Nat.succ_mul, List.range_add, List.map_append, column_append, ih, Finset.sum_range_succ,
      List.length_map, List.length_range, Nat.zero_add, List.map_map]
    exact congrArg _ hNew

end Layout
