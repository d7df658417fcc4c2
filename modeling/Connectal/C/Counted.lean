import Mathlib.Data.List.Basic

/-! Arrays of C programs that are used up to a counter: entries are appended at the counter,
and an entry is removed by moving the later ones down by one place. The counter is a signed
number that nothing keeps from falling below zero. -/
namespace C

structure Counted (α : Type*) where
  cells : Nat → α
  num : Int

namespace Counted

variable {α : Type*} {v : Counted α} {i n : Nat}

/-- The entries in use. -/
def entries (v : Counted α) : List α := (List.range v.num.toNat).map v.cells

/-- Write behind the last entry. There is no such place for a negative counter. -/
def push (v : Counted α) (x : α) : Option (Counted α) :=
  if 0 ≤ v.num then some ⟨Function.update v.cells v.num.toNat x, v.num + 1⟩ else none

/-- The first of `n` places from `i` on with an entry that is looked for, or the place behind them. -/
def search (p : α → Bool) (cells : Nat → α) : Nat → Nat → Nat
  | i, 0 => i
  | i, n + 1 => if p (cells i) then i else search p cells (i + 1) n

/-- Move `n` entries down by one place, the first one to place `i`. -/
def shift (cells : Nat → α) : Nat → Nat → Nat → α
  | _, 0 => cells
  | i, n + 1 => shift (Function.update cells i (cells (i + 1))) (i + 1) n

/-- Remove the entry at place `i`, or the last one if there is none. -/
def removeAt (v : Counted α) (i : Nat) : Counted α := ⟨shift v.cells i ((v.num - 1).toNat - i), v.num - 1⟩

/-- Remove the first entry that is looked for, or the last one if there is none. -/
def removeFirst (v : Counted α) (p : α → Bool) : Counted α := v.removeAt (search p v.cells 0 v.num.toNat)

theorem length_entries (v : Counted α) : v.entries.length = v.num.toNat := by simp [entries]

theorem entries_push {w : Counted α} {x : α} (h : v.push x = some w) :
    0 ≤ v.num ∧ w.num = v.num + 1 ∧ w.entries = v.entries ++ [x] := by
  unfold push at h
  split at h
  · next hNum =>
    cases h
    have hCount : (v.num + 1).toNat = v.num.toNat + 1 := by omega
    refine ⟨hNum, rfl, ?_⟩
    show (List.range (v.num + 1).toNat).map (Function.update v.cells v.num.toNat x) = v.entries ++ [x]
    rw [entries, hCount, List.range_succ, List.map_append, List.map_singleton, Function.update_self]
    congr 1
    refine List.map_congr_left fun j hj => ?_
    rw [Function.update_of_ne (Nat.ne_of_lt (List.mem_range.mp hj))]
  · cases h

theorem exists_push (h : 0 ≤ v.num) (x : α) : ∃ w, v.push x = some w := ⟨_, if_pos h⟩

theorem shift_apply (cells : Nat → α) (i n j : Nat) :
    shift cells i n j = if i ≤ j ∧ j < i + n then cells (j + 1) else cells j := by
  induction n generalizing cells i with
  | zero => rw [shift, if_neg (by omega)]
  | succ n ih =>
    rw [shift, ih]
    rcases Nat.lt_trichotomy j i with hLess | rfl | hMore
    · rw [if_neg (by omega), if_neg (by omega), Function.update_of_ne (by omega)]
    · rw [if_neg (by omega), if_pos (by omega), Function.update_self]
    · rw [Function.update_of_ne (show j ≠ i by omega), Function.update_of_ne (show j + 1 ≠ i by omega)]
      by_cases hIn : j < i + (n + 1)
      · rw [if_pos (by omega), if_pos (by omega)]
      · rw [if_neg (by omega), if_neg (by omega)]

theorem entries_removeAt (v : Counted α) (i : Nat) :
    (v.removeAt i).entries = v.entries.eraseIdx (min i (v.num.toNat - 1)) := by
  rcases Int.lt_or_le 0 v.num with hPos | hNone
  · have hCount : (v.num - 1).toNat = v.num.toNat - 1 := by omega
    have hLength : (v.removeAt i).entries.length = v.num.toNat - 1 := by rw [length_entries]; exact hCount
    refine List.ext_getElem ?_ fun j hj _ => ?_
    · rw [hLength, List.length_eraseIdx_of_lt (by rw [length_entries]; omega), length_entries]
    · rw [List.getElem_eraseIdx]
      simp only [entries, removeAt, List.getElem_map, List.getElem_range, shift_apply, hCount]
      have hBound : j < v.num.toNat - 1 := hLength ▸ hj
      split_ifs <;> first | rfl | omega
  · have hEmpty (w : Counted α) (hw : w.num ≤ 0) : w.entries = [] := by
      rw [entries, Int.toNat_of_nonpos hw]
      rfl
    rw [hEmpty v hNone, hEmpty _ (show v.num - 1 ≤ 0 by omega), List.eraseIdx_nil]

theorem search_eq (p : α → Bool) (cells : Nat → α) (i n : Nat) :
    search p cells i n = i + ((List.range' i n).map cells).findIdx p := by
  induction n generalizing i with
  | zero => simp [search]
  | succ n ih =>
    rw [search, List.range'_succ, List.map_cons, List.findIdx_cons, ih]
    cases p (cells i) with
    | true => rfl
    | false =>
      simp only [Bool.false_eq_true, if_false, cond_false]
      omega

theorem entries_removeFirst (v : Counted α) (p : α → Bool) :
    (v.removeFirst p).entries = v.entries.eraseIdx (min (v.entries.findIdx p) (v.num.toNat - 1)) := by
  rw [removeFirst, entries_removeAt, search_eq, Nat.zero_add, ← List.range_eq_range']
  rfl

/-- An entry that was appended is the one that is removed, as far as one can see, if all entries
from the first match on are the same. -/
theorem eraseIdx_concat_eq_iff {xs : List α} {y : α} (h : i ≤ xs.length) :
    (xs ++ [y]).eraseIdx i = xs ↔ ∀ x ∈ xs.drop i, x = y := by
  induction xs generalizing i with
  | nil => simp_all
  | cons a xs ih =>
    cases i with
    | zero =>
      have hHead : xs ++ [y] = a :: xs ↔ a = y ∧ ∀ x ∈ xs, x = y := by
        clear ih h
        induction xs generalizing a with
        | nil => simp [eq_comm]
        | cons b xs ih =>
          rw [List.cons_append, List.cons.injEq, ih, List.forall_mem_cons]
          constructor <;>
          · rintro ⟨rfl, rfl, hAll⟩
            exact ⟨rfl, rfl, hAll⟩
      simpa using hHead
    | succ i =>
      have hRest := ih (Nat.le_of_succ_le_succ h)
      simpa using hRest

/-- Appending entries and removing the first match undo each other exactly if one entry is
appended, and the entries from the first match on are all like it. -/
theorem undo_iff {ys : List α} {p : α → Bool} {w : Counted α} (hw : w.entries = v.entries ++ ys)
    (hCount : w.num = v.num + ys.length) (hv : 0 ≤ v.num) :
    ((w.removeFirst p).num = v.num ∧ (w.removeFirst p).entries = v.entries) ↔
      ∃ y, ys = [y] ∧ ∀ x ∈ v.entries.drop (v.entries.findIdx p), x = y := by
  have hOne : (w.removeFirst p).num = v.num ↔ ys.length = 1 := by
    show w.num - 1 = v.num ↔ _
    omega
  rw [hOne, List.length_eq_one_iff]
  have hUndo (y : α) (hy : ys = [y]) : (w.removeFirst p).entries = v.entries ↔
      ∀ x ∈ v.entries.drop (v.entries.findIdx p), x = y := by
    have hPlace : min (w.entries.findIdx p) (w.num.toNat - 1) = v.entries.findIdx p := by
      have hLast : w.num.toNat - 1 = v.entries.length := by rw [length_entries, hCount, hy, List.length_singleton]; omega
      rw [hLast, hw, List.findIdx_append]
      have hLe : v.entries.findIdx p ≤ v.entries.length := List.findIdx_le_length
      split <;> omega
    rw [entries_removeFirst, hPlace, hw, hy]
    exact eraseIdx_concat_eq_iff List.findIdx_le_length
  constructor
  · rintro ⟨⟨y, hy⟩, hEntries⟩
    exact ⟨y, hy, (hUndo y hy).mp hEntries⟩
  · rintro ⟨y, hy, hAll⟩
    exact ⟨⟨y, hy⟩, (hUndo y hy).mpr hAll⟩

end Counted

/-- An array together with the indices at which the program may access it. -/
structure Cells (α : Type*) where
  first : Int
  last : Int
  val : Int → α

namespace Cells

variable {α : Type*} {c : Cells α} {i : Int}

/-- A read access, where `none` is one outside the array. -/
def read (c : Cells α) (i : Int) : Option α := if c.first ≤ i ∧ i ≤ c.last then some (c.val i) else none

/-- A write access, where `none` is one outside the array. -/
def write (c : Cells α) (i : Int) (x : α) : Option (Cells α) :=
  if c.first ≤ i ∧ i ≤ c.last then some { c with val := Function.update c.val i x } else none

theorem read_of_mem (hFirst : c.first ≤ i) (hLast : i ≤ c.last) : c.read i = some (c.val i) :=
  if_pos ⟨hFirst, hLast⟩

theorem val_of_read {x : α} (h : c.read i = some x) : c.val i = x := by
  rw [read, Option.ite_none_right_eq_some] at h
  exact Option.some.inj h.2

theorem val_of_write {d : Cells α} {x : α} (h : c.write i x = some d) : d.val = Function.update c.val i x := by
  rw [write, Option.ite_none_right_eq_some] at h
  exact Option.some.inj h.2 ▸ rfl

theorem write_of_mem (hFirst : c.first ≤ i) (hLast : i ≤ c.last) (x : α) :
    c.write i x = some { c with val := Function.update c.val i x } :=
  if_pos ⟨hFirst, hLast⟩

end Cells

/-- `for (i = k + 1; i <= k + n; i++)`: what each turn hands on to the next one holds at the end, and
the loop gets there. -/
theorem exists_for {σ : Type*} {turn : σ → Nat → Option σ} (P : Nat → σ → Prop) {k n : Nat} {s : σ}
    (hTurn : ∀ i s, i < k + n → P i s → ∃ s', turn s (i + 1) = some s' ∧ P (i + 1) s') (h : P k s) :
    ∃ s', (List.range' (k + 1) n).foldlM turn s = some s' ∧ P (k + n) s' := by
  induction n generalizing k s with
  | zero => exact ⟨s, rfl, h⟩
  | succ n ih =>
    obtain ⟨s', hFirst, h'⟩ := hTurn k s (by omega) h
    obtain ⟨s'', hRest, h''⟩ := ih (fun i s hi => hTurn i s (by omega)) h'
    refine ⟨s'', ?_, by rwa [Nat.add_right_comm] at h''⟩
    rw [List.range'_succ, List.foldlM_cons, hFirst]
    exact hRest

end C
