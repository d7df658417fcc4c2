import Mathlib.Data.List.Basic

/-! Queues of items of varying size in one array of cells. An item is never split: a
writer that could not place an item of the largest size goes back to the start early,
and a reader that knows the sizes goes back at the same place. -/
namespace Layout

/-- The cells from `start` to `limit`, for items of at most `reserve` cells. -/
structure Ring where
  start : Nat
  reserve : Nat
  limit : Nat
  room : start + reserve < limit

namespace Ring

variable {α : Type*} (g : Ring) (stored : Nat → α → Prop) (size : α → Nat)

/-- The index behind an item of `n` cells at `p`. -/
def next (p n : Nat) : Nat := if g.limit ≤ p + n + g.reserve then g.start else p + n

/-- Twice the largest item fits between the write index and the read index. -/
def HasRoom (read write : Nat) : Prop :=
  if read ≤ write then g.start + write + 2 * g.reserve < g.limit + read
  else write + 2 * g.reserve < read

/-- The cells of the items between two indices. -/
def Used (read write i : Nat) : Prop :=
  if read ≤ write then read ≤ i ∧ i < write else read ≤ i ∨ g.start ≤ i ∧ i < write

/-- Items one behind the other, without a wrap. -/
inductive Line : Nat → List α → Nat → Prop where
  | nil (p : Nat) : Line p [] p
  | cons {p q : Nat} {a : α} {rest : List α} : stored p a → 0 < size a → size a ≤ g.reserve →
      p + g.reserve < g.limit → Line (p + size a) rest q → Line p (a :: rest) q

/-- The items from the read index to the write index, with at most one wrap. -/
inductive Queue : Nat → List α → Nat → Prop where
  | straight {read write : Nat} {items : List α} : g.start ≤ read → write + g.reserve < g.limit →
      Line g stored size read items write → Queue read items write
  | wrapped {read last write : Nat} {front back : List α} : front ≠ [] →
      Line g stored size read front last → g.limit ≤ last + g.reserve →
      Line g stored size g.start back write → write < read → Queue read (front ++ back) write

variable {g stored size} {read write : Nat} {items : List α}

theorem Line.le {p q : Nat} (h : Line g stored size p items q) : p ≤ q := by
  induction h with
  | nil p => exact Nat.le_refl p
  | cons hStored hPos hSize hRoom rest ih => omega

theorem Line.snoc {p q : Nat} {a : α} (h : Line g stored size p items q) (hStored : stored q a)
    (hPos : 0 < size a) (hSize : size a ≤ g.reserve) (hRoom : q + g.reserve < g.limit) :
    Line g stored size p (items ++ [a]) (q + size a) := by
  induction h with
  | nil p => exact .cons hStored hPos hSize hRoom (.nil _)
  | cons hFirst hPos' hSize' hRoom' rest ih => exact .cons hFirst hPos' hSize' hRoom' (ih hStored hRoom)

theorem Line.mono {stored' : Nat → α → Prop} {p q : Nat} (h : Line g stored size p items q)
    (hKeep : ∀ i a, p ≤ i → i + size a ≤ q → stored i a → stored' i a) :
    Line g stored' size p items q := by
  induction h with
  | nil p => exact .nil p
  | @cons p q a rest hStored hPos hSize hRoom hRest ih =>
    refine .cons (hKeep p a (Nat.le_refl p) hRest.le hStored) hPos hSize hRoom (ih ?_)
    intro i b hi hEnd
    exact hKeep i b (by omega) hEnd

theorem Line.lt (h : Line g stored size read items write) (hItems : items ≠ []) :
    read < write ∧ read + g.reserve < g.limit := by
  cases h with
  | nil p => exact absurd rfl hItems
  | cons hStored hPos hSize hRoom rest =>
    have hLe := rest.le
    omega

namespace Queue

theorem bounds (h : Queue g stored size read items write) :
    g.start ≤ read ∧ read + g.reserve < g.limit ∧ g.start ≤ write ∧ write + g.reserve < g.limit := by
  cases h with
  | straight hStart hWrite line =>
    have hLe := line.le
    omega
  | wrapped hFront front hLast back hLess =>
    have hLe := back.le
    have hLt := front.lt hFront
    omega

theorem read_eq_write_iff (h : Queue g stored size read items write) :
    read = write ↔ items = [] := by
  cases h with
  | straight hStart hWrite line =>
    cases line with
    | nil p => simp
    | cons hStored hPos hSize hRoom rest =>
      have hLe := rest.le
      simp only [reduceCtorEq, iff_false]
      omega
  | wrapped hFront front hLast back hLess =>
    simp only [List.append_eq_nil_iff, hFront, false_and, iff_false]
    omega

theorem first {a : α} {rest : List α} (h : Queue g stored size read (a :: rest) write) :
    stored read a ∧ 0 < size a ∧ size a ≤ g.reserve := by
  generalize hItems : a :: rest = items at h
  cases h with
  | straight hStart hWrite line =>
    subst hItems
    cases line with
    | cons hStored hPos hSize hRoom line => exact ⟨hStored, hPos, hSize⟩
  | wrapped hFront front hLast back hLess =>
    cases front with
    | nil p => exact absurd rfl hFront
    | cons hStored hPos hSize hRoom line =>
      obtain ⟨rfl, -⟩ := List.cons.inj hItems
      exact ⟨hStored, hPos, hSize⟩

theorem pop {a : α} {rest : List α} (h : Queue g stored size read (a :: rest) write) :
    Queue g stored size (g.next read (size a)) rest write := by
  have hBounds := h.bounds
  generalize hItems : a :: rest = items at h
  cases h with
  | straight hStart hWrite line =>
    subst hItems
    cases line with
    | cons hStored hPos hSize hRoom line =>
      have hLe := line.le
      rw [next, if_neg (by omega)]
      exact .straight (by omega) hWrite line
  | wrapped hFront front hLast back hLess =>
    cases front with
    | nil p => exact absurd rfl hFront
    | @cons _ _ b front hStored hPos hSize hRoom line =>
      obtain ⟨rfl, rfl⟩ := List.cons.inj hItems
      by_cases hMore : front = []
      · subst hMore
        cases line with
        | nil p =>
          rw [next, if_pos hLast]
          exact .straight (Nat.le_refl _) hBounds.2.2.2 back
      · have hLt := line.lt hMore
        rw [next, if_neg (by omega)]
        exact .wrapped hMore line hLast back (by omega)

section

variable (h : Queue g stored size read items write)

include h

theorem push {a : α} (hRoom : g.HasRoom read write)
    (hStored : stored write a) (hPos : 0 < size a) (hSize : size a ≤ g.reserve) :
    Queue g stored size read (items ++ [a]) (g.next write (size a)) := by
  have hBounds := h.bounds
  cases h with
  | straight hStart hWrite line =>
    have hLe := line.le
    have hLine := line.snoc hStored hPos hSize hWrite
    rw [HasRoom, if_pos hLe] at hRoom
    by_cases hWrap : g.limit ≤ write + size a + g.reserve
    · rw [next, if_pos hWrap, ← List.append_nil (items ++ [a])]
      exact .wrapped (by simp) hLine hWrap (.nil _) (by omega)
    · rw [next, if_neg hWrap]
      exact .straight hStart (by omega) hLine
  | wrapped hFront front hLast back hLess =>
    have hLimit : read < g.limit := by omega
    rw [HasRoom, if_neg (by omega)] at hRoom
    rw [next, if_neg (by omega), List.append_assoc]
    exact .wrapped hFront front hLast (back.snoc hStored hPos hSize (by omega)) (by omega)

theorem mono {stored' : Nat → α → Prop}
    (hKeep : ∀ p a, (∀ i, p ≤ i → i < p + size a → g.Used read write i) → stored p a → stored' p a) :
    Queue g stored' size read items write := by
  cases h with
  | straight hStart hWrite line =>
    have hLe := line.le
    refine .straight hStart hWrite (line.mono fun p a hp hEnd => hKeep p a fun i hi hLess => ?_)
    rw [Used, if_pos hLe]
    omega
  | wrapped hFront front hLast back hLess =>
    refine .wrapped hFront (front.mono fun p a hp hEnd => hKeep p a fun i hi hLt => ?_) hLast
      (back.mono fun p a hp hEnd => hKeep p a fun i hi hLt => ?_) hLess
    all_goals
      rw [Used, if_neg (by omega)]
      omega

theorem start_le {i : Nat} (hUsed : g.Used read write i) : g.start ≤ i := by
  have hBounds := h.bounds
  unfold Used at hUsed
  split_ifs at hUsed <;> omega

end

end Queue

theorem not_used_write (g : Ring) (read write : Nat) : ¬ g.Used read write write := by
  unfold Used
  split_ifs <;> omega

theorem HasRoom.not_used (h : g.HasRoom read write) {i : Nat} (hi : write ≤ i)
    (hLess : i < write + g.reserve) : ¬ g.Used read write i := by
  unfold HasRoom at h
  unfold Used
  split_ifs at h ⊢ <;> omega

theorem HasRoom.pop {a : α} {rest : List α} (h : g.HasRoom read write)
    (queue : Queue g stored size read (a :: rest) write) :
    g.HasRoom (g.next read (size a)) write := by
  have hBounds := queue.bounds
  have hSize := queue.first.2.2
  generalize hItems : a :: rest = items at queue
  cases queue with
  | straight hStart hWrite line =>
    subst hItems
    cases line with
    | cons hStored hPos hSize hRoom line =>
      have hLe := line.le
      rw [HasRoom, if_pos (by omega)] at h
      rw [next, if_neg (by omega), HasRoom, if_pos hLe]
      omega
  | wrapped hFront front hLast back hLess =>
    rw [HasRoom, if_neg (by omega)] at h
    unfold next HasRoom
    split_ifs <;> omega

theorem hasRoom_of_empty (queue : Queue g stored size read ([] : List α) write)
    (hLarge : g.start + 2 * g.reserve < g.limit) : g.HasRoom read write := by
  have hEq := queue.read_eq_write_iff.mpr rfl
  rw [HasRoom, if_pos (by omega)]
  omega

end Ring

end Layout
