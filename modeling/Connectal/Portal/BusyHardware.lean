import Mathlib.Data.Nat.Find
import Mathlib.Tactic.Push

/-! The busy wait of `portal.c` in front of each message to a hardware portal. The
status word of the channel is read until it says 'not full', and the proxy drops the
message when the wait returns 1. -/
namespace Connectal.Portal

/-- One evaluation of `!read(&tempp) && count-- > 0` on the word `v`: the count with which
the loop goes on, or what `count` holds when it ends. -/
def busyPoll (v : BitVec 32) : Nat → Nat ⊕ Int
  | 0 => .inr (if v ≠ 0 then 0 else -1)
  | count + 1 => if v ≠ 0 then .inr (count + 1) else .inl count

/-- What `busy_hardware` makes of the count: 1 tells the proxy to drop the message. -/
def busyReturn (count : Int) : Nat := if count ≤ 0 then 1 else 0

/-- The loop from poll `k` on: what `count` holds when it ends, and the number of polls by
then. `read k` is the word that poll `k` returns. -/
def busyLoop (read : Nat → BitVec 32) (k : Nat) : Nat → Int × Nat
  | 0 => (if read k ≠ 0 then 0 else -1, k + 1)
  | count + 1 =>
    if read k ≠ 0 then ((count : Int) + 1, k + 1) else busyLoop read (k + 1) count

/-- The value that `busy_hardware` returns and the number of its polls. -/
def busyHardware (read : Nat → BitVec 32) : Nat × Nat :=
  let (count, polls) := busyLoop read 0 50
  (busyReturn count, polls)

/-- The message is only sent if the poll that ended the loop found room. -/
theorem ne_zero_of_busyPoll {v : BitVec 32} {count : Nat} {left : Int} (h : busyPoll v count = .inr left)
    (hReturn : busyReturn left = 0) : v ≠ 0 := by
  rintro rfl
  cases count with
  | zero =>
    simp only [busyPoll, ne_eq, not_true_eq_false, if_false, Sum.inr.injEq] at h
    subst h
    exact absurd hReturn (by decide)
  | succ count => simp [busyPoll] at h

/-- A loop that ends at poll `k + d` found 'not full' there for the first time, and
`count` was lowered once for each earlier poll. -/
theorem busyLoop_of_notFull {read : Nat → BitVec 32} {k d count : Nat}
    (hFull : ∀ j < d, read (k + j) = 0) (hRead : read (k + d) ≠ 0) (hd : d ≤ count) :
    busyLoop read k count = ((count : Int) - d, k + d + 1) := by
  induction d generalizing k count with
  | zero => cases count <;> simp_all [busyLoop]
  | succ d ih =>
    cases count with
    | zero => exact absurd hd (Nat.not_succ_le_zero d)
    | succ count =>
      have hHere : read k = 0 := hFull 0 d.succ_pos
      have hLater : ∀ j < d, read (k + 1 + j) = 0 := fun j hj => by
        simpa [Nat.add_assoc, Nat.add_comm 1] using hFull (j + 1) (by omega)
      have hNext := ih hLater (by simpa [Nat.add_assoc, Nat.add_comm 1] using hRead)
        (Nat.le_of_succ_le_succ hd)
      rw [busyLoop, if_neg (by simpa using hHere), hNext]
      congr 1 <;> omega

/-- A loop that only finds 'full' polls once more than `count` says. -/
theorem busyLoop_of_full {read : Nat → BitVec 32} {k count : Nat}
    (hFull : ∀ j ≤ count, read (k + j) = 0) : busyLoop read k count = (-1, k + count + 1) := by
  induction count generalizing k with
  | zero => simp [busyLoop, show read k = 0 from hFull 0 (Nat.le_refl 0)]
  | succ count ih =>
    have hHere : read k = 0 := hFull 0 (Nat.zero_le _)
    rw [busyLoop, if_neg (by simpa using hHere), ih fun j hj => by
      simpa [Nat.add_assoc, Nat.add_comm 1] using hFull (j + 1) (by omega)]
    congr 1
    omega

/-- The first 'not full' within the polls that the wait allows, if there is one. -/
theorem exists_first_notFull (read : Nat → BitVec 32) (count : Nat) :
    (∃ d ≤ count, (∀ j < d, read j = 0) ∧ read d ≠ 0) ∨ ∀ j ≤ count, read j = 0 := by
  by_cases h : ∃ d, d ≤ count ∧ read d ≠ 0
  · obtain ⟨hLe, hRead⟩ := Nat.find_spec h
    refine .inl ⟨Nat.find h, hLe, fun j hj => ?_, hRead⟩
    by_contra hj'
    exact Nat.find_min h hj ⟨by omega, hj'⟩
  · push Not at h
    exact .inr h

/-- The decision that the proxy relies on: 0 as soon as a poll found room, and 1 only
if no poll did. -/
def DropsRight (read : Nat → BitVec 32) : Prop :=
  ((∃ k < (busyHardware read).2, read k ≠ 0) → (busyHardware read).1 = 0) ∧
    ((busyHardware read).1 = 1 → ∀ k < (busyHardware read).2, read k = 0)

/-- The sequences on which the last poll that the wait allows is the first to find
room. -/
def RoomAtLastPoll (read : Nat → BitVec 32) : Prop := (∀ k < 50, read k = 0) ∧ read 50 ≠ 0

/-- The wait ends after at most 51 polls with 0 or 1. It drops a message for which it
found room exactly when only its last poll found the room: `count` is then 0 although
the loop ended because of the room. -/
theorem busyHardware_decision (read : Nat → BitVec 32) :
    (busyHardware read).2 ≤ 51 ∧ ((busyHardware read).1 = 0 ∨ (busyHardware read).1 = 1) ∧
      (DropsRight read ↔ ¬ RoomAtLastPoll read) := by
  rcases exists_first_notFull read 50 with ⟨d, hd, hFull, hRead⟩ | hFull
  · have hLoop : busyLoop read 0 50 = ((50 : Int) - d, d + 1) := by
      simpa using busyLoop_of_notFull (k := 0) (by simpa using hFull) (by simpa using hRead) hd
    have hResult : busyHardware read = (if (50 : Int) - d ≤ 0 then 1 else 0, d + 1) := by
      simp only [busyHardware, busyReturn, hLoop]
    have hSeen : ∃ k < d + 1, read k ≠ 0 := ⟨d, by omega, hRead⟩
    by_cases hLast : d = 50
    · subst hLast
      have hRoom : RoomAtLastPoll read := ⟨hFull, hRead⟩
      refine ⟨by simp [hResult], by simp [hResult], iff_of_false (fun h => ?_) (by simpa using hRoom)⟩
      simpa [hResult] using h.1 (by rwa [hResult])
    · have hRc : ¬ (50 : Int) - d ≤ 0 := by omega
      have hEarly : ¬ RoomAtLastPoll read := fun h => hRead (h.1 d (by omega))
      rw [if_neg hRc] at hResult
      refine ⟨?_, by simp [hResult], iff_of_true (by simp [DropsRight, hResult]) hEarly⟩
      rw [hResult]
      omega
  · have hLoop : busyLoop read 0 50 = (-1, 51) := by
      simpa using busyLoop_of_full (k := 0) (by simpa using hFull)
    have hResult : busyHardware read = (1, 51) := by simp [busyHardware, busyReturn, hLoop]
    have hEarly : ¬ RoomAtLastPoll read := fun h => h.2 (hFull 50 (Nat.le_refl 50))
    have hAll : ∀ k < 51, read k = 0 := fun k hk => hFull k (by omega)
    refine ⟨by simp [hResult], by simp [hResult], iff_of_true ⟨?_, ?_⟩ hEarly⟩
    · rintro ⟨k, hk, hRead⟩
      rw [hResult] at hk
      exact absurd (hAll k hk) hRead
    · intro _
      rwa [hResult]

/-- A channel that is full for the first 50 polls and has room from then on. -/
def roomAfterFifty (k : Nat) : BitVec 32 := if k < 50 then 0 else 1

/-- The message is dropped although the last poll found room. -/
theorem busyHardware_drops_with_room :
    busyHardware roomAfterFifty = (1, 51) ∧ roomAfterFifty 50 ≠ 0 ∧
      ¬ DropsRight roomAfterFifty := by
  have hResult : busyHardware roomAfterFifty = (1, 51) := by decide
  refine ⟨hResult, by decide, fun h => ?_⟩
  have hRc := h.1 ⟨50, by rw [hResult]; decide, by decide⟩
  rw [hResult] at hRc
  exact absurd hRc (by decide)

end Connectal.Portal
