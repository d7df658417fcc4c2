import Connectal.C.Counted
import Connectal.Layout.Occurrences
import Connectal.Rules.Machine
import Mathlib.Logic.Function.Basic

/-! The two tables that `mp.h` computes of a needle, with every access checked. Both loops walk down the
borders of what was read so far; their tables differ in where an entry stands and in what stands for
"no border". -/
namespace Connectal.Strstr

open Layout
open C (Cells exists_for)

/-- `while (go i) i = next[i];`, where `none` says that the loop has not ended after
`fuel` tests. -/
def whileNext (go : Nat → Bool) (next : Nat → Nat) : Nat → Nat → Option Nat
  | 0, _ => none
  | fuel + 1, i => if go i then whileNext go next fuel (next i) else some i

/-- One turn of the loop of `compute_MP_next`. -/
def tableTurn (fuel : Nat) (x : Nat → BitVec 8) (s : Nat × (Nat → Nat)) (i : Nat) :
    Option (Nat × (Nat → Nat)) := do
  let (j, next) := s
  let j ← whileNext (fun j => 0 < j && x i ≠ x j) next fuel j
  let j := j + 1
  return (j, Function.update next (i + 1) j)

/-- `compute_MP_next`, from what the memory of the table contained before. -/
def computeMPNext (fuel : Nat) (x : Nat → BitVec 8) (next : Nat → Nat) (m : Nat) :
    Option (Nat → Nat) := do
  let (_, next) ← (List.range' 1 m).foldlM (tableTurn fuel x) (0, Function.update next 1 0)
  return next

/-- `while (test) j = table[j];`, where `none` says that an access was outside its array or that the
loop has not ended after `fuel` tests. -/
def follow (test : Int → Option Bool) (table : Cells Int) : Nat → Int → Option Int
  | 0, _ => none
  | fuel + 1, j => do
    if ← test j then
      let j ← table.read j
      follow test table fuel j
    else
      return j

/-- `x[i] != x[j]` -/
def differ (x : Cells (BitVec 8)) (i j : Int) : Option Bool := do
  return (← x.read i) != (← x.read j)

/-- The test of the inner loop of `compute_borders`. -/
def bordersTest (x : Cells (BitVec 8)) (i j : Int) : Option Bool :=
  if j ≥ 0 then differ x i (j + 1) else some false

/-- One turn of the loop of `compute_borders`. -/
def bordersTurn (fuel : Nat) (x : Cells (BitVec 8)) (border : Cells Int) (i : Nat) : Option (Cells Int) := do
  let j ← border.read (i - 1)
  let j ← follow (bordersTest x i) border fuel j
  border.write i (j + 1)

/-- `compute_borders`, from what the memory of the table contained before. -/
def computeBorders (fuel : Nat) (x : Cells (BitVec 8)) (border : Cells Int) (m : Nat) : Option (Cells Int) := do
  let border ← border.write 0 (-1)
  (List.range' 1 m).foldlM (bordersTurn fuel x) border

/-- The test of the inner loop of `compute_MP_next`. -/
def mpNextTest (x : Cells (BitVec 8)) (i j : Int) : Option Bool :=
  if j > 0 then differ x i j else some false

/-- One turn of the loop of `compute_MP_next`. -/
def mpNextTurn (fuel : Nat) (x : Cells (BitVec 8)) (s : Int × Cells Int) (i : Nat) :
    Option (Int × Cells Int) := do
  let (j, next) := s
  let j ← follow (mpNextTest x i) next fuel j
  let j := j + 1
  let next ← next.write (i + 1) j
  return (j, next)

/-- `compute_MP_next` as in `computeMPNext`, with checked accesses. -/
def checkedMPNext (fuel : Nat) (x : Cells (BitVec 8)) (next : Cells Int) (m : Nat) : Option (Cells Int) := do
  let next ← next.write 1 0
  let (_, next) ← (List.range' 1 m).foldlM (mpNextTurn fuel x) (0, next)
  return next

/-- The word that both procedures read, which starts at index 1. -/
def word (x : Int → BitVec 8) (a : Nat) : BitVec 8 := x (a + 1)

/-- A table with its entries for up to `k` characters. In `compute_borders` the entry for `c` characters is
at index `c` and 1 less than in `compute_MP_next`, where it is at index `c + 1`: `d` is 1 or 0. -/
structure Filled (y : Nat → BitVec 8) (d : Int) (m k : Nat) (table : Cells Int) : Prop where
  first : table.first = 1 - d
  last : table.last = m + 1 - d
  entry : ∀ c ≤ k, table.val (c + 1 - d) = failure y c - d

section Turn

variable {x : Int → BitVec 8} {y : Nat → BitVec 8} {d : Int} {m k fuel : Nat} {table : Cells Int}

theorem Filled.init (y : Nat → BitVec 8) (d : Int) (m : Nat) (val : Int → Int) :
    ∃ table', (⟨1 - d, m + 1 - d, val⟩ : Cells Int).write (1 - d) (-d) = some table' ∧
      Filled y d m 0 table' := by
  refine ⟨_, Cells.write_of_mem (Int.le_refl _) (show (1 - d) ≤ m + 1 - d by omega) _, rfl, rfl, fun c hc => ?_⟩
  obtain rfl := Nat.le_zero.mp hc
  have hNone := Nat.le_zero.mp (failure_le y 0)
  simp [hNone]

theorem Filled.read (h : Filled y d m k table) (hk : k ≤ m) {c : Nat} (hc : c ≤ k) :
    table.read (c + 1 - d) = some (failure y c - d) := by
  have hFirst := h.first
  have hLast := h.last
  rw [Cells.read_of_mem (by omega) (by omega), h.entry c hc]

theorem Filled.write (h : Filled y d m k table) (hk : k < m) :
    ∃ table', table.write (k + 2 - d) (failure y (k + 1) - d) = some table' ∧ Filled y d m (k + 1) table' := by
  have hFirst := h.first
  have hLast := h.last
  refine ⟨_, Cells.write_of_mem (by omega) (by omega) _, hFirst, hLast, fun c hc => ?_⟩
  rcases Nat.le_succ_iff.mp hc with hc | rfl
  · rw [← h.entry c hc]
    exact Function.update_of_ne (by omega) _ _
  · rw [show ((k + 1 : Nat) : Int) + 1 - d = k + 2 - d by omega]
    exact Function.update_self ..

/-- The inner loops: from a candidate they walk down to the border of one more character. -/
theorem Filled.follow_eq (h : Filled y d m k table) (hk : k ≤ m) {test : Int → Option Bool}
    (hTest : ∀ n ≤ k, test (n - d) = some (0 < n && y k != y (n - 1))) {n : Nat} (hn : n ≤ k)
    (hCandidate : Candidate y k n) (hFuel : n < fuel) :
    follow test table fuel (n - d) = some (failure y (k + 1) - 1 - d) := by
  induction fuel generalizing n with
  | zero => exact absurd hFuel (Nat.not_lt_zero n)
  | succ fuel ih =>
    rw [follow, hTest n hn]
    by_cases hGo : 0 < n ∧ y k ≠ y (n - 1)
    · have hRead := h.read hk (show n - 1 ≤ k by omega)
      rw [show ((n - 1 : Nat) : Int) + 1 = n by omega] at hRead
      have hDown := failure_le y (n - 1)
      have hRest := ih (by omega) (hCandidate.below hGo.1 hGo.2) (by omega)
      simpa [hGo, hRead] using hRest
    · have hStop : 0 < n → y k = y (n - 1) := fun hPos => by_contra fun hDiffer => hGo ⟨hPos, hDiffer⟩
      have hResult := hCandidate.failure_succ hStop
      rcases Nat.eq_zero_or_pos n with rfl | hPos
      · simp [hResult]
      · simp [hResult, hStop hPos]

theorem differ_eq (hk : k < m) {n : Nat} (hPos : 0 < n) (hn : n ≤ k) :
    differ ⟨1, m, x⟩ (k + 1) n = some (word x k != word x (n - 1)) := by
  have hRead {i : Int} (hFirst : 1 ≤ i) (hLast : i ≤ m) : Cells.read ⟨1, m, x⟩ i = some (x i) :=
    Cells.read_of_mem hFirst hLast
  rw [differ, hRead (show (1 : Int) ≤ k + 1 by omega) (by omega), hRead (show (1 : Int) ≤ n by omega) (by omega), word,
    word, show ((n - 1 : Nat) : Int) + 1 = n by omega]
  rfl

theorem bordersTest_eq (hk : k < m) (n : Nat) (hn : n ≤ k) :
    bordersTest ⟨1, m, x⟩ (k + 1) (n - 1) = some (0 < n && word x k != word x (n - 1)) := by
  rcases Nat.eq_zero_or_pos n with rfl | hPos
  · rfl
  · rw [bordersTest, if_pos (by omega), Int.sub_add_cancel, differ_eq hk hPos hn]
    simp [hPos]

theorem mpNextTest_eq (hk : k < m) (n : Nat) (hn : n ≤ k) :
    mpNextTest ⟨1, m, x⟩ (k + 1) (n - 0) = some (0 < n && word x k != word x (n - 1)) := by
  rw [Int.sub_zero]
  rcases Nat.eq_zero_or_pos n with rfl | hPos
  · rfl
  · rw [mpNextTest, if_pos (by omega), differ_eq hk hPos hn]
    simp [hPos]

theorem bordersTurn_fills (h : Filled (word x) 1 m k table) (hk : k < m) (hFuel : m < fuel) :
    ∃ table', bordersTurn fuel ⟨1, m, x⟩ table (k + 1) = some table' ∧ Filled (word x) 1 m (k + 1) table' := by
  obtain ⟨table', hWrite, h'⟩ := h.write hk
  refine ⟨table', ?_, h'⟩
  have hStart := h.read (Nat.le_of_lt hk) (Nat.le_refl k)
  have hLe := failure_le (word x) k
  have hLoop := h.follow_eq (Nat.le_of_lt hk) (bordersTest_eq hk) hLe (candidate_failure _ k)
    (show _ < fuel by omega)
  rw [Int.add_sub_cancel] at hStart
  rw [Int.add_sub_assoc] at hWrite
  simpa [bordersTurn, hStart, hLoop] using hWrite

theorem mpNextTurn_fills (h : Filled (word x) 0 m k table) (hk : k < m) (hFuel : m < fuel) :
    ∃ table', mpNextTurn fuel ⟨1, m, x⟩ (failure (word x) k, table) (k + 1) =
      some (↑(failure (word x) (k + 1)), table') ∧ Filled (word x) 0 m (k + 1) table' := by
  obtain ⟨table', hWrite, h'⟩ := h.write hk
  refine ⟨table', ?_, h'⟩
  have hLe := failure_le (word x) k
  have hLoop := h.follow_eq (Nat.le_of_lt hk) (mpNextTest_eq hk) hLe (candidate_failure _ k)
    (show _ < fuel by omega)
  simp only [Int.sub_zero] at hLoop hWrite
  simp [mpNextTurn, hLoop, Int.add_assoc, hWrite]

end Turn

variable (x : Int → BitVec 8) (m : Nat)

theorem exists_computeBorders (border : Int → Int) {fuel : Nat} (hFuel : m < fuel) :
    ∃ border', computeBorders fuel ⟨1, m, x⟩ ⟨0, m, border⟩ m = some border' ∧
      Filled (word x) 1 m m border' := by
  obtain ⟨start, hWrite, h⟩ := Filled.init (word x) 1 m border
  rw [Int.add_sub_cancel] at hWrite
  obtain ⟨border', hLoop, h'⟩ := exists_for (n := m) (Filled (word x) 1 m)
    (fun i table hi h => bordersTurn_fills h (by omega) hFuel) h
  refine ⟨border', ?_, by rwa [Nat.zero_add] at h'⟩
  rw [computeBorders, show (⟨0, m, border⟩ : Cells Int).write 0 (-1) = _ from hWrite]
  exact hLoop

theorem exists_checkedMPNext (next : Int → Int) {fuel : Nat} (hFuel : m < fuel) :
    ∃ next', checkedMPNext fuel ⟨1, m, x⟩ ⟨1, m + 1, next⟩ m = some next' ∧ Filled (word x) 0 m m next' := by
  obtain ⟨start, hWrite, h⟩ := Filled.init (word x) 0 m next
  simp only [Int.sub_zero, Int.neg_zero] at hWrite
  have hTurn : ∀ i (s : Int × Cells Int), i < 0 + m → s.1 = failure (word x) i ∧ Filled (word x) 0 m i s.2 →
      ∃ s', mpNextTurn fuel ⟨1, m, x⟩ s (i + 1) = some s' ∧
        s'.1 = failure (word x) (i + 1) ∧ Filled (word x) 0 m (i + 1) s'.2 := by
    rintro i ⟨j, table⟩ hi ⟨rfl, h⟩
    obtain ⟨table', hRun, h'⟩ := mpNextTurn_fills h (by omega) hFuel
    exact ⟨_, hRun, rfl, h'⟩
  obtain ⟨⟨j, next'⟩, hLoop, -, h'⟩ := exists_for _ hTurn (s := (0, start))
    ⟨by simp [Nat.le_zero.mp (failure_le (word x) 0)], h⟩
  refine ⟨next', ?_, by rwa [Nat.zero_add] at h'⟩
  rw [Nat.zero_add] at hLoop
  simp [checkedMPNext, hWrite, hLoop]

/-- Both procedures end, without an access outside the arrays they are given. Entry `i` of the first table is
the length of the longest border of the first `i` characters, and the second table has it one place later and
increased by one. -/
theorem border_tables_agree (border next : Int → Int) : ∃ turns, ∀ fuel ≥ turns, ∃ border' next',
    computeBorders fuel ⟨1, m, x⟩ ⟨0, m, border⟩ m = some border' ∧
    checkedMPNext fuel ⟨1, m, x⟩ ⟨1, m + 1, next⟩ m = some next' ∧
    (∀ i : Nat, 1 ≤ i → i ≤ m → ∃ b : Nat, border'.val i = b ∧ LongestBorder (word x) i b) ∧
    next'.val 1 = 0 ∧ ∀ i : Nat, 2 ≤ i → i ≤ m + 1 → next'.val i = border'.val (i - 1) + 1 := by
  refine ⟨m + 1, fun fuel hFuel => ?_⟩
  obtain ⟨border', hBorders, h⟩ := exists_computeBorders x m border hFuel
  obtain ⟨next', hNext, h'⟩ := exists_checkedMPNext x m next hFuel
  have hEntry : ∀ c : Nat, c ≤ m → border'.val c = failure (word x) c - 1 := fun c hc => by
    rw [← h.entry c hc, Int.add_sub_cancel]
  have hEntry' : ∀ c : Nat, c ≤ m → next'.val (c + 1) = failure (word x) c := fun c hc => by
    rw [← Int.sub_zero (failure _ c : Int), ← h'.entry c hc, Int.sub_zero]
  refine ⟨border', next', hBorders, hNext, fun i hi him => ?_, ?_, fun i hi him => ?_⟩
  · have hPos := (border_zero (x := word x) hi).lt_failure
    exact ⟨failure (word x) i - 1, by rw [hEntry i him]; omega, longestBorder_failure hi⟩
  · have hNone := Nat.le_zero.mp (failure_le (word x) 0)
    simpa [hNone] using hEntry' 0 (Nat.zero_le m)
  · obtain ⟨c, rfl⟩ := Nat.exists_eq_add_of_le' (show 1 ≤ i by omega)
    rw [show ((c + 1 : Nat) : Int) = c + 1 from rfl, hEntry' c (by omega), Int.add_sub_cancel, hEntry c (by omega),
      Int.sub_add_cancel]

section Unchecked

variable {x m} {fuel : Nat} {table : Cells Int} {next : Nat → Nat}

theorem update_same {val : Int → Int} (hSame : ∀ a : Nat, val a = next a) (i v : Nat) (a : Nat) :
    Function.update val i v a = Function.update next i v a := by
  rw [Function.update_apply, Function.update_apply, hSame]
  by_cases ha : a = i
  · simp [ha]
  · rw [if_neg ha, if_neg (by omega)]

theorem whileNext_of_follow {test : Int → Option Bool} {go : Nat → Bool}
    (hTest : ∀ (j : Nat) b, test j = some b → go j = b) (hSame : ∀ a : Nat, table.val a = next a) {j : Nat} {r : Int}
    (h : follow test table fuel j = some r) : ∃ r' : Nat, r = r' ∧ whileNext go next fuel j = some r' := by
  induction fuel generalizing j with
  | zero => cases h
  | succ fuel ih =>
    rw [follow, Option.bind_eq_bind, Option.bind_eq_some_iff] at h
    obtain ⟨b, hb, h⟩ := h
    rw [whileNext, hTest j b hb]
    cases b with
    | false => exact ⟨j, (Option.some.inj h).symm, rfl⟩
    | true =>
      rw [if_pos rfl, Option.bind_eq_bind, Option.bind_eq_some_iff] at h
      obtain ⟨v, hRead, h⟩ := h
      obtain rfl : (next j : Int) = v := by rw [← hSame, Cells.val_of_read hRead]
      exact ih h

theorem tableTurn_of_mpNextTurn {c : Cells (BitVec 8)} {j i : Nat} {s : Int × Cells Int}
    (hSame : ∀ a : Nat, table.val a = next a) (h : mpNextTurn fuel c (j, table) i = some s) :
    ∃ (j' : Nat) (next' : Nat → Nat), tableTurn fuel (fun a => c.val a) (j, next) i = some (j', next') ∧
      s.1 = j' ∧ ∀ a : Nat, s.2.val a = next' a := by
  simp only [mpNextTurn, Rules.firing] at h
  obtain ⟨r, hLoop, table', hWrite, rfl⟩ := h
  have hTest : ∀ (j : Nat) b, mpNextTest c i j = some b → (0 < j && c.val i ≠ c.val j : Bool) = b := by
    intro j b hb
    rcases Nat.eq_zero_or_pos j with rfl | hPos
    · exact Option.some.inj hb
    · rw [mpNextTest, if_pos (by omega)] at hb
      simp only [differ, Rules.firing] at hb
      obtain ⟨u, hu, v, hv, rfl⟩ := hb
      rw [Cells.val_of_read hu, Cells.val_of_read hv, Bool.eq_iff_iff]
      simp [hPos]
  obtain ⟨r, rfl, hWhile⟩ := whileNext_of_follow hTest hSame hLoop
  refine ⟨r + 1, Function.update next (i + 1) (r + 1), by rw [tableTurn, hWhile]; rfl, rfl, ?_⟩
  rw [Cells.val_of_write hWrite]
  exact update_same hSame (i + 1) (r + 1)

/-- The checked procedure computes the table that the search was shown to use. -/
theorem computeMPNext_of_checked {c : Cells (BitVec 8)} {first last : Int} {table' : Cells Int}
    (h : checkedMPNext fuel c ⟨first, last, fun a => next a.toNat⟩ m = some table') :
    ∃ next', computeMPNext fuel (fun a => c.val a) next m = some next' ∧ ∀ a : Nat, table'.val a = next' a := by
  have hTurns : ∀ (l : List Nat) {j : Nat} {table : Cells Int} {next : Nat → Nat} {s : Int × Cells Int},
      (∀ a : Nat, table.val a = next a) → l.foldlM (mpNextTurn fuel c) (j, table) = some s →
      ∃ j' next', l.foldlM (tableTurn fuel fun a => c.val a) (j, next) = some (j', next') ∧
        ∀ a : Nat, s.2.val a = next' a := by
    intro l
    induction l with
    | nil =>
      intro j table next s hSame h
      exact ⟨j, next, rfl, Option.some.inj h ▸ hSame⟩
    | cons i l ih =>
      intro j table next s hSame h
      rw [List.foldlM_cons, Option.bind_eq_bind, Option.bind_eq_some_iff] at h
      obtain ⟨⟨_, table'⟩, hTurn, h⟩ := h
      obtain ⟨j', next', hTurn', rfl, hSame'⟩ := tableTurn_of_mpNextTurn hSame hTurn
      obtain ⟨j'', next'', hRest, hSame''⟩ := ih hSame' h
      exact ⟨j'', next'', by rw [List.foldlM_cons, hTurn']; exact hRest, hSame''⟩
  simp only [checkedMPNext, Rules.firing] at h
  obtain ⟨start, hWrite, j, table', hLoop, rfl⟩ := h
  have hStart : ∀ a : Nat, start.val a = Function.update next 1 0 a := by
    rw [Cells.val_of_write hWrite]
    exact update_same (fun _ => rfl) 1 0
  obtain ⟨j', next', hRun, hSame⟩ := hTurns _ (j := 0) hStart hLoop
  exact ⟨next', by simp [computeMPNext, hRun], hSame⟩

end Unchecked

end Connectal.Strstr
