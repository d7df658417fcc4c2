import Connectal.Layout.Columns
import Connectal.Matmul.DotProd
import Mathlib.Algebra.Ring.Basic
import Mathlib.Tactic.Abel

/-! What the dot product server computes. The partial sums that go around, in the
queue and in the adder, are read as one list that is dealt out to the columns; the
invariant is that the sums of its columns are the sums so far, whatever the number
of partial sums and wherever they are. -/
namespace Connectal

open Rules Layout

namespace DotProd

/-- A batch: so many rows of token pairs, with the values of both streams by row and
column. -/
structure Batch (S : Type) where
  rows : Nat
  a : Nat → Nat → S
  b : Nat → Nat → S

namespace Batch

variable {S : Type} (k : Nat) (B : Batch S)

/-- Token number `j` of a batch is in the final row. -/
def final (j : Nat) : Bool := decide ((B.rows - 1) * k ≤ j)

/-- The tokens on the first input, row by row, with the mark on the final row. -/
def aTokens : List (S × Bool) :=
  (List.range (B.rows * k)).map fun j => (B.a (j / k) (j % k), B.final k j)

def bTokens : List (S × Bool) :=
  (List.range (B.rows * k)).map fun j => (B.b (j / k) (j % k), B.final k j)

/-- The products, with the marks. -/
def terms [Mul S] : List (S × Bool) :=
  (List.range (B.rows * k)).map fun j => (B.a (j / k) (j % k) * B.b (j / k) (j % k), B.final k j)

/-- The dot product of column `c`. -/
def dot [NonUnitalNonAssocSemiring S] (c : Nat) : S := ∑ r ∈ Finset.range B.rows, B.a r c * B.b r c

@[simp] theorem length_terms [Mul S] : (B.terms k).length = B.rows * k := by simp [terms]

@[simp] theorem length_aTokens : (B.aTokens k).length = B.rows * k := by simp [aTokens]

@[simp] theorem length_bTokens : (B.bTokens k).length = B.rows * k := by simp [bTokens]

theorem zipWith_tokens [Mul S] :
    List.zipWith (fun x y : S × Bool => (x.1 * y.1, x.2)) (B.aTokens k) (B.bTokens k) = B.terms k := by
  rw [aTokens, bTokens, List.zipWith_map, List.zipWith_self, terms]

theorem getElem?_terms [Mul S] {j : Nat} (hj : j < B.rows * k) :
    ∃ p, (B.terms k)[j]? = some (p, B.final k j) := by
  refine ⟨B.a (j / k) (j % k) * B.b (j / k) (j % k), ?_⟩
  rw [terms, List.getElem?_map, List.getElem?_range hj]
  rfl

/-- Adding up the products by columns gives the dot products. -/
theorem column_terms [NonUnitalNonAssocSemiring S] {k c : Nat} (hc : c < k) (B : Batch S) :
    column k c 0 ((B.terms k).map Prod.fst) = B.dot c := by
  have hValues : (B.terms k).map Prod.fst =
      (List.range (B.rows * k)).map fun j => B.a (j / k) (j % k) * B.b (j / k) (j % k) := by
    rw [terms, List.map_map]
    rfl
  rw [hValues, column_rows hc, dot]
  refine Finset.sum_congr rfl fun r _ => ?_
  rw [Nat.mul_comm r, Nat.mul_add_div (Nat.zero_lt_of_lt hc), Nat.div_eq_of_lt hc, Nat.mul_add_mod,
    Nat.mod_eq_of_lt hc, Nat.add_zero]

end Batch

section Steps

variable {S : Type} [NonUnitalNonAssocSemiring S] {k mulDepth addDepth : Nat} [NeZero k]
  {s s' : DotProd S k mulDepth addDepth}

theorem gatherSz_pos (k : Nat) [NeZero k] : 0 < gatherSz k := by
  have hk := Nat.pos_of_neZero k
  exact Nat.div_pos (by rw [ubAddLat]; omega) hk

theorem incrementRowReg_val (row : Fin k) : ((incrementRowReg row).1 : Nat) = (row + 1) % k := by
  rw [incrementRowReg]
  split
  · next h => rw [h, Nat.mod_self, Fin.val_zero]
  · next h => exact (Nat.mod_eq_of_lt (Nat.lt_of_le_of_ne row.isLt h)).symm

theorem incrementRowReg_last (row : Fin k) :
    (incrementRowReg row).2 = decide (((incrementRowReg row).1 : Nat) + 1 = k) := by
  have hk := Nat.pos_of_neZero k
  rw [incrementRowReg]
  split
  · rw [Bool.eq_iff_iff, beq_iff_eq, decide_eq_true_iff, Fin.val_zero]
    omega
  · rw [Bool.eq_iff_iff, beq_iff_eq, decide_eq_true_iff]
    show row.val = k - 2 ↔ row.val + 1 + 1 = k
    omega

/-- The partial sums on their way, oldest first. -/
def circle (s : DotProd S k mulDepth addDepth) : List S := s.adderBuffer.items ++ s.adder.items

/-- What a step leaves alone outside of the adding circle. -/
structure Frame (s s' : DotProd S k mulDepth addDepth) : Prop where
  afifo : s'.afifo = s.afifo
  bfifo : s'.bfifo = s.bfifo
  row : (s'.rowReg : Nat) = (s.rowReg + 1) % k
  lastRow : s'.lastRowReg = decide ((s'.rowReg : Nat) + 1 = k)

/-- One token is added to the circle. -/
structure Accumulates (s s' : DotProd S k mulDepth addDepth) (p : S) (last : Bool) : Prop
    extends Frame s s' where
  mul : s.mul.items = p :: s'.mul.items
  marks : s.flFifo.items.map Prod.snd = last :: s'.flFifo.items.map Prod.snd
  circle : (s.firstCnt ≠ k * gatherSz k ∧ s'.circle = s.circle ++ [p + 0] ∧ s'.firstCnt = s.firstCnt + 1) ∨
    (s.firstCnt = k * gatherSz k ∧ s'.firstCnt = s.firstCnt ∧
      ∃ x rest, s.circle = x :: rest ∧ s'.circle = rest ++ [p + x])
  lastCnt : s'.lastCnt = if last then s.lastCnt + 1 else s.lastCnt
  phase : s.gatherPhase = false
  phase' : s'.gatherPhase = (last && s.lastCnt == k - 1)
  gatherCnt : s'.gatherCnt = s.gatherCnt
  lastPass : s'.lastPassReg = s.lastPassReg
  gReg : s'.gReg = s.gReg
  gFifo : s'.gFifo = s.gFifo
  dotfifos : s'.dotfifos = s.dotfifos

theorem accumulate_accumulates (h : s.accumulate = some s') : ∃ p last, Accumulates s s' p last := by
  simp only [accumulate, firing] at h
  obtain ⟨hPhase, first, last, flFifo, hFl, p, mul, hMul, acc, buffer, hAcc, adder, ⟨-, hAdder⟩, rfl⟩ := h
  refine ⟨p, last, ⟨rfl, rfl, incrementRowReg_val _, incrementRowReg_last _⟩, hMul, by simp [hFl], ?_,
    rfl, hPhase, ?_, rfl, rfl, rfl, rfl, rfl⟩
  · by_cases hFull : s.firstCnt = k * gatherSz k
    · rw [partialSum, if_pos hFull, Fifo.deq_eq_some] at hAcc
      refine .inr ⟨hFull, if_pos hFull, acc, buffer.items ++ s.adder.items, ?_, ?_⟩
      · rw [circle, hAcc, List.cons_append]
      · rw [List.append_assoc, ← hAdder]
        rfl
    · rw [partialSum, if_neg hFull, Option.some.injEq, Prod.mk.injEq] at hAcc
      obtain ⟨rfl, rfl⟩ := hAcc
      refine .inl ⟨hFull, ?_, if_neg hFull⟩
      show s.adderBuffer.items ++ adder.items = s.adderBuffer.items ++ s.adder.items ++ [p + 0]
      rw [hAdder, List.append_assoc]
  · cases last with
    | true => rfl
    | false => exact hPhase

/-- What the passes leave alone. -/
structure GatherFrame (s s' : DotProd S k mulDepth addDepth) : Prop extends Frame s s' where
  mul : s'.mul = s.mul
  flFifo : s'.flFifo = s.flFifo
  phase : s.gatherPhase = true

/-- One step of a pass. -/
inductive Gathers (s s' : DotProd S k mulDepth addDepth) : Prop
  | setsAside (x : S) (hPass : s.lastPassReg = false) (hReg : s.gReg = false)
      (hCircle : s.circle = x :: s'.circle) (hAside : s'.gFifo.items = s.gFifo.items ++ [x])
      (hReg' : s'.gReg = s.lastRowReg) (hCnt : s'.gatherCnt = s.gatherCnt)
      (hPass' : s'.lastPassReg = s.lastPassReg) (hDot : s'.dotfifos = s.dotfifos)
      (hPhase : s'.gatherPhase = true)
  | addsUp (x y : S) (rest : List S) (hPass : s.lastPassReg = false) (hReg : s.gReg = true)
      (hCircle : s.circle = x :: rest) (hCircle' : s'.circle = rest ++ [x + y])
      (hAside : s.gFifo.items = y :: s'.gFifo.items) (hReg' : s'.gReg = !s.lastRowReg)
      (hCnt : s'.gatherCnt = if s.lastRowReg then s.gatherCnt + 1 else s.gatherCnt)
      (hPass' : s'.lastPassReg = if s.lastRowReg then s.gatherCnt + 2 == gatherSz k else s.lastPassReg)
      (hDot : s'.dotfifos = s.dotfifos) (hPhase : s'.gatherPhase = true)
  | delivers (x : S) (hPass : s.lastPassReg = true) (hCircle : s.circle = x :: s'.circle)
      (hDot : ∃ q, q.items = (s.dotfifos s.rowReg).items ++ [x] ∧
        s'.dotfifos = Function.update s.dotfifos s.rowReg q)
      (hAside : s'.gFifo = s.gFifo) (hReg' : s'.gReg = s.gReg)
      (hMore : s.lastRowReg = false → s'.gatherCnt = s.gatherCnt ∧ s'.lastPassReg = s.lastPassReg ∧
        s'.gatherPhase = true)
      (hDone : s.lastRowReg = true → s'.gatherCnt = 0 ∧ s'.lastPassReg = (0 + 1 == gatherSz k) ∧
        s'.lastCnt = 0 ∧ s'.firstCnt = 0 ∧ s'.gatherPhase = false)

theorem gather_gathers (h : s.gather = some s') : GatherFrame s s' ∧ Gathers s s' := by
  simp only [gather, firing] at h
  obtain ⟨hPhase, x, buffer, hBuffer, h⟩ := h
  have hCircle : ∀ rest, s.circle = x :: rest ↔ buffer.items ++ s.adder.items = rest := by
    intro rest
    rw [circle, hBuffer, List.cons_append, List.cons.injEq, and_iff_right rfl]
  have hRow := incrementRowReg_val s.rowReg
  have hLastRow := incrementRowReg_last s.rowReg
  by_cases hPass : s.lastPassReg = true
  · simp only [hPass, if_true, firing] at h
    obtain ⟨q, ⟨-, hq⟩, rfl⟩ := h
    unfold finishCounters
    split
    · next hLast =>
      exact ⟨⟨⟨rfl, rfl, hRow, hLastRow⟩, rfl, rfl, hPhase⟩,
        .delivers x hPass ((hCircle _).mpr rfl) ⟨q, hq, rfl⟩ rfl rfl
          (fun hMore => absurd (hLast.symm.trans hMore) (by decide)) fun _ => ⟨rfl, rfl, rfl, rfl, rfl⟩⟩
    · next hLast =>
      exact ⟨⟨⟨rfl, rfl, hRow, hLastRow⟩, rfl, rfl, hPhase⟩,
        .delivers x hPass ((hCircle _).mpr rfl) ⟨q, hq, rfl⟩ rfl rfl (fun _ => ⟨rfl, rfl, hPhase⟩)
          fun hDone => absurd hDone hLast⟩
  · have hPass := Bool.eq_false_of_not_eq_true hPass
    by_cases hReg : s.gReg = true
    · simp only [hPass, hReg, Bool.false_eq_true, if_true, if_false, firing] at h
      obtain ⟨y, gFifo, hAside, adder, ⟨-, hAdder⟩, rfl⟩ := h
      have hNext : buffer.items ++ adder.items = buffer.items ++ s.adder.items ++ [x + y] := by
        rw [hAdder, List.append_assoc]
      unfold gatherCounters
      split <;> next hLast =>
        exact ⟨⟨⟨rfl, rfl, hRow, hLastRow⟩, rfl, rfl, hPhase⟩,
          .addsUp x y _ hPass hReg ((hCircle _).mpr rfl) hNext hAside (by simp [hLast, hReg])
            (by simp [hLast]) (by simp [hLast]) rfl hPhase⟩
    · have hReg := Bool.eq_false_of_not_eq_true hReg
      simp only [hPass, hReg, Bool.false_eq_true, if_false, firing] at h
      obtain ⟨gFifo, ⟨-, hAside⟩, rfl⟩ := h
      unfold gatherCounters
      split <;> next hLast =>
        exact ⟨⟨⟨rfl, rfl, hRow, hLastRow⟩, rfl, rfl, hPhase⟩,
          .setsAside x hPass hReg ((hCircle _).mpr rfl) hAside (by simp [hLast, hReg]) (by simp)
            (by simp) rfl hPhase⟩

end Steps

/-! Where the server is in a batch -/
section Modes

variable {S : Type} [NonUnitalNonAssocSemiring S] {k mulDepth addDepth : Nat} [NeZero k]
  {s s' : DotProd S k mulDepth addDepth} {B : Batch S}

/-- The first `j` tokens of the batch are in the circle. -/
structure Accumulating (s : DotProd S k mulDepth addDepth) (B : Batch S) (j : Nat) : Prop where
  phase : s.gatherPhase = false
  firstCnt : s.firstCnt = min j (k * gatherSz k)
  lastCnt : s.lastCnt = j - (B.rows - 1) * k
  row : (s.rowReg : Nat) = j % k
  gatherCnt : s.gatherCnt = 0
  lastPass : s.lastPassReg = (0 + 1 == gatherSz k)
  gReg : s.gReg = false
  gFifo : s.gFifo.items = []
  length : s.circle.length = min j (k * gatherSz k)
  sums : ∀ c < k, column k c (j - s.circle.length) s.circle =
    column k c 0 (((B.terms k).take j).map Prod.fst)

/-- The whole batch is in the circle, with `left` partial sums for each dot product
when the pass began. -/
structure Gathering (s : DotProd S k mulDepth addDepth) (left : Nat) : Prop where
  phase : s.gatherPhase = true
  gatherCnt : s.gatherCnt + left = gatherSz k
  lastPass : s.lastPassReg = (s.gatherCnt + 1 == gatherSz k)
  lastRow : s.lastRowReg = decide ((s.rowReg : Nat) + 1 = k)

/-- What the server is doing: adding up tokens, setting the first row of partial
sums aside, adding it to the next row, or delivering the last row. So many tokens
of the batch are taken, and so many dot products are out. -/
inductive Mode (s : DotProd S k mulDepth addDepth) (B : Batch S) (taken outs : Nat) : Prop
  | accumulating (h : Accumulating s B taken) (hMore : taken = 0 ∨ taken < B.rows * k) (hOuts : outs = 0)
  | aside (left : Nat) (h : Gathering s left) (hLeft : 2 ≤ left) (hAll : taken = B.rows * k)
      (hOuts : outs = 0) (hReg : s.gReg = false) (hAside : s.gFifo.items.length = s.rowReg)
      (hLength : s.circle.length + s.rowReg = left * k)
      (hSums : ∀ c < k, column k c s.rowReg s.circle + column k c 0 s.gFifo.items = B.dot c)
  | adding (left : Nat) (h : Gathering s left) (hLeft : 2 ≤ left) (hAll : taken = B.rows * k)
      (hOuts : outs = 0) (hReg : s.gReg = true) (hAside : s.gFifo.items.length + s.rowReg = k)
      (hLength : s.circle.length = (left - 1) * k)
      (hSums : ∀ c < k, column k c s.rowReg s.circle + column k c s.rowReg s.gFifo.items = B.dot c)
  | delivering (h : Gathering s 1) (hAll : taken = B.rows * k) (hOuts : outs = s.rowReg)
      (hReg : s.gReg = false) (hAside : s.gFifo.items = [])
      (hLength : s.circle.length + s.rowReg = k)
      (hSums : ∀ c < k, s.rowReg ≤ c → column k c s.rowReg s.circle = B.dot c)

variable {taken outs : Nat}

theorem Mode.length_circle (h : Mode s B taken outs) : s.circle.length ≤ k * gatherSz k := by
  have hPasses : ∀ {left : Nat}, Gathering s left → left * k ≤ k * gatherSz k := by
    intro left h
    have hLeft : left ≤ gatherSz k := by
      have := h.gatherCnt
      omega
    rw [Nat.mul_comm k]
    exact Nat.mul_le_mul_right k hLeft
  cases h with
  | accumulating h hMore hOuts =>
    rw [h.length]
    exact Nat.min_le_right _ _
  | aside left h | delivering h =>
    have := hPasses h
    omega
  | adding left h hLeft hAll hOuts hReg hAside hLength hSums =>
    have hLess : (left - 1) * k ≤ left * k := Nat.mul_le_mul_right k (Nat.sub_le left 1)
    have := hPasses h
    omega

theorem Mode.lastPass (h : Mode s B taken outs) : s.lastPassReg = (s.gatherCnt + 1 == gatherSz k) := by
  cases h with
  | accumulating h hMore hOuts => rw [h.lastPass, h.gatherCnt]
  | aside left h | adding left h | delivering h => exact h.lastPass

theorem Accumulating.sums_step {j : Nat} {p : S} {last : Bool} (h : Accumulating s B j)
    (hStep : Accumulates s s' p last) (hTerm : (B.terms k)[j]? = some (p, last)) :
    s'.circle.length = min (j + 1) (k * gatherSz k) ∧
      ∀ c < k, column k c (j + 1 - s'.circle.length) s'.circle =
        column k c 0 (((B.terms k).take (j + 1)).map Prod.fst) := by
  have hTake : ((B.terms k).take (j + 1)).map Prod.fst = ((B.terms k).take j).map Prod.fst ++ [p] := by
    rw [List.take_add_one, hTerm, List.map_append]
    rfl
  have hCount : (((B.terms k).take j).map Prod.fst).length = j := by
    have hj := (List.getElem_of_getElem? hTerm).1
    rw [List.length_map, List.length_take]
    omega
  have hFirst := h.firstCnt
  have hLength := h.length
  rcases hStep.circle with ⟨hRoom, hCircle, -⟩ | ⟨hFull, -, x, rest, hOld, hCircle⟩
  · have hj : j < k * gatherSz k := by omega
    have hLength' : s'.circle.length = j + 1 := by
      rw [hCircle, List.length_append, hLength]
      simp
      omega
    refine ⟨by omega, fun c hc => ?_⟩
    have hSum := h.sums c hc
    rw [show j - s.circle.length = 0 by omega] at hSum
    rw [hLength', Nat.sub_self, hCircle, hTake, column_append, column_append, hSum, hCount, add_zero,
      show s.circle.length = j by omega]
  · have hj : k * gatherSz k ≤ j := by omega
    have hSize : (x :: rest).length = gatherSz k * k := by
      rw [← hOld, hLength, Nat.min_eq_right hj, Nat.mul_comm]
    have hLength' : s'.circle.length = s.circle.length := by
      rw [hCircle, hOld]
      simp
    refine ⟨by omega, fun c hc => ?_⟩
    have hSum := h.sums c hc
    have hStart : (j - s.circle.length) % k = j % k := by
      have hMultiple : j = j - s.circle.length + gatherSz k * k := by
        rw [Nat.mul_comm]
        omega
      conv_rhs => rw [hMultiple, Nat.add_mul_mod_self_right]
    rw [hLength', show j + 1 - s.circle.length = j - s.circle.length + 1 by omega, hCircle,
      column_rotate hSize, hStart, ← hOld, hSum, hTake, column_append, hCount, Nat.zero_add,
      column_singleton, add_comm]

theorem Accumulating.step {j : Nat} {p : S} {last : Bool} (h : Accumulating s B j)
    (hStep : Accumulates s s' p last) (hj : j < B.rows * k)
    (hTerm : (B.terms k)[j]? = some (p, last)) (hRows : gatherSz k ≤ B.rows) :
    Mode s' B (j + 1) 0 := by
  have hk := Nat.pos_of_neZero k
  have hG := gatherSz_pos k
  obtain ⟨hLength, hSums⟩ := h.sums_step hStep hTerm
  have hFinal : last = B.final k j := by
    obtain ⟨q, hq⟩ := B.getElem?_terms k hj
    have hEq := Option.some.inj (hTerm.symm.trans hq)
    exact congrArg Prod.snd hEq
  have hAll : B.rows * k = (B.rows - 1) * k + k := by
    rw [← Nat.succ_mul]
    congr 1
    omega
  have hRow : (s'.rowReg : Nat) = (j + 1) % k := by
    rw [hStep.row, h.row, Nat.mod_add_mod]
  by_cases hMore : j + 1 < B.rows * k
  · refine .accumulating ⟨?_, ?_, ?_, hRow, hStep.gatherCnt.trans h.gatherCnt,
      hStep.lastPass.trans h.lastPass, hStep.gReg.trans h.gReg, by rw [hStep.gFifo, h.gFifo], hLength, hSums⟩
      (.inr hMore) rfl
    · rw [hStep.phase', h.lastCnt, hFinal, Batch.final]
      by_cases hIn : (B.rows - 1) * k ≤ j
      · have hNot : ¬ j - (B.rows - 1) * k = k - 1 := by omega
        simp [hNot]
      · simp [hIn]
    · have hFirst := h.firstCnt
      rcases hStep.circle with ⟨hRoom, -, hNext⟩ | ⟨hFull, hNext, -⟩
      · omega
      · omega
    · rw [hStep.lastCnt, h.lastCnt, hFinal, Batch.final]
      by_cases hIn : (B.rows - 1) * k ≤ j
      · rw [decide_eq_true hIn, if_pos rfl]
        omega
      · rw [decide_eq_false hIn, if_neg (by decide)]
        omega
  · have hEnd : j + 1 = B.rows * k := by omega
    have hPhase : s'.gatherPhase = true := by
      rw [hStep.phase', h.lastCnt, hFinal, Batch.final, decide_eq_true (by omega), Bool.true_and, beq_iff_eq]
      omega
    have hZero : (s'.rowReg : Nat) = 0 := by rw [hRow, hEnd, Nat.mul_mod_left]
    have hEnough : k * gatherSz k ≤ B.rows * k := by
      rw [Nat.mul_comm k]
      exact Nat.mul_le_mul_right k hRows
    have hSize : s'.circle.length = gatherSz k * k := by
      rw [hLength, hEnd, Nat.min_eq_right hEnough, Nat.mul_comm]
    have hDots : ∀ c < k, column k c 0 s'.circle = B.dot c := by
      intro c hc
      rw [← Batch.column_terms hc B, ← List.take_of_length_le (Nat.le_of_eq (B.length_terms k)),
        ← hEnd, ← hSums c hc]
      refine column_congr ?_ _
      rw [hEnd, hSize, ← Nat.sub_mul, Nat.mul_mod_left, Nat.zero_mod]
    have hGathering : Gathering s' (gatherSz k) :=
      ⟨hPhase, by rw [hStep.gatherCnt, h.gatherCnt, Nat.zero_add],
        by rw [hStep.lastPass, h.lastPass, hStep.gatherCnt, h.gatherCnt], hStep.lastRow⟩
    have hNone : s'.gFifo.items = [] := by rw [hStep.gFifo, h.gFifo]
    by_cases hOne : gatherSz k = 1
    · rw [hOne] at hGathering
      refine .delivering hGathering hEnd hZero.symm (hStep.gReg.trans h.gReg) hNone ?_ ?_
      · rw [hSize, hOne, hZero, Nat.one_mul, Nat.add_zero]
      · intro c hc _
        rw [hZero]
        exact hDots c hc
    · refine .aside _ hGathering (by omega) hEnd rfl (hStep.gReg.trans h.gReg) ?_ ?_ ?_
      · rw [hNone, hZero, List.length_nil]
      · rw [hSize, hZero, Nat.add_zero]
      · intro c hc
        rw [hZero, hNone, column_nil, add_zero]
        exact hDots c hc

theorem Frame.row_next (h : Frame s s') (hRow : (s.rowReg : Nat) + 1 < k) :
    (s'.rowReg : Nat) = s.rowReg + 1 := by
  rw [h.row, Nat.mod_eq_of_lt hRow]

theorem Frame.row_end (h : Frame s s') (hRow : (s.rowReg : Nat) + 1 = k) : (s'.rowReg : Nat) = 0 := by
  rw [h.row, hRow, Nat.mod_self]

theorem Gathering.lastPass_iff {left : Nat} (h : Gathering s left) : s.lastPassReg = true ↔ left = 1 := by
  have hCnt := h.gatherCnt
  rw [h.lastPass, beq_iff_eq]
  omega

/-- One partial sum is set aside. -/
theorem mode_aside {left : Nat} (h : Gathering s left) (hLeft : 2 ≤ left) (hAll : taken = B.rows * k)
    (hReg : s.gReg = false) (hAside : s.gFifo.items.length = s.rowReg)
    (hLength : s.circle.length + s.rowReg = left * k)
    (hSums : ∀ c < k, column k c s.rowReg s.circle + column k c 0 s.gFifo.items = B.dot c)
    (hFrame : Frame s s') (hStep : Gathers s s') :
    s'.gatherPhase = true ∧ s'.dotfifos = s.dotfifos ∧ Mode s' B taken 0 := by
  obtain ⟨x, _, _, hCircle, hAside', hReg', hCnt, hPass', hDot, hPhase⟩ |
    ⟨x, y, rest, _, hReg₁⟩ | ⟨x, hPass⟩ := hStep
  rotate_left
  · exact absurd (hReg.symm.trans hReg₁) (by decide)
  · have := h.lastPass_iff.mp hPass
    omega
  refine ⟨hPhase, hDot, ?_⟩
  have hRow := s.rowReg.isLt
  have hNext : Gathering s' left :=
    ⟨hPhase, by rw [hCnt, h.gatherCnt], by rw [hPass', hCnt, h.lastPass], hFrame.lastRow⟩
  have hShorter : s.circle.length = s'.circle.length + 1 := by rw [hCircle, List.length_cons]
  have hMoved : ∀ c < k, column k c (s.rowReg + 1) s'.circle + column k c 0 s'.gFifo.items = B.dot c := by
    intro c hc
    rw [← hSums c hc, hCircle, hAside', column_cons, column_append, column_singleton, hAside, Nat.zero_add]
    abel
  by_cases hEnd : (s.rowReg : Nat) + 1 = k
  · have hZero := hFrame.row_end hEnd
    have hOnes : left * k = (left - 1) * k + k := by
      rw [← Nat.succ_mul]
      congr 1
      omega
    refine .adding left hNext hLeft hAll rfl ?_ ?_ (by omega) ?_
    · rw [hReg', h.lastRow, decide_eq_true hEnd]
    · rw [hAside', List.length_append, hAside, hZero, List.length_singleton]
      omega
    · intro c hc
      rw [← hMoved c hc, hZero, hEnd]
      refine congrArg (· + _) (column_congr ?_ _)
      rw [Nat.mod_self, Nat.zero_mod]
  · have hSucc := hFrame.row_next (by omega)
    refine .aside left hNext hLeft hAll rfl ?_ ?_ (by omega) ?_
    · rw [hReg', h.lastRow, decide_eq_false hEnd]
    · rw [hAside', List.length_append, hAside, hSucc, List.length_singleton]
    · intro c hc
      rw [hSucc]
      exact hMoved c hc

/-- One partial sum is added to the one set aside for its column. -/
theorem mode_adding {left : Nat} (h : Gathering s left) (hLeft : 2 ≤ left) (hAll : taken = B.rows * k)
    (hReg : s.gReg = true) (hAside : s.gFifo.items.length + s.rowReg = k)
    (hLength : s.circle.length = (left - 1) * k)
    (hSums : ∀ c < k, column k c s.rowReg s.circle + column k c s.rowReg s.gFifo.items = B.dot c)
    (hFrame : Frame s s') (hStep : Gathers s s') :
    s'.gatherPhase = true ∧ s'.dotfifos = s.dotfifos ∧ Mode s' B taken 0 := by
  obtain ⟨x, _, hReg₁⟩ | ⟨x, y, rest, _, _, hCircle, hCircle', hAside', hReg', hCnt, hPass', hDot, hPhase⟩ |
    ⟨x, hPass⟩ := hStep
  · exact absurd (hReg.symm.trans hReg₁) (by decide)
  rotate_left
  · have := h.lastPass_iff.mp hPass
    omega
  refine ⟨hPhase, hDot, ?_⟩
  have hRow := s.rowReg.isLt
  have hShorter : s.gFifo.items.length = s'.gFifo.items.length + 1 := by rw [hAside', List.length_cons]
  have hSame : s'.circle.length = s.circle.length := by
    rw [hCircle', hCircle]
    simp
  have hSize : (x :: rest).length = (left - 1) * k := by rw [← hCircle, hLength]
  have hMoved : ∀ c < k, column k c (s.rowReg + 1) s'.circle + column k c (s.rowReg + 1) s'.gFifo.items =
      B.dot c := by
    intro c hc
    rw [← hSums c hc, hCircle', add_comm x y, column_rotate hSize, ← hCircle, hAside', column_cons]
    abel
  cases hLast : s.lastRowReg with
  | false =>
    rw [hLast] at hReg' hCnt hPass'
    have hMore : (s.rowReg : Nat) + 1 ≠ k := by
      intro hEnd
      rw [h.lastRow, decide_eq_true hEnd] at hLast
      cases hLast
    have hSucc := hFrame.row_next (by omega)
    have hNext : Gathering s' left :=
      ⟨hPhase, by rw [hCnt]; exact h.gatherCnt, by rw [hPass', hCnt]; exact h.lastPass, hFrame.lastRow⟩
    refine .adding left hNext hLeft hAll rfl hReg' (by omega) (by omega) ?_
    intro c hc
    rw [hSucc]
    exact hMoved c hc
  | true =>
    rw [hLast] at hReg' hCnt hPass'
    have hEnd : (s.rowReg : Nat) + 1 = k := by
      rw [h.lastRow, decide_eq_true_iff] at hLast
      exact hLast
    have hZero := hFrame.row_end hEnd
    have hNext : Gathering s' (left - 1) := by
      refine ⟨hPhase, ?_, ?_, hFrame.lastRow⟩
      · rw [hCnt, if_pos rfl]
        have := h.gatherCnt
        omega
      · rw [hPass', hCnt, if_pos rfl, if_pos rfl]
    have hNone : s'.gFifo.items = [] := List.length_eq_zero_iff.mp (by omega)
    have hDots : ∀ c < k, column k c 0 s'.circle = B.dot c := by
      intro c hc
      rw [← hMoved c hc, hNone, column_nil, add_zero, hEnd]
      refine column_congr ?_ _
      rw [Nat.mod_self, Nat.zero_mod]
    by_cases hTwo : left = 2
    · subst hTwo
      refine .delivering hNext hAll hZero.symm hReg' hNone (by omega) ?_
      intro c hc _
      rw [hZero]
      exact hDots c hc
    · refine .aside (left - 1) hNext (by omega) hAll rfl hReg' (by rw [hNone, hZero, List.length_nil])
        (by omega) ?_
      intro c hc
      rw [hZero, hNone, column_nil, add_zero]
      exact hDots c hc

/-- A dot product goes out. -/
def Delivered (s s' : DotProd S k mulDepth addDepth) (v : S) : Prop :=
  ∃ q, q.items = (s.dotfifos s.rowReg).items ++ [v] ∧
    s'.dotfifos = Function.update s.dotfifos s.rowReg q

/-- One dot product is delivered; after the last one the server is ready for any
other batch. -/
theorem mode_delivering (h : Gathering s 1) (hAll : taken = B.rows * k) (hReg : s.gReg = false)
    (hAside : s.gFifo.items = []) (hLength : s.circle.length + s.rowReg = k)
    (hSums : ∀ c < k, s.rowReg ≤ c → column k c s.rowReg s.circle = B.dot c)
    (hFrame : Frame s s') (hStep : Gathers s s') : Delivered s s' (B.dot s.rowReg) ∧
      (((s.rowReg : Nat) + 1 < k ∧ s'.gatherPhase = true ∧ Mode s' B taken (s.rowReg + 1)) ∨
        ((s.rowReg : Nat) + 1 = k ∧ ∀ B', Accumulating s' B' 0)) := by
  have hLast := h.lastPass_iff.mpr rfl
  obtain ⟨x, hPass⟩ | ⟨x, y, rest, hPass⟩ | ⟨x, _, hCircle, hDot, hAside', hReg', hMore, hDone⟩ := hStep
  iterate 2 exact absurd (hLast.symm.trans hPass) (by decide)
  have hRow := s.rowReg.isLt
  have hShorter : s.circle.length = s'.circle.length + 1 := by rw [hCircle, List.length_cons]
  have hValue : x = B.dot s.rowReg := by rw [← hSums s.rowReg hRow le_rfl, hCircle, column_head (by omega)]
  refine ⟨hValue ▸ hDot, ?_⟩
  by_cases hEnd : (s.rowReg : Nat) + 1 = k
  · obtain ⟨hCnt, hPass, hLastCnt, hFirstCnt, hPhase⟩ := hDone (by rw [h.lastRow, decide_eq_true hEnd])
    have hNone : s'.circle = [] := List.length_eq_zero_iff.mp (by omega)
    refine .inr ⟨hEnd, fun B' => ⟨hPhase, ?_, ?_, ?_, hCnt, hPass, hReg'.trans hReg,
      by rw [hAside', hAside], ?_, ?_⟩⟩
    · rw [hFirstCnt, Nat.zero_min]
    · rw [hLastCnt, Nat.zero_sub]
    · rw [hFrame.row_end hEnd, Nat.zero_mod]
    · rw [hNone, Nat.zero_min, List.length_nil]
    · intro c hc
      rw [hNone, List.take_zero]
      rfl
  · obtain ⟨hCnt, hPass, hPhase⟩ := hMore (by rw [h.lastRow, decide_eq_false hEnd])
    have hSucc := hFrame.row_next (by omega)
    refine .inl ⟨by omega, hPhase, .delivering ⟨hPhase, by rw [hCnt, h.gatherCnt], by rw [hPass, hCnt, h.lastPass],
      hFrame.lastRow⟩ hAll hSucc.symm (hReg'.trans hReg) (by rw [hAside', hAside]) (by omega) ?_⟩
    intro c hc hLater
    rw [hSucc] at hLater ⊢
    rw [← hSums c hc (by omega), hCircle, column_cons, if_neg (by rw [Nat.mod_eq_of_lt hRow]; omega), zero_add]

/-- One step of a pass moves partial sums around or delivers a dot product. -/
theorem Mode.gather (h : Mode s B taken outs) (hFrame : GatherFrame s s') (hStep : Gathers s s') :
    (outs = 0 ∧ s'.gatherPhase = true ∧ s'.dotfifos = s.dotfifos ∧ Mode s' B taken 0) ∨
      (outs = s.rowReg ∧ taken = B.rows * k ∧ Delivered s s' (B.dot s.rowReg) ∧
        (((s.rowReg : Nat) + 1 < k ∧ s'.gatherPhase = true ∧ Mode s' B taken (s.rowReg + 1)) ∨
          ((s.rowReg : Nat) + 1 = k ∧ ∀ B', Accumulating s' B' 0))) := by
  cases h with
  | accumulating h hMore hOuts => exact absurd (h.phase.symm.trans hFrame.phase) (by decide)
  | aside left h hLeft hAll hOuts hReg hAside hLength hSums =>
    exact .inl ⟨hOuts, mode_aside h hLeft hAll hReg hAside hLength hSums hFrame.toFrame hStep⟩
  | adding left h hLeft hAll hOuts hReg hAside hLength hSums =>
    exact .inl ⟨hOuts, mode_adding h hLeft hAll hReg hAside hLength hSums hFrame.toFrame hStep⟩
  | delivering h hAll hOuts hReg hAside hLength hSums =>
    exact .inr ⟨hOuts, hAll, mode_delivering h hAll hReg hAside hLength hSums hFrame.toFrame hStep⟩

/-- The mode does not depend on the queues outside of the circle, nor on where the
circle is cut. -/
theorem Mode.keep {afifo bfifo : Fifo (MmToken S) 2} {flFifo : Fifo (Bool × Bool) ubMulLat}
    {mul : Fifo S mulDepth} {adder : Fifo S addDepth} {adderBuffer : Fifo S (k * gatherSz k)}
    {dotfifos : Fin k → Fifo S 1} (h : Mode s B taken outs)
    (hCircle : adderBuffer.items ++ adder.items = s.circle) :
    Mode { s with afifo, bfifo, flFifo, mul, adder, adderBuffer, dotfifos } B taken outs := by
  cases h with
  | accumulating h hMore hOuts =>
    have hLength := h.length
    have hSums := h.sums
    rw [← hCircle] at hLength hSums
    exact .accumulating { h with length := hLength, sums := hSums } hMore hOuts
  | aside left h hLeft hAll hOuts hReg hAside hLength hSums =>
    rw [← hCircle] at hLength hSums
    exact .aside left { h with } hLeft hAll hOuts hReg hAside hLength hSums
  | adding left h hLeft hAll hOuts hReg hAside hLength hSums =>
    rw [← hCircle] at hLength hSums
    exact .adding left { h with } hLeft hAll hOuts hReg hAside hLength hSums
  | delivering h hAll hOuts hReg hAside hLength hSums =>
    rw [← hCircle] at hLength hSums
    exact .delivering { h with } hAll hOuts hReg hAside hLength hSums

theorem Mode.accumulating_of (h : Mode s B taken outs) (hPhase : s.gatherPhase = false) :
    Accumulating s B taken ∧ (taken = 0 ∨ taken < B.rows * k) ∧ outs = 0 := by
  cases h with
  | accumulating h hMore hOuts => exact ⟨h, hMore, hOuts⟩
  | aside left h | adding left h | delivering h => exact absurd (hPhase.symm.trans h.phase) (by decide)

end Modes

end DotProd
end Connectal
