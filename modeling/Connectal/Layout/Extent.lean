import Mathlib.Algebra.Ring.Nat
import Mathlib.Data.List.Basic
import Mathlib.Algebra.Order.BigOperators.Group.List

/-! Byte ranges laid end to end. A list of blocks describes one address space:
an offset belongs to the block whose range contains it. -/
namespace Layout

structure Block where
  base : Nat
  size : Nat
  deriving DecidableEq, Repr

/-- Number of bytes of all blocks together. -/
def total (blocks : List Block) : Nat := (blocks.map Block.size).sum

/-- Offset of the first byte of block number `k`. -/
def start (blocks : List Block) (k : Nat) : Nat := total (blocks.take k)

@[simp] theorem total_nil : total [] = 0 := rfl

@[simp] theorem total_append (front back : List Block) :
    total (front ++ back) = total front + total back := by
  simp [total]

/-- The offset lies in block number `k`. -/
structure Contains (blocks : List Block) (off k : Nat) (block : Block) : Prop where
  get : blocks[k]? = some block
  lower : start blocks k ≤ off
  upper : off < start blocks k + block.size

variable {blocks : List Block} {block : Block} {k : Nat}

theorem start_succ (h : blocks[k]? = some block) : start blocks (k + 1) = start blocks k + block.size := by
  rw [start, List.take_add_one, h, Option.toList_some, total_append]
  simp [start, total]

theorem start_mono (blocks : List Block) {m : Nat} (h : k ≤ m) : start blocks k ≤ start blocks m := by
  have hSplit := List.take_append_drop k (blocks.take m)
  rw [List.take_take, Nat.min_eq_left h] at hSplit
  rw [start, start, ← hSplit, total_append]
  exact Nat.le_add_right _ _

variable {off : Nat}

theorem Contains.unique {m : Nat} {block' : Block}
    (h : Contains blocks off k block) (h' : Contains blocks off m block') : k = m := by
  have hNext := start_succ h.get
  have hNext' := start_succ h'.get
  have hl := h.lower
  have hu := h.upper
  have hl' := h'.lower
  have hu' := h'.upper
  rcases Nat.lt_trichotomy k m with hLess | hEq | hLess
  · have hMono := start_mono blocks (show k + 1 ≤ m by omega)
    omega
  · exact hEq
  · have hMono := start_mono blocks (show m + 1 ≤ k by omega)
    omega

theorem Contains.append
    (h : Contains blocks off k block) (back : List Block) : Contains (blocks ++ back) off k block := by
  have hk : k < blocks.length := (List.getElem_of_getElem? h.get).1
  have hStart : start (blocks ++ back) k = start blocks k := by
    rw [start, List.take_append_of_le_length (Nat.le_of_lt hk), start]
  exact ⟨by rw [List.getElem?_append_left hk, h.get], by rw [hStart]; exact h.lower,
    by rw [hStart]; exact h.upper⟩

/-- Blocks in front shift the offsets and the numbers of the others. -/
theorem Contains.prepend (front : List Block) (h : Contains blocks off k block) :
    Contains (front ++ blocks) (total front + off) (front.length + k) block := by
  have hStart : start (front ++ blocks) (front.length + k) = total front + start blocks k := by
    simp [start, List.take_append, List.take_of_length_le (Nat.le_add_right front.length k)]
  refine ⟨?_, ?_, ?_⟩
  · rw [List.getElem?_append_right (Nat.le_add_right _ _), Nat.add_sub_cancel_left, h.get]
  · rw [hStart]
    exact Nat.add_le_add_left h.lower _
  · rw [hStart, Nat.add_assoc]
    exact Nat.add_lt_add_left h.upper _

section Uniform

variable {blocks : List Block} {size : Nat}

section

variable (h : ∀ b ∈ blocks, b.size = size)

include h

theorem total_uniform : total blocks = blocks.length * size := by
  rw [total, List.map_congr_left (g := fun _ => size) h, List.map_const', List.sum_replicate_nat]

/-- Among blocks of one size, division finds the block. -/
theorem Contains.uniform (hSize : 0 < size) (hOff : off / size < blocks.length) :
    Contains blocks off (off / size) blocks[off / size] ∧ start blocks (off / size) = off / size * size := by
  have hStart : start blocks (off / size) = off / size * size := by
    rw [start, total_uniform (fun b hb => h b (List.mem_of_mem_take hb)), List.length_take,
      Nat.min_eq_left (Nat.le_of_lt hOff)]
  refine ⟨⟨List.getElem?_eq_getElem hOff, ?_, ?_⟩, hStart⟩
  · rw [hStart]
    exact Nat.div_mul_le_self off size
  · rw [hStart, h _ (List.getElem_mem hOff)]
    exact Nat.lt_div_mul_add hSize

/-- The same between other blocks, when the ones in front fill whole multiples
of the size. -/
theorem Contains.between (hSize : 0 < size) {front : List Block}
    (back : List Block) {border : Nat} (hFront : total front = border * size)
    (hLow : border ≤ off / size) (hHigh : off / size < border + blocks.length) :
    ∃ block ∈ blocks, Contains (front ++ blocks ++ back) off (front.length + (off / size - border)) block ∧
      off - start (front ++ blocks ++ back) (front.length + (off / size - border)) = off % size := by
  have hLower : border * size ≤ off :=
    Nat.le_trans (Nat.mul_le_mul_right size hLow) (Nat.div_mul_le_self off size)
  have hDiv : (off - border * size) / size = off / size - border := by
    rw [Nat.mul_comm, Nat.sub_mul_div]
  have hIndex : (off - border * size) / size < blocks.length := by omega
  obtain ⟨hIn, hStart⟩ := Contains.uniform h hSize hIndex
  have hAll := (hIn.prepend front).append back
  rw [hFront, Nat.add_sub_cancel' hLower] at hAll
  rw [← hDiv]
  refine ⟨_, List.getElem_mem hIndex, hAll, ?_⟩
  have hFirst : start (front ++ blocks ++ back) (front.length + (off - border * size) / size) =
      border * size + (off - border * size) / size * size := by
    rw [start, List.append_assoc, List.take_length_add_append, total_append, hFront,
      List.take_append_of_le_length (Nat.le_of_lt hIndex), ← start, hStart]
  have hMod := Nat.div_add_mod off size
  rw [hFirst, hDiv, ← Nat.add_mul, Nat.add_sub_cancel' hLow, Nat.mul_comm]
  omega

end

end Uniform
end Layout
