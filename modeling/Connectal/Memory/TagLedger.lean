import Connectal.Memory.TagGen
import Mathlib.Data.List.Count
import Mathlib.Data.List.Range
import Mathlib.Data.Nat.Bitwise
import Mathlib.Tactic.Simps.Basic
import Mathlib.Tactic.Linarith

/-! Allocations are numbered in the order in which they are made, and the tag
of an allocation is its number modulo the size of the buffer. The ledger says
how far each stage of the generator has come in terms of these numbers. -/
namespace Connectal

open Rules

/-- The tag of the allocation with number `n`. -/
def tagOf (tsz n : Nat) : BitVec tsz := BitVec.ofNat tsz n

theorem tagOf_succ (tsz n : Nat) : tagOf tsz (n + 1) = tagOf tsz n + 1 := by
  simp [tagOf, BitVec.ofNat_add]

/-- Allocations less than one lap apart have different tags. -/
theorem tagOf_inj {tsz lo m n : Nat} (hm : lo ≤ m) (hm' : m < lo + 2 ^ tsz)
    (hn : lo ≤ n) (hn' : n < lo + 2 ^ tsz) (h : tagOf tsz m = tagOf tsz n) : m = n := by
  have hMod : m % 2 ^ tsz = n % 2 ^ tsz := by
    simpa [tagOf] using congrArg BitVec.toNat h
  have hPos := Nat.two_pow_pos tsz
  have hm2 := Nat.div_add_mod m (2 ^ tsz)
  have hn2 := Nat.div_add_mod n (2 ^ tsz)
  have hq : m / 2 ^ tsz = n / 2 ^ tsz := by
    by_contra hne
    rcases Nat.lt_or_gt_of_ne hne with hlt | hlt <;>
    · have := Nat.mul_le_mul_left (2 ^ tsz) (Nat.succ_le_of_lt hlt)
      rw [Nat.succ_eq_add_one, Nat.mul_add] at this
      omega
  rw [← hm2, ← hn2, hq, hMod]

theorem tagOf_add_lap (tsz n : Nat) : tagOf tsz (n + 2 ^ tsz) = tagOf tsz n := by
  apply BitVec.eq_of_toNat_eq
  simp [tagOf]

/-- If a value is hit more often by a range of numbers than by a list of them,
then some number of the range hits it and is missing from the list. -/
theorem exists_unused {β : Type*} [DecidableEq β] {f : Nat → β} {used : List Nat} {size : Nat}
    {x : β} (h : (used.map f).count x < ((List.range size).map f).count x) :
    ∃ n, n < size ∧ n ∉ used ∧ f n = x := by
  by_contra hNone
  push Not at hNone
  refine absurd h (Nat.not_lt.mpr ?_)
  have hSub : (List.range size).filter (fun n => f n = x) ⊆ used.filter (fun n => f n = x) := by
    intro n hn
    simp only [List.mem_filter, List.mem_range, decide_eq_true_eq] at hn ⊢
    exact ⟨by_contra fun hUsed => hNone n hn.1 hUsed hn.2, hn.2⟩
  have hLen := (List.subperm_of_subset (List.nodup_range.filter _) hSub).length_le
  rw [List.count_eq_countP, List.count_eq_countP, List.countP_map, List.countP_map,
    List.countP_eq_length_filter, List.countP_eq_length_filter]
  exact hLen

/-- Positions of the generator's stages. Numbers below `completed` have been
delivered, numbers below `retired` have left the circular buffer, `waiting`
are back but not yet recorded, `processed` are recorded but not retired. -/
structure TagLedger where
  given : Nat
  retired : Nat
  completed : Nat
  waiting : List Nat
  processed : List Nat
  ones : Nat

namespace TagLedger

/-- Nothing has been handed out. -/
def start : TagLedger := ⟨0, 0, 0, [], [], 0⟩

@[simps] def give (L : TagLedger) : TagLedger := { L with given := L.given + 1 }

@[simps] def giveBack (L : TagLedger) (n : Nat) : TagLedger := { L with waiting := L.waiting ++ [n] }

@[simps] def process (L : TagLedger) (numTags : Nat) : TagLedger :=
  { L with
    waiting := L.waiting.tail
    processed := L.processed ++ L.waiting.head?.toList
    ones := min (L.ones + 1) numTags }

@[simps] def retire (L : TagLedger) : TagLedger :=
  { L with
    retired := L.retired + 1
    processed := L.processed.erase L.retired
    ones := L.ones - 1 }

@[simps] def complete (L : TagLedger) : TagLedger := { L with completed := L.completed + 1 }

/-- Allocations that have been given back, at whatever stage they are. -/
def returned (L : TagLedger) : List Nat := List.range L.retired ++ L.processed ++ L.waiting

/-- Allocations that are out: handed out and not given back. -/
def Out (L : TagLedger) (n : Nat) : Prop := n < L.given ∧ n ∉ L.returned

/-- Retiring moves the oldest recorded allocation to the retired range. -/
theorem retire_perm {L : TagLedger} (h : L.retired ∈ L.processed) :
    (List.range (L.retired + 1) ++ L.processed.erase L.retired).Perm
      (List.range L.retired ++ L.processed) := by
  rw [List.range_succ, List.append_assoc]
  exact List.Perm.append_left _ (List.perm_cons_erase h).symm

theorem mem_returned_of_lt {L : TagLedger} {n : Nat} (h : n < L.retired) : n ∈ L.returned := by
  simp only [returned, List.mem_append, List.mem_range]
  exact .inl (.inl h)

theorem retired_le_of_not_mem {L : TagLedger} {n : Nat} (h : n ∉ L.returned) : L.retired ≤ n :=
  Nat.le_of_not_lt fun hLt => h (mem_returned_of_lt hLt)

@[simp] theorem returned_give (L : TagLedger) : L.give.returned = L.returned := rfl

@[simp] theorem returned_complete (L : TagLedger) : L.complete.returned = L.returned := rfl

theorem returned_giveBack (L : TagLedger) (n : Nat) :
    (L.giveBack n).returned = L.returned ++ [n] := by
  simp [returned]

end TagLedger

namespace TagGen

variable {numTags tsz : Nat} {s s' : TagGen numTags tsz} {L : TagLedger}

/-- The registers, the memory and the queues agree with the ledger. The field
`answer` says that a pending answer `False` is about a tag that really is back. -/
structure Inv (s : TagGen numTags tsz) (L : TagLedger) : Prop where
  head : s.inited = true → s.headPtr = tagOf tsz L.given
  idle : s.inited = false → L.given = 0
  tail : s.tailPtr = tagOf tsz L.retired
  completed_le : L.completed ≤ L.retired
  retired_le : L.retired ≤ L.given
  window : L.given < L.retired + 2 ^ tsz
  comp : s.compFifo.items = (List.range' L.completed (L.retired - L.completed)).map (tagOf tsz)
  wait : s.retFifo.items = L.waiting.map (tagOf tsz)
  nodup : (L.waiting ++ L.processed).Nodup
  back : ∀ n ∈ L.waiting ++ L.processed, L.retired ≤ n ∧ n < L.given
  mem : ∀ n, L.retired ≤ n → n < L.given →
    (s.tags.mem (tagOf tsz n) = true ↔ n ∉ L.processed)
  unary : s.compState.toNat = 2 ^ L.ones - 1
  ones_le : L.ones ≤ L.processed.length
  ones_eq : 2 ^ tsz ≤ numTags → L.ones = L.processed.length
  answer : ∀ v ∈ (s.tags.out 1).items, v = false → L.retired ∈ L.processed
  busy : (s.tags.out 1).items ≠ [] → 0 < L.ones
  quiet : (s.tags.out 0).items = []

variable {x : BitVec numTags}

/-- The lowest bit of the unary counter is set exactly when it counts something. -/
theorem ones_pos {ones : Nat} (h : x.toNat = 2 ^ ones - 1) (hBit : x.getLsbD 0 = true) : 0 < ones := by
  rcases Nat.eq_zero_or_pos ones with rfl | hPos
  · simp [BitVec.getLsbD, h] at hBit
  · exact hPos

theorem ones_le_width {ones : Nat} (h : x.toNat = 2 ^ ones - 1) : ones ≤ numTags := by
  by_contra hWide
  have hLt := x.isLt
  have hPow := Nat.pow_lt_pow_right (show 1 < 2 by decide) (Nat.lt_of_not_le hWide)
  omega

/-- Shifting a one into the unary counter counts one more, until all its
bits are set. -/
theorem unary_succ {ones : Nat} (h : x.toNat = 2 ^ ones - 1) :
    ((1 : BitVec numTags) ||| (x <<< 1)).toNat = 2 ^ min (ones + 1) numTags - 1 := by
  have hLe := ones_le_width h
  apply Nat.eq_of_testBit_eq
  intro i
  have hx : ∀ j, x.getLsbD j = decide (j < ones) := by
    intro j
    rw [BitVec.getLsbD, h, Nat.testBit_two_pow_sub_one]
  rw [Nat.testBit_two_pow_sub_one, ← BitVec.getLsbD, BitVec.getLsbD_or, BitVec.getLsbD_shiftLeft,
    hx, BitVec.ofNat_eq_ofNat, BitVec.getLsbD_one, Bool.eq_iff_iff]
  simp only [Bool.or_eq_true, Bool.and_eq_true, decide_eq_true_eq, Bool.not_eq_true',
    decide_eq_false_iff_not]
  omega

theorem window_length (h : Inv s L) :
    L.waiting.length + L.processed.length ≤ L.given - L.retired := by
  have hSub : L.waiting ++ L.processed ⊆ List.range' L.retired (L.given - L.retired) := by
    intro n hn
    have := h.back n hn
    simp only [List.mem_range'_1]
    omega
  have := (List.subperm_of_subset h.nodup hSub).length_le
  simpa using this

theorem powerUp_inv (mem : BitVec tsz → Bool) :
    Inv (powerUp mem : TagGen numTags tsz) TagLedger.start := by
  constructor <;> simp [powerUp, TagLedger.start, tagOf, Bram.powerUp]

variable (h : Inv s L)

include h

theorem completeRule0_inv (hs : completeRule0 s = some s') : Inv s' L := by
  simp only [completeRule0, firing, Bram.read_eq_some] at hs
  obtain ⟨hBit, tags, ⟨hRoom, q, hq, rfl⟩, rfl⟩ := hs
  have hSome : 0 < L.processed.length := Nat.lt_of_lt_of_le (ones_pos h.unary hBit) h.ones_le
  obtain ⟨n, hn⟩ := List.exists_mem_of_length_pos hSome
  have hBack := h.back n (List.mem_append_right _ hn)
  refine { h with answer := ?_, busy := fun _ => ones_pos h.unary hBit, quiet := h.quiet }
  intro v hv hFalse
  simp only [Function.update_self, hq, List.mem_append, List.mem_singleton] at hv
  rcases hv with hv | rfl
  · exact h.answer v hv hFalse
  · by_contra hNot
    rw [h.tail, (h.mem L.retired le_rfl (by omega)).mpr hNot] at hFalse
    cases hFalse

/-- The tail passes an allocation that is back. -/
theorem retire_inv {q : Fifo Bool 1} {compFifo : Fifo (BitVec tsz) 2}
    (hBit : s.compState.getLsbD 0 = true) (hBack : L.retired ∈ L.processed)
    (hq : (s.tags.out 1).items = false :: q.items)
    (hItems : compFifo.items = s.compFifo.items ++ [s.tailPtr]) :
    Inv { s with
      tags := { s.tags with out := Function.update s.tags.out 1 q }
      tailPtr := s.tailPtr + 1
      compState := s.compState >>> 1
      compFifo } L.retire := by
  have hOnes := ones_pos h.unary hBit
  have hBounds := h.back L.retired (List.mem_append_right _ hBack)
  have hLen : (L.processed.erase L.retired).length = L.processed.length - 1 :=
    List.length_erase_of_mem hBack
  have hPos := List.length_pos_of_mem hBack
  have hNil : q.items = [] := by
    have hOne := (s.tags.out 1).bound
    simp only [hq, List.length_cons] at hOne
    exact List.length_eq_zero_iff.mp (by omega)
  have hOld : ∀ n ∈ L.waiting ++ L.processed.erase L.retired,
      n ∈ L.waiting ++ L.processed ∧ n ≠ L.retired := by
    intro n hn
    have hSplit := List.nodup_append.mp h.nodup
    rcases List.mem_append.mp hn with hn | hn
    · exact ⟨List.mem_append_left _ hn, hSplit.2.2 n hn _ hBack⟩
    · refine ⟨List.mem_append_right _ (List.mem_of_mem_erase hn), ?_⟩
      exact ((List.Nodup.mem_erase_iff hSplit.2.1).mp hn).1
  refine { h with
    tail := ?_, completed_le := ?_, retired_le := hBounds.2, window := ?_, comp := ?_
    nodup := ?_, back := ?_, mem := ?_, unary := ?_, ones_le := ?_, ones_eq := ?_, answer := ?_
    busy := ?_, quiet := h.quiet }
  · simp only [TagLedger.retire, tagOf_succ, h.tail]
  · exact Nat.le_succ_of_le h.completed_le
  · have := h.window
    simp only [TagLedger.retire]
    omega
  · have hc := h.completed_le
    simp only [TagLedger.retire]
    rw [hItems, h.comp, h.tail, show L.retired + 1 - L.completed = L.retired - L.completed + 1 by omega,
      List.range'_1_concat, List.map_append, show L.completed + (L.retired - L.completed) = L.retired by omega]
    rfl
  · exact h.nodup.sublist ((List.Sublist.refl _).append List.erase_sublist)
  · intro n hn
    obtain ⟨hMem, hne⟩ := hOld n hn
    obtain ⟨hLow, hHigh⟩ := h.back n hMem
    exact ⟨by simp only [TagLedger.retire]; omega, hHigh⟩
  · intro n hLow hHigh
    simp only [TagLedger.retire] at hLow hHigh ⊢
    rw [List.mem_erase_of_ne (by omega)]
    exact h.mem n (by omega) hHigh
  · simp only [TagLedger.retire, BitVec.toNat_ushiftRight, h.unary]
    obtain ⟨m, hm⟩ : ∃ m, L.ones = m + 1 := ⟨L.ones - 1, by omega⟩
    rw [hm, Nat.shiftRight_one, Nat.add_sub_cancel, Nat.pow_succ]
    have := Nat.two_pow_pos m
    omega
  · have := h.ones_le
    simp only [TagLedger.retire, hLen]
    omega
  · intro hWide
    have := h.ones_eq hWide
    simp only [TagLedger.retire, hLen]
    omega
  · intro v hv
    simp [hNil] at hv
  · intro hPending
    simp [hNil] at hPending

theorem completeRule1_inv {r : Option (BitVec tsz)} (hs : completeRule1 s = some (s', r)) :
    (r = none ∧ Inv s' L) ∨
      (r = some (tagOf tsz L.retired) ∧ L.retired ∈ L.processed ∧ Inv s' L.retire) := by
  simp only [completeRule1, firing, Bram.get_eq_some] at hs
  obtain ⟨hBit, rv, tags, ⟨q, hq, rfl⟩, hs⟩ := hs
  cases rv with
  | true =>
    simp only [Bool.not_true, Bool.false_eq_true, if_false, firing] at hs
    obtain ⟨rfl, rfl⟩ := hs
    have hBusy := h.busy (by simp [hq])
    refine .inl ⟨rfl, { h with answer := ?_, busy := fun _ => hBusy, quiet := h.quiet }⟩
    intro v hv hFalse
    simp only [Function.update_self] at hv
    exact h.answer v (hq ▸ List.mem_cons_of_mem _ hv) hFalse
  | false =>
    simp only [Bool.not_false, if_true, firing] at hs
    obtain ⟨compFifo, ⟨hRoom, hItems⟩, rfl, rfl⟩ := hs
    have hBackTail : L.retired ∈ L.processed := h.answer false (by simp [hq]) rfl
    exact .inr ⟨by rw [h.tail], hBackTail, retire_inv h hBit hBackTail hq hItems⟩

variable {tag : BitVec tsz}

/-- Recording a returned tag moves the oldest waiting allocation. -/
theorem ret_inv (hs : ret s = some (s', tag)) :
    ∃ n rest, L.waiting = n :: rest ∧ tag = tagOf tsz n ∧ Inv s' (L.process numTags) := by
  simp only [ret, firing, Bram.write_eq_some] at hs
  obtain ⟨tag', retFifo, hDeq, tags, ⟨hRoom, rfl⟩, rfl, rfl⟩ := hs
  rw [h.wait, List.map_eq_cons_iff] at hDeq
  obtain ⟨n, rest, hWaiting, rfl, hRest⟩ := hDeq
  have hn := h.back n (by simp [hWaiting])
  have hNew : n ∉ L.processed := by
    have := h.nodup
    simp only [hWaiting, List.cons_append, List.nodup_cons, List.mem_append, not_or] at this
    exact this.1.2
  refine ⟨n, rest, hWaiting, rfl, ?_⟩
  have hMem : ∀ m, m ∈ rest ++ (L.processed ++ [n]) ↔ m ∈ L.waiting ++ L.processed := by
    intro m
    simp only [hWaiting, List.mem_append, List.mem_cons, List.not_mem_nil]
    tauto
  have hPerm : (rest ++ (L.processed ++ [n])).Perm (L.waiting ++ L.processed) := by
    rw [hWaiting, ← List.append_assoc]
    exact (List.perm_append_singleton n (rest ++ L.processed)).trans (by simp)
  have hLen := window_length h
  simp only [hWaiting, List.length_cons] at hLen
  have hWindow := h.window
  have hOnes := ones_le_width h.unary
  refine { h with
    wait := ?_, nodup := ?_, back := ?_, mem := ?_, unary := ?_, ones_le := ?_, ones_eq := ?_
    answer := ?_, busy := ?_ }
  · simp [TagLedger.process, hWaiting, hRest]
  · simpa [TagLedger.process, hWaiting] using hPerm.nodup_iff.mpr h.nodup
  · intro m hm
    simp only [TagLedger.process, hWaiting, List.tail_cons, List.head?_cons, Option.toList_some] at hm
    exact h.back m ((hMem m).mp hm)
  · intro m hLow hHigh
    simp only [TagLedger.process, hWaiting, List.head?_cons, Option.toList_some, List.mem_append,
      List.mem_singleton, not_or] at hLow hHigh ⊢
    rcases eq_or_ne m n with rfl | hne
    · simp
    · have hTag : tagOf tsz m ≠ tagOf tsz n := fun he =>
        hne (tagOf_inj hLow (by omega) hn.1 (by omega) he)
      rw [Function.update_of_ne hTag]
      simpa [hne] using h.mem m hLow hHigh
  · exact unary_succ h.unary
  · have := h.ones_le
    simp only [TagLedger.process, hWaiting, List.head?_cons, Option.toList_some, counting]
    omega
  · intro hWide
    have := h.ones_eq hWide
    simp only [TagLedger.process, hWaiting, List.head?_cons, Option.toList_some, counting]
    omega
  · intro v hv hFalse
    simp only [TagLedger.process, List.mem_append]
    exact .inl (h.answer v hv hFalse)
  · intro hPending
    have hBusy := h.busy hPending
    simp only [TagLedger.process]
    omega

theorem init_inv (hs : init s = some s') : Inv s' L := by
  simp only [init, firing, Bram.write_eq_some, Bool.not_eq_true'] at hs
  obtain ⟨hInit, tags, ⟨hRoom, rfl⟩, rfl⟩ := hs
  have hGiven := h.idle hInit
  refine { h with head := ?_, idle := fun _ => hGiven, mem := ?_ }
  · intro hDone
    simpa [hGiven, tagOf] using hDone
  · intro n _ hn
    omega

theorem getTag_inv (hs : getTag s = some (tag, s')) : tag = tagOf tsz L.given ∧ Inv s' L.give := by
  simp only [getTag, firing, Bram.write_eq_some, Bool.and_eq_true, bne_iff_ne] at hs
  obtain ⟨⟨hInit, hFree⟩, tags, ⟨hRoom, rfl⟩, rfl, rfl⟩ := hs
  have hHead := h.head hInit
  have hWindow := h.window
  have hRetired := h.retired_le
  have hBelow : L.given + 1 < L.retired + 2 ^ tsz := by
    by_contra hFull
    have hLap : L.given + 1 = L.retired + 2 ^ tsz := by omega
    apply hFree
    rw [hHead, h.tail, ← tagOf_succ, hLap, tagOf_add_lap]
  refine ⟨hHead, { h with
    head := fun _ => ?_, idle := fun hNot => ?_, retired_le := ?_, window := hBelow
    back := ?_, mem := ?_ }⟩
  · simp only [TagLedger.give, tagOf_succ, hHead]
  · simp [hInit] at hNot
  · exact Nat.le_succ_of_le hRetired
  · intro n hn
    obtain ⟨hLow, hHigh⟩ := h.back n hn
    exact ⟨hLow, Nat.lt_succ_of_lt hHigh⟩
  · intro n hLow hHigh
    simp only [TagLedger.give] at hLow hHigh ⊢
    rcases Nat.lt_succ_iff_lt_or_eq.mp hHigh with hOld | rfl
    · have hne : tagOf tsz n ≠ s.headPtr := by
        rw [hHead]
        intro he
        have := tagOf_inj hLow (by omega) hRetired hWindow he
        omega
      rw [Function.update_of_ne hne]
      exact h.mem n hLow hOld
    · rw [← hHead, Function.update_self]
      refine ⟨fun _ hMem => ?_, fun _ => rfl⟩
      exact absurd (h.back _ (List.mem_append_right _ hMem)).2 (Nat.lt_irrefl _)

/-- A caller that returns an allocation which is out keeps the ledger. -/
theorem returnTag_inv {n : Nat} (hOut : L.Out n)
    (hs : returnTag s (tagOf tsz n) = some s') : Inv s' (L.giveBack n) := by
  simp only [returnTag, firing] at hs
  obtain ⟨hInit, retFifo, ⟨hRoom, hItems⟩, rfl⟩ := hs
  obtain ⟨hHigh, hNot⟩ := hOut
  simp only [TagLedger.returned, List.mem_append, List.mem_range, not_or, Nat.not_lt] at hNot
  obtain ⟨⟨hLow, hProcessed⟩, hWaiting⟩ := hNot
  refine { h with wait := ?_, nodup := ?_, back := ?_ }
  · simp [TagLedger.giveBack, hItems, h.wait]
  · have hPerm : (L.waiting ++ [n] ++ L.processed).Perm (n :: (L.waiting ++ L.processed)) := by
      simp
    simp only [TagLedger.giveBack]
    rw [hPerm.nodup_iff, List.nodup_cons]
    exact ⟨by simp [hWaiting, hProcessed], h.nodup⟩
  · intro m hm
    simp only [TagLedger.giveBack, List.mem_append, List.mem_singleton] at hm
    rcases hm with (hm | rfl) | hm
    · exact h.back m (List.mem_append_left _ hm)
    · exact ⟨hLow, hHigh⟩
    · exact h.back m (List.mem_append_right _ hm)

/-- What the generator's own rules may do to the ledger, as its callers see
it: nothing is handed out, given back or delivered, and the tail only moves
forward. -/
theorem runRule_inv {r : Rule} {events : List (Event tsz)} (hs : runRule r s = some (s', events)) :
    ∃ L', Inv s' L' ∧ L'.given = L.given ∧ L'.completed = L.completed ∧
      L.retired ≤ L'.retired ∧ L'.returned.Perm L.returned := by
  cases r
  all_goals simp only [runRule, firing] at hs
  case completeRule0 =>
    obtain ⟨_, hs, rfl, rfl⟩ := hs
    exact ⟨L, completeRule0_inv h hs, rfl, rfl, le_rfl, .refl _⟩
  case completeRule1 =>
    obtain ⟨_, r, hs, rfl, rfl⟩ := hs
    rcases completeRule1_inv h hs with ⟨rfl, hInv⟩ | ⟨rfl, hBack, hInv⟩
    · exact ⟨L, hInv, rfl, rfl, le_rfl, .refl _⟩
    · exact ⟨L.retire, hInv, rfl, rfl, Nat.le_succ _,
        (TagLedger.retire_perm hBack).append_right L.waiting⟩
  case ret =>
    obtain ⟨_, tag, hs, rfl, rfl⟩ := hs
    obtain ⟨n, rest, hWaiting, rfl, hInv⟩ := ret_inv h hs
    refine ⟨L.process numTags, hInv, rfl, rfl, le_rfl, ?_⟩
    simp [TagLedger.returned, hWaiting]
  case init =>
    obtain ⟨_, hs, rfl, rfl⟩ := hs
    exact ⟨L, init_inv h hs, rfl, rfl, le_rfl, .refl _⟩

/-- Tags are delivered in the order of their allocation. -/
theorem complete_inv (hs : complete s = some (tag, s')) :
    L.completed < L.retired ∧ tag = tagOf tsz L.completed ∧ Inv s' L.complete := by
  simp only [complete, firing] at hs
  obtain ⟨tag', compFifo, hDeq, rfl, rfl⟩ := hs
  rw [h.comp] at hDeq
  obtain ⟨m, hm⟩ : ∃ m, L.retired - L.completed = m + 1 := by
    cases hc : L.retired - L.completed with
    | zero => simp [hc] at hDeq
    | succ m => exact ⟨m, rfl⟩
  rw [hm, List.range'_succ, List.map_cons, List.cons.injEq] at hDeq
  have hLt : L.completed < L.retired := by omega
  refine ⟨hLt, hDeq.1.symm, { h with completed_le := hLt, comp := ?_ }⟩
  simp only [TagLedger.complete]
  rw [← hDeq.2, show L.retired - (L.completed + 1) = m by omega]

end TagGen
end Connectal
