import Connectal.Layout.Extent
import Mathlib.Order.Basic

/-! The buffer allocator `portalmem_dmabuffer_create` of the kernel driver. It
asks the page allocator for the largest runs of pages that still fit, never
again for a larger run than the last one it got, and records them in a scatter
table. -/
namespace Connectal

/-- An entry of the scatter table, as user space gets to see it. -/
structure DmaEntry where
  dmaAddress : BitVec 64
  length : BitVec 32
  deriving DecidableEq, Repr

def DmaEntry.block (e : DmaEntry) : Layout.Block := ⟨e.dmaAddress.toNat, e.length.toNat⟩

namespace PortalMem

/-- A run of `2 ^ order` pages at a physical address. -/
structure PageInfo where
  page : BitVec 64
  order : Nat
  deriving DecidableEq, Repr

def pageSize : Nat := 4096

def orders : List Nat := [8, 4, 0]

/-- Outcome of the page allocator, by number of the call and order asked for. -/
abbrev AllocPages := Nat → Nat → Option (BitVec 64)

def roundUp (len align : BitVec 64) : BitVec 64 := ((len - 1) ||| (align - 1)) + 1

def pageAlign (len : BitVec 64) : BitVec 64 := (len + 4095) &&& ~~~(4095 : BitVec 64)

def PageInfo.bytes (info : PageInfo) : Nat := (1 <<< info.order) * pageSize

def PageInfo.entry (info : PageInfo) : DmaEntry := ⟨info.page, BitVec.ofNat 32 info.bytes⟩

/-- Try one order after the other. The number of calls made so far is part of
the result. -/
def tryOrders (allocPages : AllocPages) (sizeRemaining : Int) (maxOrder : Nat) :
    List Nat → Nat → Option PageInfo × Nat
  | [], calls => (none, calls)
  | order :: rest, calls =>
    if (pageSize <<< order : Nat) ≤ sizeRemaining ∧ order ≤ maxOrder then
      match allocPages calls order with
      | some page => (some ⟨page, order⟩, calls + 1)
      | none => tryOrders allocPages sizeRemaining maxOrder rest (calls + 1)
    else tryOrders allocPages sizeRemaining maxOrder rest calls

theorem PageInfo.bytes_pos (info : PageInfo) : 0 < info.bytes := by
  rw [bytes, Nat.one_shiftLeft]
  exact Nat.mul_pos (Nat.two_pow_pos _) (by decide)

/-- The allocation loop. A round in which no order succeeds gives up the buffer. -/
def allocate (allocPages : AllocPages) (sizeRemaining : Int) (maxOrder calls : Nat) :
    Option (List PageInfo) :=
  if 0 < sizeRemaining then
    match tryOrders allocPages sizeRemaining maxOrder orders calls with
    | (none, _) => none
    | (some info, calls) =>
      (allocate allocPages (sizeRemaining - info.bytes) info.order calls).map (info :: ·)
  else some []
termination_by sizeRemaining.toNat
decreasing_by
  have hPos := info.bytes_pos
  omega

/-- The scatter table of a new buffer, or nothing when memory runs out. A buffer
without pages counts as out of memory too. -/
def dmabufferCreate (allocPages : AllocPages) (len : BitVec 64) : Option (List DmaEntry) := do
  let pages ← allocate allocPages (pageAlign (roundUp len 4096)).toInt 8 0
  guard (pages ≠ [])
  return pages.map PageInfo.entry

variable {allocPages : AllocPages} {sizeRemaining : Int} {maxOrder calls calls' : Nat}

/-- What a round gets. -/
theorem tryOrders_eq_some {candidates : List Nat} {info : PageInfo}
    (h : tryOrders allocPages sizeRemaining maxOrder candidates calls = (some info, calls')) :
    info.order ∈ candidates ∧ info.order ≤ maxOrder ∧ (info.bytes : Int) ≤ sizeRemaining ∧
      ∃ call, allocPages call info.order = some info.page := by
  induction candidates generalizing calls with
  | nil => simp [tryOrders] at h
  | cons order rest ih =>
    simp only [tryOrders] at h
    split at h
    · next hFits =>
      split at h
      · next page hPage =>
        cases h
        refine ⟨List.mem_cons_self, hFits.2, ?_, calls, hPage⟩
        have hBytes : PageInfo.bytes ⟨page, order⟩ = pageSize <<< order := by
          rw [PageInfo.bytes, Nat.one_shiftLeft, Nat.shiftLeft_eq, Nat.mul_comm]
        rw [hBytes]
        exact hFits.1
      · obtain ⟨hMem, hRest⟩ := ih h
        exact ⟨List.mem_cons_of_mem _ hMem, hRest⟩
    · obtain ⟨hMem, hRest⟩ := ih h
      exact ⟨List.mem_cons_of_mem _ hMem, hRest⟩

/-- What holds for the runs of pages of a buffer. -/
structure Allocated (allocPages : AllocPages) (maxOrder : Nat) (pages : List PageInfo) : Prop where
  order : ∀ info ∈ pages, info.order ∈ orders ∧ info.order ≤ maxOrder
  source : ∀ info ∈ pages, ∃ call, allocPages call info.order = some info.page
  descending : pages.Pairwise fun info later => later.order ≤ info.order

variable {pages : List PageInfo}

theorem Allocated.cons {info : PageInfo} (hMem : info.order ∈ orders) (hMax : info.order ≤ maxOrder)
    (hSource : ∃ call, allocPages call info.order = some info.page)
    (h : Allocated allocPages info.order pages) : Allocated allocPages maxOrder (info :: pages) := by
  refine ⟨?_, ?_, ?_⟩
  · rintro later (_ | ⟨_, hLater⟩)
    · exact ⟨hMem, hMax⟩
    · obtain ⟨hOrder, hLe⟩ := h.order later hLater
      exact ⟨hOrder, Nat.le_trans hLe hMax⟩
  · rintro later (_ | ⟨_, hLater⟩)
    · exact hSource
    · exact h.source later hLater
  · exact List.Pairwise.cons (fun later hLater => (h.order later hLater).2) h.descending

theorem allocate_allocated (h : allocate allocPages sizeRemaining maxOrder calls = some pages) :
    Allocated allocPages maxOrder pages ∧
      (0 ≤ sizeRemaining → ((pages.map PageInfo.bytes).sum : Int) = sizeRemaining) := by
  fun_induction allocate allocPages sizeRemaining maxOrder calls generalizing pages with
  | case1 => cases h
  | case2 sizeRemaining maxOrder calls hPos info calls' hTry ih =>
    obtain ⟨rest, hRest, rfl⟩ := Option.map_eq_some_iff.mp h
    obtain ⟨hMem, hMax, hBytes, hSource⟩ := tryOrders_eq_some hTry
    obtain ⟨hAllocated, hSum⟩ := ih hRest
    refine ⟨hAllocated.cons hMem hMax hSource, fun _ => ?_⟩
    have hTail := hSum (by omega)
    rw [List.map_cons, List.sum_cons]
    omega
  | case3 sizeRemaining maxOrder calls hPos =>
    cases h
    exact ⟨⟨by simp, by simp, List.Pairwise.nil⟩, fun _ => by simp; omega⟩

theorem descending_split (m : Nat) (h : pages.Pairwise fun info later => later.order ≤ info.order) :
    pages.filter (m ≤ ·.order) ++ pages.filter (·.order < m) = pages := by
  induction h with
  | nil => rfl
  | @cons info pages hHead _ ih =>
    by_cases hOrder : m ≤ info.order
    · have hNot : ¬ info.order < m := by omega
      simp only [List.filter_cons, hOrder, hNot, decide_true, decide_false, if_true,
        Bool.false_eq_true, if_false, List.cons_append, ih]
    · have hFront : pages.filter (m ≤ ·.order) = [] := by
        refine List.filter_eq_nil_iff.mpr fun later hLater => ?_
        have hLe := hHead later hLater
        simp only [decide_eq_true_eq]
        omega
      rw [hFront, List.nil_append] at ih
      have hLess : info.order < m := by omega
      simp only [List.filter_cons, hOrder, hLess, decide_true, decide_false, if_true,
        Bool.false_eq_true, if_false, hFront, List.nil_append, ih]

/-- The runs of pages of a buffer by size: first the large ones, then the middle
ones, then single pages. -/
theorem exists_classes (h : Allocated allocPages maxOrder pages) :
    ∃ large middle small, pages = large ++ middle ++ small ∧ (∀ info ∈ large, info.order = 8) ∧
      (∀ info ∈ middle, info.order = 4) ∧ ∀ info ∈ small, info.order = 0 := by
  have hOrder : ∀ info ∈ pages, info.order = 8 ∨ info.order = 4 ∨ info.order = 0 := by
    intro info hInfo
    simpa [orders] using (h.order info hInfo).1
  have hRest := descending_split 4 (h.descending.filter (·.order < 8))
  refine ⟨pages.filter (8 ≤ ·.order), (pages.filter (·.order < 8)).filter (4 ≤ ·.order),
    (pages.filter (·.order < 8)).filter (·.order < 4), ?_, ?_, ?_, ?_⟩
  · rw [List.append_assoc, hRest, descending_split 8 h.descending]
  all_goals
    intro info hInfo
    simp only [List.mem_filter, decide_eq_true_eq, and_assoc] at hInfo
    have hCases := hOrder info hInfo.1
    omega

end PortalMem
end Connectal
