import Connectal.Memory.BsimRun

/-! Addresses in the simulation build. The scatter table names no memory: its
addresses are the offsets of the elements in the file, under the number of the
translation unit and of the scatter list. These numbers are shifted, cut off and
put together again on their way to the table of the simulator. -/
namespace Connectal

open Rules MMU SendFd Layout Translation

namespace Bsim

/-- The number that `idRequest` of unit `iid` hands out for a scatter list. -/
def objId (iid : Fin 4) (sglId : BitVec 5) : BitVec 32 :=
  (BitVec.ofNat 32 iid <<< 16) ||| sglId.setWidth 32

/-- The scatter table for elements of the given sizes, as the simulation build of
`send_fd_to_portal` makes it up. -/
def bsimEntries (id : BitVec 32) : BitVec 32 → List (BitVec 32) → List DmaEntry
  | _, [] => []
  | sizeAccum, len :: rest =>
    ⟨sizeAccum.signExtend 64 ||| id.signExtend 64 <<< 32, len⟩ :: bsimEntries id (sizeAccum + len) rest

/-- The length of the file. -/
def extent (sizes : List (BitVec 32)) : Nat := (sizes.map BitVec.toNat).sum

/-- Elements of the three supported sizes, largest first. -/
structure Sizes (sizes : List (BitVec 32)) : Prop where
  supported : ∀ len ∈ sizes, len = 0x100000 ∨ len = 0x10000 ∨ len = 0x1000
  sorted : sizes.Pairwise (· ≥ ·)
  few : sizes.length ≤ 255
  small : extent sizes < 2 ^ 31

variable {id : BitVec 32} {sizes : List (BitVec 32)}

/-! The scatter table -/
section Table

theorem map_length_bsimEntries (id sizeAccum : BitVec 32) (sizes : List (BitVec 32)) :
    (bsimEntries id sizeAccum sizes).map DmaEntry.length = sizes := by
  induction sizes generalizing sizeAccum with
  | nil => rfl
  | cons len rest ih => rw [bsimEntries, List.map_cons, ih]

theorem length_bsimEntries (id sizeAccum : BitVec 32) (sizes : List (BitVec 32)) :
    (bsimEntries id sizeAccum sizes).length = sizes.length := by
  rw [← List.length_map DmaEntry.length, map_length_bsimEntries]

/-- Identifier and offset lie next to each other in an address. -/
theorem packed_toNat {accum : BitVec 32} (hAccum : accum.toNat < 2 ^ 31) (hId : id.toNat < 2 ^ 31) :
    (accum.signExtend 64 ||| id.signExtend 64 <<< 32).toNat = id.toNat * 2 ^ 32 + accum.toNat := by
  have hNonneg : ∀ {x : BitVec 32}, x.toNat < 2 ^ 31 → (x.signExtend 64).toNat = x.toNat := by
    intro x hx
    have hMsb : x.msb = false := by
      rw [BitVec.msb_eq_false_iff_two_mul_lt]
      omega
    rw [BitVec.signExtend_eq_setWidth_of_msb_false hMsb, BitVec.toNat_setWidth]
    omega
  rw [BitVec.or_comm, BitVec.toNat_or, BitVec.toNat_shiftLeft, hNonneg hAccum, hNonneg hId,
    Nat.shiftLeft_eq, Nat.mod_eq_of_lt (by omega), ← Nat.shiftLeft_eq,
    ← Nat.shiftLeft_add_eq_or_of_lt (by omega), Nat.shiftLeft_eq]

/-- Every element is found under the identifier, at its offset in the file. -/
theorem exists_entry {sizeAccum : BitVec 32} {k : Nat} {len : BitVec 32} (hId : id.toNat < 2 ^ 31)
    (hGet : sizes[k]? = some len) (hSmall : sizeAccum.toNat + extent sizes < 2 ^ 31) :
    ∃ e, (bsimEntries id sizeAccum sizes)[k]? = some e ∧ e.length = len ∧
      e.dmaAddress.toNat = id.toNat * 2 ^ 32 + (sizeAccum.toNat + extent (sizes.take k)) := by
  induction sizes generalizing sizeAccum k with
  | nil => simp at hGet
  | cons first rest ih =>
    have hExtent : extent (first :: rest) = first.toNat + extent rest := by simp [extent]
    rw [hExtent] at hSmall
    cases k with
    | zero =>
      cases hGet
      refine ⟨_, rfl, rfl, ?_⟩
      rw [packed_toNat (by omega) hId]
      simp [extent]
    | succ k =>
      have hNext : (sizeAccum + first).toNat = sizeAccum.toNat + first.toNat := by
        rw [BitVec.toNat_add]
        omega
      obtain ⟨e, he, hLen, hAddr⟩ := @ih (sizeAccum + first) k hGet (by omega)
      refine ⟨e, he, hLen, ?_⟩
      rw [hAddr, hNext, List.take_succ_cons]
      simp [extent, Nat.add_assoc]

/-- What is written to the page table for an entry of a supported size. -/
theorem page_toNat {j : Fin 3} {e : DmaEntry} (hClass : pageClass e.length = some j)
    (hSmall : e.dmaAddress.toNat < 2 ^ 63) :
    ((pageAddr e).setWidth 32).toNat = e.dmaAddress.toNat / 2 ^ shifts j % 2 ^ 32 := by
  have hMsb : e.dmaAddress.msb = false := by
    rw [BitVec.msb_eq_false_iff_two_mul_lt]
    omega
  rw [pageAddr, hClass]
  show ((e.dmaAddress.sshiftRight (shifts j)).setWidth 32).toNat = _
  rw [BitVec.sshiftRight_eq_of_msb_false hMsb, BitVec.toNat_setWidth, BitVec.toNat_ushiftRight,
    Nat.shiftRight_eq_div_pow]

end Table

/-! The page classes -/
section Classes

/-- Large, middle and small elements, in this order. -/
def classes (n8 n4 n0 : Nat) : List (BitVec 32) :=
  List.replicate n8 0x100000 ++ List.replicate n4 0x10000 ++ List.replicate n0 0x1000

theorem Sizes.exists_classes (hSupported : ∀ len ∈ sizes, len = 0x100000 ∨ len = 0x10000 ∨ len = 0x1000)
    (hSorted : sizes.Pairwise (· ≥ ·)) : ∃ n8 n4 n0, sizes = classes n8 n4 n0 := by
  induction sizes with
  | nil => exact ⟨0, 0, 0, rfl⟩
  | cons first rest ih =>
    rw [List.pairwise_cons] at hSorted
    obtain ⟨n8, n4, n0, rfl⟩ := ih (fun len hLen => hSupported len (List.mem_cons_of_mem _ hLen)) hSorted.2
    have hNone : ∀ (n : Nat) (len : BitVec 32), first < len →
        (∀ x ∈ List.replicate n len, x ∈ classes n8 n4 n0) → n = 0 := by
      intro n len hLess hMem
      by_contra hn
      have hFirst := hSorted.1 len (hMem len (by simp [hn]))
      exact absurd hFirst (BitVec.not_le.mpr hLess)
    rcases hSupported first List.mem_cons_self with rfl | rfl | rfl
    · exact ⟨n8 + 1, n4, n0, by simp [classes, List.replicate_succ]⟩
    · obtain rfl : n8 = 0 := hNone _ 0x100000 (by decide) (by simp +contextual [classes])
      exact ⟨0, n4 + 1, n0, by simp [classes, List.replicate_succ]⟩
    · obtain rfl : n8 = 0 := hNone _ 0x100000 (by decide) (by simp +contextual [classes])
      obtain rfl : n4 = 0 := hNone _ 0x10000 (by decide) (by simp +contextual [classes])
      exact ⟨0, 0, n0 + 1, by simp [classes, List.replicate_succ]⟩

theorem length_classes (n8 n4 n0 : Nat) : (classes n8 n4 n0).length = n8 + n4 + n0 := by
  simp [classes, Nat.add_assoc]

theorem extent_replicate (n : Nat) (len : BitVec 32) : extent (List.replicate n len) = n * len.toNat := by
  simp [extent]

theorem extent_append (front back : List (BitVec 32)) :
    extent (front ++ back) = extent front + extent back := by
  simp [extent]

theorem extent_classes (n8 n4 n0 : Nat) :
    extent (classes n8 n4 n0) = n8 * 2 ^ 20 + n4 * 2 ^ 16 + n0 * 2 ^ 12 := by
  rw [classes, extent_append, extent_append, extent_replicate, extent_replicate, extent_replicate]
  rfl

theorem regions_classes (id : BitVec 32) (n8 n4 n0 : Nat) :
    regions (bsimEntries id 0 (classes n8 n4 n0)) 0 = BitVec.ofNat 32 n8 ∧
      regions (bsimEntries id 0 (classes n8 n4 n0)) 1 = BitVec.ofNat 32 n4 ∧
      regions (bsimEntries id 0 (classes n8 n4 n0)) 2 = BitVec.ofNat 32 n0 := by
  have hCount : ∀ j, regions (bsimEntries id 0 (classes n8 n4 n0)) j =
      BitVec.ofNat 32 ((classes n8 n4 n0).countP fun len => pageClass len = some j) := by
    intro j
    conv_rhs => rw [← map_length_bsimEntries id 0 (classes n8 n4 n0), List.countP_map]
    rfl
  have hLarge : pageClass 0x100000#32 = some 0 := by decide
  have hMiddle : pageClass 0x10000#32 = some 1 := by decide
  have hSmall : pageClass 0x1000#32 = some 2 := by decide
  rw [hCount, hCount, hCount]
  simp [classes, List.countP_append, List.countP_replicate, hLarge, hMiddle, hSmall]

end Classes

/-! The translation -/
section Translate

/-- Page number and offset join to the lower bits of the address they come from. -/
theorem join_mod {w b addr : Nat} {page : BitVec w} {low : BitVec b} (hWidth : w + b = 44)
    (hPage : page.toNat = addr / 2 ^ b % 2 ^ w) (hLow : low.toNat = addr % 2 ^ b) :
    (((page ++ low).setWidth 44).setWidth 40).toNat = addr % 2 ^ 40 := by
  have hSplit : page.toNat * 2 ^ b + low.toNat = addr % 2 ^ 44 := by
    rw [hPage, hLow, ← hWidth, Nat.pow_add, Nat.mul_comm (2 ^ w), Nat.mod_mul,
      Nat.add_comm, Nat.mul_comm]
  rw [BitVec.toNat_setWidth, BitVec.toNat_setWidth, BitVec.toNat_append,
    ← Nat.shiftLeft_add_eq_or_of_lt low.isLt, Nat.shiftLeft_eq, hSplit]
  omega

variable {T : Tables} {n8 n4 n0 : Nat} {off : BitVec 44} {k : Nat}

/-- What the page table says about one of the elements. -/
theorem page_of_entry {j : Fin 3} {place : Nat} {len : BitVec 32} (hId : id.toNat < 2 ^ 30)
    (hReadable : Readable id (bsimEntries id 0 sizes) T) (hSmall : extent sizes < 2 ^ 31)
    (hGet : sizes[k]? = some len) (hClass : pageClass len = some j)
    (hPlace : extent (sizes.take k) = place * 2 ^ shifts j) (hBelow : place * 2 ^ shifts j < 2 ^ 31) :
    (T.pages (id.setWidth 5, BitVec.ofNat 8 k)).toNat =
      (id.toNat * 2 ^ 32 + place * 2 ^ shifts j) / 2 ^ shifts j % 2 ^ 32 := by
  have hId' : id.toNat < 2 ^ 31 := by omega
  have hZero : (0 : BitVec 32).toNat = 0 := rfl
  obtain ⟨e, he, hLen, hAddr⟩ := exists_entry hId' hGet (show (0 : BitVec 32).toNat + _ < _ by omega)
  rw [hZero, Nat.zero_add, hPlace] at hAddr
  rw [hReadable k e he, page_toNat (hLen ▸ hClass) (by omega), hAddr]

theorem getElem?_large (h : k < n8) : (classes n8 n4 n0)[k]? = some 0x100000#32 := by
  rw [classes, List.append_assoc, List.getElem?_append_left (by simpa using h)]
  simp [h]

theorem getElem?_middle (h : k < n4) : (classes n8 n4 n0)[n8 + k]? = some 0x10000#32 := by
  rw [classes, List.append_assoc, List.getElem?_append_right (by simp),
    List.getElem?_append_left (by simpa using h)]
  simp [h]

theorem getElem?_small (h : k < n0) : (classes n8 n4 n0)[n8 + n4 + k]? = some 0x1000#32 := by
  rw [classes, List.getElem?_append_right (by simp)]
  simp [h]

theorem extent_take_large (h : k < n8) : extent ((classes n8 n4 n0).take k) = k * 2 ^ 20 := by
  rw [classes, List.append_assoc, List.take_append_of_le_length (by simp; omega), List.take_replicate,
    Nat.min_eq_left h.le, extent_replicate]
  rfl

theorem extent_take_middle (h : k < n4) :
    extent ((classes n8 n4 n0).take (n8 + k)) = (16 * n8 + k) * 2 ^ 16 := by
  have hTake : (classes n8 n4 n0).take (n8 + k) =
      List.replicate n8 0x100000#32 ++ List.replicate k 0x10000#32 := by
    rw [classes, List.append_assoc, List.take_append, List.take_of_length_le (by simp),
      List.take_append_of_le_length (by simp; omega), List.take_replicate]
    simp [h.le]
  rw [hTake, extent_append, extent_replicate, extent_replicate]
  show n8 * 0x100000 + k * 0x10000 = _
  omega

theorem extent_take_small (h : k < n0) :
    extent ((classes n8 n4 n0).take (n8 + n4 + k)) = (256 * n8 + 16 * n4 + k) * 2 ^ 12 := by
  have hTake : (classes n8 n4 n0).take (n8 + n4 + k) =
      List.replicate n8 0x100000#32 ++ List.replicate n4 0x10000#32 ++ List.replicate k 0x1000#32 := by
    rw [classes, List.take_append, List.take_of_length_le (by simp), List.take_replicate]
    simp [h.le]
  rw [hTake, extent_append, extent_append, extent_replicate, extent_replicate, extent_replicate]
  show n8 * 0x100000 + n4 * 0x10000 + k * 0x1000 = _
  omega

/-- Every offset of the file is translated to itself, under the identifier. -/
theorem translate_offset {region : Region} (hId : id.toNat < 2 ^ 30)
    (hRegion : T.regall (id.setWidth 5) = some region) (hBorders : Borders region n8 n4 n0)
    (hReadable : Readable id (bsimEntries id 0 (classes n8 n4 n0)) T) (hFew : n8 + n4 + n0 ≤ 255)
    (hSmall : extent (classes n8 n4 n0) < 2 ^ 31) (hOff : off.toNat < extent (classes n8 n4 n0)) :
    ∃ addr, T.translate 40 ⟨id.setWidth 5, off⟩ = .ok addr ∧
      addr.toNat = (id.toNat * 2 ^ 32 + off.toNat) % 2 ^ 40 := by
  have hExtent := extent_classes n8 n4 n0
  by_cases h8 : off.toNat / 2 ^ 20 < n8
  · refine ⟨_, translate_large 40 hRegion hBorders hFew h8, ?_⟩
    have hPage := page_of_entry (j := 0) hId hReadable hSmall (getElem?_large h8) (by decide)
      (extent_take_large h8) (by show off.toNat / 2 ^ 20 * 2 ^ 20 < 2 ^ 31; omega)
    simp only [shifts] at hPage
    rw [Offset.address, if_neg (show ¬ (3#2 = 1#2) by decide), if_neg (show ¬ (3#2 = 2#2) by decide)]
    refine join_mod (by decide) ?_ ?_
    · rw [BitVec.toNat_setWidth, hPage]
      omega
    · rw [BitVec.toNat_setWidth]
      omega
  · by_cases h4 : off.toNat / 2 ^ 16 < 16 * n8 + n4
    · have hk : off.toNat / 2 ^ 16 - 16 * n8 < n4 := by omega
      refine ⟨_, translate_middle 40 hRegion hBorders hFew h8 h4, ?_⟩
      have hPage := page_of_entry (j := 1) hId hReadable hSmall (getElem?_middle hk) (by decide)
        (extent_take_middle hk) (by simp only [shifts]; omega)
      simp only [shifts] at hPage
      rw [Offset.address, if_neg (show ¬ (2#2 = 1#2) by decide), if_pos rfl]
      refine join_mod (by decide) ?_ ?_
      · rw [BitVec.toNat_setWidth, hPage]
        omega
      · rw [BitVec.toNat_setWidth, BitVec.toNat_setWidth]
        omega
    · have h0 : off.toNat / 2 ^ 12 < 256 * n8 + 16 * n4 + n0 := by omega
      have hk : off.toNat / 2 ^ 12 - (256 * n8 + 16 * n4) < n0 := by omega
      refine ⟨_, translate_small 40 hRegion hBorders hFew h8 h4 h0, ?_⟩
      have hPage := page_of_entry (j := 2) hId hReadable hSmall (getElem?_small hk) (by decide)
        (extent_take_small hk) (by simp only [shifts]; omega)
      simp only [shifts] at hPage
      rw [Offset.address, if_pos rfl]
      refine join_mod (by decide) ?_ ?_
      · rw [hPage]
        omega
      · rw [BitVec.toNat_setWidth, BitVec.toNat_setWidth]
        omega

end Translate

/-! From the address to the table of the simulator -/
section Access

variable {iid : Fin 4} {sglId : BitVec 5}

theorem objId_toNat (iid : Fin 4) (sglId : BitVec 5) :
    (objId iid sglId).toNat = iid * 2 ^ 16 + sglId.toNat := by
  have hSgl := sglId.isLt
  have hLow : (sglId.setWidth 32).toNat = sglId.toNat := by
    rw [BitVec.toNat_setWidth]
    omega
  rw [objId, BitVec.toNat_or, BitVec.toNat_shiftLeft, BitVec.toNat_ofNat, hLow,
    Nat.mod_eq_of_lt (show iid.val < 2 ^ 32 by omega), Nat.shiftLeft_eq, Nat.mod_eq_of_lt (by omega),
    ← Nat.shiftLeft_eq, ← Nat.shiftLeft_add_eq_or_of_lt (by omega), Nat.shiftLeft_eq]

theorem objId_setWidth (iid : Fin 4) (sglId : BitVec 5) : (objId iid sglId).setWidth 5 = sglId := by
  have hSgl := sglId.isLt
  apply BitVec.eq_of_toNat_eq
  rw [BitVec.toNat_setWidth, objId_toNat]
  omega

/-- The address that stands for a byte of a scatter list of a translation unit. -/
def address (iid : Fin 4) (sglId : BitVec 5) (off : Nat) : BitVec 40 :=
  BitVec.ofNat 40 ((iid * 32 + sglId.toNat) * 2 ^ 32 + off)

variable {off : Nat}

theorem address_toNat (hOff : off < 2 ^ 32) :
    (address iid sglId off).toNat = (iid * 32 + sglId.toNat) * 2 ^ 32 + off := by
  have hSgl := sglId.isLt
  rw [address, BitVec.toNat_ofNat]
  omega

theorem physAddr_eq_address {rv : BitVec 40} (hOff : off < 2 ^ 32)
    (h : rv.toNat = ((objId iid sglId).toNat * 2 ^ 32 + off) % 2 ^ 40) :
    physAddr iid rv = address iid sglId off := by
  have hSgl := sglId.isLt
  have hRv : rv.toNat = sglId.toNat * 2 ^ 32 + off := by
    rw [h, objId_toNat]
    omega
  apply BitVec.eq_of_toNat_eq
  rw [physAddr, address_toNat hOff, BitVec.or_comm, BitVec.toNat_or, BitVec.toNat_shiftLeft,
    BitVec.toNat_ofNat, hRv, Nat.mod_eq_of_lt (show iid.val < 2 ^ 40 by omega), Nat.shiftLeft_eq,
    Nat.mod_eq_of_lt (by omega), ← Nat.shiftLeft_eq, ← Nat.shiftLeft_add_eq_or_of_lt (by omega),
    Nat.shiftLeft_eq]
  omega

theorem address_add (iid : Fin 4) (sglId : BitVec 5) (off d : Nat) :
    address iid sglId off + BitVec.ofNat 40 d = address iid sglId (off + d) := by
  rw [address, address, ← BitVec.ofNat_add, Nat.add_assoc]

/-- The handle in an address stands for the entry of the scatter list. -/
theorem entry_handle (iid : Fin 4) (sglId : BitVec 5) (hOff : off < 2 ^ 32) :
    entry (handle (address iid sglId off)) = key iid sglId := by
  have hSgl := sglId.isLt
  have hHandle : (handle (address iid sglId off)).toNat = iid * 32 + sglId.toNat := by
    rw [handle, BitVec.toNat_setWidth, BitVec.toNat_ushiftRight, address_toNat hOff,
      Nat.shiftRight_eq_div_pow]
    omega
  have hRow : handle (address iid sglId off) >>> 5 = BitVec.ofNat 32 iid := by
    apply BitVec.eq_of_toNat_eq
    rw [BitVec.toNat_ushiftRight, hHandle, Nat.shiftRight_eq_div_pow, BitVec.toNat_ofNat]
    omega
  refine Prod.ext hRow ?_
  show handle (address iid sglId off) - handle (address iid sglId off) >>> 5 <<< 5 = sglId.setWidth 32
  rw [hRow]
  apply BitVec.eq_of_toNat_eq
  rw [BitVec.toNat_sub, BitVec.toNat_shiftLeft, BitVec.toNat_ofNat, hHandle, BitVec.toNat_setWidth,
    Nat.shiftLeft_eq]
  omega

theorem address_offset (iid : Fin 4) (sglId : BitVec 5) (hOff : off < 2 ^ 32) :
    ((address iid sglId off).setWidth 32).toNat = off := by
  rw [BitVec.toNat_setWidth, address_toNat hOff]
  omega

theorem address_injective {iid' : Fin 4} {sglId' : BitVec 5} {off' : Nat} (hOff : off < 2 ^ 32)
    (hOff' : off' < 2 ^ 32) (h : address iid sglId off = address iid' sglId' off') :
    iid = iid' ∧ sglId = sglId' ∧ off = off' := by
  have hSgl := sglId.isLt
  have hSgl' := sglId'.isLt
  have hNat := congrArg BitVec.toNat h
  rw [address_toNat hOff, address_toNat hOff'] at hNat
  exact ⟨Fin.ext (by omega), BitVec.eq_of_toNat_eq (by omega), by omega⟩

/-- The byte is in the file, and so is the rest of the beat; reads and writes
touch these bytes of the file and nothing else. -/
def Accessible (bus : Bus) (dma : DmaTable) (iid : Fin 4) (sglId : BitVec 5) (off : Nat)
    (addr : BitVec 40) : Prop :=
  ∃ buffer, (dma (key iid sglId)).buffer = some buffer ∧
    bus.readPareff (handle addr) (addr.setWidth 32) dma =
      some ((List.range bus.bytes).map fun k => buffer (off + k)) ∧
    ∀ data : List Byte, data.length = bus.bytes →
      bus.writePareff (handle addr) (addr.setWidth 32) data dma = some (Function.update dma (key iid sglId)
        { dma (key iid sglId) with buffer := some (buffer.put off data) })

theorem readPareff_eq {dma : DmaTable} {buffer : Buffer} {bytes : Nat} {pref offset : BitVec 32}
    (hEntry : entry pref = key iid sglId) (hOffset : offset.toNat = off)
    (hBuffer : (dma (key iid sglId)).buffer = some buffer)
    (hLen : off + bytes ≤ (dma (key iid sglId)).bufferLen.toNat) :
    readPareff bytes pref offset dma = some ((List.range bytes).map fun k => buffer (off + k)) := by
  simp [readPareff, hEntry, hOffset, hBuffer, guard, hLen]

theorem writePareff_eq {dma : DmaTable} {buffer : Buffer} {pref offset : BitVec 32}
    {data : List Byte} (hEntry : entry pref = key iid sglId) (hOffset : offset.toNat = off)
    (hBuffer : (dma (key iid sglId)).buffer = some buffer)
    (hLen : off + data.length ≤ (dma (key iid sglId)).bufferLen.toNat) :
    writePareff pref offset data dma = some (Function.update dma (key iid sglId)
      { dma (key iid sglId) with buffer := some (buffer.put off data) }) := by
  simp [writePareff, hEntry, hOffset, hBuffer, guard, hLen]

theorem accessible {bus : Bus} {dma : DmaTable} (hMapped : (dma (key iid sglId)).buffer.isSome)
    (hLen : off + bus.bytes ≤ (dma (key iid sglId)).bufferLen.toNat) :
    Accessible bus dma iid sglId off (address iid sglId off) := by
  obtain ⟨buffer, hBuffer⟩ := Option.isSome_iff_exists.mp hMapped
  have hBound := (dma (key iid sglId)).bufferLen.isLt
  have hPos : 0 < bus.bytes := by cases bus <;> decide
  have hOff : off < 2 ^ 32 := by omega
  have hEntry := entry_handle iid sglId hOff
  have hOffset := address_offset iid sglId hOff
  have hHigh (h : off + 8 < 2 ^ 32) : ((address iid sglId off).setWidth 32 + 8).toNat = off + 8 := by
    rw [BitVec.toNat_add, hOffset]
    exact Nat.mod_eq_of_lt h
  refine ⟨buffer, hBuffer, ?_, ?_⟩
  · cases bus with
    | w32 | w64 => exact readPareff_eq hEntry hOffset hBuffer hLen
    | w128 =>
      have hLen : off + 16 ≤ (dma (key iid sglId)).bufferLen.toNat := hLen
      have hV0 := readPareff_eq hEntry hOffset hBuffer (show off + 8 ≤ _ by omega)
      have hV1 := readPareff_eq hEntry (hHigh (by omega)) hBuffer (show off + 8 + 8 ≤ _ by omega)
      rw [Bus.readPareff, hV0, some_bind, hV1, some_bind,
        show Bus.w128.bytes = 8 + 8 from rfl, List.range_add, List.map_append, List.map_map]
      simp [Function.comp_def, Nat.add_assoc]
  · intro data hData
    cases bus with
    | w32 | w64 => exact writePareff_eq hEntry hOffset hBuffer (hData ▸ hLen)
    | w128 =>
      have hLen : off + 16 ≤ (dma (key iid sglId)).bufferLen.toNat := hLen
      have hData : data.length = 16 := hData
      have hLow : (data.take 8).length = 8 := by simp [hData]
      have hFirst := writePareff_eq hEntry hOffset hBuffer (show off + (data.take 8).length ≤ _ by omega)
      rw [Bus.writePareff, hFirst, some_bind,
        writePareff_eq hEntry (hHigh (by omega)) (by rw [Function.update_self])
          (by rw [Function.update_self, List.length_drop, hData]; exact hLen)]
      have hPut := Buffer.put_append buffer off (data.take 8) (data.drop 8)
      rw [hLow, List.take_append_drop] at hPut
      rw [Function.update_idem, Function.update_self]
      simp only [hPut]

end Access

/-! The calls for a scatter list in a whole run -/
section Calls

variable {ports : Nat} {iid : Fin 4} {sglId : BitVec 5}

/-- A call does the same to tables that say the same about a scatter list. -/
theorem agrees_apply_both {T T' : Tables} (h : Agrees T T' sglId) (c : Config) :
    Agrees (T.apply c) (T'.apply c) sglId := by
  have hUpdate : ∀ {α β : Type} [DecidableEq α] {f f' : α → β} (a x : α) (b : β), f' x = f x →
      Function.update f' a b x = Function.update f a b x := by
    intro α β _ f f' a x b hx
    by_cases hEq : x = a
    · rw [hEq, Function.update_self, Function.update_self]
    · rw [Function.update_of_ne hEq, Function.update_of_ne hEq, hx]
  cases c with
  | sglist pointer pointerIndex addr len =>
    exact ⟨h.regall, fun idx => hUpdate _ _ _ (h.pages idx)⟩
  | region pointer barr8 index8 barr4 index4 barr0 index0 =>
    exact ⟨hUpdate _ _ _ h.regall, h.pages⟩
  | invalidate id => exact ⟨hUpdate _ _ _ h.regall, h.pages⟩

/-- The calls about a scatter list, among others. -/
def callsAbout (sglId : BitVec 5) (calls : List Config) : List Config :=
  calls.filter fun c => about c = sglId

/-- What the tables say about a scatter list comes from the calls about it. -/
theorem agrees_callsAbout {T T' : Tables} (h : Agrees T T' sglId) (calls : List Config) :
    Agrees ((callsAbout sglId calls).foldl Tables.apply T) (calls.foldl Tables.apply T') sglId := by
  induction calls generalizing T T' with
  | nil => exact h
  | cons c rest ih =>
    by_cases hAbout : about c = sglId
    · rw [callsAbout, List.filter_cons_of_pos (by simpa using hAbout)]
      exact ih (agrees_apply_both h c)
    · rw [callsAbout, List.filter_cons_of_neg (by simpa using hAbout)]
      have hSame := agrees_apply T' hAbout
      exact ih ⟨hSame.regall.trans h.regall, fun idx => (hSame.pages idx).trans (h.pages idx)⟩

theorem lens_callsAbout (sglId : BitVec 5) (calls : List Config) :
    lens sglId (callsAbout sglId calls) = lens sglId calls := by
  rw [lens, callsAbout, List.filterMap_filter, lens]
  refine List.filterMap_congr fun c _ => ?_
  cases c with
  | sglist pointer pointerIndex addr len =>
    by_cases hId : pointer.setWidth 5 = sglId <;> simp [about, hId]
  | region | invalidate => simp

theorem lens_sglistCalls (id : BitVec 32) (i : Nat) (entries : List DmaEntry) :
    lens (id.setWidth 5) (sglistCalls id i entries) = entries.map DmaEntry.length ++ [0] := by
  induction entries generalizing i with
  | nil => simp [sglistCalls, lens]
  | cons e rest ih =>
    rw [sglistCalls, lens, List.filterMap_cons, ← lens, ih]
    simp

/-- Element sizes add up until the last one maps the file. -/
theorem Follows.mapped {files : BitVec 32 → Buffer} {info : DmaInfo}
    (hSizes : ∀ len ∈ sizes, len ≠ 0) (hSmall : extent sizes < 2 ^ 31)
    (h : Follows files ⟨0, none, 0, 0⟩ (sizes ++ [0]) info) :
    info.buffer.isSome ∧ info.bufferLen.toNat = extent sizes := by
  have hFold : ∀ (sizes : List (BitVec 32)) (info : DmaInfo), (∀ len ∈ sizes, len ≠ 0) →
      info.sizeAccum.toNat + extent sizes < 2 ^ 31 →
      (sizes.foldl (fun info len => info.init files len) info).sizeAccum.toNat =
        info.sizeAccum.toNat + extent sizes := by
    intro sizes
    induction sizes with
    | nil => exact fun info _ _ => rfl
    | cons len rest ih =>
      intro info hNonzero hBound
      have hExtent : extent (len :: rest) = len.toNat + extent rest := by simp [extent]
      rw [hExtent] at hBound ⊢
      have hNext : (info.init files len).sizeAccum.toNat = info.sizeAccum.toNat + len.toNat := by
        rw [DmaInfo.init, if_neg (hNonzero len List.mem_cons_self)]
        show (info.sizeAccum + len).toNat = _
        rw [BitVec.toNat_add]
        omega
      rw [List.foldl_cons, ih _ (fun l hl => hNonzero l (List.mem_cons_of_mem _ hl)) (by omega), hNext]
      omega
  rw [Follows, List.foldl_append, List.foldl_cons, List.foldl_nil, DmaInfo.init, if_pos rfl] at h
  refine ⟨h.mapped, ?_⟩
  have hZero : (0 : BitVec 32).toNat = 0 := rfl
  rw [h.bufferLen]
  show ((sizes.foldl (fun info len => DmaInfo.init files len info) ⟨0, none, 0, 0⟩).sizeAccum + 0#32).toNat = _
  rw [BitVec.add_zero, hFold sizes _ hSizes (by show (0 : BitVec 32).toNat + _ < _; omega)]
  exact Nat.zero_add _

/-- In this run, `send_fd_to_portal` was called once for the scatter list, with
elements of the given sizes; calls for other scatter lists came in between. -/
structure Registered (trace : List (Event ports)) (iid : Fin 4) (sglId : BitVec 5)
    (sizes : List (BitVec 32)) : Prop where
  legal : Sizes sizes
  calls : callsAbout sglId (configs (unitTrace iid trace)) =
    sendFdToPortal (objId iid sglId) (bsimEntries (objId iid sglId) 0 sizes)

variable {files : BitVec 32 → Buffer} {bus : Bus} {s : Host ports} {trace : List (Event ports)}
  {ok : Machine.Contract (Host ports) (Action ports) (Event ports)}

theorem run_tables (run : (host ports files bus).Run ok s trace) (iid : Fin 4) :
    ∃ T, (s.mmu iid).tables = (configs (unitTrace iid trace)).foldl Tables.apply T := by
  obtain ⟨start, ⟨tagMem, regMem, pageMem, rfl⟩, path⟩ := run_unit run iid
  obtain ⟨P, later, hTrace, h, hTables, -⟩ :=
    continues_flow (powerUp_abstracts tagMem regMem pageMem) path
  rw [List.nil_append] at hTrace
  exact ⟨_, by rw [h.tables, hTables, hTrace]⟩

/-- The translation unit sends every offset of the file to its address. -/
theorem Registered.translate (h : Registered trace iid sglId sizes)
    (run : (host ports files bus).Run ok s trace) {off : BitVec 44} (hOff : off.toNat < extent sizes) :
    ∃ rv, (s.mmu iid).tables.translate 40 ⟨sglId, off⟩ = .ok rv ∧
      physAddr iid rv = address iid sglId off.toNat := by
  obtain ⟨⟨hSupported, hSorted, hFew, hSmall⟩, hCalls⟩ := h
  obtain ⟨n8, n4, n0, rfl⟩ := Sizes.exists_classes hSupported hSorted
  obtain ⟨T, hTables⟩ := run_tables run iid
  have hSum : n8 + n4 + n0 ≤ 255 := by rwa [length_classes] at hFew
  have hId : (objId iid sglId).toNat < 2 ^ 30 := by
    have hSgl := sglId.isLt
    rw [objId_toNat]
    omega
  obtain ⟨hLarge, hMiddle, hLittle⟩ := regions_classes (objId iid sglId) n8 n4 n0
  obtain ⟨barr8, index8, barr4, index4, barr0, index0, hCall, hBorders⟩ :=
    borders_regionCall (objId iid sglId) hLarge hMiddle hLittle hSum
  obtain ⟨hReadable, hRegion⟩ := sendFdToPortal_tables T (by rwa [length_bsimEntries]) hCall
  obtain ⟨rv, hRv, hValue⟩ := translate_offset hId hRegion hBorders hReadable hSum hSmall hOff
  have hSame : Agrees T T sglId := ⟨rfl, fun _ => rfl⟩
  have hAgrees := agrees_callsAbout hSame (configs (unitTrace iid trace))
  rw [hCalls, ← hTables] at hAgrees
  rw [objId_setWidth] at hRv
  have hBoth : Agrees _ (s.mmu iid).tables (ReqTup.mk sglId off).id := hAgrees
  exact ⟨rv, hBoth.translate.trans hRv, physAddr_eq_address (by omega) hValue⟩

theorem Registered.mapped (h : Registered trace iid sglId sizes)
    (run : (host ports files bus).Run ok s trace) :
    (s.dma (key iid sglId)).buffer.isSome ∧ (s.dma (key iid sglId)).bufferLen.toNat = extent sizes := by
  have hLens : lens sglId (configs (unitTrace iid trace)) = sizes ++ [0] := by
    have hSent := lens_sglistCalls (objId iid sglId) 0 (bsimEntries (objId iid sglId) 0 sizes)
    rw [objId_setWidth, map_length_bsimEntries] at hSent
    rw [← lens_callsAbout, h.calls, sendFdToPortal, lens_append, hSent]
    exact List.append_nil _
  have hFollows := run_follows run iid sglId
  rw [hLens] at hFollows
  refine hFollows.mapped ?_ h.legal.small
  intro len hLen
  rcases h.legal.supported len hLen with rfl | rfl | rfl <;> decide

end Calls

/-- Addresses in the simulation build. In every run of the simulated host, for
every scatter list that was registered once: each offset of its file is
translated, the address that leaves the unit is the one of the byte, and from
there on through the file every beat reaches the entry of this unit and scatter
list in the table of the simulator at just this offset; the file is mapped in
whole, so the beat is made, and on nothing else; and no byte of another scatter
list has the address. Requests are answered by these translations, and the memory
ports make the beats of their requests in order. -/
theorem simulation_addresses {ports : Nat} {files : BitVec 32 → Buffer} {bus : Bus}
    {ok : Machine.Contract (Host ports) (Action ports) (Event ports)} {s : Host ports}
    {trace : List (Event ports)} (run : (host ports files bus).Run ok s trace) {iid : Fin 4}
    {sglId : BitVec 5} {sizes : List (BitVec 32)} (h : Registered trace iid sglId sizes) :
    (∀ off : BitVec 44, off.toNat < extent sizes → ∃ rv addr,
      (s.mmu iid).tables.translate 40 ⟨sglId, off⟩ = .ok rv ∧ physAddr iid rv = addr ∧
      (∀ d, off.toNat + d < extent sizes →
        entry (handle (addr + BitVec.ofNat 40 d)) = key iid sglId ∧
        ((addr + BitVec.ofNat 40 d).setWidth 32).toNat = off.toNat + d ∧
        (off.toNat + d + bus.bytes ≤ extent sizes →
          Accessible bus s.dma iid sglId (off.toNat + d) (addr + BitVec.ofNat 40 d))) ∧
      ∀ (iid' : Fin 4) (sglId' : BitVec 5) (sizes' : List (BitVec 32)) (off' : BitVec 44) (rv' : BitVec 40),
        Registered trace iid' sglId' sizes' → off'.toNat < extent sizes' →
        (s.mmu iid').tables.translate 40 ⟨sglId', off'⟩ = .ok rv' → physAddr iid' rv' = addr →
        iid' = iid ∧ sglId' = sglId ∧ off' = off) ∧
    AnswersByTables (BitVec.ofNat 32 iid) (s.mmu iid) (unitTrace iid trace) ∧
    (∀ i, answered iid i trace = (answers i (unitTrace iid trace)).map (physAddr iid)) ∧
    ∀ i, readAddrs (portTrace i trace) <+: (readReqs (portTrace i trace)).flatMap (beats bus) ∧
      writeAddrs (portTrace i trace) <+: (writeReqs (portTrace i trace)).flatMap (beats bus) := by
  obtain ⟨hMapped, hLen⟩ := h.mapped run
  have hSmall := h.legal.small
  obtain ⟨P, hUnit⟩ := run_abstracts (run_unit run iid)
  refine ⟨?_, hUnit.answersByTables _, fun i => run_answered run iid i, ?_⟩
  · intro off hOff
    obtain ⟨rv, hRv, hAddr⟩ := h.translate run hOff
    refine ⟨rv, _, hRv, hAddr, ?_, ?_⟩
    · intro d hd
      rw [address_add]
      exact ⟨entry_handle iid sglId (by omega), address_offset iid sglId (by omega),
        fun hBeat => accessible hMapped (hLen ▸ hBeat)⟩
    · intro iid' sglId' sizes' off' rv' h' hOff' hRv' hEq
      have hSmall' := h'.legal.small
      obtain ⟨rv₁, hRv₁, hAddr'⟩ := h'.translate run hOff'
      obtain rfl : rv₁ = rv' := Except.ok.inj (hRv₁.symm.trans hRv')
      obtain ⟨hIid, hSgl, hNat⟩ := address_injective (by omega) (by omega) (hAddr'.symm.trans hEq)
      exact ⟨hIid, hSgl, BitVec.eq_of_toNat_eq hNat⟩
  · intro i
    obtain ⟨hRead, hWrite⟩ := run_accounts run i
    exact ⟨⟨_, hRead⟩, ⟨_, hWrite⟩⟩

/-- A host at power-up, with files that are all zeros. -/
def freshHost : Host 1 where
  mmu _ := MMU.powerUp (fun _ => false) (fun _ => none) (fun _ => 0)
  dma := DmaTable.powerUp
  master _ := DmaMaster.reset

/-- The calls for a file of 68 KB, as scatter list 5 of unit 1. -/
def smallFile : List Config := sendFdToPortal (objId 1 5) (bsimEntries (objId 1 5) 0 [0x10000, 0x1000])

def configAction : Config → MMU.Action
  | .sglist pointer pointerIndex addr len => .sglist pointer pointerIndex addr len
  | .region pointer barr8 index8 barr4 index4 barr0 index0 =>
    .region pointer barr8 index8 barr4 index4 barr0 index0
  | .invalidate sglId => .idReturn sglId

/-- The theorem applies to this file. A word near its end, in the second element,
is read and written where it is. -/
theorem simulation_addresses_small_file :
    ∃ s trace, (host 1 (fun _ _ => 0) .w64).Run (fun _ _ _ => True) s trace ∧
      Registered trace 1 5 [0x10000, 0x1000] ∧
      ∃ rv, (s.mmu 1).tables.translate 40 ⟨5, 0x10008⟩ = .ok rv ∧
        Accessible .w64 s.dma 1 5 0x10008 (physAddr 1 rv) := by
  have hInit : (host 1 (fun _ _ => 0) .w64).init freshHost := ⟨fun _ => ⟨_, _, _, rfl⟩, rfl, fun _ => rfl⟩
  obtain ⟨⟨s, trace⟩, hExec, hTrace⟩ := Option.map_eq_some_iff.mp
    (show ((host 1 (fun _ _ => 0) .w64).exec (fun _ _ _ => True)
        (smallFile.map fun c => .mmu 1 0 (configAction c)) (freshHost, [])).map Prod.snd =
      some (smallFile.map fun c => .mmu 1 (.config c)) from rfl)
  have run := Machine.exec_run hInit hExec
  obtain rfl : trace = _ := hTrace
  have hRegistered : Registered (smallFile.map fun c => (.mmu 1 (.config c) : Event 1)) 1 5
      [0x10000, 0x1000] :=
    ⟨⟨by simp, by decide, by decide, by decide⟩, by decide⟩
  obtain ⟨hOffsets, -, -, -⟩ := simulation_addresses run hRegistered
  obtain ⟨rv, addr, hRv, rfl, hReach, -⟩ := hOffsets 0x10008 (by decide)
  have hAccess := (hReach 0 (by decide)).2.2 (by decide)
  rw [show physAddr 1 rv + BitVec.ofNat 40 0 = physAddr 1 rv from BitVec.add_zero _] at hAccess
  exact ⟨s, _, run, hRegistered, rv, hRv, hAccess⟩

end Bsim
end Connectal
