import Connectal.Memory.MMUProgress
import Connectal.Memory.SendFd

/-! Address translation from end to end: the buffer that the driver allocates,
the calls by which software describes it, and the translations that the unit
then gives. Software encodes the three page classes as borders and wrapping
index offsets; the unit finds the page again by comparing and adding. -/
namespace Connectal

open Rules MMU SendFd Layout

namespace Translation

/-- The borders between the page classes of a buffer with the given numbers of
large, middle and small pages. -/
structure Borders (region : Region) (n8 n4 n0 : Nat) : Prop where
  barrier8 : region.reg8.barrier.toNat = n8
  barrier4 : region.reg4.barrier.toNat = 16 * n8 + n4
  barrier0 : region.reg0.barrier.toNat = 256 * n8 + 16 * n4 + n0
  index8 : region.reg8.idxOffset.toNat = 0
  index4 : (16 * n8 + region.reg4.idxOffset.toNat) % 256 = n8
  index0 : (256 * n8 + 16 * n4 + region.reg0.idxOffset.toNat) % 256 = n8 + n4

variable {region : Region} {n8 n4 n0 : Nat}

/-- One round of the border loop in numbers: entries are counted once by number
and once in pages of the class; the index offset is their difference, which
wraps. -/
theorem next_toNat {b : Border} {count border n shift : Nat} (hCount : b.entryCount.toNat = count)
    (hBorder : b.border.toNat = border) (hSmall : border < 2 ^ 32) (hSum : count + n ≤ 255)
    (hShift : shift ≤ 12) :
    (b.next (BitVec.ofNat 32 n) shift).1.1.toNat = border + n ∧
      (border + (b.next (BitVec.ofNat 32 n) shift).1.2.toNat) % 256 = count ∧
      (b.next (BitVec.ofNat 32 n) shift).2.entryCount.toNat = count + n ∧
      (b.next (BitVec.ofNat 32 n) shift).2.border.toNat = (border + n) * 2 ^ shift := by
  have hPow : 2 ^ shift ≤ 2 ^ 12 := Nat.pow_le_pow_right (by decide) hShift
  have hNext : (b.border + (BitVec.ofNat 32 n).setWidth 64).toNat = border + n := by
    rw [BitVec.toNat_add, BitVec.toNat_setWidth, BitVec.toNat_ofNat, hBorder]
    omega
  have hScaled : (border + n) * 2 ^ shift < 2 ^ 64 := by
    calc (border + n) * 2 ^ shift ≤ (border + n) * 2 ^ 12 := Nat.mul_le_mul_left _ hPow
      _ < 2 ^ 64 := by omega
  refine ⟨hNext, ?_, ?_, ?_⟩
  · rw [Border.next, BitVec.toNat_setWidth, BitVec.toNat_setWidth, BitVec.toNat_sub,
      BitVec.toNat_setWidth, hCount, hBorder]
    omega
  · rw [Border.next, BitVec.toNat_add, BitVec.toNat_setWidth, BitVec.toNat_ofNat, hCount]
    omega
  · rw [Border.next, BitVec.toNat_shiftLeft, hNext, Nat.shiftLeft_eq, Nat.mod_eq_of_lt hScaled]

/-- The region call describes the borders between the page classes. -/
theorem borders_regionCall {entries : List DmaEntry} (id : BitVec 32)
    (h8 : regions entries 0 = BitVec.ofNat 32 n8) (h4 : regions entries 1 = BitVec.ofNat 32 n4)
    (h0 : regions entries 2 = BitVec.ofNat 32 n0) (hSum : n8 + n4 + n0 ≤ 255) :
    ∃ barr8 index8 barr4 index4 barr0 index0,
      regionCall id entries = .region id barr8 index8 barr4 index4 barr0 index0 ∧
      Borders (regionOf barr8 index8 barr4 index4 barr0 index0) n8 n4 n0 := by
  obtain ⟨r8, hr8⟩ : ∃ r, Border.next ⟨0, 0⟩ (regions entries 0) (shifts 0 - shifts 1) = r := ⟨_, rfl⟩
  obtain ⟨r4, hr4⟩ : ∃ r, r8.2.next (regions entries 1) (shifts 1 - shifts 2) = r := ⟨_, rfl⟩
  obtain ⟨r0, hr0⟩ : ∃ r, r4.2.next (regions entries 2) (shifts 2 - 0) = r := ⟨_, rfl⟩
  have hCall : regionCall id entries = .region id r8.1.1 r8.1.2 r4.1.1 r4.1.2 r0.1.1 r0.1.2 := by
    rw [← hr0, ← hr4, ← hr8]
    rfl
  rw [h8] at hr8
  rw [h4] at hr4
  rw [h0] at hr0
  obtain ⟨hBarr8, hIndex8, hCount8, hBorder8⟩ := next_toNat (b := ⟨0, 0⟩) (n := n8)
    (show BitVec.toNat 0 = 0 from rfl) (show BitVec.toNat 0 = 0 from rfl) (by decide) (by omega)
    (show shifts 0 - shifts 1 ≤ 12 by decide)
  rw [hr8] at hBarr8 hIndex8 hCount8 hBorder8
  have hBorder8 : r8.2.border.toNat = (0 + n8) * 16 := hBorder8
  obtain ⟨hBarr4, hIndex4, hCount4, hBorder4⟩ := next_toNat (n := n4) hCount8 hBorder8 (by omega)
    (by omega) (show shifts 1 - shifts 2 ≤ 12 by decide)
  rw [hr4] at hBarr4 hIndex4 hCount4 hBorder4
  have hBorder4 : r4.2.border.toNat = ((0 + n8) * 16 + n4) * 16 := hBorder4
  obtain ⟨hBarr0, hIndex0, -, -⟩ := next_toNat (n := n0) hCount4 hBorder4 (by omega)
    (by omega) (show shifts 2 - 0 ≤ 12 by decide)
  rw [hr0] at hBarr0 hIndex0
  refine ⟨_, _, _, _, _, _, hCall, ?_⟩
  constructor <;> rw [regionOf, BitVec.toNat_setWidth] <;> omega

theorem Borders.conds (h : Borders region n8 n4 n0) (hSum : n8 + n4 + n0 ≤ 255) (off : BitVec 44) :
    region.conds off = (decide (off.toNat / 2 ^ 20 < n8), decide (off.toNat / 2 ^ 16 < 16 * n8 + n4),
      decide (off.toNat / 2 ^ 12 < 256 * n8 + 16 * n4 + n0)) := by
  have hOff := off.isLt
  have h8 := h.barrier8
  have h4 := h.barrier4
  have h0 := h.barrier0
  refine Prod.ext ?_ (Prod.ext ?_ ?_)
  all_goals
    refine decide_eq_decide.mpr ?_
    simp only [BitVec.lt_def, BitVec.toNat_setWidth, BitVec.toNat_ushiftRight, Nat.shiftRight_eq_div_pow]
    omega

/-! What the unit does with an offset, by page class. -/
section Select

variable {T : Tables} {id : BitVec 5} (addrWidth : Nat) (hRegion : T.regall id = some region)

include hRegion

variable (h : Borders region n8 n4 n0)

include h

variable (hSum : n8 + n4 + n0 ≤ 255)

include hSum

/-- The selection of the unit, with the comparisons already made. -/
theorem translate_select (off : BitVec 44) :
    T.translate addrWidth ⟨id, off⟩ = T.outcome addrWidth
      (Compared.mk ⟨id, off⟩ (decide (off.toNat / 2 ^ 20 < n8),
        decide (off.toNat / 2 ^ 16 < 16 * n8 + n4),
        decide (off.toNat / 2 ^ 12 < 256 * n8 + 16 * n4 + n0)) region.idxOffsets).select := by
  rw [Tables.translate, Tables.decide, hRegion, ← h.conds hSum off]

variable {off : BitVec 44}

theorem translate_large (h8 : off.toNat / 2 ^ 20 < n8) :
    T.translate addrWidth ⟨id, off⟩ = .ok (Offset.address addrWidth ⟨3#2, off.setWidth 20⟩
      (T.pages (id, BitVec.ofNat 8 (off.toNat / 2 ^ 20)))) := by
  have hIndex : (off >>> 20).setWidth 8 + region.reg8.idxOffset = BitVec.ofNat 8 (off.toNat / 2 ^ 20) := by
    apply BitVec.eq_of_toNat_eq
    rw [BitVec.toNat_add, BitVec.toNat_setWidth, BitVec.toNat_ushiftRight, h.index8,
      Nat.shiftRight_eq_div_pow, BitVec.toNat_ofNat]
    omega
  rw [translate_select addrWidth hRegion h hSum off, ← hIndex]
  simp only [Compared.select, h8, decide_true, if_true]
  rfl

theorem translate_middle (h8 : ¬ off.toNat / 2 ^ 20 < n8) (h4 : off.toNat / 2 ^ 16 < 16 * n8 + n4) :
    T.translate addrWidth ⟨id, off⟩ = .ok (Offset.address addrWidth ⟨2#2, off.setWidth 20⟩
      (T.pages (id, BitVec.ofNat 8 (n8 + (off.toNat / 2 ^ 16 - 16 * n8))))) := by
  have hIndex : (off >>> 16).setWidth 8 + region.reg4.idxOffset =
      BitVec.ofNat 8 (n8 + (off.toNat / 2 ^ 16 - 16 * n8)) := by
    have hWrap := h.index4
    apply BitVec.eq_of_toNat_eq
    rw [BitVec.toNat_add, BitVec.toNat_setWidth, BitVec.toNat_ushiftRight,
      Nat.shiftRight_eq_div_pow, BitVec.toNat_ofNat]
    omega
  rw [translate_select addrWidth hRegion h hSum off, ← hIndex]
  simp only [Compared.select, h8, h4, decide_true, decide_false, Bool.false_eq_true, if_true, if_false]
  rfl

theorem translate_small (h8 : ¬ off.toNat / 2 ^ 20 < n8) (h4 : ¬ off.toNat / 2 ^ 16 < 16 * n8 + n4)
    (h0 : off.toNat / 2 ^ 12 < 256 * n8 + 16 * n4 + n0) :
    T.translate addrWidth ⟨id, off⟩ = .ok (Offset.address addrWidth ⟨1#2, off.setWidth 20⟩
      (T.pages (id, BitVec.ofNat 8 (n8 + n4 + (off.toNat / 2 ^ 12 - (256 * n8 + 16 * n4)))))) := by
  have hIndex : (off >>> 12).setWidth 8 + region.reg0.idxOffset =
      BitVec.ofNat 8 (n8 + n4 + (off.toNat / 2 ^ 12 - (256 * n8 + 16 * n4))) := by
    have hWrap := h.index0
    apply BitVec.eq_of_toNat_eq
    rw [BitVec.toNat_add, BitVec.toNat_setWidth, BitVec.toNat_ushiftRight,
      Nat.shiftRight_eq_div_pow, BitVec.toNat_ofNat]
    omega
  rw [translate_select addrWidth hRegion h hSum off, ← hIndex]
  simp only [Compared.select, h8, h4, h0, decide_true, decide_false, Bool.false_eq_true, if_true,
    if_false]
  rfl

/-- Offsets beyond the last border are reported; by then only their low bits are
left. -/
theorem translate_beyond (hOff : 256 * n8 + 16 * n4 + n0 ≤ off.toNat / 2 ^ 12) :
    T.translate addrWidth ⟨id, off⟩ =
      .error ⟨.offsetOutOfRange, id.setWidth 32, (off.setWidth 20).setWidth 44⟩ := by
  have h8 : ¬ off.toNat / 2 ^ 20 < n8 := by omega
  have h4 : ¬ off.toNat / 2 ^ 16 < 16 * n8 + n4 := by omega
  have h0 : ¬ off.toNat / 2 ^ 12 < 256 * n8 + 16 * n4 + n0 := by omega
  rw [translate_select addrWidth hRegion h hSum off]
  simp only [Compared.select, h8, h4, h0, decide_false, Bool.false_eq_true, if_false]
  rfl

end Select

/-! What software wrote for a run of pages, and what the last stage makes of it. -/
section Pages

variable {addrWidth : Nat}

theorem join_toNat {w s phys : Nat} {page : BitVec w} {low : BitVec s} (hWidth : addrWidth ≤ 44)
    (hPage : page.toNat = phys / 2 ^ s) (hAligned : 2 ^ s ∣ phys)
    (hBelow : phys + 2 ^ s ≤ 2 ^ addrWidth) :
    (((page ++ low).setWidth 44).setWidth addrWidth).toNat = phys + low.toNat := by
  have hLow := low.isLt
  have hPow : 2 ^ addrWidth ≤ 2 ^ 44 := Nat.pow_le_pow_right (by decide) hWidth
  rw [BitVec.toNat_setWidth, BitVec.toNat_setWidth, BitVec.toNat_append,
    ← Nat.shiftLeft_add_eq_or_of_lt hLow, Nat.shiftLeft_eq, hPage, Nat.div_mul_cancel hAligned,
    Nat.mod_eq_of_lt (show phys + low.toNat < 2 ^ 44 by omega), Nat.mod_eq_of_lt (by omega)]

/-- What the last stage computes from a page number is the address of the byte. -/
def Addresses (addrWidth order : Nat) (off : BitVec 44) (address : BitVec 32 → BitVec addrWidth) : Prop :=
  ∀ (phys : Nat) (page : BitVec 32), 2 ^ (order + 12) ∣ phys →
    phys + 2 ^ (order + 12) ≤ 2 ^ addrWidth → page.toNat = phys / 2 ^ (order + 12) →
    (address page).toNat = phys + off.toNat % 2 ^ (order + 12)

theorem addresses_large (hWidth : addrWidth ≤ 44) (off : BitVec 44) :
    Addresses addrWidth 8 off (Offset.address addrWidth ⟨3#2, off.setWidth 20⟩) := by
  intro phys page hAligned hBelow hPage
  have hPow : 2 ^ addrWidth ≤ 2 ^ 44 := Nat.pow_le_pow_right (by decide) hWidth
  have hPage' : (page.setWidth 24).toNat = phys / 2 ^ 20 := by
    rw [BitVec.toNat_setWidth, hPage]
    omega
  rw [Offset.address, if_neg (show ¬ (3#2 = 1#2) by decide),
    if_neg (show ¬ (3#2 = 2#2) by decide), join_toNat hWidth hPage' hAligned hBelow,
    BitVec.toNat_setWidth]

theorem addresses_middle (hWidth : addrWidth ≤ 44) (off : BitVec 44) :
    Addresses addrWidth 4 off (Offset.address addrWidth ⟨2#2, off.setWidth 20⟩) := by
  intro phys page hAligned hBelow hPage
  have hPow : 2 ^ addrWidth ≤ 2 ^ 44 := Nat.pow_le_pow_right (by decide) hWidth
  have hPage' : (page.setWidth 28).toNat = phys / 2 ^ 16 := by
    rw [BitVec.toNat_setWidth, hPage]
    omega
  rw [Offset.address, if_neg (show ¬ (2#2 = 1#2) by decide), if_pos rfl, join_toNat hWidth hPage' hAligned hBelow,
    BitVec.toNat_setWidth, BitVec.toNat_setWidth]
  omega

theorem addresses_small (hWidth : addrWidth ≤ 44) (off : BitVec 44) :
    Addresses addrWidth 0 off (Offset.address addrWidth ⟨1#2, off.setWidth 20⟩) := by
  intro phys page hAligned hBelow hPage
  rw [Offset.address, if_pos rfl, join_toNat hWidth hPage hAligned hBelow, BitVec.toNat_setWidth,
    BitVec.toNat_setWidth]
  omega

/-- The class that software finds for a run of pages. -/
theorem pageClass_entry (page : BitVec 64) :
    pageClass (PortalMem.PageInfo.entry ⟨page, 8⟩).length = some 0 ∧
      pageClass (PortalMem.PageInfo.entry ⟨page, 4⟩).length = some 1 ∧
      pageClass (PortalMem.PageInfo.entry ⟨page, 0⟩).length = some 2 := by
  refine ⟨?_, ?_, ?_⟩
  · change pageClass (BitVec.ofNat 32 ((1 <<< 8) * 4096)) = some 0
    decide
  · change pageClass (BitVec.ofNat 32 ((1 <<< 4) * 4096)) = some 1
    decide
  · change pageClass (BitVec.ofNat 32 ((1 <<< 0) * 4096)) = some 2
    decide

theorem pageAddr_toNat {info : PortalMem.PageInfo}
    (hOrder : info.order = 8 ∨ info.order = 4 ∨ info.order = 0) (hBelow : info.page.toNat < 2 ^ 44) :
    ((pageAddr info.entry).setWidth 32).toNat = info.page.toNat / 2 ^ (info.order + 12) := by
  obtain ⟨page, order⟩ := info
  have hPage : page.toNat < 2 ^ 44 := hBelow
  have hMsb : page.msb = false := by
    rw [BitVec.msb_eq_false_iff_two_mul_lt]
    omega
  obtain ⟨h8, h4, h0⟩ := pageClass_entry page
  have hShift : ∀ n, (page.sshiftRight n).toNat = page.toNat / 2 ^ n := by
    intro n
    rw [BitVec.sshiftRight_eq_of_msb_false hMsb, BitVec.toNat_ushiftRight, Nat.shiftRight_eq_div_pow]
  rcases hOrder with rfl | rfl | rfl
  · rw [pageAddr, h8, BitVec.toNat_setWidth]
    simp only [PortalMem.PageInfo.entry, shifts, hShift]
    omega
  · rw [pageAddr, h4, BitVec.toNat_setWidth]
    simp only [PortalMem.PageInfo.entry, shifts, hShift]
    omega
  · rw [pageAddr, h0, BitVec.toNat_setWidth]
    simp only [PortalMem.PageInfo.entry, shifts, hShift]
    omega

theorem block_size {info : PortalMem.PageInfo}
    (hOrder : info.order = 8 ∨ info.order = 4 ∨ info.order = 0) :
    info.entry.block.size = 2 ^ (info.order + 12) := by
  have hBytes : info.entry.block.size = 2 ^ info.order * 4096 % 2 ^ 32 := by
    rw [DmaEntry.block, PortalMem.PageInfo.entry, BitVec.toNat_ofNat, PortalMem.PageInfo.bytes,
      Nat.one_shiftLeft, PortalMem.pageSize]
  rw [hBytes]
  rcases hOrder with h | h | h <;> simp [h]

theorem block_injective : Function.Injective DmaEntry.block := by
  rintro ⟨a, l⟩ ⟨a', l'⟩ h
  simp only [DmaEntry.block, Block.mk.injEq] at h
  rw [BitVec.eq_of_toNat_eq h.1, BitVec.eq_of_toNat_eq h.2]

end Pages

/-- The address space that a scatter table describes. -/
def blocks (table : List DmaEntry) : List Block := table.map DmaEntry.block

/-- The offset lies in one entry of the table, and is translated to its place in
that entry. -/
def Located (addrWidth : Nat) (T : Tables) (id : BitVec 5) (table : List DmaEntry) (off : BitVec 44) :
    Prop :=
  ∃ k block, Contains (blocks table) off.toNat k block ∧
    (∀ k' block', Contains (blocks table) off.toNat k' block' → k' = k) ∧
    ∃ addr, T.translate addrWidth ⟨id, off⟩ = .ok addr ∧
      addr.toNat = block.base + (off.toNat - start (blocks table) k)

section Buffer

open PortalMem

variable {addrWidth : Nat} {T : Tables} {id : BitVec 32} {off : BitVec 44}

/-- A run of pages of the given order, where its order says that it is. -/
structure Placed (addrWidth order : Nat) (info : PageInfo) : Prop where
  sized : info.order = order
  aligned : 2 ^ (order + 12) ∣ info.page.toNat
  below : info.page.toNat + 2 ^ (order + 12) ≤ 2 ^ addrWidth

variable {runs : List PageInfo} {order : Nat}

theorem block_size_class
    (hOrder : order = 8 ∨ order = 4 ∨ order = 0) (hRuns : ∀ info ∈ runs, Placed addrWidth order info) :
    ∀ b ∈ blocks (runs.map PageInfo.entry), b.size = 2 ^ (order + 12) := by
  intro b hb
  simp only [blocks, List.map_map, List.mem_map] at hb
  obtain ⟨info, hInfo, rfl⟩ := hb
  have hPlaced := (hRuns info hInfo).sized
  rw [Function.comp_apply, block_size (by rw [hPlaced]; exact hOrder), hPlaced]

theorem total_class (hOrder : order = 8 ∨ order = 4 ∨ order = 0)
    (hRuns : ∀ info ∈ runs, Placed addrWidth order info) :
    total (blocks (runs.map PageInfo.entry)) = runs.length * 2 ^ (order + 12) := by
  rw [total_uniform (block_size_class hOrder hRuns)]
  simp [blocks]

/-- One page class between the others. -/
theorem located_class {border : Nat} {front back : List PageInfo}
    {address : BitVec 32 → BitVec addrWidth} (hWidth : addrWidth ≤ 44)
    (hOrder : order = 8 ∨ order = 4 ∨ order = 0) (hRuns : ∀ info ∈ runs, Placed addrWidth order info)
    (hAddress : Addresses addrWidth order off address)
    (hReadable : Readable id ((front ++ runs ++ back).map PageInfo.entry) T)
    (hFront : total (blocks (front.map PageInfo.entry)) = border * 2 ^ (order + 12))
    (hLow : border ≤ off.toNat / 2 ^ (order + 12))
    (hHigh : off.toNat / 2 ^ (order + 12) < border + runs.length)
    (hTranslate : T.translate addrWidth ⟨id.setWidth 5, off⟩ = .ok (address (T.pages
      (id.setWidth 5, BitVec.ofNat 8 (front.length + (off.toNat / 2 ^ (order + 12) - border)))))) :
    Located addrWidth T (id.setWidth 5) ((front ++ runs ++ back).map PageInfo.entry) off := by
  obtain ⟨block, hBlock, hContains, hRest⟩ := Contains.between (block_size_class hOrder hRuns) (Nat.two_pow_pos _)
    (blocks (back.map PageInfo.entry)) hFront hLow (by simpa [blocks] using hHigh)
  have hAll : blocks (front.map PageInfo.entry) ++ blocks (runs.map PageInfo.entry) ++
      blocks (back.map PageInfo.entry) = blocks ((front ++ runs ++ back).map PageInfo.entry) := by
    simp [blocks]
  rw [hAll] at hContains hRest
  have hLength : (blocks (front.map PageInfo.entry)).length = front.length := by simp [blocks]
  rw [hLength] at hContains hRest
  simp only [blocks, List.map_map, List.mem_map] at hBlock
  obtain ⟨info, hInfo, rfl⟩ := hBlock
  obtain ⟨hPlaced, hAligned, hBelow⟩ := hRuns info hInfo
  have hGet := hContains.get
  rw [blocks, List.getElem?_map, Option.map_eq_some_iff] at hGet
  obtain ⟨e, he, hEq⟩ := hGet
  obtain rfl := block_injective hEq
  have hPow : 2 ^ addrWidth ≤ 2 ^ 44 := Nat.pow_le_pow_right (by decide) hWidth
  have hSmall : info.page.toNat < 2 ^ 44 := by
    have hPos := Nat.two_pow_pos (order + 12)
    omega
  have hPage : (T.pages (id.setWidth 5,
      BitVec.ofNat 8 (front.length + (off.toNat / 2 ^ (order + 12) - border)))).toNat =
      info.page.toNat / 2 ^ (order + 12) := by
    rw [hReadable _ _ he, pageAddr_toNat (by rw [hPlaced]; exact hOrder) hSmall, hPlaced]
  refine ⟨_, _, hContains, fun k' block' h' => h'.unique hContains, _, hTranslate, ?_⟩
  rw [hRest, hAddress _ _ hAligned hBelow hPage]
  rfl

/-- The runs of pages of a buffer: large, middle and small ones, in this order. -/
structure Classes (addrWidth : Nat) (table : List DmaEntry) (large middle small : List PageInfo) :
    Prop where
  table : table = (large ++ middle ++ small).map PageInfo.entry
  large : ∀ info ∈ large, Placed addrWidth 8 info
  middle : ∀ info ∈ middle, Placed addrWidth 4 info
  small : ∀ info ∈ small, Placed addrWidth 0 info

/-- What the assumption on the page allocator says about the buffer. -/
theorem exists_placed {allocPages : AllocPages} {len : BitVec 64} {table : List DmaEntry}
    (hAlloc : ∀ call order page, allocPages call order = some page →
      2 ^ (order + 12) ∣ page.toNat ∧ page.toNat + 2 ^ (order + 12) ≤ 2 ^ addrWidth)
    (hTable : dmabufferCreate allocPages len = some table) :
    ∃ large middle small, Classes addrWidth table large middle small := by
  simp only [dmabufferCreate, firing] at hTable
  obtain ⟨pages, hPages, -, rfl⟩ := hTable
  have hAllocated := (allocate_allocated hPages).1
  obtain ⟨large, middle, small, rfl, hLarge, hMiddle, hSmall⟩ := exists_classes hAllocated
  have hPlaced : ∀ info ∈ large ++ middle ++ small, Placed addrWidth info.order info := by
    intro info hInfo
    obtain ⟨call, hCall⟩ := hAllocated.source info hInfo
    exact ⟨rfl, (hAlloc _ _ _ hCall).1, (hAlloc _ _ _ hCall).2⟩
  refine ⟨large, middle, small, rfl, ?_, ?_, ?_⟩
  · intro info hInfo
    rw [← hLarge info hInfo]
    exact hPlaced info (by simp [hInfo])
  · intro info hInfo
    rw [← hMiddle info hInfo]
    exact hPlaced info (by simp [hInfo])
  · intro info hInfo
    rw [← hSmall info hInfo]
    exact hPlaced info (by simp [hInfo])

theorem countP_class {c : Fin 3} (hRuns : ∀ info ∈ runs, Placed addrWidth order info)
    (hClass : ∀ page, pageClass (PageInfo.entry ⟨page, order⟩).length = some c) (j : Fin 3) :
    (runs.map PageInfo.entry).countP (fun e => pageClass e.length = some j) =
      if c = j then runs.length else 0 := by
  have hEntry : ∀ info ∈ runs, pageClass info.entry.length = some c := by
    intro info hInfo
    rw [← hClass info.page, ← (hRuns info hInfo).sized]
  rw [List.countP_map]
  split
  · next hEq =>
    rw [List.countP_eq_length]
    intro info hInfo
    simp [hEntry info hInfo, hEq]
  · next hNe =>
    rw [List.countP_eq_zero]
    intro info hInfo
    simp [hEntry info hInfo, hNe]

variable {table : List DmaEntry} {large middle small : List PageInfo}
  (h : Classes addrWidth table large middle small)

include h

theorem Classes.regions :
    SendFd.regions table 0 = BitVec.ofNat 32 large.length ∧
      SendFd.regions table 1 = BitVec.ofNat 32 middle.length ∧
      SendFd.regions table 2 = BitVec.ofNat 32 small.length := by
  have hLarge := countP_class h.large (fun page => (pageClass_entry page).1)
  have hMiddle := countP_class h.middle (fun page => (pageClass_entry page).2.1)
  have hSmall := countP_class h.small (fun page => (pageClass_entry page).2.2)
  simp [SendFd.regions, h.table, List.countP_append, hLarge, hMiddle, hSmall]

theorem Classes.total :
    Layout.total (blocks table) =
      large.length * 2 ^ 20 + middle.length * 2 ^ 16 + small.length * 2 ^ 12 := by
  have hSplit : blocks table = blocks (large.map PageInfo.entry) ++
      blocks (middle.map PageInfo.entry) ++ blocks (small.map PageInfo.entry) := by
    simp [blocks, h.table]
  rw [hSplit, total_append, total_append, total_class (by decide) h.large,
    total_class (by decide) h.middle, total_class (by decide) h.small]

theorem Classes.length :
    table.length = large.length + middle.length + small.length := by
  simp [h.table, Nat.add_assoc]

/-- Every offset of the buffer is translated to its place. -/
theorem Classes.located (hWidth : addrWidth ≤ 44)
    (hEntries : table.length ≤ 255) {region : Region} (hRegion : T.regall (id.setWidth 5) = some region)
    (hBorders : Borders region large.length middle.length small.length)
    (hReadable : Readable id table T) (hOff : off.toNat < Layout.total (blocks table)) :
    Located addrWidth T (id.setWidth 5) table off := by
  have hSum := h.length ▸ hEntries
  have hTotal := h.total
  have hReadable' := hReadable
  rw [h.table] at hReadable' ⊢
  by_cases h8 : off.toNat / 2 ^ 20 < large.length
  · have hTranslate := translate_large addrWidth hRegion hBorders hSum h8
    rw [List.append_assoc, ← List.nil_append (large ++ _), ← List.append_assoc] at hReadable' ⊢
    exact located_class hWidth (by decide) h.large (addresses_large hWidth off) hReadable'
      (show Layout.total [] = 0 * 2 ^ 20 by simp) (Nat.zero_le _) (by omega)
      (by simpa using hTranslate)
  · by_cases h4 : off.toNat / 2 ^ 16 < 16 * large.length + middle.length
    · have hTranslate := translate_middle addrWidth hRegion hBorders hSum h8 h4
      exact located_class hWidth (by decide) h.middle (addresses_middle hWidth off) hReadable'
        (by rw [total_class (by decide) h.large]; omega) (by omega) h4 hTranslate
    · have hTranslate := translate_small addrWidth hRegion hBorders hSum h8 h4 (by omega)
      have hFront : Layout.total (blocks ((large ++ middle).map PageInfo.entry)) =
          (256 * large.length + 16 * middle.length) * 2 ^ (0 + 12) := by
        have hLarge := total_class (by decide) h.large
        have hMiddle := total_class (by decide) h.middle
        rw [List.map_append, blocks, List.map_append, total_append, ← blocks, ← blocks, hLarge, hMiddle]
        omega
      rw [← List.append_nil (large ++ middle ++ small)] at hReadable' ⊢
      exact located_class hWidth (by decide) h.small (addresses_small hWidth off) hReadable'
        hFront (by omega) (by omega) (by simpa using hTranslate)

theorem Classes.beyond (hEntries : table.length ≤ 255) {region : Region} {id : BitVec 5}
    (hRegion : T.regall id = some region)
    (hBorders : Borders region large.length middle.length small.length)
    (hOff : Layout.total (blocks table) ≤ off.toNat) :
    T.translate addrWidth ⟨id, off⟩ =
      .error ⟨.offsetOutOfRange, id.setWidth 32, (off.setWidth 20).setWidth 44⟩ := by
  have hTotal := h.total
  exact translate_beyond addrWidth hRegion hBorders (h.length ▸ hEntries) (by omega)

end Buffer

/-! The tables after the calls for one scatter list. -/
section Calls

variable {addrWidth : Nat} {T T' : Tables}

/-- The tables say the same about a scatter list. -/
structure Agrees (T T' : Tables) (id : BitVec 5) : Prop where
  regall : T'.regall id = T.regall id
  pages : ∀ idx, T'.pages (id, idx) = T.pages (id, idx)

theorem select_ptr (c : Compared) : c.select.ptr = c.req.id := by
  simp only [Compared.select]
  split
  · rfl
  · split
    · rfl
    · split <;> rfl

/-- Translations look at nothing but their own scatter list. -/
theorem Agrees.translate {req : ReqTup} (h : Agrees T T' req.id) :
    T'.translate addrWidth req = T.translate addrWidth req := by
  rw [Tables.translate, Tables.translate, h.regall]
  cases T.regall req.id with
  | none => rfl
  | some region =>
    simp only [Tables.decide, Tables.outcome, Selected.entry, select_ptr, h.pages]

/-- The scatter list that a call is about. -/
def about : Config → BitVec 5
  | .sglist pointer _ _ _ => pointer.setWidth 5
  | .region pointer _ _ _ _ _ _ => pointer.setWidth 5
  | .invalidate sglId => sglId.setWidth 5

theorem agrees_apply {c : Config} {id : BitVec 5} (T : Tables) (h : about c ≠ id) :
    Agrees T (T.apply c) id := by
  cases c with
  | sglist pointer pointerIndex addr len =>
    refine ⟨rfl, fun idx => Function.update_of_ne ?_ _ _⟩
    intro hEq
    exact h (congrArg Prod.fst hEq).symm
  | region pointer barr8 index8 barr4 index4 barr0 index0 =>
    exact ⟨Function.update_of_ne (Ne.symm h) _ _, fun idx => rfl⟩
  | invalidate sglId => exact ⟨Function.update_of_ne (Ne.symm h) _ _, fun idx => rfl⟩

theorem agrees_foldl {calls : List Config} {id : BitVec 5} (T : Tables)
    (h : ∀ c ∈ calls, about c ≠ id) : Agrees T (calls.foldl Tables.apply T) id := by
  induction calls generalizing T with
  | nil => exact ⟨rfl, fun _ => rfl⟩
  | cons c rest ih =>
    have hFirst := agrees_apply T (h c List.mem_cons_self)
    have hRest := ih (T.apply c) (fun d hd => h d (List.mem_cons_of_mem _ hd))
    exact ⟨hRest.regall.trans hFirst.regall, fun idx => (hRest.pages idx).trans (hFirst.pages idx)⟩

theorem about_sglistCalls (id : BitVec 32) (i : Nat) (entries : List DmaEntry) :
    ∀ c ∈ sglistCalls id i entries, about c = id.setWidth 5 := by
  induction entries generalizing i with
  | nil => simp [sglistCalls, about]
  | cons e rest ih =>
    intro c hc
    rcases List.mem_cons.mp hc with rfl | hc
    · rfl
    · exact ih (i + 1) c hc

theorem about_sendFdToPortal (id : BitVec 32) (entries : List DmaEntry) :
    ∀ c ∈ sendFdToPortal id entries, about c = id.setWidth 5 := by
  intro c hc
  rcases List.mem_append.mp hc with hc | hc
  · exact about_sglistCalls id 0 entries c hc
  · obtain rfl := List.mem_singleton.mp hc
    rfl

/-- All entries can be read, and the borders are those of the last call. -/
theorem sendFdToPortal_tables {id : BitVec 32} {entries : List DmaEntry} {barr8 : BitVec 64}
    {index8 : BitVec 32} {barr4 : BitVec 64} {index4 : BitVec 32} {barr0 : BitVec 64}
    {index0 : BitVec 32} (T : Tables) (hEntries : entries.length ≤ 255)
    (hCall : regionCall id entries = .region id barr8 index8 barr4 index4 barr0 index0) :
    Readable id entries ((sendFdToPortal id entries).foldl Tables.apply T) ∧
      ((sendFdToPortal id entries).foldl Tables.apply T).regall (id.setWidth 5) =
        some (regionOf barr8 index8 barr4 index4 barr0 index0) := by
  rw [sendFdToPortal, List.foldl_append, List.foldl_cons, List.foldl_nil, hCall]
  constructor
  · intro k e he
    have hPages := pages_sglistCalls T ((slots_nodup_iff id entries).mpr hEntries) he
    rwa [Nat.zero_add] at hPages
  · exact Function.update_self _ _ _

end Calls

open PortalMem in
/-- Address translation from end to end. For every buffer of at most
255 runs of pages, however the page allocator answered, and every state of the
unit: after the calls for the buffer, each offset of the buffer is translated to
its place in the one entry that contains it, each offset beyond is reported, all
other scatter lists are translated as before, and requests are answered by these
translations. -/
theorem translation_end_to_end {addrWidth : Nat} (hWidth : addrWidth ≤ 44) {allocPages : AllocPages}
    (hAlloc : ∀ call order page, allocPages call order = some page →
      2 ^ (order + 12) ∣ page.toNat ∧ page.toNat + 2 ^ (order + 12) ≤ 2 ^ addrWidth)
    {len : BitVec 64} {table : List DmaEntry} (hTable : dmabufferCreate allocPages len = some table)
    (hEntries : table.length ≤ 255) {iid id : BitVec 32}
    {ok : Machine.Contract (MMU addrWidth) MMU.Action (MMU.Event addrWidth)} {s s' : MMU addrWidth}
    {trace calls : List (MMU.Event addrWidth)} (run : (machine addrWidth iid).Run ok s trace)
    (path : (machine addrWidth iid).Continues ok (s, trace) (s', trace ++ calls))
    (hCalls : configs calls = sendFdToPortal id table) :
    (∀ off : BitVec 44, off.toNat < total (blocks table) →
      Located addrWidth s'.tables (id.setWidth 5) table off) ∧
    (∀ off : BitVec 44, total (blocks table) ≤ off.toNat →
      s'.tables.translate addrWidth ⟨id.setWidth 5, off⟩ =
        .error ⟨.offsetOutOfRange, (id.setWidth 5).setWidth 32, (off.setWidth 20).setWidth 44⟩) ∧
    (∀ req : ReqTup, req.id ≠ id.setWidth 5 →
      s'.tables.translate addrWidth req = s.tables.translate addrWidth req) ∧
    AnswersByTables iid s' (trace ++ calls) := by
  obtain ⟨P, h⟩ := run_abstracts run
  obtain ⟨P', later, hTrace, h', hTables, -⟩ := continues_flow h path
  obtain rfl := List.append_cancel_left hTrace
  have hAfter : s'.tables = (sendFdToPortal id table).foldl Tables.apply s.tables := by
    rw [h'.tables, hTables, hCalls, h.tables]
  obtain ⟨large, middle, small, hClasses⟩ := exists_placed hAlloc hTable
  obtain ⟨hLarge, hMiddle, hSmall⟩ := hClasses.regions
  obtain ⟨barr8, index8, barr4, index4, barr0, index0, hCall, hBorders⟩ :=
    borders_regionCall id hLarge hMiddle hSmall (hClasses.length ▸ hEntries)
  obtain ⟨hReadable, hRegion⟩ := sendFdToPortal_tables s.tables hEntries hCall
  rw [← hAfter] at hReadable hRegion
  refine ⟨?_, ?_, ?_, h'.answersByTables _⟩
  · intro off hOff
    exact hClasses.located hWidth hEntries hRegion hBorders hReadable hOff
  · intro off hOff
    exact hClasses.beyond hEntries hRegion hBorders hOff
  · intro req hReq
    rw [hAfter]
    exact (agrees_foldl s.tables fun c hc hEq =>
      hReq (hEq.symm.trans (about_sendFdToPortal id table c hc))).translate

/-- A page allocator that has one run of 16 pages and one single page. -/
def twoRuns : PortalMem.AllocPages
  | 0, 4 => some 0x10000
  | 1, 0 => some 0x5000
  | _, _ => none

/-- The scatter table of a buffer of 68 KB from these two runs. -/
def twoEntries : List DmaEntry := [⟨0x10000, 0x10000⟩, ⟨0x5000, 0x1000⟩]

open PortalMem in
theorem dmabufferCreate_twoRuns : dmabufferCreate twoRuns 0x11000 = some twoEntries := by
  have hLen : (pageAlign (roundUp 0x11000 4096)).toInt = 0x11000 := by decide
  have hFirst : tryOrders twoRuns 0x11000 8 orders 0 = (some ⟨0x10000, 4⟩, 1) := by decide
  have hSecond : tryOrders twoRuns 0x1000 4 orders 1 = (some ⟨0x5000, 0⟩, 2) := by decide
  have hLast : allocate twoRuns 0 0 2 = some [] := by
    rw [allocate]
    rfl
  have hMiddle : allocate twoRuns 0x1000 4 1 = some [⟨0x5000, 0⟩] := by
    rw [allocate, if_pos (by decide), hSecond]
    exact congrArg (Option.map _) hLast
  have hPages : allocate twoRuns 0x11000 8 0 = some [⟨0x10000, 4⟩, ⟨0x5000, 0⟩] := by
    rw [allocate, if_pos (by decide), hFirst]
    exact congrArg (Option.map _) hMiddle
  rw [dmabufferCreate, hLen, hPages]
  decide

theorem twoRuns_placed (call order : Nat) (page : BitVec 64) (h : twoRuns call order = some page) :
    2 ^ (order + 12) ∣ page.toNat ∧ page.toNat + 2 ^ (order + 12) ≤ 2 ^ 40 := by
  unfold twoRuns at h
  split at h
  · cases h
    decide
  · cases h
    decide
  · cases h

/-- The theorem applies to a buffer of 68 KB, loaded into a fresh unit as scatter
list 5. The first byte of its second entry is found there. -/
theorem translation_end_to_end_two_entries :
    ∃ s trace, (machine 40 0).Run (fun _ _ _ => True) s trace ∧
      configs trace = sendFdToPortal 5 twoEntries ∧
      PortalMem.dmabufferCreate twoRuns 0x11000 = some twoEntries ∧
      s.tables.translate 40 ⟨5, 0x10000⟩ = .ok 0x5000 ∧
      s.tables.translate 40 ⟨5, 0x11000⟩ = .error ⟨.offsetOutOfRange, 5, 0x11000⟩ := by
  let start : MMU 40 := MMU.powerUp (fun _ => false) (fun _ => none) (fun _ => 0)
  have hInit : (machine 40 0).init start := ⟨_, _, _, rfl⟩
  obtain ⟨s, path⟩ := (powerUp_ready (fun _ => false) (fun _ => none) (fun _ => 0) :
    Ready start).sendFdToPortal 0 5 twoEntries []
  have hCalls : configs ((sendFdToPortal 5 twoEntries).map (.config : Config → MMU.Event 40)) =
      sendFdToPortal 5 twoEntries := configs_map_config _
  obtain ⟨hInside, hBeyond, -, -⟩ := translation_end_to_end (by decide) twoRuns_placed
    dmabufferCreate_twoRuns (by decide) ⟨start, hInit, Relation.ReflTransGen.refl⟩ path hCalls
  refine ⟨s, _, ⟨start, hInit, path⟩, hCalls, dmabufferCreate_twoRuns, ?_, hBeyond 0x11000 (by decide)⟩
  obtain ⟨k, block, hIn, hUnique, addr, hAddr, hValue⟩ := hInside 0x10000 (by decide)
  have hSecond : Contains (blocks twoEntries) 0x10000 1 ⟨0x5000, 0x1000⟩ :=
    ⟨by decide, by decide, by decide⟩
  obtain rfl := hUnique 1 _ hSecond
  have hBlock := hIn.get.symm.trans hSecond.get
  cases hBlock
  exact hAddr.trans (congrArg Except.ok (BitVec.eq_of_toNat_eq hValue))

end Translation
end Connectal
