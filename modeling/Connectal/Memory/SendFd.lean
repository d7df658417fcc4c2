import Connectal.Memory.MMURun
import Connectal.Memory.PortalMem

/-! How software loads a scatter table into the translation unit. The function
`send_fd_to_portal` writes one page table entry after the other and an end mark,
and then the borders between the page classes. -/
namespace Connectal

open Rules MMU

namespace SendFd

/-- Address bits inside a page of each class. -/
def shifts : Fin 3 → Nat
  | 0 => 20
  | 1 => 16
  | 2 => 12

/-- The class of a page of the given length. -/
def pageClass (len : BitVec 32) : Option (Fin 3) :=
  (List.finRange 3).find? fun j => len.setWidth 64 = (1 : BitVec 64) <<< shifts j

/-- What is written to the page table for an entry. Entries of an unsupported
length are complained about and written as they are. -/
def pageAddr (e : DmaEntry) : BitVec 64 :=
  match pageClass e.length with
  | some j => e.dmaAddress.sshiftRight (shifts j)
  | none => e.dmaAddress

/-- The calls for the entries from number `i` on, with the end mark. -/
def sglistCalls (id : BitVec 32) : Nat → List DmaEntry → List Config
  | i, [] => [.sglist id (BitVec.ofNat 32 i) 0 0]
  | i, e :: rest => .sglist id (BitVec.ofNat 32 i) (pageAddr e) e.length :: sglistCalls id (i + 1) rest

/-- How many entries are of the given class. -/
def regions (entries : List DmaEntry) (j : Fin 3) : BitVec 32 :=
  BitVec.ofNat 32 (entries.countP fun e => pageClass e.length = some j)

/-- The counters of the border loop. -/
structure Border where
  entryCount : BitVec 8
  border : BitVec 64

/-- One round of the border loop: the border and index offset it records, and
the counters for the next class. -/
def Border.next (b : Border) (regions : BitVec 32) (shift : Nat) : (BitVec 64 × BitVec 32) × Border :=
  let idxOffset : BitVec 8 := (b.entryCount.setWidth 64 - b.border).setWidth 8
  let border := b.border + regions.setWidth 64
  ((border, idxOffset.setWidth 32), ⟨b.entryCount + regions.setWidth 8, border <<< shift⟩)

def regionCall (id : BitVec 32) (entries : List DmaEntry) : Config :=
  let (r8, b) := Border.next ⟨0, 0⟩ (regions entries 0) (shifts 0 - shifts 1)
  let (r4, b) := b.next (regions entries 1) (shifts 1 - shifts 2)
  let (r0, _) := b.next (regions entries 2) (shifts 2 - 0)
  .region id r8.1 r8.2 r4.1 r4.2 r0.1 r0.2

/-- All configuration calls for a scatter table. -/
def sendFdToPortal (id : BitVec 32) (entries : List DmaEntry) : List Config :=
  sglistCalls id 0 entries ++ [regionCall id entries]

/-- The page table slot that a call writes. -/
def slot : Config → Option (BitVec 5 × BitVec 8)
  | .sglist pointer pointerIndex _ _ => some (pointer.setWidth 5, pointerIndex.setWidth 8)
  | _ => none

def slots (calls : List Config) : List (BitVec 5 × BitVec 8) := calls.filterMap slot

variable {id : BitVec 32} {entries : List DmaEntry}

theorem slots_sglistCalls (id : BitVec 32) (i : Nat) (entries : List DmaEntry) :
    slots (sglistCalls id i entries) =
      (List.range' i (entries.length + 1)).map fun k => (id.setWidth 5, BitVec.ofNat 8 k) := by
  induction entries generalizing i with
  | nil => simp [sglistCalls, slots, slot, BitVec.setWidth_ofNat_of_le]
  | cons e rest ih =>
    rw [sglistCalls, slots, List.filterMap_cons, ← slots, ih]
    simp [slot, BitVec.setWidth_ofNat_of_le, List.range'_succ]

/-- A page table has room for 256 writes. -/
theorem slots_nodup_iff (id : BitVec 32) (entries : List DmaEntry) :
    (slots (sglistCalls id 0 entries)).Nodup ↔ entries.length ≤ 255 := by
  rw [slots_sglistCalls]
  constructor
  · intro h
    by_contra hLong
    have hZero : 0 ∈ List.range' 0 (entries.length + 1) := by simp
    have hWrap : 256 ∈ List.range' 0 (entries.length + 1) := by
      simp
      omega
    exact absurd (List.inj_on_of_nodup_map h hZero hWrap rfl) (by decide)
  · intro hLen
    refine List.Nodup.map_on ?_ (List.nodup_range' ..)
    intro k hk m hm hEq
    simp only [List.mem_range'_1, Prod.mk.injEq, true_and] at hk hm hEq
    have hNat := congrArg BitVec.toNat hEq
    simp only [BitVec.toNat_ofNat] at hNat
    omega

theorem pages_foldl_of_not_mem {calls : List Config} {x : BitVec 5 × BitVec 8} (T : Tables)
    (h : x ∉ slots calls) : (calls.foldl Tables.apply T).pages x = T.pages x := by
  induction calls generalizing T with
  | nil => rfl
  | cons c rest ih =>
    rw [List.foldl_cons, ih]
    · cases c with
      | sglist pointer pointerIndex addr len =>
        refine Function.update_of_ne ?_ _ _
        rintro rfl
        exact h (by simp [slots, slot])
      | region | invalidate => rfl
    · intro hMem
      refine h ?_
      simp only [slots, List.filterMap_cons]
      cases slot c with
      | none => exact hMem
      | some y => exact List.mem_cons_of_mem _ hMem

/-- As long as no slot is written twice, every entry is in the page table at the
end. -/
theorem pages_sglistCalls {i : Nat} (T : Tables) (h : (slots (sglistCalls id i entries)).Nodup)
    {k : Nat} {e : DmaEntry} (he : entries[k]? = some e) :
    ((sglistCalls id i entries).foldl Tables.apply T).pages (id.setWidth 5, BitVec.ofNat 8 (i + k)) =
      (pageAddr e).setWidth 32 := by
  induction entries generalizing i k T with
  | nil => simp at he
  | cons e' rest ih =>
    have hSlots : slots (sglistCalls id i (e' :: rest)) =
        (id.setWidth 5, BitVec.ofNat 8 i) :: slots (sglistCalls id (i + 1) rest) := by
      simp [sglistCalls, slots, slot, BitVec.setWidth_ofNat_of_le]
    rw [hSlots, List.nodup_cons] at h
    rw [sglistCalls, List.foldl_cons]
    cases k with
    | zero =>
      cases he
      refine (pages_foldl_of_not_mem _ h.1).trans ?_
      simp [Tables.apply, BitVec.setWidth_ofNat_of_le]
    | succ k =>
      have hNext := ih (i := i + 1) (k := k)
        (T.apply (.sglist id (BitVec.ofNat 32 i) (pageAddr e') e'.length)) h.2 he
      rwa [Nat.add_right_comm] at hNext

/-- Every entry of the scatter table is where the translation unit looks for it. -/
def Readable (id : BitVec 32) (entries : List DmaEntry) (T : Tables) : Prop :=
  ∀ k e, entries[k]? = some e →
    T.pages (id.setWidth 5, BitVec.ofNat 8 k) = (pageAddr e).setWidth 32

/-- The writes of one scatter table stay out of each other's way, and leave all
entries readable, exactly when the table has fewer entries than the page table
has slots: the end mark needs one as well. -/
theorem sglist_slots_distinct_iff (id : BitVec 32) (entries : List DmaEntry) :
    ((slots (sglistCalls id 0 entries)).Nodup ∧
      ∀ (addrWidth : Nat) (iid : BitVec 32)
        (ok : Machine.Contract (MMU addrWidth) MMU.Action (MMU.Event addrWidth))
        (s s' : MMU addrWidth) (trace later : List (MMU.Event addrWidth)),
        (machine addrWidth iid).Run ok s trace →
        (machine addrWidth iid).Continues ok (s, trace) (s', trace ++ later) →
        configs later = sglistCalls id 0 entries → Readable id entries s'.tables) ↔
      entries.length ≤ 255 := by
  constructor
  · rintro ⟨hNodup, -⟩
    exact (slots_nodup_iff id entries).mp hNodup
  · intro hLen
    have hNodup := (slots_nodup_iff id entries).mpr hLen
    refine ⟨hNodup, ?_⟩
    intro addrWidth iid ok s s' trace later run path hCalls k e he
    obtain ⟨P, h⟩ := run_abstracts run
    obtain ⟨P', later', hTrace, h', hTables, -⟩ := continues_flow h path
    obtain rfl := List.append_cancel_left hTrace
    rw [h'.tables, hTables, hCalls]
    have hPages := pages_sglistCalls P.tables hNodup he
    rwa [Nat.zero_add] at hPages

theorem pages_end_mark (id : BitVec 32) (i : Nat) (entries : List DmaEntry) (T : Tables) :
    ((sglistCalls id i entries).foldl Tables.apply T).pages
      (id.setWidth 5, BitVec.ofNat 8 (i + entries.length)) = 0 := by
  induction entries generalizing i T with
  | nil => simp [sglistCalls, Tables.apply, BitVec.setWidth_ofNat_of_le]
  | cons e rest ih =>
    have hNext := ih (i + 1) (T.apply (.sglist id (BitVec.ofNat 32 i) (pageAddr e) e.length))
    rwa [Nat.add_assoc, Nat.add_comm 1] at hNext

section Accepted

variable {addrWidth : Nat} {s : MMU addrWidth} (iid : BitVec 32)

theorem configs_map_config (calls : List Config) :
    configs (calls.map (.config : Config → MMU.Event addrWidth)) = calls := by
  simp [configs, List.filterMap_map]

/-- The ports over which software writes the tables accept a request. -/
structure Ready (s : MMU addrWidth) : Prop where
  pages : (s.pages.out 0).items.length < 3
  regall : (s.regall.out 1).items.length < 3
  configResp : s.configRespFifo.items.length < 2

theorem powerUp_ready (tagMem : BitVec 5 → Bool) (regMem : BitVec 5 → Option Region)
    (pageMem : BitVec 5 × BitVec 8 → BitVec 32) :
    Ready (MMU.powerUp tagMem regMem pageMem : MMU addrWidth) :=
  ⟨Nat.zero_lt_succ 2, Nat.zero_lt_succ 2, Nat.zero_lt_succ 1⟩

theorem Ready.sglist {calls : List Config} (h : Ready s) (hCalls : ∀ c ∈ calls, (slot c).isSome)
    (trace : List (MMU.Event addrWidth)) :
    ∃ s', Ready s' ∧ (machine addrWidth iid).Continues (fun _ _ _ => True) (s, trace)
      (s', trace ++ calls.map .config) := by
  induction calls generalizing s trace with
  | nil =>
    rw [List.map_nil, List.append_nil]
    exact ⟨s, h, Relation.ReflTransGen.refl⟩
  | cons c rest ih =>
    cases c with
    | sglist pointer pointerIndex addr len =>
      obtain ⟨t, ht, hReady⟩ : ∃ t, s.sglist pointer pointerIndex addr len = some t ∧ Ready t := by
        simp only [MMU.sglist, Bram.write, h.pages, if_true]
        exact ⟨_, rfl, h.pages, h.regall, h.configResp⟩
      obtain ⟨s', hDone, path⟩ := ih hReady (fun c hc => hCalls c (List.mem_cons_of_mem _ hc))
        (trace ++ [.config (.sglist pointer pointerIndex addr len)])
      rw [List.append_assoc] at path
      have hFire : (machine addrWidth iid).fire (.sglist pointer pointerIndex addr len) s =
          some (t, [.config (.sglist pointer pointerIndex addr len)]) := by
        simp [machine, fire, ht]
      exact ⟨s', hDone, Machine.Continues.head trivial hFire path⟩
    | region pointer barr8 index8 barr4 index4 barr0 index0 =>
      cases hCalls _ List.mem_cons_self
    | invalidate sglId => cases hCalls _ List.mem_cons_self

theorem Ready.region (h : Ready s) (pointer : BitVec 32) (barr8 : BitVec 64) (index8 : BitVec 32)
    (barr4 : BitVec 64) (index4 : BitVec 32) (barr0 : BitVec 64) (index0 : BitVec 32) :
    ∃ t, s.region pointer barr8 index8 barr4 index4 barr0 index0 = some t := by
  obtain ⟨q, hq, -⟩ := Fifo.exists_enq h.configResp (pointer.setWidth 5)
  simp [MMU.region, Bram.write, h.regall, hq]

theorem sglistCalls_slot (id : BitVec 32) (i : Nat) (entries : List DmaEntry) :
    ∀ c ∈ sglistCalls id i entries, (slot c).isSome := by
  induction entries generalizing i with
  | nil => simp [sglistCalls, slot]
  | cons e rest ih =>
    intro c hc
    rcases List.mem_cons.mp hc with rfl | hc
    · rfl
    · exact ih (i + 1) c hc

theorem Ready.sendFdToPortal (h : Ready s) (id : BitVec 32) (entries : List DmaEntry)
    (trace : List (MMU.Event addrWidth)) :
    ∃ s', (machine addrWidth iid).Continues (fun _ _ _ => True) (s, trace)
      (s', trace ++ (sendFdToPortal id entries).map .config) := by
  obtain ⟨t, hReady, path⟩ := h.sglist iid (sglistCalls_slot id 0 entries) trace
  obtain ⟨barr8, index8, barr4, index4, barr0, index0, hCall⟩ :
      ∃ barr8 index8 barr4 index4 barr0 index0,
        regionCall id entries = .region id barr8 index8 barr4 index4 barr0 index0 :=
    ⟨_, _, _, _, _, _, rfl⟩
  obtain ⟨s', hs'⟩ := hReady.region id barr8 index8 barr4 index4 barr0 index0
  have hFire : (machine addrWidth iid).fire (.region id barr8 index8 barr4 index4 barr0 index0) t =
      some (s', [.config (.region id barr8 index8 barr4 index4 barr0 index0)]) := by
    simp [machine, fire, hs']
  rw [SendFd.sendFdToPortal, List.map_append, ← List.append_assoc, hCall]
  exact ⟨s', Machine.Continues.tail path trivial hFire⟩

end Accepted

/-- A table of 256 pages of 4 KB. -/
def fullTable : List DmaEntry :=
  (List.range 256).map fun i => ⟨BitVec.ofNat 64 ((i + 1) * 4096), 4096⟩

/-- The end mark of a full table lands on its first entry: page 1, at address
4096, is looked for at address 0. -/
theorem end_mark_overwrites_first_entry :
    fullTable.length = 256 ∧ ∃ s trace,
      (machine 40 0).Run (fun _ _ _ => True) s trace ∧ configs trace = sglistCalls 5 0 fullTable ∧
      fullTable[0]? = some ⟨4096, 4096⟩ ∧ pageAddr ⟨4096, 4096⟩ = 1 ∧ s.tables.pages (5, 0) = 0 ∧
      ¬ (slots (sglistCalls 5 0 fullTable)).Nodup ∧ ¬ Readable 5 fullTable s.tables := by
  have hLength : fullTable.length = 256 := by simp [fullTable]
  have hFirst : fullTable[0]? = some ⟨4096, 4096⟩ := rfl
  have hAddr : pageAddr ⟨4096, 4096⟩ = 1 := by decide
  let start : MMU 40 := MMU.powerUp (fun _ => false) (fun _ => none) (fun _ => 0)
  have hStart : Ready start := powerUp_ready _ _ _
  obtain ⟨s, -, path⟩ := hStart.sglist 0 (sglistCalls_slot 5 0 fullTable) []
  have run : (machine 40 0).Run (fun _ _ _ => True) s _ := ⟨start, ⟨_, _, _, rfl⟩, path⟩
  have hSlot : s.tables.pages (5, 0) = 0 := by
    obtain ⟨P', later, hTrace, h', hTables, -⟩ :=
      continues_flow (powerUp_abstracts (fun _ => false) (fun _ => none) (fun _ => 0)) path
    have hEnd := pages_end_mark 5 0 fullTable start.tables
    rw [hLength] at hEnd
    rw [h'.tables, hTables, ← List.nil_append later, ← hTrace, List.nil_append, configs_map_config]
    exact hEnd
  refine ⟨hLength, s, _, run, configs_map_config _, hFirst, hAddr, hSlot, ?_, ?_⟩
  · rw [slots_nodup_iff, hLength]
    decide
  · intro hReadable
    have hPage := hReadable 0 _ hFirst
    rw [hAddr] at hPage
    exact absurd (hSlot.symm.trans hPage) (by decide)

end SendFd
end Connectal
