import Connectal.Shared.RequestPortal

/-! The sender in the first lap of the ring: behind the start there are the messages
that were sent, one after the other, and nothing below the write index changes. -/
namespace Connectal.Shared

open Rules

/-- A word that the sender wrote in the first lap. -/
def written (kind : Kind) (x : BitVec 32) : Word := ⟨x, some (0, kind)⟩

/-- The words of a message in memory. -/
def Message.cells (m : Message) : List Word :=
  written .header m.hdr :: m.payload.map (written .payload) ++
    if m.words % 2 = 1 then [written .pad padHdr] else []

theorem Message.length_cells (m : Message) : m.cells.length = m.size := by
  rw [Message.cells, Message.size]
  split <;> simp [Message.words] at * <;> omega

/-- The messages of a list, one behind the other. -/
def layout (msgs : List Message) : List Word := msgs.flatMap Message.cells

theorem layout_append (msgs msgs' : List Message) :
    layout (msgs ++ msgs') = layout msgs ++ layout msgs' := List.flatMap_append

theorem layout_cons (m : Message) (msgs : List Message) :
    layout (m :: msgs) = m.cells ++ layout msgs := List.flatMap_cons

theorem layout_singleton (m : Message) : layout [m] = m.cells := List.flatMap_singleton ..

/-- Words that are in memory from index `p` on. -/
def Laid (cells : Nat → Word) (p : Nat) (ws : List Word) : Prop :=
  ∀ i w, ws[i]? = some w → cells (p + i) = w

section Laid

variable {cells cells' : Nat → Word} {p : Nat} {ws ws' : List Word}

theorem Laid.congr (h : Laid cells p ws)
    (hSame : ∀ i, p ≤ i → i < p + ws.length → cells' i = cells i) : Laid cells' p ws := by
  intro i w hw
  have hi := (List.getElem_of_getElem? hw).1
  rw [hSame _ (by omega) (by omega)]
  exact h i w hw

theorem laid_append : Laid cells p (ws ++ ws') ↔ Laid cells p ws ∧ Laid cells (p + ws.length) ws' := by
  constructor
  · intro h
    refine ⟨fun i w hw => h i w ?_, fun i w hw => ?_⟩
    · rw [List.getElem?_append_left (List.getElem_of_getElem? hw).1]
      exact hw
    · rw [Nat.add_assoc]
      exact h _ w (by rw [List.getElem?_append_right (Nat.le_add_right _ _), Nat.add_sub_cancel_left]; exact hw)
  · rintro ⟨h, h'⟩ i w hw
    rcases Nat.lt_or_ge i ws.length with hi | hi
    · rw [List.getElem?_append_left hi] at hw
      exact h i w hw
    · rw [List.getElem?_append_right hi] at hw
      have hWord := h' _ w hw
      rwa [Nat.add_assoc, Nat.add_sub_cancel' hi] at hWord

theorem laid_singleton {w : Word} : Laid cells p [w] ↔ cells p = w := by
  constructor
  · exact fun h => h 0 w rfl
  · rintro rfl i w hw
    cases i with
    | zero => exact Option.some.inj hw
    | succ i => simp at hw

theorem laid_cons {w : Word} : Laid cells p (w :: ws) ↔ cells p = w ∧ Laid cells (p + 1) ws := by
  rw [← List.singleton_append, laid_append, laid_singleton]
  rfl

theorem laid_nil : Laid cells p [] := fun i w hw => by simp at hw

theorem Laid.store (h : Laid cells p ws) (w : Word) :
    Laid (Function.update cells (p + ws.length) w) p (ws ++ [w]) := by
  refine laid_append.mpr ⟨h.congr fun i hi hLess => Function.update_of_ne (by omega) .., ?_⟩
  exact laid_singleton.mpr (Function.update_self ..)

end Laid

section Cells

variable {s : RequestSystem} {w : Word} {i j : Nat}

theorem Memory.index_cells_ne (h : j ≠ i) :
    Memory.index (fun k => (Function.update s.cells i w k).value) j = s.mem.index j := by
  simp only [Memory.index, Function.update_of_ne h]
  rfl

theorem Memory.index_cells_self {n : Nat} {k : Kind} (hn : n < 2 ^ 32) :
    Memory.index (fun j => (Function.update s.cells i (written k (BitVec.ofNat 32 n)) j).value) i =
      n := by
  simp only [Memory.index, Function.update_self, written, BitVec.toNat_ofNat]
  exact Nat.mod_eq_of_lt hn

end Cells

/-- What the sender has written for its call, behind the write index. -/
def SenderLaid (cells : Nat → Word) (write : Nat) : SenderPc → Prop
  | .idle | .terminate => True
  | .busywait _ addr | .polled _ addr _ => addr = write + 1
  | .marshall m addr i =>
    addr = write + 1 ∧ i ≤ m.payload.length ∧
      Laid cells (write + 1) ((m.payload.take i).map (written .payload))
  | .header m => Laid cells (write + 1) (m.payload.map (written .payload))
  | .pad m =>
    m.words % 2 = 1 ∧ Laid cells write (written .header m.hdr :: m.payload.map (written .payload))
  | .publish m => Laid cells write m.cells

variable {pc : SenderPc}

theorem SenderLaid.congr {cells cells' : Nat → Word} {write : Nat}
    (h : SenderLaid cells write pc) (hSame : ∀ i, write ≤ i → cells' i = cells i) :
    SenderLaid cells' write pc := by
  cases pc with
  | idle | terminate => trivial
  | busywait | polled => exact h
  | marshall m addr i => exact ⟨h.1, h.2.1, h.2.2.congr fun i hi _ => hSame i (by omega)⟩
  | header m => exact Laid.congr h fun i hi _ => hSame i (by omega)
  | pad m => exact ⟨h.1, h.2.congr fun i hi _ => hSame i hi⟩
  | publish m => exact Laid.congr h fun i hi _ => hSame i hi

/-- The memory and the sender in the first lap, after some messages were sent. -/
structure FirstLap (c : SharedParam) (msgs : List Message) (s : RequestSystem) : Prop where
  lap : s.lap = 0
  limit : s.mem.index sharedLimit = c.limit
  write : s.mem.index sharedWrite = 4 + (layout msgs).length
  bound : 4 + (layout msgs).length + reqwords c.reqsize < c.limit
  laid : Laid s.cells 4 (layout msgs)
  fits : ∀ m ∈ msgs ++ s.sender.pending, c.Fits m
  pc : SenderLaid s.cells (4 + (layout msgs).length) s.sender

namespace FirstLap

variable {c : SharedParam} {msgs : List Message} {s s' : RequestSystem} {m : Message}
  (h : FirstLap c msgs s)

include h

theorem pending_fits (hm : m ∈ s.sender.pending) : c.Fits m :=
  h.fits m (List.mem_append_right _ hm)

/-- Only the sender and the memory matter, without the read index. -/
theorem of_eq (hCells : ∀ i, i < sharedRead ∨ sharedStart ≤ i → s'.cells i = s.cells i)
    (hLap : s'.lap = s.lap) (hSender : s'.sender = s.sender) : FirstLap c msgs s' := by
  have hIndex : ∀ i < sharedRead, s'.mem.index i = s.mem.index i := by
    intro i hi
    unfold Memory.index RequestSystem.mem
    rw [hCells i (.inl hi)]
  have hAbove : ∀ i, 4 ≤ i → s'.cells i = s.cells i := fun i hi => hCells i (.inr hi)
  refine ⟨?_, ?_, ?_, h.bound, ?_, ?_, ?_⟩
  · exact hLap.trans h.lap
  · exact (hIndex _ (by decide)).trans h.limit
  · exact (hIndex _ (by decide)).trans h.write
  · exact h.laid.congr fun i hi _ => hAbove i hi
  · exact hSender ▸ h.fits
  · rw [hSender]
    exact h.pc.congr fun i hi => hAbove i (by omega)

theorem call (hFits : c.Fits m) (hCall : s.call m = some s') :
    FirstLap c msgs s' ∧ ∃ pc, s' = { s with sender := pc } := by
  simp only [RequestSystem.call, firing] at hCall
  obtain ⟨pc, hCall, rfl⟩ := hCall
  cases hPc : s.sender with
  | idle =>
    rw [hPc] at hCall
    cases hCall
    refine ⟨⟨h.lap, h.limit, h.write, h.bound, h.laid, fun m' hm' => ?_, ?_⟩, _, rfl⟩
    · rcases List.mem_append.mp hm' with hm' | hm'
      · exact h.fits m' (List.mem_append_left _ hm')
      · rw [List.mem_singleton.mp hm']
        exact hFits
    · show _ + 1 = _
      rw [h.write]
  | _ =>
    rw [hPc] at hCall
    cases hCall

theorem store {i : Nat} {w : Word}
    (hi : 4 + (layout msgs).length ≤ i) (hPending : ∀ m ∈ pc.pending, m ∈ s.sender.pending)
    (hPc : SenderLaid (Function.update s.cells i w) (4 + (layout msgs).length) pc) :
    FirstLap c msgs { s with sender := pc, cells := Function.update s.cells i w } := by
  have hIndex : ∀ j < 4, Memory.index (fun k => (Function.update s.cells i w k).value) j =
      s.mem.index j := fun j hj => Memory.index_cells_ne (by omega)
  refine ⟨h.lap, (hIndex _ (by decide)).trans h.limit, (hIndex _ (by decide)).trans h.write, h.bound,
    h.laid.congr fun j hj hLess => Function.update_of_ne (by omega) .., fun m hm => ?_, hPc⟩
  rcases List.mem_append.mp hm with hm | hm
  · exact h.fits m (List.mem_append_left _ hm)
  · exact h.pending_fits (hPending m hm)

theorem quiet (hPending : ∀ m ∈ pc.pending, m ∈ s.sender.pending)
    (hPc : SenderLaid s.cells (4 + (layout msgs).length) pc) : FirstLap c msgs { s with sender := pc } := by
  refine ⟨h.lap, h.limit, h.write, h.bound, h.laid, fun m hm => ?_, hPc⟩
  rcases List.mem_append.mp hm with hm | hm
  · exact h.fits m (List.mem_append_left _ hm)
  · exact h.pending_fits (hPending m hm)

theorem publish (hPc : s.sender = .publish m)
    (hOne : 4 + (layout msgs).length + m.size + reqwords c.reqsize < c.limit) (k : Kind) :
    FirstLap c (msgs ++ [m]) { s with
      sender := .terminate
      cells := Function.update s.cells sharedWrite (written k (BitVec.ofNat 32
        (incrementShared c.reqsize s.mem (s.mem.index sharedWrite + sendWords m.hdr)))) } := by
  have hFits : c.Fits m := h.pending_fits (by rw [hPc]; exact List.mem_singleton_self m)
  have hStored := h.pc
  rw [hPc] at hStored
  have hNext : incrementShared c.reqsize s.mem (s.mem.index sharedWrite + sendWords m.hdr) =
      4 + (layout msgs).length + m.size := by
    rw [incrementShared, h.limit, h.write, hFits.sendWords_hdr, if_neg (by omega)]
  have hLength : (layout (msgs ++ [m])).length = (layout msgs).length + m.size := by
    rw [layout_append, List.length_append, layout_singleton, m.length_cells]
  have hLimit := c.limit_lt
  rw [hNext]
  refine ⟨h.lap, ?_, ?_, by rw [hLength]; omega, ?_, ?_, trivial⟩
  · exact (Memory.index_cells_ne (by decide)).trans h.limit
  · rw [hLength, ← Nat.add_assoc]
    exact Memory.index_cells_self (by omega)
  · have hAbove : ∀ w j, 4 ≤ j → Function.update s.cells sharedWrite w j = s.cells j :=
      fun w j hj => Function.update_of_ne (by rw [sharedWrite]; omega) ..
    rw [layout_append, layout_singleton]
    refine laid_append.mpr ⟨h.laid.congr fun j hj _ => hAbove _ j hj, ?_⟩
    exact Laid.congr hStored fun j hj _ => hAbove _ j (by omega)
  · intro m' hm'
    rcases List.mem_append.mp hm' with hm' | hm'
    · exact h.fits m' (by rw [hPc]; exact hm')
    · cases hm'

/-- A message that does not wrap leaves room for another one. -/
theorem size_lt (hPc : s.sender = .publish m)
    (hLap : s.nextLap c.reqsize = s.lap) :
    4 + (layout msgs).length + m.size + reqwords c.reqsize < c.limit := by
  have hFits : c.Fits m := h.pending_fits (by rw [hPc]; exact List.mem_singleton_self m)
  by_contra hWrap
  rw [RequestSystem.nextLap, hPc] at hLap
  simp only [h.write, h.limit, hFits.sendWords_hdr] at hLap
  rw [if_pos (by omega)] at hLap
  omega

/-- What a step of the sender does in the first lap: nothing below the write index
changes, apart from that index. -/
structure Sends (c : SharedParam) (msgs : List Message) (s s' : RequestSystem) : Prop where
  lap : FirstLap c (msgs ++ s.sender.publishes) s'
  others : ∃ pc cells, s' = { s with sender := pc, cells }
  below : ∀ i, i ≠ sharedWrite → i < 4 + (layout msgs).length → s'.cells i = s.cells i

theorem sends_quiet (hNone : s.sender.publishes = []) (hPending : ∀ m ∈ pc.pending, m ∈ s.sender.pending)
    (hPc : SenderLaid s.cells (4 + (layout msgs).length) pc) : Sends c msgs s { s with sender := pc } := by
  refine ⟨?_, ⟨pc, s.cells, rfl⟩, fun _ _ _ => rfl⟩
  rw [hNone, List.append_nil]
  exact h.quiet hPending hPc

theorem sends_store (hNone : s.sender.publishes = []) {i : Nat}
    {w : Word} (hi : 4 + (layout msgs).length ≤ i) (hPending : ∀ m ∈ pc.pending, m ∈ s.sender.pending)
    (hPc : SenderLaid (Function.update s.cells i w) (4 + (layout msgs).length) pc) :
    Sends c msgs s { s with sender := pc, cells := Function.update s.cells i w } := by
  refine ⟨?_, ⟨pc, _, rfl⟩, fun j _ hj => Function.update_of_ne (by omega) ..⟩
  rw [hNone, List.append_nil]
  exact h.store hi hPending hPc

theorem sends (hLap : s.nextLap c.reqsize = s.lap)
    (hStep : s.sendStep c.reqsize = some s') : Sends c msgs s s' := by
  simp only [RequestSystem.sendStep, firing] at hStep
  obtain ⟨pc, st, hStep, rfl⟩ := hStep
  rw [hLap]
  have hWritten : ∀ k x, (⟨x, some (s.lap, k)⟩ : Word) = written k x := by
    intro k x
    rw [h.lap]
    rfl
  have hLaid := h.pc
  have hWrite := h.write
  cases hPc : s.sender with
  | idle =>
    rw [hPc] at hStep
    cases hStep
  | busywait m addr =>
    rw [hPc] at hStep hLaid
    cases hStep
    exact h.sends_quiet (by rw [hPc]; rfl) (by rw [hPc]; exact fun _ => id) hLaid
  | polled m addr write =>
    rw [hPc] at hLaid
    rw [hPc, senderStep] at hStep
    split at hStep
    · cases hStep
      exact h.sends_quiet (by rw [hPc]; rfl) (by rw [hPc]; exact fun _ => id)
        ⟨hLaid, Nat.zero_le _, laid_nil⟩
    · cases hStep
      exact h.sends_quiet (by rw [hPc]; rfl) (by rw [hPc]; exact fun _ => id) hLaid
  | marshall m addr i =>
    rw [hPc] at hLaid
    rw [hPc, senderStep] at hStep
    obtain ⟨hAddr, hi, hWords⟩ := hLaid
    split at hStep
    · next x hx =>
      cases hStep
      have hLess := (List.getElem_of_getElem? hx).1
      have hLength : ((m.payload.take i).map (written .payload)).length = i := by
        rw [List.length_map, List.length_take, Nat.min_eq_left hi]
      simp only [RequestSystem.store, hWritten]
      refine h.sends_store (by rw [hPc]; rfl) (by omega) (by rw [hPc]; exact fun _ => id)
        ⟨hAddr, hLess, ?_⟩
      have hStored := hWords.store (written .payload x)
      rw [hLength, ← hAddr] at hStored
      rwa [List.take_add_one, hx, Option.toList_some, List.map_append, ← hAddr]
    · next hx =>
      cases hStep
      refine h.sends_quiet (by rw [hPc]; rfl) (by rw [hPc]; exact fun _ => id) ?_
      rwa [List.take_of_length_le (List.getElem?_eq_none_iff.mp hx)] at hWords
  | header m =>
    rw [hPc] at hLaid
    rw [hPc, senderStep] at hStep
    have hFits : c.Fits m := h.pending_fits (by rw [hPc]; exact List.mem_singleton_self m)
    cases hStep
    simp only [RequestSystem.store, hWritten]
    have hStored : Laid (Function.update s.cells (s.mem.index sharedWrite) (written .header m.hdr))
        (4 + (layout msgs).length) (written .header m.hdr :: m.payload.map (written .payload)) := by
      rw [hWrite]
      refine laid_cons.mpr ⟨Function.update_self .., ?_⟩
      exact Laid.congr hLaid fun j hj _ => Function.update_of_ne (by omega) ..
    refine h.sends_store (by rw [hPc]; rfl) hWrite.ge ?_ ?_
    · rw [hPc]
      split <;> exact fun _ => id
    · rw [hFits.needsPadding_hdr]
      split
      · next hOdd => exact ⟨beq_iff_eq.mp hOdd, hStored⟩
      · next hEven =>
        rw [beq_iff_eq] at hEven
        rw [SenderLaid, Message.cells, if_neg hEven, List.append_nil]
        exact hStored
  | pad m =>
    rw [hPc] at hLaid
    rw [hPc, senderStep] at hStep
    have hFits : c.Fits m := h.pending_fits (by rw [hPc]; exact List.mem_singleton_self m)
    cases hStep
    simp only [RequestSystem.store, hWritten]
    obtain ⟨hOdd, hWords⟩ := hLaid
    refine h.sends_store (by rw [hPc]; rfl) (by omega) (by rw [hPc]; exact fun _ => id) ?_
    have hStored := hWords.store (written .pad padHdr)
    rw [SenderLaid, Message.cells, if_pos hOdd, hWrite, hFits.headerWords_hdr]
    rwa [List.length_cons, List.length_map] at hStored
  | publish m =>
    rw [hPc, senderStep] at hStep
    cases hStep
    simp only [RequestSystem.store, hWritten]
    refine ⟨?_, ⟨_, _, rfl⟩, fun i hi _ => Function.update_of_ne hi ..⟩
    rw [hPc]
    exact h.publish hPc (h.size_lt hPc hLap) .index
  | terminate =>
    rw [hPc, senderStep] at hStep
    cases hStep
    simp only [RequestSystem.store, hWritten]
    exact h.sends_store (by rw [hPc]; rfl) hWrite.ge (fun m hm => by cases hm) trivial

end FirstLap

end Connectal.Shared
