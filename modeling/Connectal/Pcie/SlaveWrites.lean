import Connectal.Pcie.MemSlaveEngine

/-! Write packets at `mkMemSlaveEngine`. -/
namespace Connectal.Pcie

open Layout Rules
open TLPData (frame)

/-- The first beats of a packet and the words that they carry: `Head` says which words
are in the first beat. -/
def Payload (Head : TLPData 16 → List (BitVec 32) → Prop) (words : List (BitVec 32))
    (p : List (TLPData 16)) : Prop :=
  ∃ b rest first more, p = b :: rest ∧ words = first ++ more ∧ Head b first ∧
    rest.flatMap TLPData.valid = more.map byteSwap ∧ ∀ c ∈ rest, c.valid ≠ []

section Payload

variable {Head : TLPData 16 → List (BitVec 32) → Prop} {words more : List (BitVec 32)}
  {p : List (TLPData 16)} {b : TLPData 16}

theorem Payload.head (h : Head b words) : Payload Head words [b] :=
  ⟨b, [], words, [], rfl, (List.append_nil _).symm, h, rfl, fun _ hc => by cases hc⟩

theorem Payload.concat (h : Payload Head words p) (hValid : b.valid = more.map byteSwap) (hMore : more ≠ []) :
    Payload Head (words ++ more) (p ++ [b]) := by
  obtain ⟨c, rest, first, tail, rfl, rfl, hHead, hRest, hSome⟩ := h
  refine ⟨c, rest ++ [b], first, tail ++ more, rfl, List.append_assoc _ _ _, hHead, ?_, ?_⟩
  · rw [List.flatMap_append, hRest, List.flatMap_singleton, hValid, List.map_append]
  · rw [List.forall_mem_append, List.forall_mem_singleton, hValid]
    exact ⟨hSome, by simpa using hMore⟩

theorem Payload.isEmpty_eq (h : Payload Head words p) : p.isEmpty = false := by
  obtain ⟨b, rest, _, _, rfl, -⟩ := h
  rfl

end Payload

/-- The first beat of a write packet: a short header with one data word or a long header. -/
def WriteHead (k : Fin 3) (myId : BitVec 16) (req : PhysMemRequest 40) (b : TLPData 16)
    (first : List (BitVec 32)) : Prop :=
  b.be = 0xffff ∧
    if is3dw req then ∃ word, first = [word] ∧ TLPMemoryIO3DWHeader.unpack b.data =
      { header3dw k myId req .memWrite3dwData with data := byteSwap word }
    else first = [] ∧ TLPMemory4DWHeader.unpack b.data = header4dw k myId req .memWrite4dwData

/-- A request of either kind; a write comes with its data words. -/
inductive Item where
  | read (req : PhysMemRequest 40)
  | write (req : PhysMemRequest 40) (words : List (BitVec 32))

namespace Item

def read? : Item → Option (PhysMemRequest 40)
  | read req => some req
  | write .. => none

def write? : Item → Option (PhysMemRequest 40)
  | read _ => none
  | write req _ => some req

def words : Item → List (BitVec 32)
  | read _ => []
  | write _ words => words

/-- The packet of a request. -/
def Emits (k : Fin 3) (myId : BitVec 16) : Item → List (TLPData 16) → Prop
  | read req, p => p = [readTlp k myId req]
  | write req words, p => (frame 16).Packet p ∧ Payload (WriteHead k myId req) words p ∧
      words.length = (tlplen k req).toNat

end Item

namespace MemSlaveEngine

variable {k : Fin 3}

def writeReq? : Event k → Option (PhysMemRequest 40)
  | .writeReq req => some req
  | _ => none

def writeData? : Event k → Option (List (BitVec 32))
  | .writeData data => some (List.ofFn data.data)
  | _ => none

def writeDone? : Event k → Option (BitVec 6)
  | .writeDone tag => some tag
  | _ => none

def readReq? : Event k → Option (PhysMemRequest 40)
  | .readReq req => some req
  | _ => none

def tlpOut? : Event k → Option (TLPData 16)
  | .tlpOut tlp => some tlp
  | _ => none

/-- Requests of either kind. -/
def request? : Event k → Option (PhysMemRequest 40 ⊕ PhysMemRequest 40)
  | .writeReq req => some (.inl req)
  | .readReq req => some (.inr req)
  | _ => none

/-- The length of a write is a positive multiple of the bytes of the bus. -/
def Legal (k : Fin 3) (req : PhysMemRequest 40) : Prop :=
  0 < req.burstLen.toNat ∧ req.burstLen.toNat % 2 ^ (k.val + 2) = 0

def Writes (_ : List (Event k)) (_ : MemSlaveEngine) : Action k → Prop
  | .writeReqPut req => Legal k req
  | _ => True

instance (trace : List (Event k)) (s : MemSlaveEngine) (action : Action k) :
    Decidable (Writes trace s action) :=
  match action with
  | .writeReqPut req => inferInstanceAs
      (Decidable (0 < req.burstLen.toNat ∧ req.burstLen.toNat % 2 ^ (k.val + 2) = 0))
  | .writeDataPut _ | .writeDoneGet | .readReqPut _ | .readDataGet | .requestGet | .responsePut _
  | .writeHeaderTlp | .writeTlps _ | .readReqRule | .tlpInRule | .handleTlpRule | .tofifos | .tagTofifos =>
    .isTrue trivial

theorem toNat_burstBeats (req : PhysMemRequest 40) :
    ((burstBeats k req).setWidth 10).toNat = req.burstLen.toNat / 2 ^ (k.val + 2) := by
  have hLt := req.burstLen.isLt
  have hLe := Nat.div_le_self req.burstLen.toNat (2 ^ (k.val + 2))
  rw [burstBeats, BitVec.toNat_setWidth, BitVec.toNat_ushiftRight, Nat.shiftRight_eq_div_pow,
    Nat.mod_eq_of_lt (by omega)]

theorem toNat_tlplen (req : PhysMemRequest 40) :
    (tlplen k req).toNat = 2 ^ k.val * ((burstBeats k req).setWidth 10).toNat := by
  have hLt := req.burstLen.isLt
  rw [tlplen, BitVec.toNat_mul, toNat_burstBeats, BitVec.toNat_ofNat]
  obtain ⟨k, hk⟩ := k
  interval_cases k
  all_goals
    simp only [Nat.reduceAdd, Nat.reducePow, Nat.reduceMod] at hLt ⊢
    exact Nat.mod_eq_of_lt (by omega)

variable {req : PhysMemRequest 40}

theorem Legal.beats_pos (h : Legal k req) :
    0 < ((burstBeats k req).setWidth 10).toNat := by
  rw [toNat_burstBeats]
  exact Nat.div_pos (Nat.le_of_dvd h.1 (Nat.dvd_of_mod_eq_zero h.2)) (Nat.two_pow_pos _)

theorem Legal.tlplen_pos (h : Legal k req) : 0 < (tlplen k req).toNat := by
  rw [toNat_tlplen]
  exact Nat.mul_pos (Nat.two_pow_pos _) h.beats_pos

theorem Legal.tlplen_eq (h : Legal k req) :
    4 * (tlplen k req).toNat = req.burstLen.toNat := by
  have hExact := Nat.div_add_mod req.burstLen.toNat (2 ^ (k.val + 2))
  rw [h.2, Nat.pow_add] at hExact
  rw [toNat_tlplen, toNat_burstBeats, Nat.pow_add, ← Nat.mul_assoc, Nat.mul_comm 4]
  exact hExact

/-- The write packet that is being sent, and the registers that count its missing words. -/
structure Sending (k : Fin 3) (myId : BitVec 16) (writeDwCount : BitVec 10) (tlpDwCount : BitVec 3)
    (lastTlp : Bool) (req : PhysMemRequest 40) (current : List (BitVec 32)) (p : List (TLPData 16)) :
    Prop where
  opened : (frame 16).Opened p
  payload : Payload (WriteHead k myId req) current p
  left : current.length + writeDwCount.toNat = (tlplen k req).toNat
  positive : 0 < writeDwCount.toNat
  next : tlpDwCount.toNat = min 4 writeDwCount.toNat
  last : lastTlp = decide (writeDwCount.toNat ≤ 4)

/-- The write packet that is being sent, if there is one. -/
def Front (k : Fin 3) (myId : BitVec 16) (writeInProgress : Bool) (writeDwCount : BitVec 10)
    (tlpDwCount : BitVec 3) (lastTlp : Bool) (busy : List (PhysMemRequest 40))
    (current : List (BitVec 32)) (p : List (TLPData 16)) : Prop :=
  if writeInProgress then
    ∃ req, busy = [req] ∧ Sending k myId writeDwCount tlpDwCount lastTlp req current p
  else busy = [] ∧ current = [] ∧ p = []

/-- The beats that writes have. -/
def beatsOf (counts : List (BitVec 10)) : Nat := (counts.map (·.toNat)).sum

/-- The words that writes have. -/
def wordsOf (k : Fin 3) (writes : List (PhysMemRequest 40)) : Nat :=
  (writes.map fun req => (tlplen k req).toNat).sum

theorem wordsOf_append (l m : List (PhysMemRequest 40)) :
    wordsOf k (l ++ m) = wordsOf k l + wordsOf k m := by
  simp [wordsOf]

/-- Every request is in a packet, in the packet that is being sent, or waiting. The queues
of the write requests are aligned, and the data words belong to the writes in order. -/
structure WritesInv (k : Fin 3) (myId : BitVec 16) (writes reads : List (PhysMemRequest 40))
    (words : List (BitVec 32)) (tags : List (BitVec 6)) (sent : List (TLPData 16)) (s : MemSlaveEngine)
    (items : List Item) (busy queued : List (PhysMemRequest 40)) (current : List (BitVec 32)) : Prop where
  legal : ∀ req ∈ writes, Legal k req
  writes_eq : writes = items.filterMap Item.write? ++ busy ++ queued
  reads_eq : reads = items.filterMap Item.read? ++ s.readReqFifo.items
  headers : s.tlpWriteHeaderFifo.items = queued.map (writeTlp k myId)
  counts : s.writeDwCountFifo.items = queued.map (tlplen k)
  formats : s.writeIs3dwFifo.items = queued.map is3dw
  headerOnly : s.writeIsHeaderOnlyFifo.items = queued.map (isHeaderOnly k)
  writeTags : s.writeTag.items = (busy ++ queued).map (·.tag.setWidth 8)
  doneTags : tags ++ s.doneTag.items.map (·.setWidth 6) = (items.filterMap Item.write?).map (·.tag)
  words_eq : words = items.flatMap Item.words ++ current ++ s.writeDataMimo.items
  owed : words.length + 2 ^ k.val * (s.writeBurstCount.toNat + beatsOf s.writeBurstCountFifo.items) =
    wordsOf k writes
  bursts : ∀ b ∈ s.writeBurstCountFifo.items, 0 < b.toNat
  emitted : List.Forall₂ (Item.Emits k myId) items ((frame 16).cut (sent ++ s.tlpOutFifo.items)).1
  front : Front k myId s.writeInProgress s.writeDwCount s.tlpDwCount s.lastTlp busy current
    ((frame 16).cut (sent ++ s.tlpOutFifo.items)).2

variable {myId : BitVec 16} {writes reads busy queued : List (PhysMemRequest 40)}
  {words current : List (BitVec 32)} {tags : List (BitVec 6)} {sent : List (TLPData 16)}
  {s s' : MemSlaveEngine} {items : List Item} {events : List (Event k)}

theorem toNat_dwCount (n : Nat) : (BitVec.ofNat 3 (min 4 n)).toNat = min 4 n := by
  rw [BitVec.toNat_ofNat]
  omega

theorem filterMap_write_concat (req : PhysMemRequest 40) (ws : List (BitVec 32)) :
    (items ++ [Item.write req ws]).filterMap Item.write? = items.filterMap Item.write? ++ [req] := by
  rw [List.filterMap_append]
  rfl

theorem filterMap_read_concat (req : PhysMemRequest 40) (ws : List (BitVec 32)) :
    (items ++ [Item.write req ws]).filterMap Item.read? = items.filterMap Item.read? := by
  rw [List.filterMap_append]
  exact List.append_nil _

theorem words_concat (req : PhysMemRequest 40) (ws : List (BitVec 32)) :
    (items ++ [Item.write req ws]).flatMap Item.words = items.flatMap Item.words ++ ws := by
  rw [List.flatMap_append, List.flatMap_singleton]
  rfl

variable (k myId) in
/-- The first beat of a write packet, made from its header in the queue. -/
theorem writeHead_headerBeat (req : PhysMemRequest 40) {first : List (BitVec 32)}
    (hFirst : first.length = if is3dw req then 1 else 0) :
    WriteHead k myId req (headerBeat (writeTlp k myId req) (is3dw req) (tlplen k req) first) first := by
  unfold WriteHead headerBeat writeTlp
  cases hShort : is3dw req with
  | true =>
    rw [hShort] at hFirst
    obtain ⟨word, rfl⟩ := List.length_eq_one_iff.mp hFirst
    refine ⟨rfl, word, rfl, ?_⟩
    simp only [if_true, TLPMemoryIO3DWHeader.unpack_pack]
    rfl
  | false =>
    rw [hShort] at hFirst
    exact ⟨rfl, List.eq_nil_of_length_eq_zero hFirst, TLPMemory4DWHeader.unpack_pack _⟩

variable (k myId) in
theorem sof_headerBeat (req : PhysMemRequest 40) (first : List (BitVec 32)) :
    (headerBeat (writeTlp k myId req) (is3dw req) (tlplen k req) first).sof = true := by
  unfold headerBeat writeTlp
  cases is3dw req <;> rfl

variable (k myId) in
theorem eof_headerBeat (req : PhysMemRequest 40) (first : List (BitVec 32)) :
    (headerBeat (writeTlp k myId req) (is3dw req) (tlplen k req) first).eof =
      isHeaderOnly k req := by
  unfold headerBeat writeTlp isHeaderOnly
  cases is3dw req with
  | true =>
    simp only [if_true, Bool.true_and]
    by_cases h : tlplen k req = 1
    · rw [if_pos h, h]; rfl
    · rw [if_neg h, beq_eq_false_iff_ne.mpr h]
  | false => rfl

theorem left_headerBeat (hLegal : Legal k req) :
    (if is3dw req then 1 else 0) + (if is3dw req then tlplen k req - 1 else tlplen k req).toNat =
      (tlplen k req).toNat ∧
    ((if is3dw req then tlplen k req - 1 else tlplen k req) = 0 ↔ isHeaderOnly k req = true) := by
  have hPos := hLegal.tlplen_pos
  unfold isHeaderOnly
  cases is3dw req with
  | true =>
    refine ⟨?_, ?_⟩
    · rw [if_pos rfl, if_pos rfl]
      bv_omega
    · rw [if_pos rfl, Bool.true_and, beq_iff_eq, sub_eq_zero]
  | false =>
    refine ⟨Nat.zero_add _, ?_⟩
    rw [if_neg Bool.false_ne_true, Bool.false_and]
    refine ⟨fun hZero => ?_, fun hFalse => by cases hFalse⟩
    rw [hZero] at hPos
    exact absurd hPos (by decide)

namespace WritesInv

variable (h : WritesInv k myId writes reads words tags sent s items busy queued current)

include h

theorem writeHeaderTlp (hFire : MemSlaveEngine.writeHeaderTlp s = some (s', events)) :
    events = [] ∧ ∃ items' busy' queued' current',
      WritesInv k myId writes reads words tags sent s' items' busy' queued' current' := by
  simp only [MemSlaveEngine.writeHeaderTlp, firing, Fifo.deqN_eq_some, Fifo.enqIf_eq_some, Fifo.deqIf_eq_some] at hFire
  obtain ⟨hIdle, tlp, headers, hHeaders, dwCount, counts, hCounts, short, formats, hFormats, only, onlys,
    hOnlys, first, mimo, ⟨hFirst, hMimo⟩, out, ⟨-, hOut⟩, done, ⟨-, hDone⟩, writeTags, ⟨hLast, hMore⟩,
    rfl, rfl⟩ := hFire
  have hFront := h.front
  rw [Front, hIdle, if_neg Bool.false_ne_true] at hFront
  obtain ⟨rfl, rfl, hOpen⟩ := hFront
  cases queued with
  | nil => exact absurd (hHeaders.symm.trans h.headers) (List.cons_ne_nil _ _)
  | cons req queued =>
  -- the four queues show the fields of the same request
  obtain ⟨rfl, hHeadersRest⟩ := List.cons.inj (hHeaders.symm.trans h.headers)
  obtain ⟨rfl, hCountsRest⟩ := List.cons.inj (hCounts.symm.trans h.counts)
  obtain ⟨rfl, hFormatsRest⟩ := List.cons.inj (hFormats.symm.trans h.formats)
  obtain ⟨rfl, hOnlysRest⟩ := List.cons.inj (hOnlys.symm.trans h.headerOnly)
  have hLegal := h.legal req (by rw [h.writes_eq]; simp)
  obtain ⟨hLeft, hZero⟩ := left_headerBeat hLegal
  have hTags : s.writeTag.items = req.tag.setWidth 8 :: queued.map (·.tag.setWidth 8) := h.writeTags
  rw [← List.append_right_inj sent, ← List.append_assoc] at hOut
  have hPayload := Payload.head (writeHead_headerBeat k myId req hFirst)
  have hSof := sof_headerBeat k myId req first
  have hEof := eof_headerBeat k myId req first
  refine ⟨rfl, ?_⟩
  cases hOnly : isHeaderOnly k req with
  | true =>
    rw [hOnly] at hEof hZero hDone hLast
    obtain ⟨tag, hTag⟩ := hLast rfl
    obtain ⟨rfl, hTagsRest⟩ := List.cons.inj (hTag.symm.trans hTags)
    have hNone := hZero.mpr rfl
    refine ⟨items ++ [.write req first], [], queued, [], h.legal, ?_, ?_, hHeadersRest, hCountsRest, hFormatsRest,
      hOnlysRest, hTagsRest, ?_, ?_, h.owed, h.bursts, ?_, ?_⟩
    · rw [filterMap_write_concat, h.writes_eq]
      simp
    · rw [filterMap_read_concat]
      exact h.reads_eq
    · show tags ++ done.items.map _ = _
      rw [filterMap_write_concat, hDone, hTags, List.map_append, ← List.append_assoc, h.doneTags,
        List.map_append]
      simp
    · rw [words_concat, h.words_eq, hMimo]
      simp
    · show List.Forall₂ _ _ ((frame 16).cut (sent ++ out.items)).1
      rw [hOut, Frame.cut_concat_eof hEof, hOpen]
      refine List.rel_append h.emitted (.cons ⟨?_, hPayload, ?_⟩ .nil)
      · exact Frame.Opened.close (l := []) trivial hSof hEof
      · rw [hNone] at hLeft
        exact hFirst.trans hLeft
    · show Front k myId (_ != 0) _ _ _ _ _ ((frame 16).cut (sent ++ out.items)).2
      rw [hOut, Frame.cut_concat_eof hEof, hNone]
      exact ⟨rfl, rfl, rfl⟩
  | false =>
    rw [hOnly] at hEof hZero hDone hMore
    obtain rfl := hMore Bool.false_ne_true
    have hSome := fun hNone => Bool.false_ne_true (hZero.mp hNone)
    have hSomeNat := fun hNone => hSome (BitVec.eq_of_toNat_eq hNone)
    refine ⟨items, [req], queued, first, h.legal, ?_, h.reads_eq, hHeadersRest, hCountsRest, hFormatsRest,
      hOnlysRest, h.writeTags, ?_, ?_, h.owed, h.bursts, ?_, ?_⟩
    · rw [h.writes_eq]
      simp
    · show tags ++ done.items.map _ = _
      rw [hDone, if_neg Bool.false_ne_true, List.append_nil]
      exact h.doneTags
    · rw [h.words_eq, hMimo]
      simp
    · show List.Forall₂ _ _ ((frame 16).cut (sent ++ out.items)).1
      rw [hOut, Frame.cut_concat_middle hEof]
      exact h.emitted
    · show Front k myId (_ != 0) _ _ _ _ _ ((frame 16).cut (sent ++ out.items)).2
      rw [hOut, Frame.cut_concat_middle hEof, hOpen, bne_iff_ne.mpr hSome]
      refine ⟨req, rfl, ⟨hSof, hEof, fun _ hc => by cases hc⟩, hPayload, ?_, Nat.pos_of_ne_zero hSomeNat,
        toNat_dwCount _, rfl⟩
      rw [hFirst]
      exact hLeft

theorem writeTlps {stale : Fin 4 → BitVec 32}
    (hFire : MemSlaveEngine.writeTlps stale s = some (s', events)) :
    events = [] ∧ ∃ items' busy' current',
      WritesInv k myId writes reads words tags sent s' items' busy' queued current' := by
  simp only [MemSlaveEngine.writeTlps, firing, Fifo.deqN_eq_some, Fifo.enqIf_eq_some, Fifo.deqIf_eq_some] at hFire
  obtain ⟨hBusy, chunk, mimo, ⟨hChunk, hMimo⟩, out, ⟨-, hOut⟩, done, ⟨-, hDone⟩, writeTags, ⟨hLast, hMore⟩,
    rfl, rfl⟩ := hFire
  have hFront := h.front
  rw [Front, hBusy, if_pos rfl] at hFront
  obtain ⟨req, rfl, hSending⟩ := hFront
  have hNext := hSending.next
  have hPositive := hSending.positive
  have hLength : chunk.length ≤ 4 := by omega
  have hNonempty : chunk ≠ [] := List.ne_nil_of_length_pos (by omega)
  rw [← List.append_right_inj sent, ← List.append_assoc, ← hChunk] at hOut
  have hTags : s.writeTag.items = req.tag.setWidth 8 :: queued.map (·.tag.setWidth 8) := h.writeTags
  refine ⟨rfl, ?_⟩
  cases hEnd : s.lastTlp with
  | true =>
    have hLe := of_decide_eq_true (hSending.last.symm.trans hEnd)
    rw [hEnd] at hOut hDone hLast
    obtain ⟨tag, hTag⟩ := hLast rfl
    obtain ⟨rfl, hTagsRest⟩ := List.cons.inj (hTag.symm.trans hTags)
    refine ⟨items ++ [.write req (current ++ chunk)], [], [], { h with
      writes_eq := ?_, reads_eq := ?_, writeTags := hTagsRest, doneTags := ?_, words_eq := ?_
      emitted := ?_, front := ?_ }⟩
    · rw [filterMap_write_concat, h.writes_eq]
      simp
    · rw [filterMap_read_concat]
      exact h.reads_eq
    · show tags ++ done.items.map _ = _
      rw [filterMap_write_concat, hDone, hTags, List.map_append, ← List.append_assoc, h.doneTags,
        List.map_append]
      simp
    · rw [words_concat, h.words_eq, hMimo]
      simp
    · show List.Forall₂ _ _ ((frame 16).cut (sent ++ out.items)).1
      rw [hOut, Frame.cut_concat_eof rfl]
      refine List.rel_append h.emitted (.cons ⟨?_, hSending.payload.concat (valid_beatData rfl rfl hLength) hNonempty,
        ?_⟩ .nil)
      · exact hSending.opened.close hSending.payload.isEmpty_eq.symm rfl
      · have := hSending.left
        rw [List.length_append]
        omega
    · show Front k myId (!true) _ _ _ _ _ ((frame 16).cut (sent ++ out.items)).2
      rw [hOut, Frame.cut_concat_eof rfl]
      exact ⟨rfl, rfl, rfl⟩
  | false =>
    have hLt := of_decide_eq_false (hSending.last.symm.trans hEnd)
    rw [hEnd] at hOut hDone hMore
    obtain rfl := hMore Bool.false_ne_true
    have hLeft : (s.writeDwCount - s.tlpDwCount.setWidth 10).toNat = s.writeDwCount.toNat - 4 := by bv_omega
    refine ⟨items, [req], current ++ chunk, { h with doneTags := ?_, words_eq := ?_, emitted := ?_, front := ?_ }⟩
    · show tags ++ done.items.map _ = _
      rw [hDone, if_neg Bool.false_ne_true, List.append_nil]
      exact h.doneTags
    · rw [h.words_eq, hMimo]
      simp
    · show List.Forall₂ _ _ ((frame 16).cut (sent ++ out.items)).1
      rw [hOut, Frame.cut_concat_middle rfl]
      exact h.emitted
    · show Front k myId (!false) _ _ _ _ _ ((frame 16).cut (sent ++ out.items)).2
      rw [hOut, Frame.cut_concat_middle rfl]
      refine ⟨req, rfl, hSending.opened.concat hSending.payload.isEmpty_eq.symm rfl,
        hSending.payload.concat (valid_beatData rfl rfl hLength) hNonempty, ?_, ?_, toNat_dwCount _, rfl⟩
      · have := hSending.left
        rw [hLeft, List.length_append]
        omega
      · rw [hLeft]
        omega

theorem readReqRule (hFire : MemSlaveEngine.readReqRule myId s = some (s', events)) :
    events = [] ∧ ∃ items', WritesInv k myId writes reads words tags sent s' items' busy queued current := by
  simp only [MemSlaveEngine.readReqRule, firing] at hFire
  obtain ⟨⟨hIdle, -⟩, req, q, hReq, out, ⟨-, hOut⟩, rfl, rfl⟩ := hFire
  have hFront := h.front
  rw [Front, hIdle, if_neg Bool.false_ne_true] at hFront
  obtain ⟨hBusy, hCurrent, hOpen⟩ := hFront
  rw [← List.append_right_inj sent, ← List.append_assoc] at hOut
  have hEof : (readTlp k myId req).eof = true := by
    unfold readTlp
    split <;> rfl
  refine ⟨rfl, items ++ [.read req], { h with
    writes_eq := ?_, reads_eq := ?_, doneTags := ?_, words_eq := ?_, emitted := ?_, front := ?_ }⟩
  · rw [h.writes_eq, List.filterMap_append]
    simp [Item.write?]
  · rw [h.reads_eq, hReq, List.filterMap_append]
    simp [Item.read?]
  · rw [List.filterMap_append]
    simpa [List.filterMap_cons, Item.write?] using h.doneTags
  · rw [h.words_eq, List.flatMap_append]
    simp [Item.words]
  · show List.Forall₂ _ _ ((frame 16).cut (sent ++ out.items)).1
    rw [hOut, Frame.cut_concat_eof hEof, hOpen]
    exact List.rel_append h.emitted (.cons rfl .nil)
  · show Front k myId s.writeInProgress _ _ _ _ _ ((frame 16).cut (sent ++ out.items)).2
    rw [hOut, Frame.cut_concat_eof hEof, hIdle]
    exact ⟨hBusy, hCurrent, rfl⟩

theorem writeReqPut (hLegal : Legal k req)
    (hFire : MemSlaveEngine.writeReqPut myId req s = some (s', events)) :
    events = [.writeReq req] ∧
      WritesInv k myId (writes ++ [req]) reads words tags sent s' items busy (queued ++ [req]) current := by
  simp only [MemSlaveEngine.writeReqPut, firing] at hFire
  obtain ⟨headers, ⟨-, hHeaders⟩, counts, ⟨-, hCounts⟩, formats, ⟨-, hFormats⟩, onlys, ⟨-, hOnlys⟩, bursts,
    ⟨-, hBursts⟩, writeTags, ⟨-, hTags⟩, rfl, rfl⟩ := hFire
  refine ⟨rfl, { h with
    legal := ?_, writes_eq := ?_, headers := ?_, counts := ?_, formats := ?_, headerOnly := ?_
    writeTags := ?_, owed := ?_, bursts := ?_ }⟩
  · rw [List.forall_mem_append, List.forall_mem_singleton]
    exact ⟨h.legal, hLegal⟩
  · rw [h.writes_eq, List.append_assoc]
  · rw [hHeaders, h.headers, List.map_append]
    rfl
  · rw [hCounts, h.counts, List.map_append]
    rfl
  · rw [hFormats, h.formats, List.map_append]
    rfl
  · rw [hOnlys, h.headerOnly, List.map_append]
    rfl
  · rw [hTags, h.writeTags]
    simp
  · have hOwed := h.owed
    rw [wordsOf_append, ← hOwed, hBursts, beatsOf, List.map_append, List.sum_append]
    simp only [wordsOf, List.map_cons, List.map_nil, List.sum_cons, List.sum_nil, Nat.add_zero, toNat_tlplen,
      Nat.mul_add, beatsOf]
    omega
  · rw [hBursts, List.forall_mem_append, List.forall_mem_singleton]
    exact ⟨h.bursts, hLegal.beats_pos⟩

theorem burstLeft_eq_some
    {burstLen : BitVec 10} {bursts : Fifo (BitVec 10) 2} (hLeft : s.burstLeft = some (burstLen, bursts)) :
    0 < burstLen.toNat ∧ s.writeBurstCount.toNat + beatsOf s.writeBurstCountFifo.items =
      burstLen.toNat + beatsOf bursts.items ∧ ∀ b ∈ bursts.items, 0 < b.toNat := by
  have hBursts := h.bursts
  unfold MemSlaveEngine.burstLeft at hLeft
  split at hLeft
  · next hZero =>
    rw [Fifo.deq_eq_some] at hLeft
    rw [hLeft] at hBursts ⊢
    obtain ⟨hFirst, hRest⟩ := List.forall_mem_cons.mp hBursts
    refine ⟨hFirst, ?_, hRest⟩
    rw [hZero, beatsOf, List.map_cons, List.sum_cons]
    exact Nat.zero_add _
  · next hSome =>
    cases hLeft
    exact ⟨Nat.pos_of_ne_zero fun hZero => hSome (BitVec.eq_of_toNat_eq hZero), rfl, hBursts⟩

end WritesInv

/-- The data words of a run. -/
def dataWords (trace : List (Event k)) : List (BitVec 32) := (trace.filterMap writeData?).flatten

/-- What the events of a run show. -/
def Inv (k : Fin 3) (myId : BitVec 16) (trace : List (Event k)) (s : MemSlaveEngine) : Prop :=
  ∃ items busy queued current, WritesInv k myId (trace.filterMap writeReq?) (trace.filterMap readReq?)
    (dataWords trace) (trace.filterMap writeDone?) (trace.filterMap tlpOut?) s items busy queued current

variable {trace : List (Event k)}

attribute [local simp] dataWords List.filterMap_cons writeReq? readReq? writeData? writeDone? tlpOut?

theorem Inv.step {action : Action k} (h : Inv k myId trace s) (hOk : Writes trace s action)
    (hFire : (machine k myId).fire action s = some (s', events)) : Inv k myId (trace ++ events) s' := by
  obtain ⟨items, busy, queued, current, h⟩ := h
  cases action with
  | writeReqPut req =>
    obtain ⟨rfl, h'⟩ := h.writeReqPut hOk hFire
    exact ⟨_, _, _, _, by simpa using h'⟩
  | writeDataPut data =>
    simp only [machine, MemSlaveEngine.writeDataPut, firing, Fifo.enqAll_eq_some] at hFire
    obtain ⟨burstLen, bursts, hLeft, mimo, ⟨-, hMimo⟩, rfl, rfl⟩ := hFire
    obtain ⟨hPos, hSum, hBursts⟩ := h.burstLeft_eq_some hLeft
    have hWords := congrArg (· ++ List.ofFn data.data) h.words_eq
    have hOwed := h.owed
    have hLess : (burstLen - 1).toNat + 1 = burstLen.toNat := by bv_omega
    rw [hSum, ← hLess, Nat.add_right_comm, Nat.mul_add] at hOwed
    have hOwed' : (dataWords trace ++ List.ofFn data.data).length +
        2 ^ k.val * ((burstLen - 1).toNat + beatsOf bursts.items) = wordsOf k (trace.filterMap writeReq?) := by
      rw [← hOwed, List.length_append, List.length_ofFn]
      omega
    exact ⟨items, busy, queued, current, by simpa using { h with
      words_eq := by simpa [hMimo] using hWords, owed := hOwed', bursts := hBursts }⟩
  | writeDoneGet =>
    simp only [machine, MemSlaveEngine.writeDoneGet, firing] at hFire
    obtain ⟨tag, q, hq, rfl, rfl⟩ := hFire
    have hTags := h.doneTags
    rw [hq, List.map_cons, List.append_cons] at hTags
    exact ⟨items, busy, queued, current, by simpa using { h with doneTags := hTags }⟩
  | readReqPut req =>
    simp only [machine, MemSlaveEngine.readReqPut, firing] at hFire
    obtain ⟨q, ⟨-, hq⟩, rfl, rfl⟩ := hFire
    have hReads := congrArg (· ++ [req]) h.reads_eq
    exact ⟨items, busy, queued, current, by simpa using { h with reads_eq := by simpa [hq] using hReads }⟩
  | requestGet =>
    simp only [machine, MemSlaveEngine.requestGet, firing] at hFire
    obtain ⟨tlp, q, hq, rfl, rfl⟩ := hFire
    have hEmitted := h.emitted
    have hFront := h.front
    rw [hq, List.append_cons] at hEmitted hFront
    exact ⟨items, busy, queued, current, by simpa using { h with emitted := hEmitted, front := hFront }⟩
  | writeHeaderTlp =>
    obtain ⟨rfl, items', busy', queued', current', h'⟩ := h.writeHeaderTlp hFire
    exact ⟨items', busy', queued', current', by simpa using h'⟩
  | writeTlps stale =>
    obtain ⟨rfl, items', busy', current', h'⟩ := h.writeTlps hFire
    exact ⟨items', busy', queued, current', by simpa using h'⟩
  | readReqRule =>
    obtain ⟨rfl, items', h'⟩ := h.readReqRule hFire
    exact ⟨items', busy, queued, current, by simpa using h'⟩
  -- the completions of the host are in other queues
  | readDataGet | responsePut _ | tlpInRule | tofifos | tagTofifos =>
    simp only [machine, readDataGet, responsePut, tlpInRule, tofifos, tagTofifos, firing] at hFire
    casesm* _ ∧ _, ∃ _, _
    subst_vars
    exact ⟨items, busy, queued, current, by simpa using { h with }⟩
  | handleTlpRule =>
    simp only [machine, handleTlpRule, firing] at hFire
    obtain ⟨_, _, -, _, _, -, hFire⟩ := hFire
    split_ifs at hFire
    all_goals
      simp only [firing] at hFire
      casesm* _ ∧ _, ∃ _, _
      subst_vars
      exact ⟨items, busy, queued, current, by simpa using { h with }⟩

theorem run_inv (run : (machine k myId).Run Writes s trace) : Inv k myId trace s := by
  refine run.invariant (Inv k myId) ?_ fun _ _ _ _ _ => Inv.step
  rintro _ rfl
  exact ⟨[], [], [], [], fun _ hr => (by cases hr), rfl, rfl, rfl, rfl, rfl, rfl, rfl, rfl, rfl, rfl,
    fun _ hb => (by cases hb), .nil, rfl, rfl, rfl⟩

theorem length_emitted {packets : List (List (TLPData 16))}
    (h : List.Forall₂ (Item.Emits k myId) items packets) :
    (items.flatMap Item.words).length = wordsOf k (items.filterMap Item.write?) := by
  induction h with
  | nil => rfl
  | @cons item p items packets hFirst _ ih =>
    rw [List.flatMap_cons, List.length_append, ih]
    cases item with
    | read req => exact Nat.zero_add _
    | write req ws =>
      have hLength : ws.length = (tlplen k req).toNat := hFirst.2.2
      rw [List.filterMap_cons]
      simp only [Item.words, Item.write?, wordsOf, List.map_cons, List.sum_cons, hLength]

/-- The words that are in the module or that are still to come. -/
theorem WritesInv.missing (h : WritesInv k myId writes reads words tags sent s items busy queued current) :
    2 ^ k.val * (s.writeBurstCount.toNat + beatsOf s.writeBurstCountFifo.items) + current.length +
      s.writeDataMimo.items.length = wordsOf k busy + wordsOf k queued := by
  have hOwed := h.owed
  have hWords := congrArg List.length h.words_eq
  rw [h.writes_eq, wordsOf_append, wordsOf_append] at hOwed
  rw [List.length_append, List.length_append, length_emitted h.emitted] at hWords
  omega

/-- How far the requests in the module are from being sent and acknowledged. -/
def rank (k : Fin 3) (_ : List (Event k)) (s : MemSlaveEngine) : Nat :=
  s.tlpOutFifo.items.length + s.doneTag.items.length + 2 * s.readReqFifo.items.length +
    3 * s.tlpWriteHeaderFifo.items.length + 3 * s.writeDataMimo.items.length +
    4 * (2 ^ k.val * (s.writeBurstCount.toNat + beatsOf s.writeBurstCountFifo.items))

theorem advances_requestGet (hOut : s.tlpOutFifo.items ≠ []) :
    (machine k myId).Advances Writes request? (rank k) trace s := by
  obtain ⟨tlp, q, hDeq, hItems⟩ := Fifo.exists_deq_of_ne_nil hOut
  refine ⟨.requestGet, _, [.tlpOut tlp], trivial,
    by simp only [machine, requestGet, hDeq]; rfl, rfl, ?_⟩
  simp only [rank, hItems, List.length_cons]
  omega

theorem advances_writeDoneGet (hDone : s.doneTag.items ≠ []) :
    (machine k myId).Advances Writes request? (rank k) trace s := by
  obtain ⟨tag, q, hDeq, hItems⟩ := Fifo.exists_deq_of_ne_nil hDone
  refine ⟨.writeDoneGet, _, [.writeDone (tag.setWidth 6)], trivial,
    by simp only [machine, writeDoneGet, hDeq]; rfl, rfl, ?_⟩
  simp only [rank, hItems, List.length_cons]
  omega

theorem advances_readReqRule (hIdle : s.writeInProgress = false) (hMimo : s.writeDataMimo.items = [])
    (hReq : s.readReqFifo.items ≠ []) (hOut : s.tlpOutFifo.items = []) :
    (machine k myId).Advances Writes request? (rank k) trace s := by
  obtain ⟨req, q, hDeq, hItems⟩ := Fifo.exists_deq_of_ne_nil hReq
  obtain ⟨out, hEnq, hNew⟩ := Fifo.exists_enq_nil hOut (readTlp k myId req)
  refine ⟨.readReqRule, _, [], trivial, by
    simp only [machine, readReqRule, hIdle, hMimo, hDeq, some_bind, hEnq]
    rfl, rfl, ?_⟩
  simp only [rank, hItems, hNew, hOut, counting]
  omega

theorem advances_writeDataPut (h : WritesInv k myId writes reads words tags sent s items busy queued current)
    (hRoom : s.writeDataMimo.items.length < 4)
    (hMissing : 0 < 2 ^ k.val * (s.writeBurstCount.toNat + beatsOf s.writeBurstCountFifo.items)) :
    (machine k myId).Advances Writes request? (rank k) trace s := by
  have hOwed := Nat.pos_of_mul_pos_left hMissing
  have hBus : 2 ^ k.val ≤ 4 := Nat.pow_le_pow_right (by decide) (Nat.lt_succ_iff.mp k.isLt)
  obtain ⟨⟨burstLen, bursts⟩, hLeft⟩ : ∃ c, s.burstLeft = some c := by
    unfold burstLeft
    split
    · next hZero =>
      rw [hZero] at hOwed
      cases hItems : s.writeBurstCountFifo.items with
      | nil => rw [hItems] at hOwed; exact absurd hOwed (by decide)
      | cons b rest => exact (Fifo.exists_deq hItems).imp' _ fun _ hDeq => hDeq.1
    · exact ⟨_, rfl⟩
  obtain ⟨hPos, hSum, -⟩ := h.burstLeft_eq_some hLeft
  obtain ⟨mimo, hEnq, hMimo⟩ := Fifo.exists_enqAll (q := s.writeDataMimo)
    (List.ofFn fun _ : Fin (2 ^ k.val) => (0 : BitVec 32)) (by rw [List.length_ofFn]; omega)
  refine ⟨.writeDataPut ⟨fun _ => 0, 0, true⟩, { s with
    writeBurstCountFifo := bursts, writeDataMimo := mimo, writeBurstCount := burstLen - 1 },
    [.writeData ⟨fun _ => 0, 0, true⟩], trivial,
    by simp only [machine, writeDataPut, hLeft, some_bind, hEnq]; rfl, rfl, ?_⟩
  have hLess : (burstLen - 1).toNat + 1 = burstLen.toNat := by bv_omega
  have hBusPos : 0 < 2 ^ k.val := Nat.two_pow_pos _
  simp only [rank, hSum, ← hLess, hMimo, List.length_append, List.length_ofFn, Nat.add_right_comm _ 1, Nat.mul_add]
  omega

theorem advances_writeTlps (hBusy : s.writeInProgress = true) (hOut : s.tlpOutFifo.items = [])
    (hDone : s.doneTag.items = []) (hTags : s.writeTag.items ≠ []) (hPositive : 0 < s.tlpDwCount.toNat)
    (hWords : s.tlpDwCount.toNat ≤ s.writeDataMimo.items.length) :
    (machine k myId).Advances Writes request? (rank k) trace s := by
  obtain ⟨mimo, hMimo, hMore⟩ := Fifo.exists_deqN
    (List.take_append_drop s.tlpDwCount.toNat s.writeDataMimo.items).symm
  rw [List.length_take_of_le hWords] at hMimo
  obtain ⟨out, hEnq, hNew⟩ := Fifo.exists_enq_nil hOut
    { (TLPData.defaultValue : TLPData 16) with
      eof := s.lastTlp, be := tlpBe s.tlpDwCount.toNat
      data := beatData (s.writeDataMimo.items.take s.tlpDwCount.toNat) fun _ => 0 }
  obtain ⟨tags, hDeq⟩ := Fifo.exists_deqIf (s.lastTlp = true) hTags
  obtain ⟨done, hTag, hAck⟩ := Fifo.exists_enqIf (s.lastTlp = true) (q := s.doneTag) (by rw [hDone]; decide)
    (s.writeTag.items.headD 0)
  rw [hDone] at hAck
  refine ⟨.writeTlps fun _ => 0, _, [], trivial, by
    simp only [machine, writeTlps, hBusy, some_bind, hMimo, hEnq, hTag, hDeq]
    rfl, rfl, ?_⟩
  simp only [rank, hNew, hOut, hMore, hDone, counting, List.length_drop] at hAck ⊢
  omega

theorem advances_writeHeaderTlp
    (h : WritesInv k myId writes reads words tags sent s items busy (req :: queued) current)
    (hIdle : s.writeInProgress = false) (hOut : s.tlpOutFifo.items = []) (hDone : s.doneTag.items = [])
    (hWord : is3dw req = true → s.writeDataMimo.items ≠ []) :
    (machine k myId).Advances Writes request? (rank k) trace s := by
  obtain ⟨headers, hHeader, hHeaders⟩ := Fifo.exists_deq h.headers
  obtain ⟨counts, hCount, -⟩ := Fifo.exists_deq h.counts
  obtain ⟨formats, hFormat, -⟩ := Fifo.exists_deq h.formats
  obtain ⟨onlys, hOnly, -⟩ := Fifo.exists_deq h.headerOnly
  have hTake : (s.writeDataMimo.items.take (if is3dw req then 1 else 0)).length = if is3dw req then 1 else 0 := by
    refine List.length_take_of_le ?_
    split
    · next hShort => exact List.length_pos_iff.mpr (hWord hShort)
    · exact Nat.zero_le _
  obtain ⟨mimo, hMimo, hMore⟩ := Fifo.exists_deqN
    (List.take_append_drop (if is3dw req then 1 else 0) s.writeDataMimo.items).symm
  rw [hTake] at hMimo
  obtain ⟨out, hEnq, hNew⟩ := Fifo.exists_enq_nil hOut
    (headerBeat (writeTlp k myId req) (is3dw req) (tlplen k req)
      (s.writeDataMimo.items.take (if is3dw req then 1 else 0)))
  obtain ⟨tags, hDeq⟩ := Fifo.exists_deqIf (isHeaderOnly k req = true) (q := s.writeTag)
    (by rw [h.writeTags]; simp)
  obtain ⟨done, hTag, hAck⟩ := Fifo.exists_enqIf (isHeaderOnly k req = true) (q := s.doneTag)
    (by rw [hDone]; decide) (s.writeTag.items.headD 0)
  refine ⟨.writeHeaderTlp, _, [], trivial, by
    simp only [machine, writeHeaderTlp, hIdle, some_bind, hHeader, hCount,
      hFormat, hOnly, hMimo, hEnq, hTag, hDeq]
    rfl, rfl, ?_⟩
  simp only [rank, hNew, hOut, hMore, hDone, hHeaders, h.headers, counting, List.length_drop,
    List.length_map] at hAck ⊢
  omega

/-- All requests are in packets on the bus, with all the data, and acknowledged. -/
def Settled (myId : BitVec 16) (trace : List (Event k)) : Prop :=
  ∃ items, List.Forall₂ (Item.Emits k myId) items ((frame 16).cut (trace.filterMap tlpOut?)).1 ∧
    ((frame 16).cut (trace.filterMap tlpOut?)).2 = [] ∧
    items.filterMap Item.write? = trace.filterMap writeReq? ∧
    items.filterMap Item.read? = trace.filterMap readReq? ∧
    items.flatMap Item.words = dataWords trace ∧
    trace.filterMap writeDone? = (trace.filterMap writeReq?).map (·.tag)

theorem WritesInv.settled (h : WritesInv k myId (trace.filterMap writeReq?) (trace.filterMap readReq?)
      (dataWords trace) (trace.filterMap writeDone?) (trace.filterMap tlpOut?) s items [] [] [])
    (hOut : s.tlpOutFifo.items = []) (hDone : s.doneTag.items = []) (hReq : s.readReqFifo.items = [])
    (hMimo : s.writeDataMimo.items = []) (hIdle : s.writeInProgress = false) : Settled myId trace := by
  have hWrites := h.writes_eq
  have hReads := h.reads_eq
  have hWords := h.words_eq
  have hTags := h.doneTags
  have hEmitted := h.emitted
  have hFront := h.front
  simp only [List.append_nil] at hWrites
  rw [hReq, List.append_nil] at hReads
  rw [hMimo, List.append_nil, List.append_nil] at hWords
  rw [hDone, List.map_nil, List.append_nil, ← hWrites] at hTags
  rw [hOut, List.append_nil] at hEmitted
  rw [Front, hIdle, if_neg Bool.false_ne_true, hOut, List.append_nil] at hFront
  exact ⟨items, hEmitted, hFront.2.2, hWrites.symm, hReads.symm, hWords.symm, hTags⟩

/-- Everything is settled, or some action brings that closer. -/
theorem Inv.progress (h : Inv k myId trace s) :
    Settled myId trace ∨ (machine k myId).Advances Writes request? (rank k) trace s := by
  obtain ⟨items, busy, queued, current, h⟩ := h
  by_cases hOut : s.tlpOutFifo.items = []
  case neg => exact .inr (advances_requestGet hOut)
  by_cases hDone : s.doneTag.items = []
  case neg => exact .inr (advances_writeDoneGet hDone)
  have hFront := h.front
  have hMissing := h.missing
  unfold Front at hFront
  cases hBusy : s.writeInProgress with
  | true =>
    rw [hBusy, if_pos rfl] at hFront
    obtain ⟨req, rfl, hSending⟩ := hFront
    have hNext := hSending.next
    have hLeft := hSending.left
    have hPositive := hSending.positive
    by_cases hWords : s.tlpDwCount.toNat ≤ s.writeDataMimo.items.length
    · exact .inr (advances_writeTlps hBusy hOut hDone (by rw [h.writeTags]; simp) (by omega) hWords)
    · have hOne : wordsOf k [req] = (tlplen k req).toNat := Nat.add_zero _
      refine .inr (advances_writeDataPut h (by omega) ?_)
      omega
  | false =>
    rw [hBusy, if_neg Bool.false_ne_true] at hFront
    obtain ⟨rfl, rfl, hOpen⟩ := hFront
    cases queued with
    | cons req queued =>
      by_cases hWord : is3dw req = true → s.writeDataMimo.items ≠ []
      · exact .inr (advances_writeHeaderTlp h hBusy hOut hDone hWord)
      · have hLegal := (h.legal req (by rw [h.writes_eq]; simp)).tlplen_pos
        have hEmpty := not_not.mp fun hSome => hWord fun _ => hSome
        have hFirst : wordsOf k (req :: queued) = (tlplen k req).toNat + wordsOf k queued := rfl
        rw [hEmpty, hFirst, List.length_nil] at hMissing
        refine .inr (advances_writeDataPut h (by rw [hEmpty]; decide) ?_)
        omega
    | nil =>
      have hMimo : s.writeDataMimo.items = [] := by
        have hNone : wordsOf k [] = 0 := rfl
        rw [hNone] at hMissing
        exact List.eq_nil_of_length_eq_zero (by omega)
      by_cases hReq : s.readReqFifo.items = []
      · exact .inl (h.settled hOut hDone hReq hMimo hBusy)
      · exact .inr (advances_readReqRule hBusy hMimo hReq hOut)

end MemSlaveEngine

open MemSlaveEngine

/-- Every packet is that of one request: a read is one beat and a write is one packet with
the data of the request. The packets of the reads and those of the writes are in the order
of the requests, and a write is acknowledged only when its packet is complete. All
requests can be sent and acknowledged. -/
theorem writes_become_packets {k : Fin 3} {myId : BitVec 16} {s : MemSlaveEngine} {trace : List (Event k)}
    (run : (machine k myId).Run Writes s trace) :
    (∀ req ∈ trace.filterMap writeReq?, 4 * (tlplen k req).toNat = req.burstLen.toNat) ∧
      (∃ items, List.Forall₂ (Item.Emits k myId) items
          ((frame 16).cut (trace.filterMap tlpOut? ++ s.tlpOutFifo.items)).1 ∧
        items.filterMap Item.write? <+: trace.filterMap writeReq? ∧
        items.filterMap Item.read? <+: trace.filterMap readReq? ∧
        items.flatMap Item.words <+: dataWords trace ∧
        trace.filterMap writeDone? <+: (items.filterMap Item.write?).map (·.tag)) ∧
      (((frame 16).cut (trace.filterMap tlpOut? ++ s.tlpOutFifo.items)).2 = [] ∨
        (frame 16).Opened ((frame 16).cut (trace.filterMap tlpOut? ++ s.tlpOutFifo.items)).2 ∧
        ∃ req words, Payload (WriteHead k myId req) words
          ((frame 16).cut (trace.filterMap tlpOut? ++ s.tlpOutFifo.items)).2) ∧
      ∃ s' trace', (machine k myId).Continues Writes (s, trace) (s', trace') ∧
        trace'.filterMap request? = trace.filterMap request? ∧ Settled myId trace' := by
  have hInv := run_inv run
  obtain ⟨items, busy, queued, current, h⟩ := id hInv
  refine ⟨fun req hReq => (h.legal req hReq).tlplen_eq, ⟨items, h.emitted, ?_, ?_, ?_, ?_⟩, ?_, ?_⟩
  · rw [h.writes_eq, List.append_assoc]
    exact List.prefix_append _ _
  · rw [h.reads_eq]
    exact List.prefix_append _ _
  · rw [h.words_eq, List.append_assoc]
    exact List.prefix_append _ _
  · rw [← h.doneTags]
    exact List.prefix_append _ _
  · have hFront := h.front
    unfold Front at hFront
    split at hFront
    · obtain ⟨req, -, hSending⟩ := hFront
      exact .inr ⟨hSending.opened, req, current, hSending.payload⟩
    · exact .inl hFront.2.2
  · exact Machine.exists_drained (rank k) (fun _ _ _ _ _ => Inv.step)
      (fun trace' s' h' _ => h'.progress) hInv

/-- A write of two words with a short header, a read, and a write of four words with a long header. -/
theorem writes_become_packets_two_writes :
    ∃ s trace, (machine 1 0x100).Run Writes s trace ∧
      (trace.filterMap writeReq?).map (·.burstLen) = [8, 16] ∧
      (trace.filterMap tlpOut?).map (·.be) = [0xffff, 0xf000, 0xfff0, 0xffff, 0xffff] ∧
      trace.filterMap writeDone? = [3, 5] ∧
      ∃ items, List.Forall₂ (Item.Emits 1 0x100) items
          ((frame 16).cut (trace.filterMap tlpOut? ++ s.tlpOutFifo.items)).1 ∧
        items.flatMap Item.words <+: [10, 11, 20, 21, 22, 23] := by
  obtain ⟨s, trace, hRun, hResult⟩ := Machine.exists_run
    (show ((machine 1 0x100).exec Writes
      [.writeReqPut ⟨0x1000, 8, 3⟩, .readReqPut ⟨0x2000, 8, 4⟩,
        .writeDataPut ⟨fun i => if i = 0 then 10 else 11, 3, true⟩, .writeHeaderTlp, .writeTlps fun _ => 0,
        .requestGet, .requestGet, .readReqRule, .writeReqPut ⟨0x100000000, 16, 5⟩, .writeHeaderTlp,
        .writeDataPut ⟨fun i => if i = 0 then 20 else 21, 5, false⟩, .writeDoneGet, .requestGet,
        .writeDataPut ⟨fun i => if i = 0 then 22 else 23, 5, true⟩, .writeTlps fun _ => 0, .requestGet,
        .requestGet, .writeDoneGet]
      (fresh, [])).map (fun d => ((d.2.filterMap writeReq?).map (·.burstLen),
        (d.2.filterMap tlpOut?).map (·.be), d.2.filterMap writeDone?, dataWords d.2)) =
          some ([8, 16], [0xffff, 0xf000, 0xfff0, 0xffff, 0xffff], [3, 5], [10, 11, 20, 21, 22, 23])
      by decide +kernel) rfl
  simp only [Prod.mk.injEq] at hResult
  obtain ⟨-, ⟨items, hEmits, -, -, hWords, -⟩, -⟩ := writes_become_packets hRun
  exact ⟨s, trace, hRun, hResult.1, hResult.2.1, hResult.2.2.1, items, hEmits, hResult.2.2.2 ▸ hWords⟩

end Connectal.Pcie
