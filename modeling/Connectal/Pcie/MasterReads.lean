import Connectal.Pcie.MemMasterEngine

/-! Read packets of several words at `mkMemMasterEngine`. -/
namespace Connectal.Pcie

open Layout Rules
open TLPData (frame)

/-- The first beats of the completion of a read, and the words that they carry. -/
def Begins (myId : BitVec 16) (hdr : TLPMemoryIO3DWHeader) (words : List (BitVec 32))
    (p : List (TLPData 16)) : Prop :=
  ∃ b rest word more, p = b :: rest ∧ words = word :: more ∧ b.be = 0xffff ∧
    TLPCompletionHeader.unpack b.data = completionOf myId hdr word ∧
    rest.flatMap TLPData.valid = more.map byteSwap ∧ ∀ c ∈ rest, c.valid ≠ []

/-- The completion of a read: one packet with the words that the slave returned. -/
structure Completion (myId : BitVec 16) (x : TLPMemoryIO3DWHeader × List (BitVec 32))
    (p : List (TLPData 16)) : Prop where
  packet : (frame 16).Packet p
  begins : Begins myId x.1 x.2 p
  length : x.2.length = x.1.length.toNat

variable {hdr : TLPMemoryIO3DWHeader} {myId : BitVec 16}

theorem Begins.head {word : BitVec 32} {b : TLPData 16}
    (hBe : b.be = 0xffff) (hData : b.data = (completionOf myId hdr word).pack) :
    Begins myId hdr [word] [b] := by
  refine ⟨b, [], word, [], rfl, rfl, hBe, ?_, rfl, fun c hc => by cases hc⟩
  rw [hData]
  exact TLPCompletionHeader.unpack_pack _

variable {p : List (TLPData 16)}

theorem Begins.concat {words more : List (BitVec 32)} {b : TLPData 16} (h : Begins myId hdr words p)
    (hValid : b.valid = more.map byteSwap) (hMore : more ≠ []) :
    Begins myId hdr (words ++ more) (p ++ [b]) := by
  obtain ⟨c, rest, word, tail, rfl, rfl, hBe, hHeader, hRest, hSome⟩ := h
  refine ⟨c, rest ++ [b], word, tail ++ more, rfl, rfl, hBe, hHeader, ?_, ?_⟩
  · rw [List.flatMap_append, hRest, List.flatMap_singleton, hValid, List.map_append]
  · rw [List.forall_mem_append, List.forall_mem_singleton, hValid]
    exact ⟨hSome, by simpa using hMore⟩

theorem Begins.isEmpty_eq {words : List (BitVec 32)} (h : Begins myId hdr words p) : p.isEmpty = false := by
  obtain ⟨b, rest, _, _, rfl, -⟩ := h
  rfl

namespace MemMasterEngine

/-- The header of a read packet. -/
def read? : Event → Option TLPMemoryIO3DWHeader
  | .tlpIn tlp =>
    if (TLPMemoryIO3DWHeader.unpack tlp.data).format = .memRead3dwNoData then
      some (TLPMemoryIO3DWHeader.unpack tlp.data)
    else none
  | _ => none

def tlpOut? : Event → Option (TLPData 16)
  | .tlpOut tlp => some tlp
  | _ => none

def readReq? : Event → Option (PhysMemRequest 32)
  | .readReq req => some req
  | _ => none

def readData? : Event → Option (BitVec 32)
  | .readData word => some word
  | _ => none

/-- The number of words that requests ask for. -/
def asked (requests : List (PhysMemRequest 32)) : Nat := (requests.map fun req => req.burstLen.toNat / 4).sum

/-- Reads ask for at most 63 words and at most 8 of them are unanswered. The slave
returns the words that were asked for. -/
def Reads (trace : List Event) (_ : MemMasterEngine) : Action → Prop
  | .responsePut tlp =>
    let hdr := TLPMemoryIO3DWHeader.unpack tlp.data
    hdr.format = .memRead3dwNoData → 1 ≤ hdr.length.toNat ∧ hdr.length.toNat ≤ 63 ∧
      (trace.filterMap read?).length < ((frame 16).cut (trace.filterMap tlpOut?)).1.length + 8
  | .readDataPut _ => (trace.filterMap readData?).length < asked (trace.filterMap readReq?)
  | _ => True

instance (trace : List Event) (s : MemMasterEngine) (action : Action) : Decidable (Reads trace s action) :=
  match action with
  | .responsePut tlp => inferInstanceAs (Decidable
      ((TLPMemoryIO3DWHeader.unpack tlp.data).format = .memRead3dwNoData → _ ∧ _ ∧ _))
  | .readDataPut _ => inferInstanceAs (Decidable (_ < _))
  | .requestGet | .completionHeader | .continuation _ | .readReqGet | .writeReqGet | .writeDataGet =>
    .isTrue trivial

variable {myId : BitVec 16} {s s' : MemMasterEngine} {events : List Event}
  {reads : List TLPMemoryIO3DWHeader} {sent : List (TLPData 16)} {requests : List (PhysMemRequest 32)}
  {words current : List (BitVec 32)} {done : List (TLPMemoryIO3DWHeader × List (BitVec 32))}

/-- The completion that is being sent, and the registers that count its missing words. -/
structure Sending (myId : BitVec 16) (readBurstCount : BitVec 10) (completionMimoDeqCount : BitVec 3)
    (readBurstCountGreaterThan4 : Bool) (hdr : TLPMemoryIO3DWHeader) (current : List (BitVec 32))
    (p : List (TLPData 16)) : Prop where
  opened : (frame 16).Opened p
  begins : Begins myId hdr current p
  left : current.length + readBurstCount.toNat = hdr.length.toNat
  positive : 0 < readBurstCount.toNat
  next : completionMimoDeqCount.toNat = min 4 readBurstCount.toNat
  more : readBurstCountGreaterThan4 = decide (4 < readBurstCount.toNat)

/-- The completion that is being sent, if there is one, is that of the first read in the queue. -/
def Front (myId : BitVec 16) (readInProgress : Bool) (readBurstCount : BitVec 10)
    (completionMimoDeqCount : BitVec 3) (readBurstCountGreaterThan4 : Bool)
    (hdrs : List TLPMemoryIO3DWHeader) (current : List (BitVec 32)) (p : List (TLPData 16)) : Prop :=
  if readInProgress then ∃ hdr rest, hdrs = hdr :: rest ∧
    Sending myId readBurstCount completionMimoDeqCount readBurstCountGreaterThan4 hdr current p
  else current = [] ∧ p = []

theorem Front.concat {readInProgress : Bool} {readBurstCount : BitVec 10}
    {completionMimoDeqCount : BitVec 3} {readBurstCountGreaterThan4 : Bool} {hdrs : List TLPMemoryIO3DWHeader}
    (h : Front myId readInProgress readBurstCount completionMimoDeqCount readBurstCountGreaterThan4
      hdrs current p) (hdr : TLPMemoryIO3DWHeader) :
    Front myId readInProgress readBurstCount completionMimoDeqCount readBurstCountGreaterThan4
      (hdrs ++ [hdr]) current p := by
  cases readInProgress with
  | true =>
    obtain ⟨first, rest, rfl, hSending⟩ := h
    exact ⟨first, rest ++ [hdr], rfl, hSending⟩
  | false => exact h

/-- Every read is answered, being answered, asked for, or waiting. -/
structure ReadsInv (myId : BitVec 16) (reads : List TLPMemoryIO3DWHeader) (sent : List (TLPData 16))
    (requests : List (PhysMemRequest 32)) (words : List (BitVec 32)) (s : MemMasterEngine)
    (done : List (TLPMemoryIO3DWHeader × List (BitVec 32))) (current : List (BitVec 32)) : Prop where
  legal : ∀ hdr ∈ reads, 1 ≤ hdr.length.toNat ∧ hdr.length.toNat ≤ 63
  pending : reads.length ≤ ((frame 16).cut sent).1.length + 8
  pipeline : reads = done.map (·.1) ++ s.readDataFifo.items ++ s.readHeaderFifo.items
  requested : requests = (done.map (·.1) ++ s.readDataFifo.items).map (·.request)
  returned : words = (done.map (·.2)).flatten ++ current ++ s.completionMimo.items
  bounded : words.length ≤ asked requests
  answered : List.Forall₂ (Completion myId) done ((frame 16).cut (sent ++ s.tlpOutFifo.items)).1
  front : Front myId s.readInProgress s.readBurstCount s.completionMimoDeqCount
    s.readBurstCountGreaterThan4 s.readDataFifo.items current
    ((frame 16).cut (sent ++ s.tlpOutFifo.items)).2

theorem toNat_deqCount (n : Nat) : (BitVec.ofNat 3 (min 4 n)).toNat = min 4 n := by
  rw [BitVec.toNat_ofNat]
  omega

namespace ReadsInv

section

variable (h : ReadsInv myId reads sent requests words s done current)

include h

/-- The queue of read packets is never full when one comes in. -/
theorem room (hLess : reads.length < ((frame 16).cut sent).1.length + 8) :
    s.readHeaderFifo.items.length < 8 := by
  have hDone := h.answered.length_eq
  have hSent := (Frame.cut_mono (F := frame 16)
    (List.prefix_append sent s.tlpOutFifo.items)).length_le
  have hPipeline := congrArg List.length h.pipeline
  simp only [List.length_append, List.length_map] at hPipeline
  omega

theorem responsePut {tlp : TLPData 16}
    (hOk : (TLPMemoryIO3DWHeader.unpack tlp.data).format = .memRead3dwNoData →
      1 ≤ (TLPMemoryIO3DWHeader.unpack tlp.data).length.toNat ∧
      (TLPMemoryIO3DWHeader.unpack tlp.data).length.toNat ≤ 63 ∧
      reads.length < ((frame 16).cut sent).1.length + 8)
    (hFire : MemMasterEngine.responsePut tlp s = some (s', events)) :
    events = [.tlpIn tlp] ∧
      ReadsInv myId (reads ++ [.tlpIn tlp].filterMap read?) sent requests words s' done current := by
  unfold MemMasterEngine.responsePut at hFire
  by_cases hRead : (TLPMemoryIO3DWHeader.unpack tlp.data).format = .memRead3dwNoData
  · obtain ⟨hOne, hMost, hLess⟩ := hOk hRead
    obtain ⟨q, hEnq, hq⟩ := Fifo.exists_enq (h.room hLess) (TLPMemoryIO3DWHeader.unpack tlp.data)
    simp only [hRead, if_true, hEnq, Option.getD_some, firing] at hFire
    obtain ⟨rfl, rfl⟩ := hFire
    have hNew : [Event.tlpIn tlp].filterMap read? = [TLPMemoryIO3DWHeader.unpack tlp.data] := by
      simp [read?, hRead]
    refine ⟨rfl, { h with legal := ?_, pending := ?_, pipeline := ?_ }⟩
    · rw [hNew, List.forall_mem_append, List.forall_mem_singleton]
      exact ⟨h.legal, hOne, hMost⟩
    · rw [hNew, List.length_append]
      exact hLess
    · rw [hNew, h.pipeline, hq, List.append_assoc _ s.readHeaderFifo.items]
  · simp only [hRead, if_false, firing] at hFire
    obtain ⟨rfl, rfl⟩ := hFire
    have hNone : [Event.tlpIn tlp].filterMap read? = [] := by simp [read?, hRead]
    rw [hNone, List.append_nil]
    exact ⟨rfl, { h with }⟩

theorem completionHeader (hFire : MemMasterEngine.completionHeader myId s = some (s', events)) :
    events = [] ∧ ∃ done' current', ReadsInv myId reads sent requests words s' done' current' := by
  simp only [MemMasterEngine.completionHeader, firing] at hFire
  obtain ⟨hIdle, hdr, rest, hHdr, word, mimo, hWord, out, ⟨-, hOut⟩, rfl, rfl⟩ := hFire
  have hFront := h.front
  rw [Front, hIdle, if_neg Bool.false_ne_true] at hFront
  obtain ⟨rfl, hOpen⟩ := hFront
  have hLegal := h.legal hdr (by rw [h.pipeline, hHdr]; simp)
  have hLeft : (hdr.length - 1).toNat = hdr.length.toNat - 1 := by bv_omega
  rw [← List.append_right_inj sent, ← List.append_assoc] at hOut
  refine ⟨rfl, ?_⟩
  by_cases hOne : hdr.length = 1
  · -- a completion of one word is a packet of one beat
    have hNone : hdr.length - 1 = 0 := by rw [hOne]; rfl
    rw [hOne] at hOut
    refine ⟨done ++ [(hdr, [word])], [], h.legal, h.pending, ?_, ?_, ?_, h.bounded, ?_, ?_⟩
    · simp only [hNone, if_true]
      rw [h.pipeline, hHdr]
      simp
    · simp only [hNone, if_true]
      rw [h.requested, hHdr]
      simp
    · rw [h.returned, hWord]
      simp
    · show List.Forall₂ _ _ ((frame 16).cut (sent ++ out.items)).1
      rw [hOut, Frame.cut_concat_eof rfl, hOpen]
      refine List.rel_append h.answered (.cons ⟨?_, .head rfl rfl, ?_⟩ .nil)
      · exact Frame.Opened.close (l := []) trivial rfl rfl
      · rw [hOne]
        rfl
    · show Front myId (hdr.length - 1 != 0) _ _ _ _ _ ((frame 16).cut (sent ++ out.items)).2
      rw [hOut, Frame.cut_concat_eof rfl, hNone]
      exact ⟨rfl, rfl⟩
  · have hOneNat : hdr.length.toNat ≠ 1 := fun hNat => hOne (BitVec.eq_of_toNat_eq hNat)
    have hSome : hdr.length - 1 ≠ 0 := by bv_omega
    have hEof : (hdr.length == 1) = false := beq_eq_false_iff_ne.mpr hOne
    rw [hEof] at hOut
    refine ⟨done, [word], h.legal, h.pending, ?_, ?_, ?_, h.bounded, ?_, ?_⟩
    · simp only [hSome, if_false]
      exact h.pipeline
    · simp only [hSome, if_false]
      exact h.requested
    · rw [h.returned, hWord]
      simp
    · show List.Forall₂ _ _ ((frame 16).cut (sent ++ out.items)).1
      rw [hOut, Frame.cut_concat_middle rfl]
      exact h.answered
    · show Front myId (hdr.length - 1 != 0) _ _ _ (if hdr.length - 1 = 0 then rest else s.readDataFifo).items
        _ ((frame 16).cut (sent ++ out.items)).2
      rw [hOut, Frame.cut_concat_middle rfl, hOpen, bne_iff_ne.mpr hSome, if_neg hSome]
      refine ⟨hdr, rest.items, hHdr, ⟨rfl, rfl, fun c hc => by cases hc⟩, .head rfl rfl, ?_, ?_, ?_, rfl⟩
      · rw [hLeft, List.length_singleton]
        omega
      · rw [hLeft]
        omega
      · exact toNat_deqCount _

theorem continuation {stale : Fin 4 → BitVec 32}
    (hFire : MemMasterEngine.continuation stale s = some (s', events)) :
    events = [] ∧ ∃ done' current', ReadsInv myId reads sent requests words s' done' current' := by
  simp only [MemMasterEngine.continuation, firing, Fifo.deqN_eq_some, Fifo.deqIf_eq_some] at hFire
  obtain ⟨hBusy, chunk, mimo, ⟨hChunk, hItems⟩, out, ⟨-, hOut⟩, queue, ⟨hLast, hMore⟩, rfl, rfl⟩ := hFire
  have hFront := h.front
  rw [Front, hBusy, if_pos rfl] at hFront
  obtain ⟨hdr, rest, hHdr, hSending⟩ := hFront
  have hNext := hSending.next
  have hLength : chunk.length ≤ 4 := by omega
  have hPositive := hSending.positive
  have hNonempty : chunk ≠ [] := List.ne_nil_of_length_pos (by omega)
  rw [← List.append_right_inj sent, ← List.append_assoc] at hOut
  refine ⟨rfl, ?_⟩
  cases hGreater : s.readBurstCountGreaterThan4 with
  | false =>
    have hLe := of_decide_eq_false (hSending.more.symm.trans hGreater)
    have hAll : chunk.length = s.readBurstCount.toNat := by omega
    rw [hGreater] at hOut hLast
    obtain ⟨hdr', hQueue⟩ := hLast rfl
    rw [hHdr, List.cons.injEq] at hQueue
    obtain ⟨rfl, rfl⟩ := hQueue
    refine ⟨done ++ [(hdr, current ++ chunk)], [], h.legal, h.pending, ?_, ?_, ?_, h.bounded, ?_, ?_⟩
    · rw [h.pipeline, hHdr]
      simp
    · rw [h.requested, hHdr]
      simp
    · rw [h.returned, hItems]
      simp
    · show List.Forall₂ _ _ ((frame 16).cut (sent ++ out.items)).1
      rw [hOut, Frame.cut_concat_eof rfl]
      refine List.rel_append h.answered (.cons ⟨?_, hSending.begins.concat (valid_beatData rfl ?_ hLength) hNonempty,
        ?_⟩ .nil)
      · exact hSending.opened.close hSending.begins.isEmpty_eq.symm rfl
      · rw [hAll]
        rfl
      · rw [List.length_append, hAll]
        exact hSending.left
    · show Front myId (!!false) _ _ _ _ _ ((frame 16).cut (sent ++ out.items)).2
      rw [hOut, Frame.cut_concat_eof rfl]
      exact ⟨rfl, rfl⟩
  | true =>
    have hLt := of_decide_eq_true (hSending.more.symm.trans hGreater)
    have hFour : chunk.length = 4 := by omega
    rw [hGreater] at hOut hMore
    obtain rfl := hMore (by decide)
    have hLeft : (s.readBurstCount - 4).toNat = s.readBurstCount.toNat - 4 := by bv_omega
    refine ⟨done, current ++ chunk, h.legal, h.pending, h.pipeline, h.requested, ?_, h.bounded, ?_, ?_⟩
    · rw [h.returned, hItems]
      simp
    · show List.Forall₂ _ _ ((frame 16).cut (sent ++ out.items)).1
      rw [hOut, Frame.cut_concat_middle rfl]
      exact h.answered
    · show Front myId (!!true) _ _ _ _ _ ((frame 16).cut (sent ++ out.items)).2
      rw [hOut, Frame.cut_concat_middle rfl]
      refine ⟨hdr, rest, hHdr, hSending.opened.concat hSending.begins.isEmpty_eq.symm rfl,
        hSending.begins.concat (valid_beatData rfl ?_ hLength) hNonempty, ?_, ?_, toNat_deqCount _, rfl⟩
      · rw [hFour]
        rfl
      · have := hSending.left
        show (current ++ chunk).length + (s.readBurstCount - 4).toNat = _
        rw [List.length_append, hLeft]
        omega
      · show 0 < (s.readBurstCount - 4).toNat
        omega

end

/-- The words that are on their way: asked for, and not yet in a completion. -/
theorem asked_append (l m : List (PhysMemRequest 32)) : asked (l ++ m) = asked l + asked m := by
  simp [asked]

end ReadsInv

/-- What the events of a run show. -/
def Inv (myId : BitVec 16) (trace : List Event) (s : MemMasterEngine) : Prop :=
  ∃ done current, ReadsInv myId (trace.filterMap read?) (trace.filterMap tlpOut?)
    (trace.filterMap readReq?) (trace.filterMap readData?) s done current

variable {trace : List Event}

attribute [local simp] List.filterMap_cons read? tlpOut? readReq? readData?

theorem Inv.step {action : Action} (h : Inv myId trace s) (hOk : Reads trace s action)
    (hFire : (machine myId).fire action s = some (s', events)) : Inv myId (trace ++ events) s' := by
  obtain ⟨done, current, h⟩ := h
  simp only [Inv, List.filterMap_append]
  cases action with
  | responsePut tlp =>
    obtain ⟨rfl, h'⟩ := h.responsePut hOk hFire
    exact ⟨done, current, by simpa [-read?] using h'⟩
  | requestGet =>
    simp only [machine, MemMasterEngine.requestGet, firing] at hFire
    obtain ⟨tlp, q, hq, rfl, rfl⟩ := hFire
    have hMono := (Frame.cut_mono (F := frame 16)
      (List.prefix_append (trace.filterMap tlpOut?) [tlp])).length_le
    have hPending := h.pending.trans (Nat.add_le_add_right hMono 8)
    have hAnswered := h.answered
    have hFront := h.front
    rw [hq, List.append_cons] at hAnswered hFront
    exact ⟨done, current, by simpa using { h with pending := hPending, answered := hAnswered, front := hFront }⟩
  | completionHeader =>
    obtain ⟨rfl, done', current', h'⟩ := h.completionHeader hFire
    exact ⟨done', current', by simpa using h'⟩
  | continuation stale =>
    obtain ⟨rfl, done', current', h'⟩ := h.continuation hFire
    exact ⟨done', current', by simpa using h'⟩
  | readReqGet =>
    simp only [machine, MemMasterEngine.readReqGet, firing] at hFire
    obtain ⟨hdr, q, hHdr, data, ⟨-, hData⟩, rfl, rfl⟩ := hFire
    refine ⟨done, current, by simpa using h.legal, by simpa using h.pending, ?_, ?_, by simpa using h.returned, ?_,
      by simpa using h.answered, ?_⟩
    · simp [h.pipeline, hHdr, hData]
    · simp [h.requested, hData]
    · simpa [ReadsInv.asked_append] using Nat.le_add_right_of_le h.bounded
    · show Front myId _ _ _ _ data.items _ _
      rw [hData]
      simpa using h.front.concat hdr
  | readDataPut word =>
    simp only [machine, MemMasterEngine.readDataPut, firing] at hFire
    obtain ⟨q, ⟨-, hq⟩, rfl, rfl⟩ := hFire
    have hReturned := congrArg (· ++ [word]) h.returned
    exact ⟨done, current, by simpa using { h with
      returned := by simpa [hq] using hReturned, bounded := by simpa using Nat.succ_le_of_lt hOk }⟩
  | writeReqGet =>
    simp only [machine, MemMasterEngine.writeReqGet, firing] at hFire
    obtain ⟨hdr, q, -, data, -, rfl, rfl⟩ := hFire
    exact ⟨done, current, by simpa using { h with }⟩
  | writeDataGet =>
    simp only [machine, MemMasterEngine.writeDataGet, firing] at hFire
    obtain ⟨hdr, q, -, rfl, rfl⟩ := hFire
    exact ⟨done, current, by simpa using { h with }⟩

theorem run_inv (run : (machine myId).Run Reads s trace) : Inv myId trace s := by
  refine run.invariant (Inv myId) ?_ fun _ _ _ _ _ => Inv.step
  rintro _ rfl
  exact ⟨[], [], fun _ hr => (by cases hr), Nat.zero_le _, rfl, rfl, rfl, Nat.zero_le _, .nil, rfl, rfl⟩

/-- A read of at most 63 words asks for four bytes for each of them. -/
theorem toNat_burstLen (h : hdr.length.toNat ≤ 63) :
    hdr.request.burstLen.toNat = 4 * hdr.length.toNat := by
  simp only [TLPMemoryIO3DWHeader.request, BitVec.toNat_setWidth, BitVec.toNat_shiftLeft,
    Nat.shiftLeft_eq]
  omega

theorem asked_requests {hdrs : List TLPMemoryIO3DWHeader} (h : ∀ hdr ∈ hdrs, hdr.length.toNat ≤ 63) :
    asked (hdrs.map (·.request)) = (hdrs.map (·.length.toNat)).sum := by
  induction hdrs with
  | nil => rfl
  | cons hdr hdrs ih =>
    obtain ⟨hHdr, hHdrs⟩ := List.forall_mem_cons.mp h
    have hFirst : hdr.request.burstLen.toNat / 4 = hdr.length.toNat := by
      rw [toNat_burstLen hHdr]
      omega
    rw [List.map_cons, List.map_cons, List.sum_cons, ← ih hHdrs, ← hFirst]
    rfl

theorem length_answered {packets : List (List (TLPData 16))} (h : List.Forall₂ (Completion myId) done packets) :
    (done.map (·.2)).flatten.length = ((done.map (·.1)).map (·.length.toNat)).sum := by
  induction h with
  | nil => rfl
  | cons hFirst _ ih =>
    rw [List.map_cons, List.flatten_cons, List.length_append, ih, hFirst.length]
    rfl

/-- The words that the slave still has to return. -/
theorem ReadsInv.missing (h : ReadsInv myId reads sent requests words s done current) :
    asked requests + current.length + s.completionMimo.items.length =
      words.length + (s.readDataFifo.items.map (·.length.toNat)).sum := by
  have hLegal : ∀ hdr ∈ done.map (·.1) ++ s.readDataFifo.items, hdr.length.toNat ≤ 63 := by
    intro hdr hHdr
    exact (h.legal hdr (by rw [h.pipeline]; exact List.mem_append_left _ hHdr)).2
  have hWords := congrArg List.length h.returned
  rw [h.requested, asked_requests hLegal, List.map_append, List.sum_append, ← length_answered h.answered]
  simp only [List.length_append] at hWords
  omega

/-- How far the reads in the module are from being answered. -/
def rank (trace : List Event) (s : MemMasterEngine) : Nat :=
  s.tlpOutFifo.items.length + 2 * s.completionMimo.items.length +
    3 * (asked (trace.filterMap readReq?) - (trace.filterMap readData?).length) +
    (s.readHeaderFifo.items.map fun hdr => 1 + 3 * asked [hdr.request]).sum

theorem advances_requestGet (hOut : s.tlpOutFifo.items ≠ []) :
    (machine myId).Advances Reads read? rank trace s := by
  obtain ⟨tlp, q, hDeq, hItems⟩ := Fifo.exists_deq_of_ne_nil hOut
  refine ⟨.requestGet, _, [.tlpOut tlp], trivial,
    by simp only [machine, requestGet, hDeq]; rfl, rfl, ?_⟩
  simp only [rank, counting, hItems, readReq?, readData?]
  omega

theorem advances_readDataPut (hRoom : s.completionMimo.items.length < 4)
    (hAsked : (trace.filterMap readData?).length < asked (trace.filterMap readReq?)) :
    (machine myId).Advances Reads read? rank trace s := by
  obtain ⟨q, hEnq, hq⟩ := Fifo.exists_enq hRoom 0
  refine ⟨.readDataPut 0, _, [.readData 0], hAsked,
    by simp only [machine, readDataPut, hEnq]; rfl, rfl, ?_⟩
  simp only [rank, counting, hq, readReq?, readData?]
  omega

theorem advances_readReqGet (hHeaders : s.readHeaderFifo.items ≠ [])
    (hRoom : s.readDataFifo.items.length < 8) : (machine myId).Advances Reads read? rank trace s := by
  obtain ⟨hdr, q, hDeq, hItems⟩ := Fifo.exists_deq_of_ne_nil hHeaders
  obtain ⟨r, hEnq, hr⟩ := Fifo.exists_enq hRoom hdr
  refine ⟨.readReqGet, _, [.readReq hdr.request], trivial,
    by simp only [machine, readReqGet, hDeq, some_bind, hEnq]; rfl, rfl, ?_⟩
  simp only [rank, counting, hItems, readReq?, readData?, List.map_cons, List.sum_cons, ReadsInv.asked_append]
  omega

theorem advances_completionHeader (hIdle : s.readInProgress = false) (hData : s.readDataFifo.items ≠ [])
    (hOut : s.tlpOutFifo.items = []) (hWord : s.completionMimo.items ≠ []) :
    (machine myId).Advances Reads read? rank trace s := by
  obtain ⟨hdr, q, hDeq, hItems⟩ := Fifo.exists_deq_of_ne_nil hData
  obtain ⟨word, more, hWords⟩ := List.exists_cons_of_ne_nil hWord
  obtain ⟨mimo, hMimo, hMore⟩ := Fifo.exists_deq hWords
  obtain ⟨out, hEnq, hNew⟩ := Fifo.exists_enq_nil hOut
    ⟨true, hdr.length == 1, s.hitReg, 0xffff, (completionOf myId hdr word).pack⟩
  refine ⟨.completionHeader, _, [], trivial, by
    simp only [machine, completionHeader, hIdle, hDeq, some_bind, hMimo, hEnq]
    rfl, rfl, ?_⟩
  simp only [rank, hNew, hOut, hWords, hMore, counting]
  omega

theorem advances_continuation (hBusy : s.readInProgress = true) (hOut : s.tlpOutFifo.items = [])
    (hData : s.readDataFifo.items ≠ []) (hPositive : 0 < s.completionMimoDeqCount.toNat)
    (hWords : s.completionMimoDeqCount.toNat ≤ s.completionMimo.items.length) :
    (machine myId).Advances Reads read? rank trace s := by
  obtain ⟨mimo, hMimo, hMore⟩ := Fifo.exists_deqN
    (List.take_append_drop s.completionMimoDeqCount.toNat s.completionMimo.items).symm
  rw [List.length_take_of_le hWords] at hMimo
  obtain ⟨out, hEnq, hNew⟩ := Fifo.exists_enq_nil hOut
    { (TLPData.defaultValue : TLPData 16) with
      eof := !s.readBurstCountGreaterThan4
      be := if !s.readBurstCountGreaterThan4 then tlpBe s.readBurstCount.toNat else tlpBe 4
      data := beatData (s.completionMimo.items.take s.completionMimoDeqCount.toNat) fun _ => 0 }
  obtain ⟨queue, hQueue⟩ := Fifo.exists_deqIf ((!s.readBurstCountGreaterThan4) = true) hData
  refine ⟨.continuation fun _ => 0, _, [], trivial, by
    simp only [machine, continuation, hBusy, some_bind, hMimo, hEnq, hQueue]
    rfl, rfl, ?_⟩
  simp only [rank, hNew, hOut, hMore, counting, List.length_drop]
  omega

/-- The packets on the bus answer reads, each of them with its own words. -/
def Answers (myId : BitVec 16) (done : List (TLPMemoryIO3DWHeader × List (BitVec 32)))
    (trace : List Event) : Prop :=
  List.Forall₂ (Completion myId) done ((frame 16).cut (trace.filterMap tlpOut?)).1

/-- Every read is answered, or some action brings an answer closer. -/
theorem Inv.progress (h : Inv myId trace s) :
    (∃ done, Answers myId done trace ∧ done.map (·.1) = trace.filterMap read? ∧
      (done.map (·.2)).flatten = trace.filterMap readData? ∧
      ((frame 16).cut (trace.filterMap tlpOut?)).2 = []) ∨
    (machine myId).Advances Reads read? rank trace s := by
  obtain ⟨done, current, h⟩ := h
  by_cases hOut : s.tlpOutFifo.items = []
  case neg => exact .inr (advances_requestGet hOut)
  have hFront := h.front
  have hMissing := h.missing
  have hBound := s.completionMimo.bound
  unfold Front at hFront
  cases hBusy : s.readInProgress with
  | true =>
    rw [hBusy, if_pos rfl] at hFront
    obtain ⟨hdr, rest, hData, hSending⟩ := hFront
    have hNext := hSending.next
    have hLeft := hSending.left
    have hPositive := hSending.positive
    by_cases hWords : s.completionMimoDeqCount.toNat ≤ s.completionMimo.items.length
    · exact .inr (advances_continuation hBusy hOut (by simp [hData]) (by omega) hWords)
    · rw [hData, List.map_cons, List.sum_cons] at hMissing
      exact .inr (advances_readDataPut (by omega) (by omega))
  | false =>
    rw [hBusy, if_neg Bool.false_ne_true] at hFront
    obtain ⟨rfl, hOpen⟩ := hFront
    cases hData : s.readDataFifo.items with
    | cons hdr rest =>
      have hLegal := (h.legal hdr (by rw [h.pipeline, hData]; simp)).1
      by_cases hWord : s.completionMimo.items = []
      · rw [hData, List.map_cons, List.sum_cons] at hMissing
        rw [hWord, List.length_nil] at hMissing
        exact .inr (advances_readDataPut (by rw [hWord]; decide) (by omega))
      · exact .inr (advances_completionHeader hBusy (by simp [hData]) hOut hWord)
    | nil =>
      by_cases hHeaders : s.readHeaderFifo.items = []
      · left
        have hEmpty : s.completionMimo.items = [] := by
          have := h.bounded
          rw [hData] at hMissing
          simp only [List.length_nil, List.map_nil, List.sum_nil] at hMissing
          apply List.eq_nil_of_length_eq_zero
          omega
        have hAnswered := h.answered
        have hPipeline := h.pipeline
        have hReturned := h.returned
        rw [hOut, List.append_nil] at hAnswered hOpen
        rw [hData, hHeaders, List.append_nil, List.append_nil] at hPipeline
        rw [hEmpty, List.append_nil, List.append_nil] at hReturned
        exact ⟨done, hAnswered, hPipeline.symm, hReturned.symm, hOpen⟩
      · exact .inr (advances_readReqGet hHeaders (by rw [hData]; decide))

end MemMasterEngine

open MemMasterEngine

/-- Every read asks the slave for its words, and is answered by one packet with these
words, in the order of the reads. All reads that have come in can be answered. -/
theorem reads_are_completed {myId : BitVec 16} {s : MemMasterEngine} {trace : List Event}
    (run : (machine myId).Run Reads s trace) :
    trace.filterMap readReq? <+: (trace.filterMap read?).map (·.request) ∧
      (∀ hdr ∈ trace.filterMap read?, hdr.request.burstLen.toNat = 4 * hdr.length.toNat) ∧
      (∃ done, Answers myId done trace ∧ done.map (·.1) <+: trace.filterMap read? ∧
        (done.map (·.2)).flatten <+: trace.filterMap readData?) ∧
      ∃ s' trace', (machine myId).Continues Reads (s, trace) (s', trace') ∧
        trace'.filterMap read? = trace.filterMap read? ∧
        ∃ done, Answers myId done trace' ∧ done.map (·.1) = trace'.filterMap read? ∧
          (done.map (·.2)).flatten = trace'.filterMap readData? ∧
          ((frame 16).cut (trace'.filterMap tlpOut?)).2 = [] := by
  have hInv := run_inv run
  obtain ⟨done, current, h⟩ := id hInv
  refine ⟨?_, fun hdr hHdr => toNat_burstLen (h.legal hdr hHdr).2, ?_, ?_⟩
  · rw [h.requested, h.pipeline]
    exact (List.prefix_append _ _).map _
  · -- the packets that have left the output queue
    obtain ⟨later, hLater⟩ := Frame.cut_mono (F := frame 16)
      (List.prefix_append (trace.filterMap tlpOut?) s.tlpOutFifo.items)
    have hAnswered := h.answered
    rw [← hLater] at hAnswered
    refine ⟨_, List.forall₂_take_append _ _ _ hAnswered, ?_, ?_⟩
    · rw [h.pipeline, List.append_assoc]
      exact ((List.take_prefix _ _).map _).trans (List.prefix_append _ _)
    · rw [h.returned, List.append_assoc]
      exact ((List.take_prefix _ _).map _).flatten.trans (List.prefix_append _ _)
  · exact Machine.exists_drained rank
      (fun _ _ _ _ _ => Inv.step)
      (fun trace' s' h' _ => h'.progress) hInv

/-- A read packet. -/
def readPacket (length : BitVec 10) (tag : BitVec 8) : TLPData 16 :=
  ⟨true, true, 4, 0xfff0, { TLPMemoryIO3DWHeader.defaultValue with length, tag, addr := 0x40 }.pack⟩

/-- A read of six words is answered by three beats and a read of one word by one beat. -/
theorem reads_are_completed_six_and_one :
    ∃ s trace, (machine 0x100).Run Reads s trace ∧
      (trace.filterMap read?).map (·.length) = [6, 1] ∧
      (trace.filterMap tlpOut?).map (·.be) = [0xffff, 0xffff, 0xf000, 0xffff] ∧
      trace.filterMap readReq? <+: (trace.filterMap read?).map (·.request) ∧
      ∃ done, Answers 0x100 done trace ∧ (done.map (·.2)).flatten <+: [10, 11, 12, 13, 14, 15, 16] := by
  obtain ⟨s, trace, hRun, hResult⟩ := Machine.exists_run
    (show ((machine 0x100).exec Reads
      [.responsePut (readPacket 6 1), .responsePut (readPacket 1 2), .readReqGet, .readDataPut 10,
        .completionHeader, .readDataPut 11, .readDataPut 12, .readReqGet, .readDataPut 13,
        .readDataPut 14, .continuation fun _ => 0, .readDataPut 15, .readDataPut 16,
        .continuation fun _ => 0, .completionHeader, .requestGet, .requestGet, .requestGet, .requestGet]
      (fresh, [])).map (fun d => ((d.2.filterMap read?).map (·.length), (d.2.filterMap tlpOut?).map (·.be),
        d.2.filterMap readData?)) =
          some ([6, 1], [0xffff, 0xffff, 0xf000, 0xffff], [10, 11, 12, 13, 14, 15, 16]) by decide +kernel) rfl
  simp only [Prod.mk.injEq] at hResult
  obtain ⟨hRequests, -, ⟨done, hAnswers, -, hWords⟩, -⟩ := reads_are_completed hRun
  exact ⟨s, trace, hRun, hResult.1, hResult.2.1, hRequests, done, hAnswers, hResult.2.2 ▸ hWords⟩

end Connectal.Pcie
