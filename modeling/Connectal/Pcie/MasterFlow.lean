import Connectal.Pcie.MasterReads

/-! Reads and writes of one word at `mkMemMasterEngine`. The method that takes packets is
always ready: a packet that finds the queue of headers full is dropped, and a packet that
finds room is never lost. -/
namespace Connectal.Pcie

open Layout Rules

/-- What the slave is told to write for a packet. -/
def TLPMemoryIO3DWHeader.writeWord (hdr : TLPMemoryIO3DWHeader) : MemData (BitVec 32) :=
  ⟨byteSwap hdr.data, hdr.tag.setWidth 6, true⟩

namespace MemMasterEngine

/-- The header of a write packet. -/
def write? : Event → Option TLPMemoryIO3DWHeader
  | .tlpIn tlp =>
    if (TLPMemoryIO3DWHeader.unpack tlp.data).format = .memRead3dwNoData then none
    else some (TLPMemoryIO3DWHeader.unpack tlp.data)
  | _ => none

def tlpIn? : Event → Option (TLPData 16)
  | .tlpIn tlp => some tlp
  | _ => none

def writeReq? : Event → Option (PhysMemRequest 32)
  | .writeReq req => some req
  | _ => none

def writeData? : Event → Option (MemData (BitVec 32))
  | .writeData data => some data
  | _ => none

/-- Reads and writes of one word with short addresses, at any rate, and a slave that
returns the words that it was asked for. -/
def OneWord (trace : List Event) (_ : MemMasterEngine) : Action → Prop
  | .responsePut tlp =>
    let hdr := TLPMemoryIO3DWHeader.unpack tlp.data
    (hdr.format = .memRead3dwNoData ∨ hdr.format = .memWrite3dwData) ∧ hdr.length = 1
  | .readDataPut _ => (trace.filterMap readData?).length < (trace.filterMap readReq?).length
  | _ => True

/-- The queue that a packet goes to has room. -/
def HasRoom (s : MemMasterEngine) : Action → Prop
  | .responsePut tlp =>
    if (TLPMemoryIO3DWHeader.unpack tlp.data).format = .memRead3dwNoData then
      s.readHeaderFifo.items.length < 8
    else s.writeHeaderFifo.items.length < 8
  | _ => True

/-- Packets are only offered while their queue has room. -/
def Unhurried (trace : List Event) (s : MemMasterEngine) (action : Action) : Prop :=
  OneWord trace s action ∧ HasRoom s action

instance (trace : List Event) (s : MemMasterEngine) (action : Action) : Decidable (OneWord trace s action) :=
  match action with
  | .responsePut tlp => inferInstanceAs (Decidable
      (((TLPMemoryIO3DWHeader.unpack tlp.data).format = .memRead3dwNoData ∨ _) ∧ _ = _))
  | .readDataPut _ => inferInstanceAs (Decidable (_ < _))
  | .requestGet | .completionHeader | .continuation _ | .readReqGet | .writeReqGet | .writeDataGet =>
    .isTrue trivial

instance (s : MemMasterEngine) (action : Action) : Decidable (HasRoom s action) :=
  match action with
  | .responsePut tlp => inferInstanceAs (Decidable
      (if (TLPMemoryIO3DWHeader.unpack tlp.data).format = .memRead3dwNoData then _ < _ else _ < _))
  | .requestGet | .completionHeader | .continuation _ | .readReqGet | .readDataPut _ | .writeReqGet
  | .writeDataGet => .isTrue trivial

instance (trace : List Event) (s : MemMasterEngine) (action : Action) : Decidable (Unhurried trace s action) :=
  inferInstanceAs (Decidable (_ ∧ _))

/-- A packet of one beat that answers a read with a word. -/
structure Completes (myId : BitVec 16) (x : TLPMemoryIO3DWHeader × BitVec 32) (tlp : TLPData 16) : Prop where
  sof : tlp.sof = true
  eof : tlp.eof = true
  be : tlp.be = 0xffff
  header : TLPCompletionHeader.unpack tlp.data = completionOf myId x.1 x.2

variable {myId : BitVec 16} {s s' : MemMasterEngine} {events : List Event}
  {reads writes written : List TLPMemoryIO3DWHeader} {sent : List (TLPData 16)}
  {requests writeReqs : List (PhysMemRequest 32)} {words : List (BitVec 32)}
  {datas : List (MemData (BitVec 32))} {done : List (TLPMemoryIO3DWHeader × BitVec 32)}

/-- Every read that found room is answered, asked for, or waiting. -/
structure ReadFlow (myId : BitVec 16) (reads : List TLPMemoryIO3DWHeader) (sent : List (TLPData 16))
    (requests : List (PhysMemRequest 32)) (words : List (BitVec 32)) (s : MemMasterEngine)
    (done : List (TLPMemoryIO3DWHeader × BitVec 32)) : Prop where
  single : ∀ hdr ∈ reads, hdr.length = 1
  pipeline : reads = done.map (·.1) ++ s.readDataFifo.items ++ s.readHeaderFifo.items
  requested : requests = (done.map (·.1) ++ s.readDataFifo.items).map (·.request)
  returned : words = done.map (·.2) ++ s.completionMimo.items
  bounded : words.length ≤ requests.length
  answered : List.Forall₂ (Completes myId) done (sent ++ s.tlpOutFifo.items)
  idle : s.readInProgress = false

/-- Every write that found room is done, asked for, or waiting. -/
structure WriteFlow (writes : List TLPMemoryIO3DWHeader) (writeReqs : List (PhysMemRequest 32))
    (datas : List (MemData (BitVec 32))) (s : MemMasterEngine)
    (written : List TLPMemoryIO3DWHeader) : Prop where
  pipeline : writes = written ++ s.writeDataFifo.items ++ s.writeHeaderFifo.items
  requested : writeReqs = (written ++ s.writeDataFifo.items).map (·.request)
  sent : datas = written.map (·.writeWord)

variable {tlp : TLPData 16}

theorem ReadFlow.completionHeader (h : ReadFlow myId reads sent requests words s done)
    (hWrites : WriteFlow writes writeReqs datas s written)
    (hFire : MemMasterEngine.completionHeader myId s = some (s', events)) :
    events = [] ∧ ∃ x, ReadFlow myId reads sent requests words s' (done ++ [x]) ∧
      WriteFlow writes writeReqs datas s' written := by
  simp only [MemMasterEngine.completionHeader, firing] at hFire
  obtain ⟨-, hdr, rest, hHdr, word, mimo, hWord, out, ⟨-, hOut⟩, rfl, rfl⟩ := hFire
  have hOne : hdr.length = 1 := h.single hdr (by rw [h.pipeline, hHdr]; simp)
  refine ⟨rfl, (hdr, word), ?_, { hWrites with }⟩
  simp only [hOne, sub_self, if_true]
  refine { h with pipeline := ?_, requested := ?_, returned := ?_, answered := ?_, idle := rfl }
  · rw [h.pipeline, hHdr]
    simp
  · rw [h.requested, hHdr]
    simp
  · rw [h.returned, hWord]
    simp
  · show List.Forall₂ _ _ (sent ++ out.items)
    rw [hOut, ← List.append_assoc]
    refine List.rel_append h.answered (.cons ⟨rfl, ?_, rfl, ?_⟩ .nil)
    · simp [hOne]
    · exact TLPCompletionHeader.unpack_pack _

/-- What the events of a run show about the reads and writes that found room. -/
def Flow (myId : BitVec 16) (reads writes : List TLPMemoryIO3DWHeader) (trace : List Event)
    (s : MemMasterEngine) : Prop :=
  ∃ done written, ReadFlow myId reads (trace.filterMap tlpOut?) (trace.filterMap readReq?)
      (trace.filterMap readData?) s done ∧
    WriteFlow writes (trace.filterMap writeReq?) (trace.filterMap writeData?) s written

variable {trace : List Event} {action : Action}

/-- An action that takes no packet. -/
def TakesNone : Action → Prop
  | .responsePut _ => False
  | _ => True

attribute [local simp] List.filterMap_cons tlpOut? readReq? readData? writeReq? writeData? read? write?

theorem Flow.step (h : Flow myId reads writes trace s) (hOk : OneWord trace s action)
    (hNone : TakesNone action) (hFire : (machine myId).fire action s = some (s', events)) :
    events.filterMap tlpIn? = [] ∧ Flow myId reads writes (trace ++ events) s' := by
  obtain ⟨done, written, h, hWrites⟩ := h
  cases action with
  | responsePut tlp => exact absurd hNone id
  | requestGet =>
    simp only [machine, MemMasterEngine.requestGet, firing] at hFire
    obtain ⟨tlp, q, hq, rfl, rfl⟩ := hFire
    have hAnswered := h.answered
    rw [hq, List.append_cons] at hAnswered
    exact ⟨rfl, done, written, by simpa using { h with answered := hAnswered }, by simpa using { hWrites with }⟩
  | completionHeader =>
    obtain ⟨rfl, x, hReads', hWrites'⟩ := h.completionHeader hWrites hFire
    exact ⟨rfl, done ++ [x], written, by simpa using hReads', by simpa using hWrites'⟩
  | continuation stale =>
    -- reads of one word have no further beats
    simp [machine, MemMasterEngine.continuation, h.idle, guard] at hFire
  | readReqGet =>
    simp only [machine, MemMasterEngine.readReqGet, firing] at hFire
    obtain ⟨hdr, q, hHdr, data, ⟨-, hData⟩, rfl, rfl⟩ := hFire
    refine ⟨rfl, done, written, ⟨h.single, ?_, ?_, ?_, ?_, ?_, h.idle⟩, by simpa using { hWrites with }⟩
    · rw [h.pipeline, hHdr, hData]
      simp
    · simp [h.requested, hData]
    · simpa using h.returned
    · have := h.bounded
      simp
      omega
    · simpa using h.answered
  | readDataPut word =>
    simp only [machine, MemMasterEngine.readDataPut, firing] at hFire
    obtain ⟨q, ⟨-, hq⟩, rfl, rfl⟩ := hFire
    refine ⟨rfl, done, written, ⟨h.single, h.pipeline, ?_, ?_, ?_, ?_, h.idle⟩, by simpa using { hWrites with }⟩
    · simpa using h.requested
    · simp [h.returned, hq]
    · simpa using Nat.succ_le_of_lt hOk
    · simpa using h.answered
  | writeReqGet =>
    simp only [machine, MemMasterEngine.writeReqGet, firing] at hFire
    obtain ⟨hdr, q, hHdr, data, ⟨-, hData⟩, rfl, rfl⟩ := hFire
    refine ⟨rfl, done, written, by simpa using { h with }, ?_, ?_, by simpa using hWrites.sent⟩
    · rw [hWrites.pipeline, hHdr, hData]
      simp
    · simp [hWrites.requested, hData]
  | writeDataGet =>
    simp only [machine, MemMasterEngine.writeDataGet, firing] at hFire
    obtain ⟨hdr, q, hHdr, rfl, rfl⟩ := hFire
    refine ⟨rfl, done, written ++ [hdr], by simpa using { h with }, ?_, ?_, ?_⟩
    · rw [hWrites.pipeline, hHdr]
      simp
    · simp [hWrites.requested, hHdr]
    · simp [hWrites.sent, TLPMemoryIO3DWHeader.writeWord]

/-- A packet joins the reads or the writes if it finds room, and is dropped otherwise. -/
theorem Flow.put (h : Flow myId reads writes trace s) (hOk : OneWord trace s (.responsePut tlp))
    (hFire : responsePut tlp s = some (s', events)) :
    events = [.tlpIn tlp] ∧
      if HasRoom s (.responsePut tlp) then
        Flow myId (reads ++ events.filterMap read?) (writes ++ events.filterMap write?) (trace ++ events) s'
      else Flow myId reads writes (trace ++ events) s' := by
  obtain ⟨done, written, h, hWrites⟩ := h
  by_cases hRead : (TLPMemoryIO3DWHeader.unpack tlp.data).format = .memRead3dwNoData
  · simp only [responsePut, hRead, if_true, firing] at hFire
    obtain ⟨rfl, rfl⟩ := hFire
    simp only [HasRoom, hRead, if_true, true_and]
    split
    · next hRoom =>
      obtain ⟨q, hEnq, hq⟩ := Fifo.exists_enq hRoom (TLPMemoryIO3DWHeader.unpack tlp.data)
      have hSingle := List.forall_mem_append.mpr ⟨h.single, List.forall_mem_singleton.mpr hOk.2⟩
      have hPipeline := congrArg (· ++ [TLPMemoryIO3DWHeader.unpack tlp.data]) h.pipeline
      refine ⟨done, written, ?_, by simpa [hRead] using { hWrites with }⟩
      simpa [hRead, hEnq] using { h with single := hSingle, pipeline := by simpa [hq] using hPipeline }
    · next hFull =>
      have hNone : s.readHeaderFifo.enq (TLPMemoryIO3DWHeader.unpack tlp.data) = none := dif_neg hFull
      exact ⟨done, written, by simpa [hNone] using { h with }, by simpa using { hWrites with }⟩
  · simp only [responsePut, hRead, if_false, firing] at hFire
    obtain ⟨rfl, rfl⟩ := hFire
    simp only [HasRoom, hRead, if_false, true_and]
    split
    · next hRoom =>
      obtain ⟨q, hEnq, hq⟩ := Fifo.exists_enq hRoom (TLPMemoryIO3DWHeader.unpack tlp.data)
      have hPipeline := congrArg (· ++ [TLPMemoryIO3DWHeader.unpack tlp.data]) hWrites.pipeline
      refine ⟨done, written, by simpa [hRead] using { h with }, ?_⟩
      simpa [hRead, hEnq] using { hWrites with pipeline := by simpa [hq] using hPipeline }
    · next hFull =>
      have hNone : s.writeHeaderFifo.enq (TLPMemoryIO3DWHeader.unpack tlp.data) = none := dif_neg hFull
      exact ⟨done, written, by simpa using { h with }, by simpa [hNone] using { hWrites with }⟩

theorem exists_responsePut (s : MemMasterEngine) (tlp : TLPData 16) :
    ∃ s', responsePut tlp s = some (s', [.tlpIn tlp]) := by
  dsimp only [responsePut]
  split <;> exact ⟨_, rfl⟩

theorem flow_fresh : Flow myId [] [] [] fresh :=
  ⟨[], [], ⟨fun _ h => (by cases h), rfl, rfl, rfl, Nat.le_refl 0, .nil, rfl⟩, rfl, rfl, rfl⟩

/-- No packet is dropped. -/
def Kept (myId : BitVec 16) (trace : List Event) (s : MemMasterEngine) : Prop :=
  Flow myId (trace.filterMap read?) (trace.filterMap write?) trace s

theorem filterMap_of_tlpIn?_eq_nil {events : List Event} (h : events.filterMap tlpIn? = []) :
    events.filterMap read? = [] ∧ events.filterMap write? = [] := by
  rw [List.filterMap_eq_nil_iff] at h
  constructor <;> rw [List.filterMap_eq_nil_iff] <;> intro e he <;>
    cases e with
    | tlpIn tlp => exact absurd (h _ he) (by simp [tlpIn?])
    | _ => rfl

theorem Kept.step (h : Kept myId trace s) (hOk : Unhurried trace s action)
    (hFire : (machine myId).fire action s = some (s', events)) : Kept myId (trace ++ events) s' := by
  simp only [Kept, List.filterMap_append]
  have hOther : TakesNone action → Flow myId (trace.filterMap read? ++ events.filterMap read?)
      (trace.filterMap write? ++ events.filterMap write?) (trace ++ events) s' := fun hNone => by
    obtain ⟨hTlps, h'⟩ := Flow.step h hOk.1 hNone hFire
    obtain ⟨hNoRead, hNoWrite⟩ := filterMap_of_tlpIn?_eq_nil hTlps
    rwa [hNoRead, hNoWrite, List.append_nil, List.append_nil]
  cases action with
  | responsePut tlp =>
    obtain ⟨-, h'⟩ := Flow.put h hOk.1 hFire
    rwa [if_pos hOk.2] at h'
  | _ => exact hOther trivial

theorem run_kept (run : (machine myId).Run Unhurried s trace) : Kept myId trace s := by
  refine run.invariant (Kept myId) ?_ fun _ _ _ _ _ => Kept.step
  rintro _ rfl
  exact flow_fresh

/-- How far the packets in the module are from being answered or written. -/
def flowRank (trace : List Event) (s : MemMasterEngine) : Nat :=
  s.tlpOutFifo.items.length + 2 * s.completionMimo.items.length +
    3 * ((trace.filterMap readReq?).length - (trace.filterMap readData?).length) +
    4 * s.readHeaderFifo.items.length + s.writeDataFifo.items.length + 2 * s.writeHeaderFifo.items.length

/-- What the module sends belongs to the packets that came in, in their order: each packet
to the host answers one read with its own word, and each write is made once. -/
def InOrder (myId : BitVec 16) (trace : List Event) : Prop :=
  (∃ done, List.Forall₂ (Completes myId) done (trace.filterMap tlpOut?) ∧
    done.map (·.1) <+: trace.filterMap read? ∧ done.map (·.2) <+: trace.filterMap readData?) ∧
  trace.filterMap readReq? <+: (trace.filterMap read?).map (·.request) ∧
  trace.filterMap writeReq? <+: (trace.filterMap write?).map (·.request) ∧
  trace.filterMap writeData? <+: (trace.filterMap write?).map (·.writeWord)

/-- Every read has been answered and every write has been made. -/
def Settled (myId : BitVec 16) (trace : List Event) : Prop :=
  (∃ done, List.Forall₂ (Completes myId) done (trace.filterMap tlpOut?) ∧
    done.map (·.1) = trace.filterMap read? ∧ done.map (·.2) = trace.filterMap readData?) ∧
  trace.filterMap readReq? = (trace.filterMap read?).map (·.request) ∧
  trace.filterMap writeReq? = (trace.filterMap write?).map (·.request) ∧
  trace.filterMap writeData? = (trace.filterMap write?).map (·.writeWord)

theorem Kept.inOrder (h : Kept myId trace s) : InOrder myId trace := by
  obtain ⟨done, written, hReads, hWrites⟩ := h
  refine ⟨?_, ?_, ?_, ?_⟩
  · -- the packets that have left the output queue
    refine ⟨_, List.forall₂_take_append _ _ _ hReads.answered, ?_, ?_⟩
    · rw [hReads.pipeline, List.append_assoc]
      exact ((List.take_prefix _ _).map _).trans (List.prefix_append _ _)
    · rw [hReads.returned]
      exact ((List.take_prefix _ _).map _).trans (List.prefix_append _ _)
  · rw [hReads.requested, hReads.pipeline]
    exact (List.prefix_append _ _).map _
  · rw [hWrites.requested, hWrites.pipeline]
    exact (List.prefix_append _ _).map _
  · rw [hWrites.sent, hWrites.pipeline, List.append_assoc]
    exact (List.prefix_append _ _).map _

theorem takes_tlpOut {rest : List (TLPData 16)} (hItems : s.tlpOutFifo.items = tlp :: rest) :
    (machine myId).Advances Unhurried tlpIn? flowRank trace s := by
  obtain ⟨q, hDeq, hq⟩ := Fifo.exists_deq hItems
  refine ⟨.requestGet, _, [.tlpOut tlp], ⟨trivial, trivial⟩,
    by simp only [machine, requestGet, hDeq]; rfl, rfl, ?_⟩
  simp only [flowRank, counting, hq, hItems, readReq?, readData?]
  omega

variable {rest : List TLPMemoryIO3DWHeader} {hdr : TLPMemoryIO3DWHeader}

theorem answers_read {word : BitVec 32}
    {more : List (BitVec 32)} (hIdle : s.readInProgress = false) (hOut : s.tlpOutFifo.items = [])
    (hData : s.readDataFifo.items = hdr :: rest) (hWords : s.completionMimo.items = word :: more) :
    (machine myId).Advances Unhurried tlpIn? flowRank trace s := by
  obtain ⟨q, hDeq, -⟩ := Fifo.exists_deq hData
  obtain ⟨mimo, hMimo, hMore⟩ := Fifo.exists_deq hWords
  obtain ⟨out, hEnq, hNew⟩ := Fifo.exists_enq_nil hOut
    ⟨true, hdr.length == 1, s.hitReg, 0xffff, (completionOf myId hdr word).pack⟩
  refine ⟨.completionHeader, _, [], ⟨trivial, trivial⟩, by
    simp only [machine, completionHeader, hIdle, hDeq, some_bind, hMimo, hEnq]
    rfl, rfl, ?_⟩
  simp only [flowRank, hNew, hOut, hWords, hMore, counting]
  omega

theorem slave_answers (hMimo : s.completionMimo.items = [])
    (hAsked : (trace.filterMap readData?).length < (trace.filterMap readReq?).length) :
    (machine myId).Advances Unhurried tlpIn? flowRank trace s := by
  obtain ⟨q, hEnq, hq⟩ := Fifo.exists_enq_nil hMimo 0
  refine ⟨.readDataPut 0, _, [.readData 0], ⟨hAsked, trivial⟩,
    by simp only [machine, readDataPut, hEnq]; rfl, rfl, ?_⟩
  simp only [flowRank, counting, hq, hMimo, readReq?, readData?]
  omega

theorem asks_slave (hHeaders : s.readHeaderFifo.items = hdr :: rest) (hData : s.readDataFifo.items = []) :
    (machine myId).Advances Unhurried tlpIn? flowRank trace s := by
  obtain ⟨q, hDeq, hq⟩ := Fifo.exists_deq hHeaders
  obtain ⟨r, hEnq, hr⟩ := Fifo.exists_enq_nil hData hdr
  refine ⟨.readReqGet, _, [.readReq hdr.request],
    ⟨trivial, trivial⟩,
    by simp only [machine, readReqGet, hDeq, some_bind, hEnq]; rfl, rfl, ?_⟩
  simp only [flowRank, counting, hq, hHeaders, readReq?, readData?]
  omega

theorem asks_write (hHeaders : s.writeHeaderFifo.items = hdr :: rest) (hData : s.writeDataFifo.items = []) :
    (machine myId).Advances Unhurried tlpIn? flowRank trace s := by
  obtain ⟨q, hDeq, hq⟩ := Fifo.exists_deq hHeaders
  obtain ⟨r, hEnq, hr⟩ := Fifo.exists_enq_nil hData hdr
  refine ⟨.writeReqGet, _, [.writeReq hdr.request],
    ⟨trivial, trivial⟩,
    by simp only [machine, writeReqGet, hDeq, some_bind, hEnq]; rfl, rfl, ?_⟩
  simp only [flowRank, counting, hq, hr, hData, hHeaders, readReq?, readData?]
  omega

theorem makes_write (hData : s.writeDataFifo.items = hdr :: rest) :
    (machine myId).Advances Unhurried tlpIn? flowRank trace s := by
  obtain ⟨q, hDeq, hq⟩ := Fifo.exists_deq hData
  refine ⟨.writeDataGet, _, [.writeData hdr.writeWord], ⟨trivial, trivial⟩,
    by simp only [machine, writeDataGet, hDeq]; rfl, rfl, ?_⟩
  simp only [flowRank, counting, hq, hData, readReq?, readData?]
  omega

/-- Everything is settled, or some action brings it closer. -/
theorem Kept.progress (h : Kept myId trace s) :
    Settled myId trace ∨ (machine myId).Advances Unhurried tlpIn? flowRank trace s := by
  obtain ⟨done, written, hReads, hWrites⟩ := h
  have hRequested := congrArg List.length hReads.requested
  have hReturned := congrArg List.length hReads.returned
  have hBounded := hReads.bounded
  simp only [List.length_map, List.length_append] at hRequested hReturned
  cases hOut : s.tlpOutFifo.items with
  | cons tlp rest => exact .inr (takes_tlpOut hOut)
  | nil =>
  cases hData : s.readDataFifo.items with
  | cons hdr rest =>
    cases hMimo : s.completionMimo.items with
    | cons word more => exact .inr (answers_read hReads.idle hOut hData hMimo)
    | nil =>
      rw [hData, List.length_cons] at hRequested
      rw [hMimo, List.length_nil] at hReturned
      exact .inr (slave_answers hMimo (by omega))
  | nil =>
  cases hHeaders : s.readHeaderFifo.items with
  | cons hdr rest => exact .inr (asks_slave hHeaders hData)
  | nil =>
  cases hWrite : s.writeDataFifo.items with
  | cons hdr rest => exact .inr (makes_write hWrite)
  | nil =>
  cases hWaiting : s.writeHeaderFifo.items with
  | cons hdr rest => exact .inr (asks_write hWaiting hWrite)
  | nil =>
    have hMimo : s.completionMimo.items = [] := by
      rw [hData, List.length_nil] at hRequested
      exact List.eq_nil_of_length_eq_zero (by omega)
    obtain ⟨-, hPipeline, hAsked, hWords, -, hAnswered, -⟩ := hReads
    obtain ⟨hWPipeline, hWAsked, hWSent⟩ := hWrites
    rw [hData, hHeaders, List.append_nil, List.append_nil] at hPipeline
    rw [hData, List.append_nil] at hAsked
    rw [hMimo, List.append_nil] at hWords
    rw [hOut, List.append_nil] at hAnswered
    rw [hWrite, hWaiting, List.append_nil, List.append_nil] at hWPipeline
    rw [hWrite, List.append_nil] at hWAsked
    refine .inl ⟨⟨done, hAnswered, hPipeline.symm, hWords.symm⟩, ?_, ?_, ?_⟩
    · rw [hAsked, hPipeline]
    · rw [hWAsked, hWPipeline]
    · rw [hWSent, hWPipeline]

/-- A write packet. -/
def writePacket (tag : BitVec 8) (data : BitVec 32) : TLPData 16 :=
  ⟨true, true, 4, 0xffff, { TLPMemoryIO3DWHeader.defaultValue with
    format := .memWrite3dwData, length := 1, tag, addr := 0x40, data }.pack⟩

theorem Flow.sent_le (h : Flow myId reads writes trace s) : (trace.filterMap tlpOut?).length ≤ reads.length := by
  obtain ⟨done, -, hReads, -⟩ := h
  have hPipeline := congrArg List.length hReads.pipeline
  have hAnswered := hReads.answered.length_eq
  simp only [List.length_append, List.length_map] at hPipeline hAnswered
  omega

end MemMasterEngine

open MemMasterEngine

/-- In every run in which each packet is offered while its queue of headers has room, at
any rate otherwise, what the module sends belongs to the packets in their order, and all
packets that have come in can be answered or written without another one. -/
theorem offered_tlps_are_kept {myId : BitVec 16} {s : MemMasterEngine} {trace : List Event}
    (run : (machine myId).Run Unhurried s trace) :
    InOrder myId trace ∧
      ∃ s' trace', (machine myId).Continues Unhurried (s, trace) (s', trace') ∧
        trace'.filterMap tlpIn? = trace.filterMap tlpIn? ∧ Settled myId trace' := by
  have hKept := run_kept run
  exact ⟨hKept.inOrder, Machine.exists_drained flowRank
    (fun _ _ _ _ _ => Kept.step)
    (fun trace' s' h' _ => h'.progress) hKept⟩

/-- A read and two writes that the slave has not taken yet. -/
theorem offered_tlps_are_kept_three :
    ∃ s trace, (machine 0x100).Run Unhurried s trace ∧ (trace.filterMap tlpIn?).length = 3 ∧
      ∃ s' trace', (machine 0x100).Continues Unhurried (s, trace) (s', trace') ∧
        (trace'.filterMap tlpIn?).length = 3 ∧ Settled 0x100 trace' := by
  obtain ⟨s, trace, hRun, hResult⟩ := Machine.exists_run
    (show ((machine 0x100).exec Unhurried
      [.responsePut (readPacket 1 1), .responsePut (MemMasterEngine.writePacket 2 7), .responsePut (MemMasterEngine.writePacket 3 8)]
      (fresh, [])).map (fun d => (d.2.filterMap tlpIn?).length) = some 3 by decide +kernel) rfl
  obtain ⟨-, s', trace', path, hSame, hSettled⟩ := offered_tlps_are_kept hRun
  exact ⟨s, trace, hRun, hResult, s', trace', path, hSame ▸ hResult, hSettled⟩

/-- Nine reads that come in before the slave takes the first one. -/
theorem ninth_tlp_is_lost :
    ∃ s trace, (machine 0x100).Run OneWord s trace ∧ (trace.filterMap read?).length = 9 ∧
      ∀ s' trace', (machine 0x100).Continues (fun t s a => OneWord t s a ∧ TakesNone a) (s, trace) (s', trace') →
        (trace'.filterMap read?).length = 9 ∧ (trace'.filterMap tlpOut?).length ≤ 8 := by
  obtain ⟨s, trace, hRun, hResult⟩ := Machine.exists_run
    (show ((machine 0x100).exec Unhurried (List.replicate 8 (.responsePut (readPacket 1 1)))
      (fresh, [])).map (fun d => (d.1.readHeaderFifo.items.length, (d.2.filterMap read?).length)) =
        some (8, 8) by decide +kernel) rfl
  obtain ⟨hFull, hEight⟩ := Prod.mk.inj hResult
  have hRead : (TLPMemoryIO3DWHeader.unpack (readPacket 1 1).data).format = .memRead3dwNoData := by
    decide +kernel
  have hOk : OneWord trace s (.responsePut (readPacket 1 1)) := ⟨.inl hRead, by decide +kernel⟩
  have hNoRoom : ¬ HasRoom s (.responsePut (readPacket 1 1)) := by
    simp only [HasRoom, hRead, if_true]
    exact Nat.not_lt.mpr (Nat.le_of_eq hFull.symm)
  obtain ⟨s', hFire⟩ := exists_responsePut s (readPacket 1 1)
  obtain ⟨-, hFlow⟩ := Flow.put (run_kept hRun) hOk hFire
  rw [if_neg hNoRoom] at hFlow
  have hNine : ((trace ++ [Event.tlpIn (readPacket 1 1)]).filterMap read?).length = 9 := by
    have hSeen : read? (.tlpIn (readPacket 1 1)) =
        some (TLPMemoryIO3DWHeader.unpack (readPacket 1 1).data) := by
      rw [read?, if_pos hRead]
    rw [List.filterMap_append, List.length_append, hEight, List.filterMap_cons_some hSeen]
    rfl
  have hRun' : (machine 0x100).Run OneWord s trace := hRun.weaken fun _ _ _ hOk => hOk.1
  refine ⟨s', _, hRun'.next _ hOk hFire, hNine, fun s'' trace'' path => ?_⟩
  obtain ⟨hReads, hLast⟩ := path.invariant
    (fun t s => (t.filterMap read?).length = 9 ∧ Flow 0x100 (trace.filterMap read?) (trace.filterMap write?) t s)
    (fun t s action s' events h hOk hFire => by
      obtain ⟨hNone, h'⟩ := h.2.step hOk.1 hOk.2 hFire
      refine ⟨?_, h'⟩
      rw [List.filterMap_append, (filterMap_of_tlpIn?_eq_nil hNone).1, List.append_nil, h.1])
    ⟨hNine, hFlow⟩
  exact ⟨hReads, hEight ▸ hLast.sent_le⟩

end Connectal.Pcie
